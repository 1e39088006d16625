import Zelr.Libc.Calls

/-!
# Memory is handed out once

Runs of a program that asks for memory, gives it back and writes in what it holds.
-/

namespace Zelr.Libc

open Zelr.Heap (HDR Blk endOf placed linkTo Apart Cut Held Tracks Payload placed_bounds placed_apart mem_placed_focus
  placed_marked exists_focus endOf_focus mem_owned owned_append owned_cons_free payload_disjoint)

/-! ## Runs -/

/-- The heap, and what each pointer that was handed out was asked to hold. -/
structure Sys where
  heap : Heap
  live : Nat → Option Nat

/-- With each request goes whether the kernel will have memory for it. -/
inductive Op
  | malloc (n : UInt64) (granted : Bool)
  | calloc (count size : UInt64) (granted : Bool)
  | realloc (p : Nat) (n : UInt64) (granted : Bool)
  | free (p : Nat)
  | write (p off : Nat) (v : UInt8)
  deriving DecidableEq

/-- What is given back, or made larger, or written to, is what is held. -/
def Legal (s : Sys) : Op → Prop
  | .malloc _ _ | .calloc _ _ _ => True
  | .realloc p _ _ | .free p => p = 0 ∨ ∃ n, s.live p = some n
  | .write p off _ => ∃ n, s.live p = some n ∧ off < n

def given (live : Nat → Option Nat) (p n : Nat) : Nat → Option Nat :=
  if p = 0 then live else Function.update live p (some n)

def step (sp : Space) (s : Sys) : Op → Sys
  | .malloc n granted =>
    let r := malloc sp granted n.toNat s.heap
    ⟨r.2, given s.live r.1 n.toNat⟩
  | .calloc count size granted =>
    let r := calloc sp granted count.toNat size.toNat s.heap
    ⟨r.2, given s.live r.1 (count.toNat * size.toNat)⟩
  | .realloc p n granted =>
    let r := realloc sp granted p n.toNat s.heap
    if p ≠ 0 ∧ n = 0 then ⟨r.2, Function.update s.live p none⟩
    else ⟨r.2, if r.1 = 0 then s.live else Function.update (Function.update s.live p none) r.1 (some n.toNat)⟩
  | .free p => ⟨free p s.heap, Function.update s.live p none⟩
  | .write p off v => { s with heap := { s.heap with mem := Function.update s.heap.mem (p + off) v } }

/-- The heap grows only behind a free last block, and no length wraps. -/
def Fair (sp : Space) (s : Sys) : Op → Prop
  | .malloc n granted => GrowsWell sp granted n.toNat s.heap
  | .calloc count size granted =>
    count.toNat * size.toNat < 2 ^ 64 → GrowsWell sp granted (count.toNat * size.toNat) s.heap
  | .realloc p n granted =>
    (p ≠ 0 → n.toNat ≤ 2 ^ 64 - 16) ∧
      (p = 0 ∨ (block s.heap.mem (p - HDR)).size < roundUp n.toNat → GrowsWell sp granted n.toNat s.heap)
  | .free _ | .write _ _ _ => True

inductive Run (sp : Space) : Sys → Prop
  | start (m : Mem) (errno : Nat) : Run sp ⟨⟨m, 0, sp.base, errno⟩, fun _ => none⟩
  | step {s op} : Run sp s → Legal s op → Fair sp s op → Run sp (step sp s op)

/-! ## The invariant -/

/-- The blocks are the heap's, and the ones that are held are the ones that were handed out. -/
structure Good (sp : Space) (s : Sys) (bs : List Blk) : Prop where
  shape : Shape sp s.heap bs
  live : Tracks s.live sp.base bs

/-- The bytes that others than the holder of `p` hold. -/
def Others (s : Sys) (p x : Nat) : Prop := ∃ q n, s.live q = some n ∧ q ≠ p ∧ q ≤ x ∧ x < q + n

section Runs

variable {sp : Space} {s : Sys} {bs : List Blk} {h h' : Heap} {live : Nat → Option Nat} {n p : Nat} {granted : Bool}

theorem Good.held (hg : Good sp s bs) (hlive : s.live p = some n) :
    ∃ xs b ys, bs = xs ++ b :: ys ∧ b.owner = some n ∧ p = endOf sp.base xs + HDR ∧ n ≤ b.size := by
  obtain ⟨a, rfl, hown⟩ := (hg.live p n).mp hlive
  obtain ⟨b, hmem, hb⟩ := mem_owned.mp hown
  obtain ⟨xs, ys, rfl, ha⟩ := exists_focus hmem
  exact ⟨xs, b, ys, rfl, hb, congrArg (· + HDR) ha, hg.shape.roomy _ hmem n hb⟩

variable {x k : Nat} {xs ys : List Blk} {r : Nat × Heap}

theorem Good.held_bytes (hg : Good sp s bs) (hlive : s.live p = some n) (hlo : p ≤ x) (hhi : x < p + n) :
    Held sp.base bs x := by
  obtain ⟨xs, b, ys, rfl, hb, rfl, hroom⟩ := hg.held hlive
  exact ⟨endOf sp.base xs, b, n, mem_placed_focus sp.base xs b ys, hb, by omega, by omega⟩

theorem Good.zero (hg : Good sp s bs) : s.live 0 = none := by
  cases hlive : s.live 0 with
  | none => rfl
  | some n =>
    obtain ⟨a, ha, -⟩ := (hg.live 0 n).mp hlive
    rw [HDR] at ha
    omega

theorem Good.update_zero (hg : Good sp s bs) : Function.update s.live 0 none = s.live := by
  rw [← hg.zero]
  exact Function.update_eq_self _ _

theorem Shape.scribble {b : Blk} {m' : Mem} (hs : Shape sp h (xs ++ b :: ys)) (hown : b.owner = some n)
    (hm : ∀ x, (x < endOf sp.base xs + HDR ∨ endOf sp.base xs + HDR + b.size ≤ x) → m' x = h.mem x) :
    Shape sp { h with mem := m' } (xs ++ b :: ys) := by
  refine { hs with laid := hs.laid.congr fun e he x hlo hhi => hm x ?_ }
  by_contra hin
  have hheld : Held sp.base (xs ++ b :: ys) x := ⟨_, b, n, mem_placed_focus sp.base xs b ys, hown, by omega, by omega⟩
  have := hheld.outside e he
  omega

theorem Good.others {b : Blk} (hg : Good sp s (xs ++ b :: ys)) (hown : b.owner = some n)
    (hx : Others s (endOf sp.base xs + HDR) x) :
    x < endOf sp.base xs + HDR ∨ endOf sp.base xs + HDR + b.size ≤ x := by
  obtain ⟨q, k, hlive, hne, hlo, hhi⟩ := hx
  obtain ⟨len, hq⟩ := (hg.live.payload q k).mp hlive
  have hp : Payload sp.base (xs ++ b :: ys) (endOf sp.base xs + HDR) n b.size :=
    ⟨_, rfl, by rw [← hown]; exact mem_placed_focus sp.base xs b ys⟩
  have hroom : k ≤ len := by
    obtain ⟨a, -, hmem⟩ := hq
    exact hg.shape.roomy _ hmem k rfl
  rcases payload_disjoint hp hq (Ne.symm hne) with hlt | hlt <;> omega

/-! ## Asking for memory -/

/-- A request was granted, with a block that nobody held. -/
structure Got (sp : Space) (s : Sys) (bs : List Blk) (n : Nat) (r : Nat × Heap) (xs : List Blk) (k : Nat) (ys : List Blk) :
    Prop where
  ptr : r.1 = endOf sp.base xs + HDR
  good : Good sp ⟨r.2, Function.update s.live r.1 (some n)⟩ (xs ++ ⟨k, some n⟩ :: ys)
  room : wanted n ≤ k ∧ n ≤ k
  new : s.live r.1 = none
  keeps : ∀ e ∈ placed sp.base bs, e.2.owner ≠ none → e ∈ placed sp.base (xs ++ ⟨k, some n⟩ :: ys)
  frame : ∀ x, Held sp.base bs x → r.2.mem x = s.heap.mem x

theorem Good.errno (hg : Good sp s bs) (e : Nat) : Good sp ⟨{ s.heap with errno := e }, s.live⟩ bs :=
  ⟨⟨hg.shape.head, hg.shape.laid, hg.shape.ends, hg.shape.apart, hg.shape.roomy, hg.shape.low⟩, hg.live⟩

theorem Good.malloc (hg : Good sp s bs) (hgrows : GrowsWell sp granted n s.heap) :
    ((malloc sp granted n s.heap).1 = 0 ∧ ∃ e, (malloc sp granted n s.heap).2 = { s.heap with errno := e }) ∨
      ∃ xs k ys, Got sp s bs n (malloc sp granted n s.heap) xs k ys := by
  rcases malloc_shape hg.shape hgrows with hnone | ⟨xs, b, ys, k, rest, hgiven⟩
  · exact .inl hnone
  · have htracks : Tracks s.live sp.base (xs ++ b :: ys) := by
      intro p n
      rw [hg.live, hgiven.owned]
    have hnew : s.live (Libc.malloc sp granted n s.heap).1 = none := by
      cases hlive : s.live (Libc.malloc sp granted n s.heap).1 with
      | none => rfl
      | some m =>
        obtain ⟨a, ha, hmem⟩ := (htracks _ _).mp hlive
        have hat : a = endOf sp.base xs := Nat.add_right_cancel (ha.symm.trans hgiven.ptr)
        have hfree := hgiven.cut.free
        rw [hat] at hmem
        rw [Blk.free, Heap.owned_at hmem] at hfree
        cases hfree
    have hroom : n ≤ k := by
      have hmem := mem_placed_focus sp.base xs ⟨k, some n⟩ (rest ++ ys)
      exact hgiven.shape.roomy _ hmem n rfl
    refine .inr ⟨xs, k, rest ++ ys, hgiven.ptr, ⟨hgiven.shape, ?_⟩, ⟨hgiven.cut.fits, hroom⟩, hnew, hgiven.keeps,
      hgiven.frame⟩
    rw [hgiven.ptr]
    exact htracks.cut hgiven.cut

theorem Got.write {m' : Mem} (hgot : Got sp s bs n r xs k ys)
    (hm : ∀ x, (x < r.1 ∨ r.1 + k ≤ x) → m' x = r.2.mem x) :
    Good sp ⟨{ r.2 with mem := m' }, Function.update s.live r.1 (some n)⟩ (xs ++ ⟨k, some n⟩ :: ys) := by
  refine ⟨hgot.good.shape.scribble (n := n) rfl fun x hx => hm x ?_, hgot.good.live⟩
  rw [hgot.ptr]
  exact hx

theorem Got.others {q m : Nat} (hgot : Got sp s bs n r xs k ys)
    (hlive : s.live q = some m) (hlo : q ≤ x) (hhi : x < q + m) : x < r.1 ∨ r.1 + k ≤ x := by
  have hne : q ≠ r.1 := fun heq => by
    rw [heq, hgot.new] at hlive
    cases hlive
  have hothers : Others ⟨r.2, Function.update s.live r.1 (some n)⟩ (endOf sp.base xs + HDR) x :=
    ⟨q, m, (Function.update_of_ne hne _ _).trans hlive, hgot.ptr ▸ hne, hlo, hhi⟩
  rw [hgot.ptr]
  exact hgot.good.others rfl hothers

theorem zeroed_of_outside {m : Mem} (hn : n ≤ k) (hx : x < p ∨ p + k ≤ x) : zeroed m p n x = m x :=
  if_neg (by omega)

theorem copied_of_outside {m : Mem} {out : Nat} (hn : n ≤ k) (hx : x < out ∨ out + k ≤ x) : copied m out p n x = m x :=
  if_neg (by omega)

theorem Good.calloc {count size : Nat} (hg : Good sp s bs)
    (hgrows : count * size < 2 ^ 64 → GrowsWell sp granted (count * size) s.heap) :
    ((calloc sp granted count size s.heap).1 = 0 ∧ ∃ e, (calloc sp granted count size s.heap).2 = { s.heap with errno := e }) ∨
      ∃ bs', Good sp ⟨(calloc sp granted count size s.heap).2,
          Function.update s.live (calloc sp granted count size s.heap).1 (some (count * size))⟩ bs' ∧
        (calloc sp granted count size s.heap).1 ≠ 0 ∧
        ∀ x, Others s 0 x → (calloc sp granted count size s.heap).2.mem x = s.heap.mem x := by
  unfold Libc.calloc
  by_cases hover : count ≠ 0 ∧ size > (2 ^ 64 - 1) / count
  · rw [if_pos hover]
    exact .inl ⟨rfl, _, rfl⟩
  rw [if_neg hover]
  have hlt : count * size < 2 ^ 64 := product_lt hover
  dsimp only
  rw [word_of_lt hlt]
  rcases hg.malloc (hgrows hlt) with ⟨hnone, herrno⟩ | ⟨xs, k, ys, hgot⟩
  · rw [if_pos hnone]
    exact .inl ⟨hnone, herrno⟩
  · have hne : (Libc.malloc sp granted (count * size) s.heap).1 ≠ 0 := by
      rw [hgot.ptr, HDR]
      omega
    rw [if_neg hne]
    refine .inr ⟨_, hgot.write fun x hx => zeroed_of_outside hgot.room.2 hx, hne, ?_⟩
    rintro x ⟨q, m, hlive, -, hlo, hhi⟩
    exact (zeroed_of_outside hgot.room.2 (hgot.others hlive hlo hhi)).trans
      (hgot.frame x (hg.held_bytes hlive hlo hhi))

/-! ## Giving it back -/

theorem Good.free (hg : Good sp s bs) (hlive : s.live p = some n) :
    ∃ bs', Good sp ⟨free p s.heap, Function.update s.live p none⟩ bs' ∧
      ∀ x, Held sp.base bs x → (Libc.free p s.heap).mem x = s.heap.mem x := by
  obtain ⟨xs, b, ys, rfl, hown, rfl, -⟩ := hg.held hlive
  obtain ⟨bs', hshape, howned, hframe⟩ := free_shape hg.shape hown
  exact ⟨bs', ⟨hshape, hg.live.release hown howned⟩, hframe⟩

/-! ## Asking for more -/

theorem Good.resize (hg : Good sp s bs) (hlive : s.live p = some n)
    (hroom : k ≤ (block s.heap.mem (p - HDR)).size) :
    ∃ bs', Good sp ⟨s.heap, Function.update (Function.update s.live p none) p (some k)⟩ bs' := by
  obtain ⟨xs, b, ys, rfl, hown, rfl, -⟩ := hg.held hlive
  have hb := (laid_append.mp hg.shape.laid).2
  rw [Nat.add_sub_cancel, hb.1] at hroom
  have hheld : b.free = false := by rw [Blk.free, hown]; rfl
  -- as if it were given back and cut again, all of it
  have hcut : Cut sp.base xs ⟨b.size, none⟩ k k b.size [] := ⟨rfl, rfl, hroom, .inl rfl⟩
  have hfreed : Heap.owned sp.base (xs ++ ⟨b.size, none⟩ :: ys) =
      Heap.owned sp.base xs ++ Heap.owned (endOf sp.base xs + HDR + b.size) ys := by
    rw [owned_append, owned_cons_free rfl]
  have hlaid : Laid s.heap.mem (endOf sp.base xs) 0 (⟨b.size, some k⟩ :: ys) := ⟨by rw [hb.1, hheld]; rfl, hb.2⟩
  have hends : endOf sp.base (xs ++ ⟨b.size, some k⟩ :: ys) = endOf sp.base (xs ++ b :: ys) := by
    rw [endOf_focus, endOf_focus]
  obtain ⟨hxs, hys, -⟩ := List.isChain_append.mp hg.shape.apart
  refine ⟨xs ++ ⟨b.size, some k⟩ :: ys, ⟨?_, hg.shape.laid.refocus hlaid fun _ _ => rfl, hends.trans hg.shape.ends, ?_, ?_,
    hg.shape.low⟩, (hg.live.release hown hfreed).cut hcut⟩
  · rw [hg.shape.head, linkTo, linkTo, if_neg (by simp), if_neg (by simp)]
  · have hrow : (⟨b.size, some k⟩ :: ys : List Blk).IsChain Apart := .cons hys.of_cons fun y _ hboth => by cases hboth.1
    refine List.isChain_append.mpr ⟨hxs, hrow, ?_⟩
    rintro x hx y ⟨⟩ hboth
    cases hboth.2
  · intro e he m hm
    rcases hcut.placed he with he | rfl | ⟨hnone, -⟩
    · rcases placed_marked he with he | ⟨-, hnone⟩
      · exact hg.shape.roomy e he m hm
      · rw [hnone] at hm
        cases hm
    · cases hm
      exact hroom
    · rw [hnone] at hm
      cases hm

/-- A block that is too small is given up for a new one, with what was in it. -/
structure Moved (sp : Space) (s : Sys) (p old n out : Nat) (h' : Heap) (bs' : List Blk) : Prop where
  good : Good sp ⟨h', Function.update (Function.update s.live p none) out (some n)⟩ bs'
  others : ∀ x, Others s p x → h'.mem x = s.heap.mem x
  kept : ∀ off < min old n, h'.mem (out + off) = s.heap.mem (p + off)

theorem Good.move {old : Nat} (hg : Good sp s bs) (hlive : s.live p = some old)
    (hsmall : (block s.heap.mem (p - HDR)).size < wanted n)
    (hgot : Got sp s bs n r xs k ys) :
    ∃ bs', Moved sp s p old n r.1
      (Libc.free p { r.2 with mem := copied r.2.mem r.1 p (block r.2.mem (p - HDR)).size }) bs' := by
  have hne : p ≠ r.1 := fun heq => by
    rw [heq, hgot.new] at hlive
    cases hlive
  -- the old block is where it was, and no larger than the new one
  obtain ⟨xs₀, b, ys₀, rfl, hown, hp, hold⟩ := hg.held hlive
  have hsize : (block s.heap.mem (p - HDR)).size = b.size := by
    rw [hp, Nat.add_sub_cancel, (laid_append.mp hg.shape.laid).2.1]
  have hsize' : (block r.2.mem (p - HDR)).size = b.size := by
    obtain ⟨xs₁, ys₁, hbs, hat⟩ := exists_focus (hgot.keeps _ (mem_placed_focus sp.base xs₀ b ys₀) (by simp [hown]))
    have hlaid := hgot.good.shape.laid
    rw [hbs] at hlaid
    rw [hp, Nat.add_sub_cancel, show endOf sp.base xs₀ = endOf sp.base xs₁ from hat, (laid_append.mp hlaid).2.1]
  rw [hsize] at hsmall
  rw [hsize']
  have hfits : b.size ≤ k := hsmall.le.trans hgot.room.1
  have hgood := hgot.write fun x hx => copied_of_outside (p := p) (m := r.2.mem) hfits hx
  obtain ⟨bs', hfreed, hframe⟩ := hgood.free ((Function.update_of_ne hne _ _).trans hlive)
  refine ⟨bs', ?_, fun x hx => ?_, fun off hoff => ?_⟩
  · rw [Function.update_comm hne.symm] at hfreed
    exact hfreed
  · obtain ⟨q, m, hq, hqp, hlo, hhi⟩ := hx
    have hqr : q ≠ r.1 := fun heq => by
      rw [heq, hgot.new] at hq
      cases hq
    rw [hframe x (hgood.held_bytes ((Function.update_of_ne hqr _ _).trans hq) hlo hhi)]
    exact (copied_of_outside hfits (hgot.others hq hlo hhi)).trans (hgot.frame x (hg.held_bytes hq hlo hhi))
  · obtain ⟨hoff, hoff'⟩ := lt_min_iff.mp hoff
    rw [hframe _ (hgood.held_bytes (Function.update_self _ _ _) (Nat.le_add_right _ _) (by omega))]
    have hcopied : copied r.2.mem r.1 p b.size (r.1 + off) = r.2.mem (p + off) := by
      rw [copied, if_pos (by omega), Nat.add_sub_cancel_left]
    exact hcopied.trans (hgot.frame _ (hg.held_bytes hlive (Nat.le_add_right _ _) (by omega)))

/-! ## Every step -/

/-- The block a call is about, if there is one. -/
def Op.own : Op → Nat
  | .malloc _ _ | .calloc _ _ _ => 0
  | .realloc p _ _ | .free p | .write p _ _ => p

theorem Good.others_held (hg : Good sp s bs) (hx : Others s p x) : Held sp.base bs x := by
  obtain ⟨q, m, hq, -, hlo, hhi⟩ := hx
  exact hg.held_bytes hq hlo hhi

theorem Good.refused (hg : Good sp s bs) (hr : ∃ e, r.2 = { s.heap with errno := e }) :
    Good sp ⟨r.2, s.live⟩ bs ∧ r.2.mem = s.heap.mem := by
  obtain ⟨e, he⟩ := hr
  rw [he]
  exact ⟨hg.errno e, rfl⟩

theorem Good.realloc {n : UInt64} (hg : Good sp s bs) (hlegal : Legal s (.realloc p n granted))
    (hfair : Fair sp s (.realloc p n granted)) :
    ∃ bs', Good sp (step sp s (.realloc p n granted)) bs' ∧
      (∀ x, Others s p x → (step sp s (.realloc p n granted)).heap.mem x = s.heap.mem x) ∧
      ∀ old, s.live p = some old → (Libc.realloc sp granted p n.toNat s.heap).1 ≠ 0 → ∀ off < min old n.toNat,
        (step sp s (.realloc p n granted)).heap.mem ((Libc.realloc sp granted p n.toNat s.heap).1 + off) =
          s.heap.mem (p + off) := by
  have hzero : n = 0 ↔ n.toNat = 0 := UInt64.toNat_inj.symm
  obtain ⟨hsize, hgrows⟩ := hfair
  unfold step Libc.realloc
  dsimp only
  by_cases hp : p = 0
  · rw [if_pos hp, if_neg (fun h => h.1 hp)]
    subst hp
    rw [hg.update_zero]
    rcases hg.malloc (hgrows (.inl rfl)) with ⟨hnone, hrefused⟩ | ⟨xs, k, ys, hgot⟩
    · obtain ⟨hgood, hmem⟩ := hg.refused hrefused
      rw [if_pos hnone]
      refine ⟨bs, hgood, fun x _ => congrFun hmem x, fun old hold => ?_⟩
      rw [hg.zero] at hold
      cases hold
    · have hne : (Libc.malloc sp granted n.toNat s.heap).1 ≠ 0 := by
        rw [hgot.ptr, HDR]
        omega
      rw [if_neg hne]
      refine ⟨_, hgot.good, fun x hx => hgot.frame x (hg.others_held hx), fun old hold => ?_⟩
      rw [hg.zero] at hold
      cases hold
  rw [if_neg hp]
  obtain ⟨old, hlive⟩ := hlegal.resolve_left hp
  by_cases hn : n = 0
  · rw [if_pos (hzero.mp hn), if_pos ⟨hp, hn⟩]
    obtain ⟨bs', hgood, hframe⟩ := hg.free hlive
    exact ⟨bs', hgood, fun x hx => hframe x (hg.others_held hx), fun _ _ hne => absurd rfl hne⟩
  rw [if_neg (fun h => hn (hzero.mpr h)), if_neg (fun h => hn h.2)]
  obtain ⟨hle, -⟩ := le_roundUp (hsize hp)
  by_cases hroom : (block s.heap.mem (p - HDR)).size ≥ roundUp n.toNat
  · rw [if_pos hroom]
    dsimp only
    rw [if_neg hp]
    obtain ⟨bs', hgood⟩ := hg.resize hlive (hle.trans hroom)
    exact ⟨bs', hgood, fun _ _ => rfl, fun _ _ _ _ _ => rfl⟩
  · rw [if_neg hroom]
    have hwanted : wanted n.toNat = roundUp n.toNat := by rw [wanted, if_neg (fun h => hn (hzero.mpr h))]
    rcases hg.malloc (hgrows (.inr (not_le.mp hroom))) with ⟨hnone, hrefused⟩ | ⟨xs, k, ys, hgot⟩
    · obtain ⟨hgood, hmem⟩ := hg.refused hrefused
      rw [if_pos hnone, if_pos hnone]
      exact ⟨bs, hgood, fun x _ => congrFun hmem x, fun _ _ hne => absurd hnone hne⟩
    · have hne : (Libc.malloc sp granted n.toNat s.heap).1 ≠ 0 := by
        rw [hgot.ptr, HDR]
        omega
      rw [if_neg hne]
      dsimp only
      rw [if_neg hne]
      obtain ⟨bs', hmoved⟩ := hg.move hlive (hwanted ▸ not_le.mp hroom) hgot
      refine ⟨bs', hmoved.good, hmoved.others, fun old' hold _ => ?_⟩
      rw [hlive] at hold
      cases hold
      exact hmoved.kept

theorem Good.step {op : Op} (hg : Good sp s bs) (hlegal : Legal s op) (hfair : Fair sp s op) :
    ∃ bs', Good sp (Libc.step sp s op) bs' ∧
      ∀ x, Others s op.own x → (Libc.step sp s op).heap.mem x = s.heap.mem x := by
  cases op with
  | malloc n granted =>
    unfold Libc.step given
    dsimp only
    rcases hg.malloc hfair with ⟨hnone, hrefused⟩ | ⟨xs, k, ys, hgot⟩
    · obtain ⟨hgood, hmem⟩ := hg.refused hrefused
      rw [if_pos hnone]
      exact ⟨bs, hgood, fun x _ => congrFun hmem x⟩
    · have hne : (Libc.malloc sp granted n.toNat s.heap).1 ≠ 0 := by
        rw [hgot.ptr, HDR]
        omega
      rw [if_neg hne]
      exact ⟨_, hgot.good, fun x hx => hgot.frame x (hg.others_held hx)⟩
  | calloc count size granted =>
    unfold Libc.step given
    dsimp only
    rcases hg.calloc hfair with ⟨hnone, hrefused⟩ | ⟨bs', hgood, hne, hframe⟩
    · obtain ⟨hgood, hmem⟩ := hg.refused hrefused
      rw [if_pos hnone]
      exact ⟨bs, hgood, fun x _ => congrFun hmem x⟩
    · rw [if_neg hne]
      exact ⟨bs', hgood, hframe⟩
  | realloc p n granted =>
    obtain ⟨bs', hgood, hframe, -⟩ := hg.realloc hlegal hfair
    exact ⟨bs', hgood, hframe⟩
  | free p =>
    unfold Libc.step
    rcases hlegal with rfl | ⟨n, hlive⟩
    · refine ⟨bs, ?_, fun _ _ => rfl⟩
      change Good sp ⟨s.heap, Function.update s.live 0 none⟩ bs
      rw [hg.update_zero]
      exact hg
    · obtain ⟨bs', hgood, hframe⟩ := hg.free hlive
      exact ⟨bs', hgood, fun x hx => hframe x (hg.others_held hx)⟩
  | write p off v =>
    obtain ⟨n, hlive, hoff⟩ := hlegal
    obtain ⟨xs, b, ys, rfl, hown, rfl, hroom⟩ := hg.held hlive
    refine ⟨_, ⟨hg.shape.scribble hown fun x hx => Function.update_of_ne (by omega) _ _, hg.live⟩, fun x hx => ?_⟩
    have := hg.others hown hx
    exact Function.update_of_ne (by omega) _ _

/-! ## Every run -/

theorem Run.good (h : Run sp s) : ∃ bs, Good sp s bs := by
  induction h with
  | start m errno =>
    refine ⟨[], ⟨rfl, trivial, rfl, .nil, nofun, sp.room⟩, fun p n => ⟨nofun, ?_⟩⟩
    rintro ⟨a, -, hmem⟩
    cases hmem
  | step _ hlegal hfair ih =>
    obtain ⟨bs, hgood⟩ := ih
    obtain ⟨bs', hgood', -⟩ := hgood.step hlegal hfair
    exact ⟨bs', hgood'⟩

/-- The list of blocks fills the heap, no two free ones side by side, and each live block is one of them, apart and large
enough. -/
structure Whole (sp : Space) (s : Sys) (bs : List Blk) : Prop where
  linked : s.heap.head = linkTo sp.base bs ∧ Laid s.heap.mem sp.base 0 bs
  fills : endOf sp.base bs = s.heap.brk
  merged : bs.IsChain Apart
  live : ∀ p n, s.live p = some n ↔ ∃ len, Payload sp.base bs p n len
  room : ∀ p n len, Payload sp.base bs p n len → n ≤ len
  disjoint : ∀ p q n k len len', Payload sp.base bs p n len → Payload sp.base bs q k len' → p ≠ q →
    p + len ≤ q ∨ q + len' ≤ p

theorem Good.whole (hg : Good sp s bs) : Whole sp s bs where
  linked := ⟨hg.shape.head, hg.shape.laid⟩
  fills := hg.shape.ends
  merged := hg.shape.apart
  live := hg.live.payload
  room := by
    rintro p n len ⟨a, -, hmem⟩
    exact hg.shape.roomy _ hmem n rfl
  disjoint _ _ _ _ _ _ hp hq := payload_disjoint hp hq

/-- While the heap grows only behind a free last block, what is live is in the list, apart and large enough, and no call
changes what others hold. -/
theorem libc_heap_sound (h : Run sp s) :
    (∃ bs, Whole sp s bs) ∧
      (∀ op, Legal s op → Fair sp s op → ∀ x, Others s op.own x → (step sp s op).heap.mem x = s.heap.mem x) ∧
      ∀ p (n : UInt64) granted old, Fair sp s (.realloc p n granted) → s.live p = some old →
        (realloc sp granted p n.toNat s.heap).1 ≠ 0 → ∀ off < min old n.toNat,
          (step sp s (.realloc p n granted)).heap.mem ((realloc sp granted p n.toNat s.heap).1 + off) =
            s.heap.mem (p + off) := by
  obtain ⟨bs, hgood⟩ := h.good
  refine ⟨⟨bs, hgood.whole⟩, fun op hlegal hfair => ?_, fun p n granted old hfair hlive => ?_⟩
  · obtain ⟨-, -, hframe⟩ := hgood.step hlegal hfair
    exact hframe
  · obtain ⟨-, -, -, hkept⟩ := hgood.realloc (.inr ⟨old, hlive⟩) hfair
    exact hkept old hlive

end Runs

section sample

instance (sp : Space) (granted : Bool) (n : Nat) (h : Heap) : Decidable (GrowsWell sp granted n h) :=
  inferInstanceAs (Decidable (n ≤ 2 ^ 64 - 1 - HDR - ALIGN →
    firstFit h.mem (roundUp (if n = 0 then 1 else n)) h.brk h.head = none →
    (sbrk sp granted (chunkFor (roundUp (if n = 0 then 1 else n))) h).isSome →
    lastUsed h = false ∧ chunkFor (roundUp (if n = 0 then 1 else n)) ≠ 0))

def sampleSpace : Space := ⟨4096, 1052672, by decide, by decide, by decide⟩

def sampleStart : Sys := ⟨⟨fun _ => 7, 0, 4096, 0⟩, fun _ => none⟩

def sampleAsked : Sys := step sampleSpace (step sampleSpace sampleStart (.malloc 10 true)) (.malloc 30 true)

/-- Two requests, the first made larger, the second given back. -/
def sampleProgram : Sys := step sampleSpace (step sampleSpace sampleAsked (.realloc 4120 100 true)) (.free 4160)

theorem sampleProgram_sound :
    sampleProgram.live 4120 = none ∧ sampleProgram.live 4216 = some 100 ∧ ∃ bs, Whole sampleSpace sampleProgram bs := by
  have hfirst : GrowsWell sampleSpace true 10 sampleStart.heap := by decide +kernel
  have hsecond : GrowsWell sampleSpace true 30 (step sampleSpace sampleStart (.malloc 10 true)).heap := by decide +kernel
  have hthird : GrowsWell sampleSpace true 100 sampleAsked.heap := by decide +kernel
  have hstart : Run sampleSpace sampleStart := .start _ _
  have hone : Run sampleSpace (step sampleSpace sampleStart (.malloc 10 true)) := hstart.step trivial hfirst
  have hasked : Run sampleSpace sampleAsked := hone.step trivial hsecond
  have hlarger : Run sampleSpace (step sampleSpace sampleAsked (.realloc 4120 100 true)) :=
    hasked.step (.inr ⟨10, by decide +kernel⟩) ⟨fun _ => by decide, fun _ => hthird⟩
  have hrun : Run sampleSpace sampleProgram := hlarger.step (.inr ⟨30, by decide +kernel⟩) trivial
  exact ⟨by decide +kernel, by decide +kernel, (libc_heap_sound hrun).1⟩

/-- A request that uses up the last block, one that makes the heap grow, and the first made larger. -/
def clashOps : List Op := [.malloc 65504 true, .malloc 16 true, .realloc 4120 100000 true]

def clashSys : Sys := clashOps.foldl (step sampleSpace) sampleStart

/-- The second block is not in the list, and lies in the first: what one holder writes the other reads. -/
theorem clashSys_twice :
    ((clashOps.take 2).foldl (step sampleSpace) sampleStart).live 4120 = some 65504 ∧
      clashSys.live 4120 = some 100000 ∧ clashSys.live 69656 = some 16 ∧ clashSys.heap.head = 4096 ∧
      (block clashSys.heap.mem 4096).next = 0 ∧ clashSys.heap.mem 69656 = 7 ∧
      (step sampleSpace clashSys (.write 4120 65536 1)).heap.mem 69656 = 1 := by
  decide +kernel

end sample

end Zelr.Libc
