import Mathlib.Data.List.Chain
import Zelr.Base.Words

/-!
# The kernel heap

`heap.c` over byte-addressed memory: the headers of the blocks lie between their payloads, and every
read and write of a header's field is one of memory.
-/

namespace Zelr.Heap

variable {e : Nat × Blk} {x n : Nat} {bs' : List Blk}

/-- `sizeof(block_t)`. -/
def HDR : Nat := 24

def MIN_SPLIT : Nat := 16

/-- `block_t`, as it reads from memory. -/
structure Block where
  size : Nat
  free : Bool
  next : Nat
  prev : Nat
  deriving Repr, DecidableEq

def block (m : Mem) (b : Nat) : Block := ⟨load m b 4, m (b + 4) != 0, load m (b + 8) 8, load m (b + 16) 8⟩

/-! ## Assignments to the fields of a block -/

def setSize (m : Mem) (b v : Nat) : Mem := store m b 4 v

def setFree (m : Mem) (b : Nat) (v : Bool) : Mem := store m (b + 4) 1 v.toNat

def setNext (m : Mem) (b v : Nat) : Mem := store m (b + 8) 8 v

def setPrev (m : Mem) (b v : Nat) : Mem := store m (b + 16) 8 v

/-- The heap's variables, and the memory it is in. -/
structure Arena where
  mem : Mem
  head : Nat
  total : Nat
  used : Nat

/-- What an assignment to a `u32` keeps. -/
def u32 (v : Nat) : Nat := v % 2 ^ 32

def heapInit (m : Mem) (start size : Nat) : Arena :=
  let m := setSize m start (size + 2 ^ 64 - HDR)
  let m := setFree m start true
  let m := setNext m start 0
  let m := setPrev m start 0
  ⟨m, start, u32 size, 0⟩

def pointBack (m : Mem) (b p : Nat) : Mem :=
  if (block m b).next = 0 then m else setPrev m (block m b).next p

def split (m : Mem) (b n : Nat) : Mem :=
  if (block m b).size < n + HDR + MIN_SPLIT then m
  else
    let nb := b + HDR + n
    let m := setSize m nb ((block m b).size - n - HDR)
    let m := setFree m nb true
    let m := setNext m nb (block m b).next
    let m := setPrev m nb b
    let m := pointBack m b nb
    let m := setNext m b nb
    setSize m b n

/-- The loop of `kmalloc`: the first free block that is large enough. The first argument bounds the
blocks it can find. -/
def firstFit (m : Mem) (n : Nat) : Nat → Nat → Option Nat
  | 0, _ => none
  | left + 1, b =>
    if b = 0 then none
    else if (block m b).free ∧ n ≤ (block m b).size then some b
    else firstFit m n left (block m b).next

def roundUp (n : UInt64) : UInt64 := (n + 7) &&& ~~~ 7

def claim (h : Arena) (b n : Nat) : Arena :=
  let m := split h.mem b n
  let m := setFree m b false
  { h with mem := m, used := u32 (h.used + (block m b).size + HDR) }

def kmalloc (n : UInt64) (h : Arena) : Nat × Arena :=
  if n = 0 ∨ n > 0xFFFFFF00 then (0, h)
  else
    match firstFit h.mem (roundUp n).toNat h.total h.head with
    | none => (0, h)
    | some b => (b + HDR, claim h b (roundUp n).toNat)

def mergeForward (m : Mem) (b : Nat) : Mem :=
  let next := (block m b).next
  if next ≠ 0 ∧ (block m next).free then
    let m := setSize m b ((block m b).size + (HDR + (block m next).size))
    let m := setNext m b (block m next).next
    pointBack m b b
  else m

def mergeBackward (m : Mem) (b : Nat) : Mem :=
  let prev := (block m b).prev
  if prev ≠ 0 ∧ (block m prev).free then
    let m := setSize m prev ((block m prev).size + (HDR + (block m b).size))
    let m := setNext m prev (block m b).next
    pointBack m b prev
  else m

def kfree (p : Nat) (h : Arena) : Arena :=
  if p = 0 then h
  else
    let b := p - HDR
    if (block h.mem b).free then h
    else
      let m := setFree h.mem b true
      let used := u32 (h.used + 2 ^ 64 - ((block m b).size + HDR))
      { h with mem := mergeBackward (mergeForward m b) b, used }

/-!
## Blocks side by side

A list of blocks fills memory from an address on, a header before each payload.
-/

/-- A block: its payload's length, and how much whoever holds it asked for. -/
structure Blk where
  size : Nat
  owner : Option Nat
  deriving Repr, DecidableEq

def Blk.free (b : Blk) : Bool := b.owner.isNone

def endOf (a : Nat) : List Blk → Nat
  | [] => a
  | b :: bs => endOf (a + HDR + b.size) bs

def placed (a : Nat) : List Blk → List (Nat × Blk)
  | [] => []
  | b :: bs => (a, b) :: placed (a + HDR + b.size) bs

/-- What a block's `next` is: the block at `e`, or nothing. -/
def linkTo (e : Nat) (ys : List Blk) : Nat := if ys = [] then 0 else e

/-- What a block counts for in `used`. -/
def Blk.cost (b : Blk) : Nat := if b.free then 0 else b.size + HDR

def usedBy (bs : List Blk) : Nat := (bs.map Blk.cost).sum

def owned (a : Nat) (bs : List Blk) : List (Nat × Nat) :=
  (placed a bs).filterMap fun e => e.2.owner.map fun n => (e.1, n)

def Held (a : Nat) (bs : List Blk) (x : Nat) : Prop :=
  ∃ at_ b n, (at_, b) ∈ placed a bs ∧ b.owner = some n ∧ at_ + HDR ≤ x ∧ x < at_ + HDR + b.size

def Apart (b c : Blk) : Prop := ¬ (b.free = true ∧ c.free = true)

section Lists

variable {a start : Nat} {b c d : Blk} {xs ys bs rest : List Blk}

theorem endOf_append (a : Nat) (xs ys : List Blk) : endOf a (xs ++ ys) = endOf (endOf a xs) ys := by
  induction xs generalizing a with
  | nil => rfl
  | cons x xs ih => exact ih _

theorem placed_append (a : Nat) (xs ys : List Blk) :
    placed a (xs ++ ys) = placed a xs ++ placed (endOf a xs) ys := by
  induction xs generalizing a with
  | nil => rfl
  | cons x xs ih => exact congrArg ((a, x) :: ·) (ih _)

theorem le_endOf (a : Nat) (bs : List Blk) : a + HDR * bs.length ≤ endOf a bs := by
  induction bs generalizing a with
  | nil => simp [endOf]
  | cons b bs ih =>
    have := ih (a + HDR + b.size)
    rw [endOf, List.length_cons, Nat.mul_succ]
    omega

theorem placed_bounds (h : e ∈ placed a bs) :
    a ≤ e.1 ∧ e.1 + HDR + e.2.size ≤ endOf a bs := by
  induction bs generalizing a with
  | nil => cases h
  | cons b bs ih =>
    have hle := le_endOf (a + HDR + b.size) bs
    rcases List.mem_cons.mp h with rfl | h
    · exact ⟨le_rfl, by rw [endOf]; dsimp only; omega⟩
    · have := ih h
      exact ⟨by omega, this.2⟩

theorem placed_apart {f : Nat × Blk} (he : e ∈ placed a bs) (hf : f ∈ placed a bs) :
    e = f ∨ e.1 + HDR + e.2.size ≤ f.1 ∨ f.1 + HDR + f.2.size ≤ e.1 := by
  induction bs generalizing a with
  | nil => cases he
  | cons b bs ih =>
    rcases List.mem_cons.mp he with rfl | he'
    · rcases List.mem_cons.mp hf with rfl | hf'
      · exact .inl rfl
      · exact .inr (.inl (placed_bounds hf').1)
    · rcases List.mem_cons.mp hf with rfl | hf'
      · exact .inr (.inr (placed_bounds he').1)
      · exact ih he' hf'

/-! ## A block among the others -/

theorem endOf_focus (start : Nat) (xs : List Blk) (b : Blk) (ys : List Blk) :
    endOf start (xs ++ b :: ys) = endOf (endOf start xs + HDR + b.size) ys := by
  rw [endOf_append]
  rfl

theorem exists_focus (h : e ∈ placed start bs) :
    ∃ xs ys, bs = xs ++ e.2 :: ys ∧ e.1 = endOf start xs := by
  induction bs generalizing start with
  | nil => cases h
  | cons b bs ih =>
    rcases List.mem_cons.mp h with rfl | h
    · exact ⟨[], bs, rfl, rfl⟩
    · obtain ⟨xs, ys, rfl, hat⟩ := ih h
      exact ⟨b :: xs, ys, rfl, hat⟩

theorem mem_placed_focus (start : Nat) (xs : List Blk) (b : Blk) (ys : List Blk) :
    (endOf start xs, b) ∈ placed start (xs ++ b :: ys) := by
  rw [placed_append]
  exact List.mem_append_right _ List.mem_cons_self

theorem Held.outside (hx : Held a bs x) : ∀ f ∈ placed a bs, x < f.1 ∨ f.1 + HDR ≤ x := by
  obtain ⟨at_, b, n, hmem, -, hlo, hhi⟩ := hx
  intro f hf
  rcases placed_apart hmem hf with rfl | hbefore | hafter
  · exact .inr hlo
  · dsimp only at hbefore
    omega
  · dsimp only at hafter
    omega

theorem Held.not_free (hx : Held a bs x) (he : e ∈ placed a bs)
    (hfree : e.2.free = true) : x < e.1 ∨ e.1 + HDR + e.2.size ≤ x := by
  obtain ⟨at_, b, n, hmem, hown, hlo, hhi⟩ := hx
  rcases placed_apart hmem he with rfl | hbefore | hafter
  · rw [Blk.free, hown] at hfree
    cases hfree
  · dsimp only at hbefore
    omega
  · dsimp only at hafter
    omega

theorem Held.keeps (hx : Held a bs x)
    (hkeeps : ∀ e ∈ placed a bs, e.2.owner ≠ none → e ∈ placed a bs') : Held a bs' x := by
  obtain ⟨at_, b, n, hmem, hown, hin⟩ := hx
  exact ⟨at_, b, n, hkeeps _ hmem (by simp [hown]), hown, hin⟩

/-! ## What is held -/

@[simp] theorem usedBy_append (xs ys : List Blk) : usedBy (xs ++ ys) = usedBy xs + usedBy ys := by
  simp [usedBy]

@[simp] theorem usedBy_cons (b : Blk) (ys : List Blk) : usedBy (b :: ys) = b.cost + usedBy ys := rfl

theorem cost_free (h : b.free = true) : b.cost = 0 := if_pos h

theorem cost_held (h : b.owner = some n) : b.cost = b.size + HDR :=
  if_neg (by simp [Blk.free, h])

theorem usedBy_le (a : Nat) (bs : List Blk) : a + usedBy bs ≤ endOf a bs := by
  induction bs generalizing a with
  | nil => exact le_rfl
  | cons b bs ih =>
    have := ih (a + HDR + b.size)
    have hcost : b.cost ≤ b.size + HDR := by
      unfold Blk.cost
      split <;> omega
    rw [usedBy_cons, endOf]
    omega

theorem owned_append (a : Nat) (xs ys : List Blk) :
    owned a (xs ++ ys) = owned a xs ++ owned (endOf a xs) ys := by
  rw [owned, placed_append, List.filterMap_append]
  rfl

theorem owned_cons_free (h : b.free = true) : owned a (b :: ys) = owned (a + HDR + b.size) ys := by
  have hnone : b.owner = none := Option.isNone_iff_eq_none.mp h
  simp [owned, placed, hnone]

theorem owned_cons_held (h : b.owner = some n) :
    owned a (b :: ys) = (a, n) :: owned (a + HDR + b.size) ys := by
  simp [owned, placed, h]

theorem mem_owned {e : Nat × Nat} :
    e ∈ owned a bs ↔ ∃ b, (e.1, b) ∈ placed a bs ∧ b.owner = some e.2 := by
  unfold owned
  rw [List.mem_filterMap]
  constructor
  · rintro ⟨⟨at_, b⟩, hmem, hown⟩
    obtain ⟨n, hn, rfl⟩ := Option.map_eq_some_iff.mp hown
    exact ⟨b, hmem, hn⟩
  · rintro ⟨b, hmem, hn⟩
    exact ⟨(e.1, b), hmem, by simp [hn]⟩

structure Coarser (a : Nat) (bs bs' : List Blk) : Prop where
  ends : endOf a bs' = endOf a bs
  owned : owned a bs' = owned a bs
  used : usedBy bs' = usedBy bs
  addrs : ∀ e ∈ placed a bs', ∃ b, (e.1, b) ∈ placed a bs ∧ (e.2.owner ≠ none → e.2 = b)

theorem Coarser.refl (a : Nat) (bs : List Blk) : Coarser a bs bs :=
  ⟨rfl, rfl, rfl, fun e he => ⟨e.2, he, fun _ => rfl⟩⟩

theorem Coarser.trans {bs'' : List Blk} (h : Coarser a bs bs') (h' : Coarser a bs' bs'') :
    Coarser a bs bs'' := by
  refine ⟨h'.ends.trans h.ends, h'.owned.trans h.owned, h'.used.trans h.used, fun e he => ?_⟩
  obtain ⟨b, hb, heq⟩ := h'.addrs e he
  obtain ⟨c, hc, heq'⟩ := h.addrs _ hb
  exact ⟨c, hc, fun hown => by rw [heq hown]; exact heq' (heq hown ▸ hown)⟩

theorem coarser_merge (hc : c.free = true) (hd : d.free = true) :
    Coarser a (xs ++ c :: d :: ys) (xs ++ ⟨c.size + (HDR + d.size), none⟩ :: ys) := by
  have hend : endOf a xs + HDR + (c.size + (HDR + d.size)) = endOf a xs + HDR + c.size + HDR + d.size := by
    omega
  refine ⟨?_, ?_, ?_, ?_⟩
  · rw [endOf_append, endOf_append, endOf, endOf, endOf, hend]
  · rw [owned_append, owned_append, owned_cons_free rfl, owned_cons_free hc, owned_cons_free hd, hend]
  · simp [cost_free hc, cost_free hd, cost_free (b := ⟨c.size + (HDR + d.size), none⟩) rfl]
  · intro e he
    rw [placed_append, List.mem_append] at he
    rw [placed_append]
    rcases he with he | he
    · exact ⟨e.2, List.mem_append_left _ he, fun _ => rfl⟩
    · rcases List.mem_cons.mp he with rfl | he
      · exact ⟨c, List.mem_append_right _ List.mem_cons_self, fun h => absurd rfl h⟩
      · dsimp only at he
        rw [hend] at he
        exact ⟨e.2, List.mem_append_right _ (List.mem_cons_of_mem _ (List.mem_cons_of_mem _ he)), fun _ => rfl⟩

theorem owned_free (hrest : ∀ c ∈ rest, c.owner = none) (a : Nat) : owned a rest = [] := by
  induction rest generalizing a with
  | nil => rfl
  | cons c rest ih =>
    have hfree : c.free = true := Option.isNone_iff_eq_none.mpr (hrest c List.mem_cons_self)
    rw [owned_cons_free hfree]
    exact ih (fun d hd => hrest d (List.mem_cons_of_mem _ hd)) _

theorem owned_at
    (h : (endOf a xs, n) ∈ owned a (xs ++ b :: ys)) : b.owner = some n := by
  obtain ⟨c, hc, hown⟩ := mem_owned.mp h
  rcases placed_apart hc (mem_placed_focus a xs b ys) with heq | hlt | hlt
  · rw [← (Prod.mk.inj heq).2]
    exact hown
  all_goals
    dsimp only [HDR] at hlt
    omega

theorem placed_marked (he : e ∈ placed start (xs ++ ⟨b.size, none⟩ :: ys)) :
    e ∈ placed start (xs ++ b :: ys) ∨ e.1 = endOf start xs ∧ e.2.owner = none := by
  rw [placed_append, List.mem_append] at he
  rw [placed_append, List.mem_append]
  rcases he with he | he
  · exact .inl (.inl he)
  · rcases List.mem_cons.mp he with rfl | he
    · exact .inr ⟨rfl, rfl⟩
    · exact .inl (.inr (List.mem_cons_of_mem _ he))

/-! ## Holding and giving back -/

/-- A free block of which `req` bytes were asked for, `n` when rounded: its front is held, or all of it. -/
structure Cut (start : Nat) (xs : List Blk) (b : Blk) (n req k : Nat) (rest : List Blk) : Prop where
  free : b.free = true
  ends : endOf (endOf start xs) (⟨k, some req⟩ :: rest) = endOf start xs + HDR + b.size
  fits : n ≤ k
  rest : rest = [] ∨ (∃ r, rest = [⟨r, none⟩]) ∧ k = n

def Tracks (live : Nat → Option Nat) (a : Nat) (bs : List Blk) : Prop :=
  ∀ p n, live p = some n ↔ ∃ at_, p = at_ + HDR ∧ (at_, n) ∈ owned a bs

def Payload (start : Nat) (bs : List Blk) (p n len : Nat) : Prop :=
  ∃ a, p = a + HDR ∧ (a, (⟨len, some n⟩ : Blk)) ∈ placed start bs

section Cut

variable {n req k : Nat} {live : Nat → Option Nat}

section
variable (hc : Cut start xs b n req k rest)
include hc

theorem Cut.rest_free : ∀ c ∈ rest, c.owner = none := by
  rcases hc.rest with hnil | ⟨⟨r, hr⟩, -⟩
  · simp [hnil]
  · simp [hr]

theorem Cut.owned {e : Nat × Nat} :
    e ∈ owned start (xs ++ ⟨k, some req⟩ :: (rest ++ ys)) ↔
      e = (endOf start xs, req) ∨ e ∈ Heap.owned start (xs ++ b :: ys) := by
  have hends := hc.ends
  rw [endOf] at hends
  rw [owned_append, owned_append, owned_cons_held (b := ⟨k, some req⟩) rfl, owned_cons_free hc.free, owned_append,
    owned_free hc.rest_free, List.nil_append, hends]
  simp only [List.mem_append, List.mem_cons]
  exact or_left_comm

theorem Cut.placed
    (he : e ∈ placed start (xs ++ ⟨k, some req⟩ :: (rest ++ ys))) :
    e ∈ Heap.placed start (xs ++ b :: ys) ∨ e = (endOf start xs, ⟨k, some req⟩) ∨
      (e.2.owner = none ∧ e.1 = endOf start xs + HDR + n) := by
  have hends := hc.ends
  rw [placed_append, List.mem_append] at he
  rw [placed_append, List.mem_append]
  rcases he with he | he
  · exact .inl (.inl he)
  rcases List.mem_cons.mp he with rfl | he
  · exact .inr (.inl rfl)
  rw [placed_append, List.mem_append] at he
  rcases he with he | he
  · rcases hc.rest with hnil | ⟨⟨r, hr⟩, hk⟩
    · rw [hnil] at he
      cases he
    · rw [hr, Heap.placed, Heap.placed, List.mem_singleton] at he
      rw [he, hk]
      exact .inr (.inr ⟨rfl, rfl⟩)
  · rw [endOf] at hends
    rw [hends] at he
    exact .inl (.inr (List.mem_cons_of_mem _ he))

theorem Cut.keeps (he : e ∈ Heap.placed start (xs ++ b :: ys))
    (hown : e.2.owner ≠ none) : e ∈ Heap.placed start (xs ++ ⟨k, some req⟩ :: (rest ++ ys)) := by
  have hends := hc.ends
  rw [Heap.endOf] at hends
  rw [placed_append, List.mem_append] at he ⊢
  rcases he with he | he
  · exact .inl he
  rcases List.mem_cons.mp he with rfl | he
  · exact absurd (Option.isNone_iff_eq_none.mp hc.free) hown
  refine .inr (List.mem_cons_of_mem _ ?_)
  rw [placed_append, List.mem_append, hends]
  exact .inr he

theorem Cut.endOf :
    endOf start (xs ++ ⟨k, some req⟩ :: (rest ++ ys)) = Heap.endOf start (xs ++ b :: ys) := by
  rw [endOf_append, ← List.cons_append, endOf_append, hc.ends, endOf_focus]

theorem Cut.apart (hapart : (xs ++ b :: ys).IsChain Apart) :
    (xs ++ ⟨k, some req⟩ :: (rest ++ ys)).IsChain Apart := by
  obtain ⟨hxs, hbys, hlast⟩ := List.isChain_append.mp hapart
  refine List.isChain_append.mpr ⟨hxs, ?_, ?_⟩
  · have hys : ys.IsChain Apart := hbys.of_cons
    have hnext : ∀ y ∈ ys.head?, y.free = false := by
      intro y hy
      obtain ⟨ys', rfl⟩ := List.head?_eq_some_iff.mp hy
      have := (List.isChain_cons_cons.mp hbys).1
      exact Bool.eq_false_iff.mpr fun hyfree => this ⟨hc.free, hyfree⟩
    rcases hc.rest with hnil | ⟨⟨r, hrest⟩, -⟩
    · rw [hnil, List.nil_append]
      exact .cons hys fun y _ hboth => by cases hboth.1
    · rw [hrest, List.singleton_append]
      refine .cons (.cons hys fun y hy hboth => ?_) fun y _ hboth => by cases hboth.1
      rw [hnext y hy] at hboth
      cases hboth.2
  · rintro x hx y ⟨⟩ hboth
    cases hboth.2

end

theorem Tracks.cut (h : Tracks live start (xs ++ b :: ys)) (hc : Cut start xs b n req k rest) :
    Tracks (Function.update live (Heap.endOf start xs + HDR) (some req)) start (xs ++ ⟨k, some req⟩ :: (rest ++ ys)) := by
  intro p m
  by_cases hp : p = Heap.endOf start xs + HDR
  · rw [hp, Function.update_self]
    constructor
    · rintro ⟨⟩
      exact ⟨_, rfl, hc.owned.mpr (.inl rfl)⟩
    · rintro ⟨a, ha, hmem⟩
      have hat : Heap.endOf start xs = a := by omega
      rcases hc.owned.mp hmem with heq | hold
      · rw [(Prod.mk.inj heq).2]
      · have hfree := hc.free
        rw [← hat] at hold
        rw [Blk.free, owned_at hold] at hfree
        cases hfree
  · rw [Function.update_of_ne hp, h]
    refine exists_congr fun a => and_congr_right fun ha => ?_
    rw [hc.owned]
    refine ⟨.inr, fun hor => hor.resolve_left fun heq => hp ?_⟩
    rw [ha, (Prod.mk.inj heq).1]

theorem Tracks.release (h : Tracks live start (xs ++ b :: ys)) (hown : b.owner = some n)
    (howned : Heap.owned start bs' = Heap.owned start xs ++ Heap.owned (Heap.endOf start xs + HDR + b.size) ys) :
    Tracks (Function.update live (Heap.endOf start xs + HDR) none) start bs' := by
  intro q m
  have hold : Heap.owned start (xs ++ b :: ys) =
      Heap.owned start xs ++ (Heap.endOf start xs, n) :: Heap.owned (Heap.endOf start xs + HDR + b.size) ys := by
    rw [owned_append, owned_cons_held hown]
  have hxs : ∀ a m, (a, m) ∈ Heap.owned start xs → a ≠ Heap.endOf start xs := by
    intro a m hmem hat
    obtain ⟨c, hc, -⟩ := mem_owned.mp hmem
    have := placed_bounds hc
    dsimp only [HDR] at this
    omega
  have hys : ∀ a m, (a, m) ∈ Heap.owned (Heap.endOf start xs + HDR + b.size) ys → a ≠ Heap.endOf start xs := by
    intro a m hmem hat
    obtain ⟨c, hc, -⟩ := mem_owned.mp hmem
    have := placed_bounds hc
    dsimp only [HDR] at this
    omega
  by_cases hq : q = Heap.endOf start xs + HDR
  · rw [hq, Function.update_self]
    refine ⟨fun hcontra => (nomatch hcontra), ?_⟩
    rintro ⟨a, ha, hmem⟩
    have hat : a = Heap.endOf start xs := by omega
    rw [howned, List.mem_append] at hmem
    rcases hmem with hmem | hmem
    · exact absurd hat (hxs a m hmem)
    · exact absurd hat (hys a m hmem)
  · rw [Function.update_of_ne hq, h]
    refine exists_congr fun a => and_congr_right fun ha => ?_
    rw [howned, hold, List.mem_append, List.mem_append, List.mem_cons]
    refine ⟨fun hor => hor.imp_right fun hor => hor.resolve_left fun heq => hq ?_, fun hor => hor.imp_right .inr⟩
    rw [ha, (Prod.mk.inj heq).1]

theorem Tracks.payload (h : Tracks live a bs) (p n : Nat) : live p = some n ↔ ∃ len, Payload a bs p n len := by
  rw [h]
  constructor
  · rintro ⟨at_, hp, hmem⟩
    obtain ⟨⟨len, o⟩, hb, rfl⟩ := mem_owned.mp hmem
    exact ⟨len, at_, hp, hb⟩
  · rintro ⟨len, at_, hp, hmem⟩
    exact ⟨at_, hp, mem_owned.mpr ⟨_, hmem, rfl⟩⟩

theorem payload_disjoint {p q len len' : Nat} (hp : Payload a bs p n len) (hq : Payload a bs q k len') (hne : p ≠ q) :
    p + len ≤ q ∨ q + len' ≤ p := by
  obtain ⟨x, rfl, hx⟩ := hp
  obtain ⟨y, rfl, hy⟩ := hq
  rcases placed_apart hx hy with heq | hlt | hlt
  · exact absurd (congrArg (· + HDR) (Prod.mk.inj heq).1) hne
  · dsimp only at hlt
    omega
  · dsimp only at hlt
    omega

end Cut

end Lists

end Zelr.Heap
