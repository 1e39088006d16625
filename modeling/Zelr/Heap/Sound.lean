import Mathlib.Data.UInt
import Zelr.Heap.Layout

/-!
# The heap stays whole

Whatever is asked for and given back, in whatever order, the blocks tile the region, no two free ones
lie side by side, and what a caller was given stays its own.
-/

namespace Zelr.Heap

variable {n p off : Nat}

/-! ## Runs -/

/-- The heap, and what each pointer that was handed out was asked to hold. -/
structure Sys where
  heap : Arena
  live : Nat → Option Nat

inductive Op
  | malloc (n : UInt64)
  | free (p : Nat)
  | write (p off : Nat) (v : UInt8)
  deriving DecidableEq

/-- What may be given back, or written to, is what is held. -/
def Legal (s : Sys) : Op → Prop
  | .malloc _ => True
  | .free p => ∃ n, s.live p = some n
  | .write p off _ => ∃ n, s.live p = some n ∧ off < n

def step (s : Sys) : Op → Sys
  | .malloc n =>
    let r := kmalloc n s.heap
    ⟨r.2, if r.1 = 0 then s.live else Function.update s.live r.1 (some n.toNat)⟩
  | .free p => ⟨kfree p s.heap, Function.update s.live p none⟩
  | .write p off v => { s with heap := { s.heap with mem := Function.update s.heap.mem (p + off) v } }

inductive Run (start size : Nat) : Sys → Prop
  | start (m : Mem) : Run start size ⟨heapInit m start size, fun _ => none⟩
  | step {s op} : Run start size s → Legal s op → Run start size (step s op)

/-- A place for a heap: not at address nought, aligned, with room for a header, below 4 GiB long. -/
structure Region (start size : Nat) : Prop where
  pos : 0 < start
  aligned : 8 ∣ start
  room : HDR ≤ size
  short : size < 2 ^ 32
  inside : start + size < 2 ^ 64

/-! ## Joining -/

section Joining

variable {a : Nat} {b : Blk} {xs ys : List Blk}

theorem joinNext_spec (hb : b.free = true) (hys : ys.IsChain Apart) :
    ∃ c zs, joinNext b ys = c :: zs ∧ c.free = true ∧ (c :: zs).IsChain Apart ∧
      Coarser a (xs ++ b :: ys) (xs ++ c :: zs) := by
  cases ys with
  | nil => exact ⟨b, [], rfl, hb, .singleton b, .refl _ _⟩
  | cons y ys =>
    by_cases hy : y.free = true
    · refine ⟨⟨b.size + (HDR + y.size), none⟩, ys, if_pos hy, rfl, ?_, coarser_merge hb hy⟩
      cases ys with
      | nil => exact .singleton _
      | cons z zs =>
        obtain ⟨hyz, hzs⟩ := List.isChain_cons_cons.mp hys
        exact List.isChain_cons_cons.mpr ⟨fun hboth => hyz ⟨hy, hboth.2⟩, hzs⟩
    · exact ⟨b, y :: ys, if_neg hy, hb, List.isChain_cons_cons.mpr ⟨fun hboth => hy hboth.2, hys⟩, .refl _ _⟩

theorem joinPrev_spec (hxs : xs.IsChain Apart) (hb : b.free = true) (hys : (b :: ys).IsChain Apart) :
    (joinPrev xs b ys).IsChain Apart ∧ Coarser a (xs ++ b :: ys) (joinPrev xs b ys) := by
  induction xs using List.reverseRecOn with
  | nil => exact ⟨hys, .refl _ _⟩
  | append_singleton xs p _ =>
    obtain ⟨hxs', -, hlast⟩ := List.isChain_append.mp hxs
    rw [joinPrev_append, List.append_assoc, List.singleton_append]
    split_ifs with hp
    · refine ⟨List.isChain_append.mpr ⟨hxs', ?_, fun x hx y hy hboth => ?_⟩, coarser_merge hp hb⟩
      · cases ys with
        | nil => exact .singleton _
        | cons y ys =>
          obtain ⟨hby, hys'⟩ := List.isChain_cons_cons.mp hys
          exact List.isChain_cons_cons.mpr ⟨fun hboth => hby ⟨hb, hboth.2⟩, hys'⟩
      · exact hlast x hx p (by simp) ⟨hboth.1, hp⟩
    · refine ⟨List.isChain_append.mpr ⟨hxs', List.isChain_cons_cons.mpr ⟨fun hboth => hp hboth.1, hys⟩, ?_⟩,
        .refl _ _⟩
      rintro x hx y ⟨⟩
      exact hlast x hx p (by simp)

end Joining

/-! ## The invariant -/

/-- The blocks `bs` are what the heap is made of. -/
structure Shape (start size : Nat) (h : Arena) (bs : List Blk) : Prop where
  nonempty : bs ≠ []
  head : h.head = start
  total : h.total = size
  laid : Laid h.mem 0 start 0 bs
  ends : endOf start bs = start + size
  apart : bs.IsChain Apart
  aligned : ∀ e ∈ placed start bs, 8 ∣ e.1
  roomy : ∀ e ∈ placed start bs, ∀ n, e.2.owner = some n → n ≤ e.2.size
  used : h.used = usedBy bs

section Shape

variable {start size : Nat} {h : Arena} {bs xs ys : List Blk} {b : Blk}

theorem Shape.init (hr : Region start size) (m : Mem) :
    Shape start size (heapInit m start size) [⟨size - HDR, none⟩] := by
  have hHDR : HDR = 24 := rfl
  obtain ⟨hpos, haligned, hroom, hshort, hinside⟩ := hr
  have hsize : (size + 2 ^ 64 - HDR) % 2 ^ 32 = size - HDR := by omega
  refine ⟨List.cons_ne_nil _ _, rfl, Nat.mod_eq_of_lt hshort, ⟨?_, trivial⟩, ?_, .singleton _, ?_, ?_, rfl⟩
  · rw [show (heapInit m start size).mem = setPrev (setNext (setFree (setSize m start
      (size + 2 ^ 64 - HDR)) start true) start 0) start 0 from rfl, block_setPrev (by omega),
      block_setNext (by omega), block_setFree, block_setSize_mod, hsize]
    rfl
  · rw [endOf, endOf]
    dsimp only
    omega
  · intro e he
    rw [placed, placed, List.mem_singleton] at he
    rw [he]
    exact haligned
  · intro e he n hn
    rw [placed, placed, List.mem_singleton] at he
    rw [he] at hn
    cases hn

/-! ## Asking for memory -/

theorem mask_eq (x : BitVec 64) : x &&& ~~~ 7#64 = (x >>> 3) <<< 3 := by
  apply BitVec.eq_of_getLsbD_eq
  intro i hi
  have h7 : ∀ i < 64, (7#64).getLsbD i = decide (i < 3) := by decide
  rw [BitVec.getLsbD_and, BitVec.getLsbD_not, h7 i hi, BitVec.getLsbD_shiftLeft, BitVec.getLsbD_ushiftRight]
  by_cases h : i < 3
  · simp [h]
  · simp [h, hi, show 3 + (i - 3) = i by omega]

theorem roundUp_toNat {n : UInt64} (h : n ≤ 0xFFFFFF00) : (roundUp n).toNat = (n.toNat + 7) / 8 * 8 := by
  have hle : n.toNat ≤ 0xFFFFFF00 := h
  have hsum : (n + 7).toNat = n.toNat + 7 := by
    rw [UInt64.toNat_add]
    exact Nat.mod_eq_of_lt (by simp; omega)
  have hmask : (roundUp n).toNat = ((n + 7).toBitVec &&& ~~~ 7#64).toNat := rfl
  rw [hmask, mask_eq, BitVec.toNat_shiftLeft, BitVec.toNat_ushiftRight, Nat.shiftLeft_eq,
    Nat.shiftRight_eq_div_pow, show (n + 7).toBitVec.toNat = n.toNat + 7 from hsum]
  omega

/-- A free block is claimed: all of it, or its front with the rest left free. -/
structure Claimed (start : Nat) (h h' : Arena) (xs : List Blk) (b : Blk) (ys : List Blk) (n req k : Nat)
    (rest : List Blk) : Prop where
  laid : Laid h'.mem 0 start 0 (xs ++ ⟨k, some req⟩ :: (rest ++ ys))
  ends : endOf (endOf start xs) (⟨k, some req⟩ :: rest) = endOf start xs + HDR + b.size
  fits : n ≤ k
  rest : rest = [] ∨ (∃ r, rest = [⟨r, none⟩]) ∧ k = n
  used : h'.used = u32 (h.used + k + HDR)
  same : h'.head = h.head ∧ h'.total = h.total
  frame : ∀ x, Held start (xs ++ b :: ys) x → h'.mem x = h.mem x

theorem claim_claimed (req : Nat) (hr : Region start size) (hs : Shape start size h (xs ++ b :: ys))
    (hfree : b.free = true) (hfits : n ≤ b.size) :
    ∃ k rest, Claimed start h (claim h (endOf start xs) n) xs b ys n req k rest := by
  have hHDR : HDR = 24 := rfl
  set a := endOf start xs with ha
  obtain ⟨hxs, hb⟩ := laid_append.mp hs.laid
  have hends := hs.ends
  rw [endOf_focus, ← ha] at hends
  have hle := le_endOf (a + HDR + b.size) ys
  have hstart := le_endOf start xs
  have hshort := hr.short
  have hinside := hr.inside
  have hpos := hr.pos
  have houtside : ∀ x, Held start (xs ++ b :: ys) x → x < a ∨ a + HDR + b.size ≤ x := fun x hx =>
    hx.not_free (mem_placed_focus start xs b ys) hfree
  have hheaders : ∀ x, Held start (xs ++ b :: ys) x → ys ≠ [] →
      x < a + HDR + b.size ∨ a + HDR + b.size + HDR ≤ x := fun x hx hne => by
    obtain ⟨y, ys', rfl⟩ := List.exists_cons_of_ne_nil hne
    refine hx.outside (a + HDR + b.size, y) ?_
    rw [placed_append]
    exact List.mem_append_right _ (List.mem_cons_of_mem _ List.mem_cons_self)
  by_cases hsmall : b.size < n + HDR + MIN_SPLIT
  · have hsplit : split h.mem a n = h.mem := if_pos (by rw [hb.1]; exact hsmall)
    have hlaid : Laid (setFree h.mem a false) (lastOf 0 start xs) a 0 (⟨b.size, some req⟩ :: ys) :=
      Laid.setFree (c := ⟨b.size, some req⟩) hb rfl
    refine ⟨b.size, [], ?_, rfl, hfits, .inl rfl, ?_, ⟨rfl, rfl⟩, fun x hx => ?_⟩
    · show Laid (setFree (split h.mem a n) a false) 0 start 0 _
      rw [hsplit]
      exact hs.laid.refocus hlaid fun x hx => setFree_of_outside (.inl hx)
    · show u32 (h.used + (block (setFree (split h.mem a n) a false) a).size + HDR) = _
      rw [hsplit, hlaid.1]
    · show setFree (split h.mem a n) a false x = _
      rw [hsplit]
      exact setFree_of_outside (by have := houtside x hx; omega)
  · obtain ⟨hcut, hframe⟩ := split_laid hb hfree (not_lt.mp hsmall) (by omega) (by omega) (by omega)
    have hlaid : Laid (setFree (split h.mem a n) a false) (lastOf 0 start xs) a 0
        (⟨n, some req⟩ :: ⟨b.size - n - HDR, none⟩ :: ys) :=
      Laid.setFree (c := ⟨n, some req⟩) hcut rfl
    have hMIN : MIN_SPLIT = 16 := rfl
    refine ⟨n, [⟨b.size - n - HDR, none⟩], ?_, ?_, le_rfl, .inr ⟨⟨_, rfl⟩, rfl⟩, ?_, ⟨rfl, rfl⟩, fun x hx => ?_⟩
    · refine hs.laid.refocus hlaid fun x hx => ?_
      show setFree (split h.mem a n) a false x = _
      rw [setFree_of_outside (.inl hx)]
      exact hframe x (.inl hx) (.inl (by omega)) fun _ => .inl (by omega)
    · rw [endOf, endOf, endOf]
      dsimp only
      omega
    · show u32 (h.used + (block (setFree (split h.mem a n) a false) a).size + HDR) = _
      rw [hlaid.1]
    · show setFree (split h.mem a n) a false x = _
      have hx' := houtside x hx
      rw [setFree_of_outside (by omega)]
      exact hframe x (by omega) (by omega) (hheaders x hx)

variable {h' : Arena} {n req k : Nat} {rest : List Blk}

theorem Claimed.cut (hc : Claimed start h h' xs b ys n req k rest) (hfree : b.free = true) : Cut start xs b n req k rest :=
  ⟨hfree, hc.ends, hc.fits, hc.rest⟩

theorem usedBy_free (hrest : ∀ c ∈ rest, c.owner = none) : usedBy rest = 0 := by
  induction rest with
  | nil => rfl
  | cons c rest ih =>
    have hfree : c.free = true := Option.isNone_iff_eq_none.mpr (hrest c List.mem_cons_self)
    rw [usedBy_cons, cost_free hfree, ih fun d hd => hrest d (List.mem_cons_of_mem _ hd)]

theorem Claimed.shape (hr : Region start size) (hs : Shape start size h (xs ++ b :: ys)) (hfree : b.free = true)
    (hc : Claimed start h h' xs b ys n req k rest) (hreq : req ≤ n) (h8 : 8 ∣ n) :
    Shape start size h' (xs ++ ⟨k, some req⟩ :: (rest ++ ys)) := by
  have hHDR : HDR = 24 := rfl
  have hcut := hc.cut hfree
  have hends : endOf start (xs ++ ⟨k, some req⟩ :: (rest ++ ys)) = start + size := hcut.endOf.trans hs.ends
  refine ⟨by simp, hc.same.1.trans hs.head, hc.same.2.trans hs.total, hc.laid, hends, hcut.apart hs.apart, ?_, ?_, ?_⟩
  · intro e he
    rcases hcut.placed he with he | rfl | ⟨-, he⟩
    · exact hs.aligned e he
    · exact hs.aligned (endOf start xs, b) (mem_placed_focus start xs b ys)
    · have := hs.aligned _ (mem_placed_focus start xs b ys)
      rw [he]
      dsimp only at this
      omega
  · intro e he m hm
    rcases hcut.placed he with he | rfl | ⟨hnone, -⟩
    · exact hs.roomy e he m hm
    · cases hm
      exact hreq.trans hc.fits
    · rw [hnone] at hm
      cases hm
  · have hle := usedBy_le start (xs ++ ⟨k, some req⟩ :: (rest ++ ys))
    have hshort := hr.short
    have hsum : usedBy (xs ++ ⟨k, some req⟩ :: (rest ++ ys)) = usedBy (xs ++ b :: ys) + k + HDR := by
      simp only [usedBy_append, usedBy_cons, cost_free hfree, cost_held (b := ⟨k, some req⟩) rfl,
        usedBy_free hcut.rest_free]
      omega
    rw [hc.used, hs.used, u32, hsum, Nat.mod_eq_of_lt]
    omega

theorem kmalloc_cases (hr : Region start size) (hs : Shape start size h bs) (n : UInt64) :
    kmalloc n h = (0, h) ∨
      ∃ xs b ys k rest, bs = xs ++ b :: ys ∧ b.free = true ∧ (kmalloc n h).1 = endOf start xs + HDR ∧
        Claimed start h (kmalloc n h).2 xs b ys (roundUp n).toNat n.toNat k rest ∧
        Shape start size (kmalloc n h).2 (xs ++ ⟨k, some n.toNat⟩ :: (rest ++ ys)) := by
  unfold kmalloc
  split_ifs with hbad
  · exact .inl rfl
  obtain ⟨-, hbig⟩ := not_or.mp hbad
  have hround := roundUp_toNat (UInt64.not_lt.mp hbig)
  have hlen : bs.length ≤ size := by
    have := le_endOf start bs
    rw [hs.ends, HDR] at this
    omega
  have hlink : linkTo start bs = start := if_neg hs.nonempty
  have hfit := firstFit_laid (n := (roundUp n).toNat) hs.laid hr.pos hlen
  rw [hlink] at hfit
  rw [hs.total, hs.head]
  rcases hfit with ⟨xs, b, ys, rfl, hfree, hsize, hfind⟩ | ⟨-, hfind⟩
  · obtain ⟨k, rest, hc⟩ := claim_claimed n.toNat hr hs hfree hsize
    rw [hfind]
    refine .inr ⟨xs, b, ys, k, rest, rfl, hfree, rfl, hc, hc.shape hr hs hfree ?_ ?_⟩
    · omega
    · rw [hround]
      exact Nat.dvd_mul_left 8 _
  · rw [hfind]
    exact .inl rfl

/-! ## Giving it back -/

/-- A block is marked free, then what is after it joins it, then what is before it. -/
def freed (m : Mem) (b : Nat) : Mem := mergeBackward (mergeForward (setFree m b true) b) b

theorem kfree_eq {a : Nat} (hheld : (block h.mem a).free = false) :
    kfree (a + HDR) h =
      ⟨freed h.mem a, h.head, h.total, u32 (h.used + 2 ^ 64 - ((block h.mem a).size + HDR))⟩ := by
  have hsize : (block (setFree h.mem a true) a).size = (block h.mem a).size := by rw [block_setFree]
  rw [kfree, if_neg (by rw [HDR]; omega)]
  dsimp only
  rw [Nat.add_sub_cancel, hheld, if_neg Bool.false_ne_true, hsize, freed]

theorem freed_laid {m : Mem} (h : Laid m 0 start 0 (xs ++ b :: ys)) (hpos : 0 < start)
    (hapart : (xs ++ b :: ys).IsChain Apart) (hsize : endOf start (xs ++ b :: ys) < start + 2 ^ 32)
    (haddr : endOf start (xs ++ b :: ys) < 2 ^ 64) :
    ∃ bs', Laid (freed m (endOf start xs)) 0 start 0 bs' ∧ bs'.IsChain Apart ∧
      Coarser start (xs ++ ⟨b.size, none⟩ :: ys) bs' ∧
      ∀ x, (∀ f ∈ placed start (xs ++ b :: ys), x < f.1 ∨ f.1 + HDR ≤ x) →
        freed m (endOf start xs) x = m x := by
  obtain ⟨-, hb⟩ := laid_append.mp h
  obtain ⟨hcxs, hcb, -⟩ := List.isChain_append.mp hapart
  have hmark : Laid (setFree m (endOf start xs) true) 0 start 0 (xs ++ ⟨b.size, none⟩ :: ys) :=
    h.refocus (Laid.setFree (c := ⟨b.size, none⟩) hb rfl) fun x hx => setFree_of_outside (.inl hx)
  obtain ⟨c, zs, hjoin, hcfree, hczs, hcoarse⟩ :=
    @joinNext_spec start ⟨b.size, none⟩ xs ys rfl hcb.of_cons
  obtain ⟨hchain, hcoarse'⟩ := @joinPrev_spec start c xs zs hcxs hcfree hczs
  have hstart := le_endOf start xs
  have hfocus : endOf (endOf start xs) (⟨b.size, none⟩ :: ys) = endOf start (xs ++ b :: ys) := by
    rw [endOf_focus]
    rfl
  have hwhole : endOf start (xs ++ c :: zs) = endOf start (xs ++ b :: ys) := by
    rw [hcoarse.ends, endOf_focus, endOf_focus]
  obtain ⟨hforward, hframe2⟩ := mergeForward_laid (laid_append.mp hmark).2 rfl (by omega) (by omega)
  rw [hjoin] at hforward
  have hlaid2 : Laid (mergeForward (setFree m (endOf start xs) true) (endOf start xs)) 0 start 0
      (xs ++ c :: zs) := hmark.refocus hforward fun x hx =>
    hframe2 x fun f hf => .inl (lt_of_lt_of_le hx (placed_bounds hf).1)
  obtain ⟨hlaid3, hframe3⟩ := mergeBackward_laid hlaid2 hpos (by omega) (by omega)
  refine ⟨joinPrev xs c zs, hlaid3, hchain, hcoarse.trans hcoarse', fun x hx => ?_⟩
  have hat := hx (endOf start xs, b) (mem_placed_focus start xs b ys)
  have hout : ∀ f ∈ placed start (xs ++ ⟨b.size, none⟩ :: ys), x < f.1 ∨ f.1 + HDR ≤ x := by
    intro f hf
    rcases placed_marked hf with hf | ⟨hf, -⟩
    · exact hx f hf
    · rw [hf]
      exact hat
  rw [freed, hframe3 x, hframe2 x]
  · exact setFree_of_outside hat
  · intro f hf
    refine hout f ?_
    rw [placed_append]
    exact List.mem_append_right _ hf
  · intro f hf
    obtain ⟨d, hd, -⟩ := hcoarse.addrs f hf
    exact hout (f.1, d) hd

theorem kfree_shape (hr : Region start size) (hs : Shape start size h (xs ++ b :: ys))
    (hown : b.owner = some n) :
    ∃ bs', Shape start size (kfree (endOf start xs + HDR) h) bs' ∧
      owned start bs' = owned start xs ++ owned (endOf start xs + HDR + b.size) ys ∧
      ∀ x, Held start (xs ++ b :: ys) x → (kfree (endOf start xs + HDR) h).mem x = h.mem x := by
  obtain ⟨-, hb⟩ := laid_append.mp hs.laid
  have hends := hs.ends
  have hshort := hr.short
  have hinside := hr.inside
  have hheld : (block h.mem (endOf start xs)).free = false := by
    rw [hb.1]
    simp [Blk.free, hown]
  have hsize : (block h.mem (endOf start xs)).size = b.size := by rw [hb.1]
  have hat := mem_placed_focus start xs b ys
  obtain ⟨bs', hlaid, hchain, hcoarse, hframe⟩ :=
    freed_laid hs.laid hr.pos hs.apart (by omega) (by omega)
  have hwhole : endOf start bs' = start + size := by
    rw [hcoarse.ends, ← hends, endOf_focus, endOf_focus]
  have hused : u32 (h.used + 2 ^ 64 - (b.size + HDR)) = usedBy bs' := by
    have hle := usedBy_le start (xs ++ b :: ys)
    have hsum : usedBy (xs ++ b :: ys) = usedBy (xs ++ ⟨b.size, none⟩ :: ys) + (b.size + HDR) := by
      simp only [usedBy_append, usedBy_cons, cost_held hown, cost_free (b := ⟨b.size, none⟩) rfl]
      omega
    rw [hcoarse.used, hs.used, u32, hsum]
    omega
  rw [kfree_eq hheld, hsize, hused]
  refine ⟨bs', ⟨?_, hs.head, hs.total, ?_, hwhole, hchain, ?_, ?_, rfl⟩, ?_, ?_⟩
  · rintro rfl
    rw [endOf] at hwhole
    have := hr.room
    rw [HDR] at this
    omega
  · dsimp only
    exact hlaid
  · intro e he
    obtain ⟨d, hd, -⟩ := hcoarse.addrs e he
    rcases placed_marked hd with hd | ⟨hd, -⟩
    · exact hs.aligned (e.1, d) hd
    · rw [show e.1 = endOf start xs from hd]
      exact hs.aligned _ hat
  · intro e he k hk
    have hne : e.2.owner ≠ none := by simp [hk]
    obtain ⟨d, hd, heq⟩ := hcoarse.addrs e he
    rw [← heq hne] at hd
    rcases placed_marked hd with hd | ⟨-, hnone⟩
    · exact hs.roomy _ hd k hk
    · exact absurd hnone hne
  · rw [hcoarse.owned, owned_append, owned_cons_free rfl]
  · intro x hx
    dsimp only
    exact hframe x hx.outside

end Shape

/-! ## Every run -/

/-- The blocks are the heap's, and the ones that are held are the ones that were handed out. -/
structure Good (start size : Nat) (s : Sys) (bs : List Blk) : Prop where
  shape : Shape start size s.heap bs
  live : ∀ p n, s.live p = some n ↔ ∃ a, p = a + HDR ∧ (a, n) ∈ owned start bs

section Runs

variable {start size : Nat} {s : Sys} {bs : List Blk} {op : Op}

theorem Good.held (h : Good start size s bs) (hlive : s.live p = some n) :
    ∃ xs b ys, bs = xs ++ b :: ys ∧ b.owner = some n ∧ p = endOf start xs + HDR ∧ n ≤ b.size := by
  obtain ⟨a, rfl, hown⟩ := (h.live p n).mp hlive
  obtain ⟨b, hmem, hb⟩ := mem_owned.mp hown
  obtain ⟨xs, ys, rfl, ha⟩ := exists_focus hmem
  exact ⟨xs, b, ys, rfl, hb, congrArg (· + HDR) ha, h.shape.roomy _ hmem n hb⟩

theorem Good.held_bytes (h : Good start size s bs) (hlive : s.live p = some n) (hoff : off < n) :
    Held start bs (p + off) := by
  obtain ⟨xs, b, ys, rfl, hb, rfl, hroom⟩ := h.held hlive
  exact ⟨endOf start xs, b, n, mem_placed_focus start xs b ys, hb, by omega, by omega⟩

theorem Good.malloc (hr : Region start size) (h : Good start size s bs) (n : UInt64) :
    ∃ bs', Good start size (step s (.malloc n)) bs' ∧
      ∀ x, Held start bs x → (step s (.malloc n)).heap.mem x = s.heap.mem x := by
  rcases kmalloc_cases hr h.shape n with hnone | ⟨xs, b, ys, k, rest, rfl, hfree, hptr, hclaim, hshape⟩
  · have hsame : step s (.malloc n) = s := by
      rw [step, hnone]
      rfl
    rw [hsame]
    exact ⟨bs, h, fun _ _ => rfl⟩
  · have hne : (kmalloc n s.heap).1 ≠ 0 := by
      rw [hptr, HDR]
      omega
    have hlive : (step s (.malloc n)).live =
        Function.update s.live (endOf start xs + HDR) (some n.toNat) := by
      rw [step]
      dsimp only
      rw [if_neg hne, hptr]
    refine ⟨_, ⟨hshape, ?_⟩, hclaim.frame⟩
    rw [hlive]
    exact Tracks.cut h.live (hclaim.cut hfree)

theorem Good.free (hr : Region start size) (h : Good start size s bs) {p n : Nat} (hlive : s.live p = some n) :
    ∃ bs', Good start size (step s (.free p)) bs' ∧
      ∀ x, Held start bs x → (step s (.free p)).heap.mem x = s.heap.mem x := by
  obtain ⟨xs, b, ys, rfl, hown, rfl, -⟩ := h.held hlive
  obtain ⟨bs', hshape, howned, hframe⟩ := kfree_shape hr h.shape hown
  exact ⟨bs', ⟨hshape, Tracks.release h.live hown howned⟩, hframe⟩

theorem Good.write (h : Good start size s bs) {p n off : Nat} (v : UInt8) (hlive : s.live p = some n)
    (hoff : off < n) : Good start size (step s (.write p off v)) bs := by
  have hheld := h.held_bytes hlive hoff
  have hlaid : Laid (Function.update s.heap.mem (p + off) v) 0 start 0 bs := by
    refine h.shape.laid.congr fun e he x hlo hhi => Function.update_of_ne ?_ _ _
    have := hheld.outside e he
    omega
  exact ⟨{ h.shape with laid := hlaid }, h.live⟩

theorem Good.step (hr : Region start size) (h : Good start size s bs) (hlegal : Legal s op) :
    ∃ bs', Good start size (Heap.step s op) bs' := by
  cases op with
  | malloc n =>
    obtain ⟨bs', hgood, -⟩ := h.malloc hr n
    exact ⟨bs', hgood⟩
  | free p =>
    obtain ⟨n, hlive⟩ := hlegal
    obtain ⟨bs', hgood, -⟩ := h.free hr hlive
    exact ⟨bs', hgood⟩
  | write p off v =>
    obtain ⟨n, hlive, hoff⟩ := hlegal
    exact ⟨bs, h.write v hlive hoff⟩

theorem Run.good (hr : Region start size) (h : Run start size s) : ∃ bs, Good start size s bs := by
  induction h with
  | start m =>
    refine ⟨_, Shape.init hr m, fun p n => ⟨fun hcontra => (nomatch hcontra), ?_⟩⟩
    rintro ⟨a, -, hmem⟩
    cases hmem
  | step _ hlegal ih =>
    obtain ⟨bs, hgood⟩ := ih
    exact hgood.step hr hlegal

/-- The block list tiles the region, and what is held is whole. -/
structure Whole (start size : Nat) (s : Sys) (bs : List Blk) : Prop where
  linked : s.heap.head = start ∧ Laid s.heap.mem 0 start 0 bs
  tiles : endOf start bs = start + size
  merged : bs.IsChain Apart
  live : ∀ p n, s.live p = some n ↔ ∃ len, Payload start bs p n len
  aligned : ∀ p n len, Payload start bs p n len → 8 ∣ p ∧ n ≤ len
  disjoint : ∀ p q n k len len', Payload start bs p n len → Payload start bs q k len' → p ≠ q →
    p + len ≤ q ∨ q + len' ≤ p
  used : s.heap.used = usedBy bs

theorem Good.whole (h : Good start size s bs) : Whole start size s bs where
  linked := ⟨h.shape.head, h.shape.laid⟩
  tiles := h.shape.ends
  merged := h.shape.apart
  used := h.shape.used
  live := Tracks.payload h.live
  aligned := by
    rintro p n len ⟨a, rfl, hmem⟩
    have h8 : 8 ∣ a := h.shape.aligned _ hmem
    exact ⟨by rw [HDR]; omega, h.shape.roomy _ hmem n rfl⟩
  disjoint _ _ _ _ _ _ hp hq := payload_disjoint hp hq

theorem Good.frame (hr : Region start size) (h : Good start size s bs) (hlegal : Legal s op)
    (hlive : s.live p = some n) (hoff : off < n) (hwrite : ∀ off v, op ≠ .write p off v) :
    (Heap.step s op).heap.mem (p + off) = s.heap.mem (p + off) := by
  cases op with
  | malloc k =>
    obtain ⟨-, -, hframe⟩ := h.malloc hr k
    exact hframe _ (h.held_bytes hlive hoff)
  | free q =>
    obtain ⟨k, hq⟩ := hlegal
    obtain ⟨-, -, hframe⟩ := h.free hr hq
    exact hframe _ (h.held_bytes hlive hoff)
  | write q off' v =>
    obtain ⟨k, hq, hoff'⟩ := hlegal
    have hne : p ≠ q := fun heq => hwrite off' v (by rw [heq])
    obtain ⟨len, hp⟩ := (h.whole.live p n).mp hlive
    obtain ⟨len', hq'⟩ := (h.whole.live q k).mp hq
    have hroom := (h.whole.aligned _ _ _ hp).2
    have hroom' := (h.whole.aligned _ _ _ hq').2
    refine Function.update_of_ne ?_ _ _
    rcases h.whole.disjoint _ _ _ _ _ _ hp hq' hne with hlt | hlt
    · omega
    · omega

/-- Through every run the blocks tile the region and what is held is whole; no call changes what
somebody else holds, and a request that is refused changes nothing. -/
theorem heap_sound (start size : Nat) (hr : Region start size) (s : Sys) (h : Run start size s) :
    (∃ bs, Whole start size s bs) ∧
      (∀ op, Legal s op → ∀ p n, s.live p = some n → (∀ off v, op ≠ .write p off v) →
        ∀ off, off < n → (step s op).heap.mem (p + off) = s.heap.mem (p + off)) ∧
      ∀ n, (kmalloc n s.heap).1 = 0 → kmalloc n s.heap = (0, s.heap) := by
  obtain ⟨bs, hgood⟩ := h.good hr
  refine ⟨⟨bs, hgood.whole⟩, fun op hlegal p n hlive hwrite off hoff => hgood.frame hr hlegal hlive hoff hwrite,
    fun n hnone => ?_⟩
  rcases kmalloc_cases hr hgood.shape n with heq | ⟨xs, b, ys, k, rest, -, -, hptr, -⟩
  · exact heq
  · rw [hptr, HDR] at hnone
    omega

/-- Two requests and one of them given back, in a region of two hundred bytes. -/
def sampleSys : Sys :=
  step (step (step ⟨heapInit (fun _ => 7) 4096 200, fun _ => none⟩ (.malloc 10)) (.malloc 30)) (.free 4120)

theorem sampleSys_sound :
    sampleSys.live 4120 = none ∧ sampleSys.live 4160 = some 30 ∧ sampleSys.heap.used = 56 ∧
      kmalloc (2 ^ 64 - 1) sampleSys.heap = (0, sampleSys.heap) ∧ ∃ bs, Whole 4096 200 sampleSys bs := by
  have hrun : Run 4096 200 sampleSys := by
    refine .step (.step (.step (.start _) ?_) ?_) ?_
    · trivial
    · trivial
    · exact ⟨10, by decide +kernel⟩
  have hsound := heap_sound 4096 200 ⟨by decide, by decide, by decide, by decide, by decide⟩ _ hrun
  exact ⟨by decide +kernel, by decide +kernel, by decide +kernel, hsound.2.2 _ (by decide +kernel), hsound.1⟩

/-! ## Nothing held -/

theorem eq_singleton_of_free (hne : bs ≠ []) (hfree : ∀ b ∈ bs, b.owner = none) (h : bs.IsChain Apart) :
    ∃ k, bs = [⟨k, none⟩] := by
  have hof : ∀ b ∈ bs, b.free = true := by
    intro b hb
    rw [Blk.free, hfree b hb]
    rfl
  rcases bs with _ | ⟨b, _ | ⟨c, _⟩⟩
  · exact absurd rfl hne
  · refine ⟨b.size, ?_⟩
    rw [← hfree b (by simp)]
  · exact absurd ⟨hof b (by simp), hof c (by simp)⟩ (List.isChain_cons_cons.mp h).1

/-- When all that was handed out has come back, in whatever order, one free block is the whole region again, and a
request is granted exactly when a new heap would grant it. -/
theorem heap_whole_again (start size : Nat) (hr : Region start size) (s : Sys) (h : Run start size s)
    (hnone : ∀ p, s.live p = none) :
    Laid s.heap.mem 0 start 0 [⟨size - HDR, none⟩] ∧ s.heap.used = 0 ∧
      ∀ n, (kmalloc n s.heap).1 =
        if (n = 0 ∨ n > 0xFFFFFF00) ∨ size - HDR < (roundUp n).toNat then 0 else start + HDR := by
  obtain ⟨bs, hgood⟩ := h.good hr
  have hs := hgood.shape
  have howner : ∀ b ∈ bs, b.owner = none := by
    intro b hb
    rw [← Option.not_isSome_iff_eq_none, Option.isSome_iff_exists]
    rintro ⟨n, hn⟩
    obtain ⟨xs, ys, rfl⟩ := List.append_of_mem hb
    have hlive := (hgood.whole.live (endOf start xs + HDR) n).mpr
      ⟨b.size, _, rfl, by rw [← hn]; exact mem_placed_focus start xs b ys⟩
    rw [hnone] at hlive
    cases hlive
  obtain ⟨k, rfl⟩ := eq_singleton_of_free hs.nonempty howner hs.apart
  have hk : k = size - HDR := by
    have := hs.ends
    rw [endOf, endOf] at this
    dsimp only at this
    omega
  rw [hk] at hs
  refine ⟨hs.laid, hs.used, fun n => ?_⟩
  unfold kmalloc
  by_cases hbad : n = 0 ∨ n > 0xFFFFFF00
  · rw [if_pos hbad, if_pos (Or.inl hbad)]
  · have hlen : [(⟨size - HDR, none⟩ : Blk)].length ≤ size := by
      have := hr.room
      rw [HDR] at this
      rw [List.length_singleton]
      omega
    have hfit := firstFit_laid (n := (roundUp n).toNat) hs.laid hr.pos hlen
    rw [linkTo, if_neg (List.cons_ne_nil _ _)] at hfit
    rw [if_neg hbad, hs.total, hs.head]
    rcases hfit with ⟨xs, b, ys, heq, -, hsize, hfind⟩ | ⟨hsmall, hfind⟩
    · obtain ⟨rfl, rfl, rfl⟩ : xs = [] ∧ b = ⟨size - HDR, none⟩ ∧ ys = [] := by
        rcases List.append_eq_singleton_iff.mp heq.symm with ⟨rfl, hb⟩ | ⟨-, hb⟩
        · exact ⟨rfl, (List.cons.inj hb).1, (List.cons.inj hb).2⟩
        · cases hb
      rw [hfind, if_neg (not_or.mpr ⟨hbad, by simpa using hsize⟩)]
      rfl
    · rw [hfind, if_pos (Or.inr (hsmall _ List.mem_cons_self rfl))]

/-- Two requests, given back in the order they were made. -/
theorem heap_whole_again_sample : ∃ s, Run 4096 200 s ∧ s.heap.used = 0 ∧ (kmalloc 176 s.heap).1 = 4120 := by
  have hrun : Run 4096 200 (step sampleSys (.free 4160)) :=
    .step (.step (.step (.step (.start _) trivial) trivial) ⟨10, by decide +kernel⟩) ⟨30, by decide +kernel⟩
  have hlive : ∀ p, (step sampleSys (.free 4160)).live p = none := by
    intro p
    have h₁ : (kmalloc 10 (heapInit (fun _ => 7) 4096 200)).1 = 4120 := by decide +kernel
    have h₂ : (kmalloc 30 (step ⟨heapInit (fun _ => 7) 4096 200, fun _ => none⟩ (.malloc 10)).heap).1 = 4160 := by
      decide +kernel
    simp only [sampleSys, step] at h₂ ⊢
    simp only [h₁, h₂, Function.update_apply]
    split_ifs <;> simp_all
  obtain ⟨-, hused, hgrant⟩ :=
    heap_whole_again 4096 200 ⟨by decide, by decide, by decide, by decide, by decide⟩ _ hrun hlive
  exact ⟨_, hrun, hused, by rw [hgrant]; decide +kernel⟩

end Runs

end Zelr.Heap
