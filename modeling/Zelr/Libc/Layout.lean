import Zelr.Heap.Blocks

/-!
# The allocator of the C library

`stdlib.c` over byte-addressed memory. A block's header is as long as the kernel heap's, and is linked one way.
A pointer that is nought is none. The loops are given more turns than there are blocks: one for each byte below the
break.
-/

namespace Zelr.Libc

open Heap (HDR)

variable {x v turns : Nat} {c : Blk}

def ALIGN : Nat := 16

def CHUNK : Nat := 64 * 1024

def ENOMEM : Nat := 12

/-- `block`, as it reads from memory. -/
structure Block where
  size : Nat
  next : Nat
  used : Bool
  deriving Repr, DecidableEq

def block (m : Mem) (b : Nat) : Block := ⟨load m b 8, load m (b + 8) 8, load m (b + 16) 4 ≠ 0⟩

def setSize (m : Mem) (b v : Nat) : Mem := store m b 8 v

def setNext (m : Mem) (b v : Nat) : Mem := store m (b + 8) 8 v

def setUsed (m : Mem) (b : Nat) (v : Bool) : Mem := store m (b + 16) 4 v.toNat

/-- What a `size_t` keeps. -/
def word (v : Nat) : Nat := v % 2 ^ 64

def minus (a b : Nat) : Nat := word (a + (2 ^ 64 - b))

def roundUp (n : Nat) : Nat := word (n + (ALIGN - 1)) / ALIGN * ALIGN

/-! ## The kernel's side -/

/-- Where a program's heap is: not at address nought, and far from the end of the address space. -/
structure Space where
  base : Nat
  limit : Nat
  pos : 0 < base
  room : base ≤ limit
  high : limit < 2 ^ 63

structure Heap where
  mem : Mem
  /-- `heap_head` -/
  head : Nat
  /-- where the memory of the heap ends -/
  brk : Nat
  errno : Nat

def sbrk (sp : Space) (granted : Bool) (take : Nat) (h : Heap) : Option (Nat × Heap) :=
  if granted ∧ h.brk + take ≤ sp.limit then some (h.brk, { h with brk := h.brk + take }) else none

/-! ## The list -/

def split (m : Mem) (b want : Nat) : Mem :=
  if (block m b).size < word (want + HDR + ALIGN) then m
  else
    let rest := word (b + HDR + want)
    let m := setSize m rest (minus (minus (block m b).size want) HDR)
    let m := setUsed m rest false
    let m := setNext m rest (block m b).next
    let m := setSize m b want
    setNext m b rest

def joinForward : Nat → Mem → Nat → Mem
  | 0, m, _ => m
  | turns + 1, m, b =>
    let next := (block m b).next
    if next ≠ 0 ∧ (block m next).used = false ∧ word (b + HDR + (block m b).size) = next then
      let m := setSize m b (word ((block m b).size + (HDR + (block m next).size)))
      joinForward turns (setNext m b (block m next).next) b
    else m

def lastBlock (m : Mem) : Nat → Nat → Nat
  | 0, last => last
  | turns + 1, last => if (block m last).next = 0 then last else lastBlock m turns (block m last).next

def chunkFor (want : Nat) : Nat :=
  let take := word (want + HDR)
  roundUp (if take < CHUNK then CHUNK else take)

def fresh (m : Mem) (b take : Nat) : Mem :=
  let m := setSize m b (minus take HDR)
  let m := setUsed m b false
  setNext m b 0

def grow (sp : Space) (granted : Bool) (want : Nat) (h : Heap) : Nat × Heap :=
  let take := chunkFor want
  match sbrk sp granted take h with
  | none => (0, { h with errno := ENOMEM })
  | some (b, h) =>
    let m := fresh h.mem b take
    if h.head = 0 then (b, { h with mem := m, head := b })
    else
      let last := lastBlock m h.brk h.head
      let m := setNext m last b
      let m := joinForward h.brk m last
      (if (block m last).used then b else last, { h with mem := m })

def firstFit (m : Mem) (want : Nat) : Nat → Nat → Option Nat
  | 0, _ => none
  | turns + 1, b =>
    if b = 0 then none
    else if (block m b).used ∨ (block m b).size < want then firstFit m want turns (block m b).next
    else some b

def claim (m : Mem) (b want : Nat) : Mem := setUsed (split m b want) b true

/-! ## What programs call -/

def malloc (sp : Space) (granted : Bool) (n : Nat) (h : Heap) : Nat × Heap :=
  let n := if n = 0 then 1 else n
  if n > 2 ^ 64 - 1 - HDR - ALIGN then (0, { h with errno := ENOMEM })
  else
    let want := roundUp n
    match firstFit h.mem want h.brk h.head with
    | some b => (b + HDR, { h with mem := claim h.mem b want })
    | none =>
      let r := grow sp granted want h
      if r.1 = 0 then r
      else if (block r.2.mem r.1).used ∨ (block r.2.mem r.1).size < want then (0, { r.2 with errno := ENOMEM })
      else (r.1 + HDR, { r.2 with mem := claim r.2.mem r.1 want })

/-- The walk of `free`: each block that is not in use takes in what follows it. -/
def joinAll (span : Nat) : Nat → Mem → Nat → Mem
  | 0, m, _ => m
  | turns + 1, m, q =>
    if q = 0 then m
    else
      let m := if (block m q).used then m else joinForward span m q
      joinAll span turns m (block m q).next

def free (p : Nat) (h : Heap) : Heap :=
  if p = 0 then h
  else
    let b := p - HDR
    if (block h.mem b).used = false then h
    else
      let m := setUsed h.mem b false
      let m := joinForward h.brk m b
      { h with mem := joinAll h.brk h.brk m h.head }

def zeroed (m : Mem) (p n : Nat) : Mem := fun x => if p ≤ x ∧ x < p + n then 0 else m x

def copied (m : Mem) (out p n : Nat) : Mem := fun x => if out ≤ x ∧ x < out + n then m (p + (x - out)) else m x

def calloc (sp : Space) (granted : Bool) (count size : Nat) (h : Heap) : Nat × Heap :=
  if count ≠ 0 ∧ size > (2 ^ 64 - 1) / count then (0, { h with errno := ENOMEM })
  else
    let n := word (count * size)
    let r := malloc sp granted n h
    if r.1 = 0 then r else (r.1, { r.2 with mem := zeroed r.2.mem r.1 n })

def realloc (sp : Space) (granted : Bool) (p n : Nat) (h : Heap) : Nat × Heap :=
  if p = 0 then malloc sp granted n h
  else if n = 0 then (0, free p h)
  else
    let b := p - HDR
    if (block h.mem b).size ≥ roundUp n then (p, h)
    else
      let r := malloc sp granted n h
      if r.1 = 0 then r
      else (r.1, free p { r.2 with mem := copied r.2.mem r.1 p (block r.2.mem b).size })

/-!
## The list of blocks in memory

What each walk and each change of the list does to a row of blocks: cutting, joining, looking for one.
-/

open Zelr.Heap (HDR Blk endOf placed linkTo Apart Coarser endOf_append placed_append le_endOf placed_bounds placed_apart
  coarser_merge)

/-! ## Reading a header after a write -/

section Fields

variable {m m' : Mem} {a b v : Nat}

theorem block_congr (h : ∀ x, b ≤ x → x < b + HDR → m' x = m x) : block m' b = block m b := by
  have hsize : load m' b 8 = load m b 8 := load_congr fun x hlo hhi => h x hlo (by unfold HDR; omega)
  have hnext : load m' (b + 8) 8 = load m (b + 8) 8 := load_congr fun x hlo hhi => h x (by omega) (by unfold HDR; omega)
  have hused : load m' (b + 16) 4 = load m (b + 16) 4 :=
    load_congr fun x hlo hhi => h x (by omega) (by unfold HDR; omega)
  rw [block, block, hsize, hnext, hused]

theorem setSize_of_outside (h : x < b ∨ b + HDR ≤ x) : setSize m b v x = m x :=
  store_of_outside (by unfold HDR at h; omega)

theorem setNext_of_outside (h : x < b ∨ b + HDR ≤ x) : setNext m b v x = m x :=
  store_of_outside (by unfold HDR at h; omega)

theorem setUsed_of_outside {u : Bool} (h : x < b ∨ b + HDR ≤ x) : setUsed m b u x = m x :=
  store_of_outside (by unfold HDR at h; omega)

theorem block_setSize (hv : v < 2 ^ 64) : block (setSize m b v) b = { block m b with size := v } := by
  have hsize : load (setSize m b v) b 8 = v := (load_store m b 8 v).trans (Nat.mod_eq_of_lt (by simpa using hv))
  have hnext : load (setSize m b v) (b + 8) 8 = load m (b + 8) 8 := load_store_apart (.inr (by omega))
  have hused : load (setSize m b v) (b + 16) 4 = load m (b + 16) 4 := load_store_apart (.inr (by omega))
  rw [block, hsize, hnext, hused]
  rfl

theorem block_setNext (hv : v < 2 ^ 64) : block (setNext m b v) b = { block m b with next := v } := by
  have hsize : load (setNext m b v) b 8 = load m b 8 := load_store_apart (.inl (by omega))
  have hnext : load (setNext m b v) (b + 8) 8 = v :=
    (load_store m (b + 8) 8 v).trans (Nat.mod_eq_of_lt (by simpa using hv))
  have hused : load (setNext m b v) (b + 16) 4 = load m (b + 16) 4 := load_store_apart (.inr (by omega))
  rw [block, hsize, hnext, hused]
  rfl

theorem block_setUsed (u : Bool) : block (setUsed m b u) b = { block m b with used := u } := by
  have hsize : load (setUsed m b u) b 8 = load m b 8 := load_store_apart (.inl (by omega))
  have hnext : load (setUsed m b u) (b + 8) 8 = load m (b + 8) 8 := load_store_apart (.inl (by omega))
  have hused : load (setUsed m b u) (b + 16) 4 = u.toNat := by
    refine (load_store m (b + 16) 4 u.toNat).trans ?_
    cases u <;> rfl
  rw [block, hsize, hnext, hused]
  cases u <;> rfl

end Fields

/-! ## Rows of blocks -/

/-- The blocks lie in memory from `a` on, the last of them linked to `after`. -/
def Laid (m : Mem) : Nat → Nat → List Blk → Prop
  | _, _, [] => True
  | a, after, b :: bs =>
    block m a = ⟨b.size, if bs = [] then after else a + HDR + b.size, !b.free⟩ ∧ Laid m (a + HDR + b.size) after bs

section Layout

variable {m m' : Mem} {a after : Nat} {xs ys bs : List Blk} {b : Blk}

theorem Laid.congr (h : Laid m a after bs) (hm : ∀ e ∈ placed a bs, ∀ x, e.1 ≤ x → x < e.1 + HDR → m' x = m x) :
    Laid m' a after bs := by
  induction bs generalizing a with
  | nil => trivial
  | cons b bs ih =>
    refine ⟨?_, ih h.2 fun e he => hm e (List.mem_cons_of_mem _ he)⟩
    rw [block_congr (hm (a, b) List.mem_cons_self)]
    exact h.1

theorem Laid.frame (h : Laid m a after bs) (hm : ∀ x, a ≤ x → x < endOf a bs → m' x = m x) : Laid m' a after bs :=
  h.congr fun e he x hlo hhi => by
    have := placed_bounds he
    exact hm x (by omega) (by omega)

theorem laid_append {y : Blk} :
    Laid m a after (xs ++ y :: ys) ↔ Laid m a (endOf a xs) xs ∧ Laid m (endOf a xs) after (y :: ys) := by
  induction xs generalizing a with
  | nil => exact ⟨fun h => ⟨trivial, h⟩, fun h => h.2⟩
  | cons x xs ih =>
    rw [List.cons_append, Laid, Laid, ih, and_assoc, if_neg (by simp)]
    have hnext : (if xs = [] then endOf a (x :: xs) else a + HDR + x.size) = a + HDR + x.size := by
      split_ifs with hnil
      · rw [hnil]
        rfl
      · rfl
    rw [hnext]
    exact Iff.rfl

theorem Laid.refocus {zs : List Blk} (h : Laid m a after (xs ++ b :: ys))
    (hc : Laid m' (endOf a xs) after (c :: zs)) (hm : ∀ x, x < endOf a xs → m' x = m x) :
    Laid m' a after (xs ++ c :: zs) :=
  laid_append.mpr ⟨(laid_append.mp h).1.frame fun x _ hhi => hm x hhi, hc⟩

theorem Laid.setUsed (h : Laid m a after (b :: bs)) (hsize : c.size = b.size) :
    Laid (Libc.setUsed m a (!c.free)) a after (c :: bs) := by
  refine ⟨?_, ?_⟩
  · rw [block_setUsed, h.1, hsize]
  · rw [hsize]
    exact h.2.frame fun x hlo hhi => setUsed_of_outside (.inr (by omega))

/-! ## Cutting -/

theorem word_of_lt (h : v < 2 ^ 64) : word v = v := Nat.mod_eq_of_lt h

theorem minus_of_le {w : Nat} (hle : w ≤ v) (hlt : v < 2 ^ 64) : minus v w = v - w := by
  unfold minus word
  omega

theorem split_laid {n : Nat} (h : Laid m a 0 (b :: ys)) (hfree : b.free = true) (hfits : n + HDR + ALIGN ≤ b.size)
    (haddr : a + HDR + b.size < 2 ^ 64) :
    Laid (split m a n) a 0 (⟨n, none⟩ :: ⟨b.size - n - HDR, none⟩ :: ys) ∧
      ∀ x, (x < a ∨ a + HDR + b.size ≤ x) → split m a n x = m x := by
  obtain ⟨hb, hys⟩ := h
  have hHDR : HDR = 24 := rfl
  have hALIGN : ALIGN = 16 := rfl
  have hsize : (block m a).size = b.size := by rw [hb]
  have hleft : minus (minus (block m a).size n) HDR = b.size - n - HDR := by
    rw [hsize, minus_of_le (v := b.size) (w := n) (by omega) (by omega), minus_of_le (by omega) (by omega)]
  unfold split
  rw [word_of_lt (by omega), if_neg (by omega), word_of_lt (by omega), hleft]
  dsimp only
  set rest := a + HDR + n with hrest
  set m2 := Libc.setUsed (setSize m rest (b.size - n - HDR)) rest false with hm2
  have hout2 : ∀ x, (x < rest ∨ rest + HDR ≤ x) → m2 x = m x := fun x hx => by
    rw [hm2, setUsed_of_outside hx, setSize_of_outside hx]
  have ha2 : block m2 a = block m a := block_congr fun x hlo hhi => hout2 x (.inl (by omega))
  have hnext : (block m2 a).next = linkTo (a + HDR + b.size) ys := by
    rw [ha2, hb]
    rfl
  have hlt : linkTo (a + HDR + b.size) ys < 2 ^ 64 := by
    unfold linkTo
    split_ifs <;> omega
  rw [hnext]
  -- the new header, and then the one that was cut
  set m3 := setNext m2 rest (linkTo (a + HDR + b.size) ys) with hm3
  have hout3 : ∀ x, (x < rest ∨ rest + HDR ≤ x) → m3 x = m x := fun x hx => by
    rw [hm3, setNext_of_outside hx, hout2 x hx]
  have hrest3 : block m3 rest = ⟨b.size - n - HDR, linkTo (a + HDR + b.size) ys, false⟩ := by
    rw [hm3, block_setNext hlt, hm2, block_setUsed, block_setSize (by omega)]
  have ha3 : block m3 a = block m a := block_congr fun x hlo hhi => hout3 x (.inl (by omega))
  have hout : ∀ x, (x < a ∨ a + HDR ≤ x) → setNext (setSize m3 a n) a rest x = m3 x := fun x hx => by
    rw [setNext_of_outside hx, setSize_of_outside hx]
  have hend : rest + HDR + (b.size - n - HDR) = a + HDR + b.size := by omega
  refine ⟨⟨?_, ?_, ?_⟩, fun x hx => ?_⟩
  · rw [block_setNext (by omega), block_setSize (by omega), ha3, hb, hfree]
    rfl
  · rw [block_congr fun x hlo hhi => hout x (.inr (by omega)), hrest3]
    dsimp only
    rw [hend]
    rfl
  · dsimp only
    rw [hend]
    exact hys.frame fun x hlo hhi => by rw [hout x (.inr (by omega)), hout3 x (.inr (by omega))]
  · rw [hout x (by omega), hout3 x (by omega)]

/-! ## Joining -/

/-- A block with the free ones that follow it. -/
def joined (b : Blk) : List Blk → List Blk
  | [] => [b]
  | y :: ys => if y.free then joined ⟨b.size + (HDR + y.size), b.owner⟩ ys else b :: y :: ys

theorem joinForward_laid (turns : Nat) (h : Laid m a 0 (b :: ys)) (hpos : 0 < a) (hturns : ys.length ≤ turns)
    (haddr : endOf a (b :: ys) < 2 ^ 64) :
    Laid (joinForward turns m a) a 0 (joined b ys) ∧ ∀ x, (x < a ∨ a + HDR ≤ x) → joinForward turns m a x = m x := by
  have hHDR : HDR = 24 := rfl
  induction turns generalizing m b ys with
  | zero =>
    cases List.length_eq_zero_iff.mp (Nat.le_zero.mp hturns)
    exact ⟨h, fun _ _ => rfl⟩
  | succ turns ih =>
    rw [joinForward]
    dsimp only
    cases ys with
    | nil =>
      rw [if_neg (by rw [h.1]; exact fun hne => hne.1 rfl)]
      exact ⟨h, fun _ _ => rfl⟩
    | cons y ys =>
      obtain ⟨hb, hy, hys⟩ := h
      have hle := le_endOf (a + HDR + b.size + HDR + y.size) ys
      have hspan : endOf a (b :: y :: ys) = endOf (a + HDR + b.size + HDR + y.size) ys := rfl
      have hnext : (block m a).next = a + HDR + b.size := by rw [hb, if_neg (List.cons_ne_nil _ _)]
      rw [hnext, hy, hb]
      dsimp only
      rw [word_of_lt (show a + HDR + b.size < 2 ^ 64 by omega)]
      by_cases hfree : y.free = true
      · have hend : a + HDR + b.size + HDR + y.size = a + HDR + (b.size + (HDR + y.size)) := by omega
        rw [if_pos ⟨by omega, by rw [hfree]; rfl, rfl⟩, joined, if_pos hfree, word_of_lt (by omega)]
        set m1 := setSize m a (b.size + (HDR + y.size)) with hm1
        have hout1 : ∀ x, (x < a ∨ a + HDR ≤ x) → m1 x = m x := fun x hx => by rw [hm1, setSize_of_outside hx]
        have hy1 : block m1 (a + HDR + b.size) = block m (a + HDR + b.size) :=
          block_congr fun x hlo hhi => hout1 x (.inr (by omega))
        have hlt : (if ys = [] then 0 else a + HDR + b.size + HDR + y.size) < 2 ^ 64 := by split_ifs <;> omega
        rw [hy1, hy]
        dsimp only
        set m2 := setNext m1 a (if ys = [] then 0 else a + HDR + b.size + HDR + y.size) with hm2
        have hout2 : ∀ x, (x < a ∨ a + HDR ≤ x) → m2 x = m x := fun x hx => by
          rw [hm2, setNext_of_outside hx, hout1 x hx]
        have hlaid : Laid m2 a 0 (⟨b.size + (HDR + y.size), b.owner⟩ :: ys) := by
          refine ⟨?_, ?_⟩
          · rw [hm2, block_setNext hlt, hm1, block_setSize (by omega), hb, hend]
            rfl
          · dsimp only
            rw [← hend]
            exact hys.frame fun x hlo hhi => hout2 x (.inr (by omega))
        obtain ⟨hjoined, hout⟩ := ih hlaid (Nat.le_of_succ_le_succ hturns) (by
          rw [endOf, ← hend, ← hspan]
          exact haddr)
        exact ⟨hjoined, fun x hx => (hout x hx).trans (hout2 x hx)⟩
      · rw [if_neg (fun hall => hfree (by simpa using hall.2.1)), joined, if_neg hfree]
        exact ⟨⟨hb, hy, hys⟩, fun _ _ => rfl⟩

theorem owner_free (h : b.free = true) : b.owner = none := Option.isNone_iff_eq_none.mp h

theorem joined_spec (a : Nat) (xs ys : List Blk) (hb : b.free = true) :
    ∃ c zs, joined b ys = c :: zs ∧ c.free = true ∧ zs.length ≤ ys.length ∧ (∀ z ∈ zs.head?, z.free = false) ∧
      Coarser a (xs ++ b :: ys) (xs ++ c :: zs) := by
  induction ys generalizing b with
  | nil => exact ⟨b, [], rfl, hb, le_rfl, nofun, .refl _ _⟩
  | cons y ys ih =>
    by_cases hy : y.free = true
    · obtain ⟨c, zs, hjoined, hc, hlen, hhead, hcoarse⟩ := ih (b := ⟨b.size + (HDR + y.size), none⟩) rfl
      rw [joined, if_pos hy, owner_free hb]
      exact ⟨c, zs, hjoined, hc, hlen.trans (Nat.le_succ _), hhead, (coarser_merge hb hy).trans hcoarse⟩
    · rw [joined, if_neg hy]
      refine ⟨b, y :: ys, rfl, hb, le_rfl, ?_, .refl _ _⟩
      rintro z ⟨⟩
      exact Bool.eq_false_iff.mpr hy

theorem coarser_cons {bs' : List Blk} (h : Coarser (a + HDR + b.size) bs bs') : Coarser a (b :: bs) (b :: bs') := by
  refine ⟨h.ends, ?_, ?_, ?_⟩
  · have happ : ∀ zs, Heap.owned a (b :: zs) = Heap.owned a [b] ++ Heap.owned (a + HDR + b.size) zs := fun zs =>
      Heap.owned_append a [b] zs
    rw [happ bs', happ bs, h.owned]
  · rw [Heap.usedBy_cons, Heap.usedBy_cons, h.used]
  · intro e he
    rcases List.mem_cons.mp he with rfl | he
    · exact ⟨b, List.mem_cons_self, fun _ => rfl⟩
    · obtain ⟨c, hc, hsame⟩ := h.addrs e he
      exact ⟨c, List.mem_cons_of_mem _ hc, hsame⟩

/-- The walk of `free` leaves no two free blocks side by side. The blocks are fewer at each turn. -/
theorem joinAll_laid {span : Nat} (h : Laid m a 0 bs) (hpos : 0 < a) (hspan : bs.length ≤ span)
    (hturns : bs.length ≤ turns) (haddr : endOf a bs < 2 ^ 64) :
    ∃ bs', Laid (joinAll span turns m (linkTo a bs)) a 0 bs' ∧ Coarser a bs bs' ∧ bs'.IsChain Apart ∧
      (∀ z ∈ bs.head?, z.free = false → bs'.head? = some z) ∧ (bs = [] ↔ bs' = []) ∧
      ∀ x, (∀ f ∈ placed a bs, x < f.1 ∨ f.1 + HDR ≤ x) → joinAll span turns m (linkTo a bs) x = m x := by
  induction turns generalizing m a bs with
  | zero =>
    cases List.length_eq_zero_iff.mp (Nat.le_zero.mp hturns)
    exact ⟨[], h, .refl _ _, .nil, nofun, Iff.rfl, fun _ _ => rfl⟩
  | succ turns ih =>
    cases bs with
    | nil => exact ⟨[], h, .refl _ _, .nil, nofun, Iff.rfl, fun _ _ => rfl⟩
    | cons b bs =>
      have hHDR : HDR = 24 := rfl
      have hat : linkTo a (b :: bs) = a := if_neg (List.cons_ne_nil _ _)
      rw [hat, joinAll, if_neg (by omega)]
      dsimp only
      by_cases hfree : b.free = true
      · have hunused : ¬ (block m a).used = true := by
          rw [h.1, hfree]
          nofun
        rw [if_neg hunused]
        obtain ⟨hjoin, hout⟩ := joinForward_laid span h hpos (Nat.le_of_succ_le hspan) haddr
        obtain ⟨c, zs, hjoined, hc, hlen, hhead, hcoarse⟩ := joined_spec a [] bs hfree
        have hwhole : endOf (a + HDR + c.size) zs < 2 ^ 64 := hcoarse.ends.trans_lt haddr
        rw [hjoined] at hjoin
        obtain ⟨hat, hzs⟩ := hjoin
        have hnext : (block (joinForward span m a) a).next = linkTo (a + HDR + c.size) zs := by
          rw [hat]
          rfl
        rw [hnext]
        rw [List.length_cons] at hspan hturns
        obtain ⟨zs', hlaid, hcoarse', hchain, hfirst, hnil, hout'⟩ :=
          ih hzs (by omega) (by omega) (by omega) hwhole
        refine ⟨c :: zs', ⟨?_, hlaid⟩, hcoarse.trans (coarser_cons hcoarse'), .cons hchain fun y hy hboth => ?_, ?_, ?_,
          fun x hx => ?_⟩
        · rw [block_congr fun x hlo hhi => hout' x fun f hf => .inl ?_, hat]
          · simp only [hnil]
          · have := (placed_bounds hf).1
            omega
        · cases zs with
          | nil =>
            rw [hnil.mp rfl] at hy
            cases hy
          | cons z zs =>
            have hz := hhead z rfl
            rw [hfirst z rfl hz] at hy
            cases hy
            rw [hz] at hboth
            cases hboth.2
        · rintro z ⟨⟩ hz
          rw [hfree] at hz
          cases hz
        · exact ⟨nofun, nofun⟩
        · rw [hout' x fun f hf => ?_, hout x (hx (a, b) List.mem_cons_self)]
          obtain ⟨d, hd, -⟩ := hcoarse.addrs f (List.mem_cons_of_mem _ hf)
          exact hx (f.1, d) hd
      · have hused : (block m a).used = true := by
          rw [h.1]
          simpa using hfree
        have hnext : (block m a).next = linkTo (a + HDR + b.size) bs := by
          rw [h.1]
          rfl
        rw [if_pos hused, hnext]
        rw [List.length_cons] at hspan hturns
        obtain ⟨bs', hlaid, hcoarse, hchain, hfirst, hnil, hout⟩ := ih h.2 (by omega) (by omega) (by omega) haddr
        refine ⟨b :: bs', ⟨?_, hlaid⟩, coarser_cons hcoarse, .cons hchain fun y hy hboth => hfree hboth.1, fun z hz _ => hz,
          ⟨nofun, nofun⟩, fun x hx => hout x fun f hf => hx f (List.mem_cons_of_mem _ hf)⟩
        rw [block_congr fun x hlo hhi => hout x fun f hf => .inl ?_, h.1]
        · simp only [hnil]
        · have := (placed_bounds hf).1
          omega

/-! ## Looking for a block -/

theorem firstFit_laid (want : Nat) (h : Laid m a 0 bs) (hpos : 0 < a) (hturns : bs.length ≤ turns) :
    (∃ xs b ys, bs = xs ++ b :: ys ∧ b.free = true ∧ want ≤ b.size ∧
      firstFit m want turns (linkTo a bs) = some (endOf a xs)) ∨ firstFit m want turns (linkTo a bs) = none := by
  induction bs generalizing a turns with
  | nil =>
    refine .inr ?_
    cases turns <;> rfl
  | cons b bs ih =>
    obtain ⟨turns, rfl⟩ : ∃ k, turns = k + 1 := ⟨turns - 1, by rw [List.length_cons] at hturns; omega⟩
    rw [linkTo, if_neg (List.cons_ne_nil _ _), firstFit, if_neg (by omega), h.1]
    by_cases hfit : b.free = true ∧ want ≤ b.size
    · exact .inl ⟨[], b, bs, rfl, hfit.1, hfit.2, if_neg (by simp [hfit.1, hfit.2])⟩
    · have hskip : (!b.free) = true ∨ b.size < want := by
        by_cases hfree : b.free = true
        · exact .inr (not_le.mp fun hle => hfit ⟨hfree, hle⟩)
        · exact .inl (by simpa using hfree)
      rw [if_pos hskip]
      rcases ih h.2 (by omega) (by simpa using hturns) with ⟨xs, c, ys, rfl, hfree, hsize, hfind⟩ | hfind
      · exact .inl ⟨b :: xs, c, ys, rfl, hfree, hsize, hfind⟩
      · exact .inr hfind

theorem lastBlock_laid (h : Laid m a 0 (xs ++ [b])) (hpos : 0 < a) (hturns : xs.length ≤ turns) :
    lastBlock m turns a = endOf a xs := by
  induction xs generalizing a turns with
  | nil =>
    cases turns with
    | zero => rfl
    | succ turns =>
      rw [lastBlock, h.1]
      rfl
  | cons x xs ih =>
    obtain ⟨turns, rfl⟩ : ∃ k, turns = k + 1 := ⟨turns - 1, by rw [List.length_cons] at hturns; omega⟩
    rw [List.cons_append] at h
    obtain ⟨hx, hxs⟩ := h
    rw [if_neg (by simp)] at hx
    have hne : (block m a).next ≠ 0 := by
      rw [hx]
      dsimp only
      omega
    rw [lastBlock, if_neg hne, hx]
    have hlater : 0 < a + HDR + x.size := by omega
    exact ih hxs hlater (Nat.le_of_succ_le_succ hturns)

end Layout

end Zelr.Libc
