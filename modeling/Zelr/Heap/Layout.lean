import Zelr.Heap.Blocks

/-!
# Blocks laid out in memory

A list of blocks is laid out from an address on: each header says how long its payload is, whether it
is free, and where the blocks before and after it are.
-/

namespace Zelr.Heap

variable {x start p e n : Nat} {f : Bool} {c : Blk}

/-! ## Reading a header after a write -/

section Fields

variable {m m' : Mem} {a b v : Nat}

theorem block_congr (h : ∀ x, b ≤ x → x < b + HDR → m' x = m x) : block m' b = block m b := by
  have hsize : load m' b 4 = load m b 4 := load_congr fun x hlo hhi => h x hlo (by unfold HDR; omega)
  have hnext : load m' (b + 8) 8 = load m (b + 8) 8 :=
    load_congr fun x hlo hhi => h x (by omega) (by unfold HDR; omega)
  have hprev : load m' (b + 16) 8 = load m (b + 16) 8 :=
    load_congr fun x hlo hhi => h x (by omega) (by unfold HDR; omega)
  rw [block, block, hsize, hnext, hprev, h (b + 4) (by omega) (by unfold HDR; omega)]

theorem setSize_of_outside (h : x < b ∨ b + HDR ≤ x) : setSize m b v x = m x :=
  store_of_outside (by unfold HDR at h; omega)

theorem setFree_of_outside (h : x < b ∨ b + HDR ≤ x) : setFree m b f x = m x :=
  store_of_outside (by unfold HDR at h; omega)

theorem setNext_of_outside (h : x < b ∨ b + HDR ≤ x) : setNext m b v x = m x :=
  store_of_outside (by unfold HDR at h; omega)

theorem setPrev_of_outside (h : x < b ∨ b + HDR ≤ x) : setPrev m b v x = m x :=
  store_of_outside (by unfold HDR at h; omega)

theorem block_setSize_mod : block (setSize m b v) b = { block m b with size := v % 2 ^ 32 } := by
  have hsize : load (setSize m b v) b 4 = v % 2 ^ 32 := load_store m b 4 v
  have hfree : setSize m b v (b + 4) = m (b + 4) := store_of_outside (.inr (by omega))
  have hnext : load (setSize m b v) (b + 8) 8 = load m (b + 8) 8 := load_store_apart (.inr (by omega))
  have hprev : load (setSize m b v) (b + 16) 8 = load m (b + 16) 8 := load_store_apart (.inr (by omega))
  rw [block, hsize, hfree, hnext, hprev]
  rfl

theorem block_setSize (hv : v < 2 ^ 32) : block (setSize m b v) b = { block m b with size := v } := by
  rw [block_setSize_mod, Nat.mod_eq_of_lt hv]

theorem block_setFree (f : Bool) : block (setFree m b f) b = { block m b with free := f } := by
  have hsize : load (setFree m b f) b 4 = load m b 4 := load_store_apart (.inl (by omega))
  have hfree : (setFree m b f (b + 4) != 0) = f := by
    rw [setFree, store, store, Function.update_self]
    cases f <;> decide
  have hnext : load (setFree m b f) (b + 8) 8 = load m (b + 8) 8 := load_store_apart (.inr (by omega))
  have hprev : load (setFree m b f) (b + 16) 8 = load m (b + 16) 8 := load_store_apart (.inr (by omega))
  rw [block, hsize, hfree, hnext, hprev]
  rfl

theorem block_setNext (hv : v < 2 ^ 64) : block (setNext m b v) b = { block m b with next := v } := by
  have hsize : load (setNext m b v) b 4 = load m b 4 := load_store_apart (.inl (by omega))
  have hfree : setNext m b v (b + 4) = m (b + 4) := store_of_outside (.inl (by omega))
  have hnext : load (setNext m b v) (b + 8) 8 = v :=
    (load_store m (b + 8) 8 v).trans (Nat.mod_eq_of_lt (by simpa using hv))
  have hprev : load (setNext m b v) (b + 16) 8 = load m (b + 16) 8 := load_store_apart (.inr (by omega))
  rw [block, hsize, hfree, hnext, hprev]
  rfl

theorem block_setPrev (hv : v < 2 ^ 64) : block (setPrev m b v) b = { block m b with prev := v } := by
  have hsize : load (setPrev m b v) b 4 = load m b 4 := load_store_apart (.inl (by omega))
  have hfree : setPrev m b v (b + 4) = m (b + 4) := store_of_outside (.inl (by omega))
  have hnext : load (setPrev m b v) (b + 8) 8 = load m (b + 8) 8 := load_store_apart (.inl (by omega))
  have hprev : load (setPrev m b v) (b + 16) 8 = v :=
    (load_store m (b + 16) 8 v).trans (Nat.mod_eq_of_lt (by simpa using hv))
  rw [block, hsize, hfree, hnext, hprev]
  rfl

def Beside (a b : Nat) : Prop := a + HDR ≤ b ∨ b + HDR ≤ a

theorem block_setSize_beside (h : Beside a b) : block (setSize m b v) a = block m a :=
  block_congr fun x hlo hhi => setSize_of_outside (by unfold Beside at h; omega)

theorem block_setFree_beside (h : Beside a b) : block (setFree m b f) a = block m a :=
  block_congr fun x hlo hhi => setFree_of_outside (by unfold Beside at h; omega)

theorem block_setNext_beside (h : Beside a b) : block (setNext m b v) a = block m a :=
  block_congr fun x hlo hhi => setNext_of_outside (by unfold Beside at h; omega)

end Fields

/-! ## Layouts -/

def lastOf (prev a : Nat) : List Blk → Nat
  | [] => prev
  | b :: bs => lastOf a (a + HDR + b.size) bs

/-- The blocks lie in memory from `a` on, linked to `prev` before them and `after` behind them. -/
def Laid (m : Mem) : Nat → Nat → Nat → List Blk → Prop
  | _, _, _, [] => True
  | prev, a, after, b :: bs =>
    block m a = ⟨b.size, b.free, if bs = [] then after else a + HDR + b.size, prev⟩ ∧
      Laid m a (a + HDR + b.size) after bs

section Layout

variable {m m' : Mem} {prev a after : Nat} {xs ys bs : List Blk} {b : Blk}

theorem Laid.congr (h : Laid m prev a after bs)
    (hm : ∀ e ∈ placed a bs, ∀ x, e.1 ≤ x → x < e.1 + HDR → m' x = m x) : Laid m' prev a after bs := by
  induction bs generalizing prev a with
  | nil => trivial
  | cons b bs ih =>
    refine ⟨?_, ih h.2 fun e he => hm e (List.mem_cons_of_mem _ he)⟩
    rw [block_congr (hm (a, b) List.mem_cons_self)]
    exact h.1

theorem Laid.frame (h : Laid m prev a after bs) (hm : ∀ x, a ≤ x → x < endOf a bs → m' x = m x) :
    Laid m' prev a after bs :=
  h.congr fun e he x hlo hhi => by
    have := placed_bounds he
    exact hm x (by omega) (by omega)

theorem laid_append {y : Blk} :
    Laid m prev a after (xs ++ y :: ys) ↔
      Laid m prev a (endOf a xs) xs ∧ Laid m (lastOf prev a xs) (endOf a xs) after (y :: ys) := by
  induction xs generalizing prev a with
  | nil => exact ⟨fun h => ⟨trivial, h⟩, fun h => h.2⟩
  | cons x xs ih =>
    rw [List.cons_append, Laid, Laid, ih, and_assoc, if_neg (by simp)]
    have hnext : (if xs = [] then endOf a (x :: xs) else a + HDR + x.size) = a + HDR + x.size := by
      split_ifs with hnil
      · rw [hnil]
        rfl
      · rfl
    rw [hnext]
    exact Iff.rfl

theorem Laid.refocus {zs : List Blk} (h : Laid m prev start after (xs ++ b :: ys))
    (hc : Laid m' (lastOf prev start xs) (endOf start xs) after (c :: zs))
    (hm : ∀ x, x < endOf start xs → m' x = m x) : Laid m' prev start after (xs ++ c :: zs) :=
  laid_append.mpr ⟨(laid_append.mp h).1.frame fun x _ hhi => hm x hhi, hc⟩

/-! ## Changes to a layout -/

theorem Laid.setFree (h : Laid m prev a after (b :: bs)) (hsize : c.size = b.size) :
    Laid (Heap.setFree m a c.free) prev a after (c :: bs) := by
  refine ⟨?_, ?_⟩
  · rw [block_setFree, h.1, hsize]
  · rw [hsize]
    exact h.2.frame fun x hlo hhi => setFree_of_outside (.inr (by omega))

theorem Laid.setPrev (h : Laid m prev a after (b :: bs)) (hp : p < 2 ^ 64) :
    Laid (Heap.setPrev m a p) p a after (b :: bs) := by
  refine ⟨?_, ?_⟩
  · rw [block_setPrev hp, h.1]
  · exact h.2.frame fun x hlo hhi => setPrev_of_outside (.inr (by omega))

theorem pointBack_laid {c : Nat} (hnext : (block m c).next = linkTo e ys) (he : 0 < e) (hp : p < 2 ^ 64)
    (h : Laid m prev e 0 ys) : Laid (pointBack m c p) p e 0 ys := by
  unfold pointBack
  rw [hnext]
  cases ys with
  | nil => trivial
  | cons y ys =>
    rw [linkTo, if_neg (List.cons_ne_nil _ _), if_neg (by omega)]
    exact h.setPrev hp

theorem pointBack_of_outside {c : Nat} (hnext : (block m c).next = linkTo e ys)
    (hx : ys ≠ [] → x < e ∨ e + HDR ≤ x) : pointBack m c p x = m x := by
  unfold pointBack
  rw [hnext, linkTo]
  by_cases hnil : ys = []
  · rw [if_pos hnil, if_pos rfl]
  · rw [if_neg hnil]
    split_ifs
    · rfl
    · exact setPrev_of_outside (hx hnil)

theorem split_laid (h : Laid m prev a 0 (b :: ys)) (hfree : b.free = true)
    (hfits : n + HDR + MIN_SPLIT ≤ b.size) (hsize : b.size < 2 ^ 32) (hpos : 0 < a)
    (haddr : a + HDR + b.size < 2 ^ 64) :
    Laid (split m a n) prev a 0 (⟨n, none⟩ :: ⟨b.size - n - HDR, none⟩ :: ys) ∧
      ∀ x, (x < a ∨ a + HDR ≤ x) → (x < a + HDR + n ∨ a + HDR + n + HDR ≤ x) →
        (ys ≠ [] → x < a + HDR + b.size ∨ a + HDR + b.size + HDR ≤ x) → split m a n x = m x := by
  obtain ⟨hb, hys⟩ := h
  have hHDR : HDR = 24 := rfl
  have hMIN : MIN_SPLIT = 16 := rfl
  unfold split
  rw [if_neg (by rw [hb]; dsimp only; omega)]
  set nb := a + HDR + n with hnb
  set e := a + HDR + b.size with he
  -- the new header
  set m4 := Heap.setPrev (setNext (Heap.setFree (setSize m nb ((block m a).size - n - HDR)) nb true) nb
    (block (Heap.setFree (setSize m nb ((block m a).size - n - HDR)) nb true) a).next) nb a with hm4
  have hout4 : ∀ x, (x < nb ∨ nb + HDR ≤ x) → m4 x = m x := fun x hx => by
    rw [hm4, setPrev_of_outside hx, setNext_of_outside hx, setFree_of_outside hx, setSize_of_outside hx]
  have ha4 : block m4 a = block m a := block_congr fun x hlo hhi => hout4 x (.inl (by omega))
  have hnext4 : (block (Heap.setFree (setSize m nb ((block m a).size - n - HDR)) nb true) a).next =
      linkTo e ys := by
    rw [block_setFree_beside (.inl (by omega)), block_setSize_beside (.inl (by omega)), hb]
    rfl
  have hlink : linkTo e ys < 2 ^ 64 := by
    unfold linkTo
    split_ifs <;> omega
  have hnb4 : block m4 nb = ⟨b.size - n - HDR, true, linkTo e ys, a⟩ := by
    rw [hm4, hnext4, block_setPrev (by omega), block_setNext hlink, block_setFree,
      block_setSize (by rw [hb]; dsimp only; omega), hb]
  have hys4 : Laid m4 a e 0 ys := hys.frame fun x hlo hhi => hout4 x (.inr (by omega))
  -- the block after it
  have hlink4 : (block m4 a).next = linkTo e ys := by
    rw [ha4, hb]
    rfl
  set m5 := pointBack m4 a nb with hm5
  have hout5 : ∀ x, (ys ≠ [] → x < e ∨ e + HDR ≤ x) → m5 x = m4 x := fun x hx =>
    pointBack_of_outside hlink4 hx
  have hys5 : Laid m5 nb e 0 ys := pointBack_laid hlink4 (by omega) (by omega) hys4
  have ha5 : block m5 a = block m a := by
    rw [← ha4]
    exact block_congr fun x hlo hhi => hout5 x fun _ => .inl (by omega)
  have hnb5 : block m5 nb = block m4 nb := block_congr fun x hlo hhi => hout5 x fun _ => .inl (by omega)
  -- and the one that was cut
  have hout7 : ∀ x, (x < a ∨ a + HDR ≤ x) → setSize (setNext m5 a nb) a n x = m5 x := fun x hx => by
    rw [setSize_of_outside hx, setNext_of_outside hx]
  have hrest : nb + HDR + (b.size - n - HDR) = e := by omega
  refine ⟨⟨?_, ?_, ?_⟩, ?_⟩
  · rw [block_setSize (by omega), block_setNext (by omega), ha5, hb, hfree]
    rfl
  · rw [block_congr fun x hlo hhi => hout7 x (.inr (by omega)), hnb5, hnb4]
    dsimp only
    rw [hrest]
    rfl
  · dsimp only
    rw [hrest]
    exact hys5.frame fun x hlo hhi => hout7 x (.inr (by omega))
  · intro x hxa hxnb hxe
    rw [hout7 x hxa, hout5 x hxe, hout4 x hxnb]

theorem merged_laid {c d : Blk} {q : Nat} (h : Laid m prev a 0 (c :: d :: ys)) (hfree : c.free = true)
    (hsize : c.size + (HDR + d.size) < 2 ^ 32) (haddr : a + HDR + (c.size + (HDR + d.size)) < 2 ^ 64)
    (hm' : m' = setNext (setSize m a (c.size + (HDR + d.size))) a
      (linkTo (a + HDR + (c.size + (HDR + d.size))) ys))
    (hq : (block m' q).next = linkTo (a + HDR + (c.size + (HDR + d.size))) ys) :
    Laid (pointBack m' q a) prev a 0 (⟨c.size + (HDR + d.size), none⟩ :: ys) ∧
      ∀ x, (∀ f ∈ placed a (c :: d :: ys), x < f.1 ∨ f.1 + HDR ≤ x) → pointBack m' q a x = m x := by
  obtain ⟨hc, hd, hys⟩ := h
  have hHDR : HDR = 24 := rfl
  set e := a + HDR + (c.size + (HDR + d.size)) with he
  have hend : a + HDR + c.size + HDR + d.size = e := by omega
  rw [hend] at hys
  have hlink : linkTo e ys < 2 ^ 64 := by
    unfold linkTo
    split_ifs <;> omega
  have hout : ∀ x, (x < a ∨ a + HDR ≤ x) → m' x = m x := fun x hx => by
    rw [hm', setNext_of_outside hx, setSize_of_outside hx]
  have ha : block m' a = ⟨c.size + (HDR + d.size), true, linkTo e ys, prev⟩ := by
    rw [hm', block_setNext hlink, block_setSize hsize, hc, hfree]
  have hys' : Laid m' (a + HDR + c.size) e 0 ys := hys.frame fun x hlo hhi => hout x (.inr (by omega))
  refine ⟨⟨?_, ?_⟩, fun x hx => ?_⟩
  · rw [block_congr fun x hlo hhi => pointBack_of_outside hq fun _ => .inl (by omega), ha]
    rfl
  · exact pointBack_laid hq (by omega) (by omega) hys'
  · rw [pointBack_of_outside hq, hout x (hx (a, c) List.mem_cons_self)]
    intro hne
    obtain ⟨y, ys', rfl⟩ := List.exists_cons_of_ne_nil hne
    have hy : (e, y) ∈ placed a (c :: d :: y :: ys') := by simp [placed, hend]
    exact hx _ hy

def joinNext (b : Blk) : List Blk → List Blk
  | [] => [b]
  | y :: ys => if y.free then ⟨b.size + (HDR + y.size), none⟩ :: ys else b :: y :: ys

theorem mergeForward_laid (h : Laid m prev a 0 (b :: ys)) (hfree : b.free = true)
    (hsize : endOf a (b :: ys) < a + 2 ^ 32) (haddr : endOf a (b :: ys) < 2 ^ 64) :
    Laid (mergeForward m a) prev a 0 (joinNext b ys) ∧
      ∀ x, (∀ f ∈ placed a (b :: ys), x < f.1 ∨ f.1 + HDR ≤ x) → mergeForward m a x = m x := by
  unfold mergeForward
  dsimp only
  cases ys with
  | nil =>
    rw [if_neg (by rw [h.1]; simp)]
    exact ⟨h, fun _ _ => rfl⟩
  | cons y ys =>
    have hnext : (block m a).next = a + HDR + b.size := by
      rw [h.1]
      simp
    have hy := h.2.1
    have hle := le_endOf (a + HDR + b.size + HDR + y.size) ys
    have hHDR : HDR = 24 := rfl
    rw [show endOf a (b :: y :: ys) = endOf (a + HDR + b.size + HDR + y.size) ys from rfl] at hsize haddr
    rw [hnext, hy]
    by_cases hyfree : y.free = true
    · have hend : a + HDR + b.size + HDR + y.size = a + HDR + (b.size + (HDR + y.size)) := by omega
      rw [if_pos ⟨by omega, hyfree⟩, joinNext, if_pos hyfree, h.1]
      have hbeside : Beside (a + HDR + b.size) a := .inr (by omega)
      rw [block_setSize_beside hbeside, hy]
      refine merged_laid h hfree (by omega) (by omega) ?_ ?_
      · dsimp only
        rw [hend]
        rfl
      · rw [block_setNext]
        · dsimp only
          rw [hend]
          rfl
        · dsimp only
          split_ifs <;> omega
    · rw [if_neg (fun hboth => hyfree hboth.2), joinNext, if_neg hyfree]
      exact ⟨h, fun _ _ => rfl⟩

def joinPrev (xs : List Blk) (b : Blk) (ys : List Blk) : List Blk :=
  match xs.reverse with
  | [] => b :: ys
  | p :: xs' => if p.free then xs'.reverse ++ ⟨p.size + (HDR + b.size), none⟩ :: ys else xs ++ b :: ys

@[simp] theorem joinPrev_append (xs : List Blk) (p b : Blk) (ys : List Blk) :
    joinPrev (xs ++ [p]) b ys =
      if p.free then xs ++ ⟨p.size + (HDR + b.size), none⟩ :: ys else xs ++ p :: b :: ys := by
  simp [joinPrev]

theorem mergeBackward_laid (h : Laid m 0 start 0 (xs ++ b :: ys)) (hpos : 0 < start)
    (hsize : endOf start (xs ++ b :: ys) < start + 2 ^ 32) (haddr : endOf start (xs ++ b :: ys) < 2 ^ 64) :
    Laid (mergeBackward m (endOf start xs)) 0 start 0 (joinPrev xs b ys) ∧
      ∀ x, (∀ f ∈ placed start (xs ++ b :: ys), x < f.1 ∨ f.1 + HDR ≤ x) →
        mergeBackward m (endOf start xs) x = m x := by
  have hHDR : HDR = 24 := rfl
  unfold mergeBackward
  dsimp only
  induction xs using List.reverseRecOn with
  | nil =>
    rw [show endOf start [] = start from rfl, if_neg (by rw [h.1]; simp)]
    exact ⟨h, fun _ _ => rfl⟩
  | append_singleton xs p _ =>
    rw [List.append_assoc, List.singleton_append] at h hsize haddr ⊢
    obtain ⟨hxs, hp, hb, hys⟩ := laid_append.mp h
    have hat : endOf start (xs ++ [p]) = endOf start xs + HDR + p.size := endOf_append _ _ _
    have hstart := le_endOf start xs
    have hle := le_endOf (endOf start xs + HDR + p.size + HDR + b.size) ys
    rw [endOf_append, show endOf (endOf start xs) (p :: b :: ys) =
      endOf (endOf start xs + HDR + p.size + HDR + b.size) ys from rfl] at hsize haddr
    rw [hat, hb, hp, joinPrev_append]
    by_cases hpfree : p.free = true
    · have hend : endOf start xs + HDR + p.size + HDR + b.size =
          endOf start xs + HDR + (p.size + (HDR + b.size)) := by omega
      have hlink : (if ys = [] then 0 else endOf start xs + HDR + p.size + HDR + b.size) =
          linkTo (endOf start xs + HDR + (p.size + (HDR + b.size))) ys := by
        rw [hend]
        rfl
      have hbeside : Beside (endOf start xs + HDR + p.size) (endOf start xs) := .inr (by omega)
      rw [if_pos ⟨by dsimp only; omega, hpfree⟩, if_pos hpfree, block_setSize_beside hbeside, hb]
      dsimp only
      rw [hlink]
      obtain ⟨hmerged, hout⟩ := @merged_laid m _ (lastOf 0 start xs) (endOf start xs) ys p b
        (endOf start xs + HDR + p.size) ⟨hp, hb, hys⟩ hpfree (by omega) (by omega) rfl
        (by rw [block_setNext_beside hbeside, block_setSize_beside hbeside, hb]; exact hlink)
      refine ⟨laid_append.mpr ⟨?_, hmerged⟩, fun x hx => hout x fun f hf => hx f ?_⟩
      · exact hxs.frame fun x hlo hhi => hout x fun f hf => .inl (lt_of_lt_of_le hhi (placed_bounds hf).1)
      · rw [placed_append]
        exact List.mem_append_right _ hf
    · rw [if_neg (fun hboth => hpfree hboth.2), if_neg hpfree]
      exact ⟨h, fun _ _ => rfl⟩

/-! ## Looking for a block -/

theorem firstFit_laid {left : Nat} (h : Laid m prev a 0 bs) (hpos : 0 < a) (hleft : bs.length ≤ left) :
    (∃ xs b ys, bs = xs ++ b :: ys ∧ b.free = true ∧ n ≤ b.size ∧
      firstFit m n left (linkTo a bs) = some (endOf a xs)) ∨
    ((∀ b ∈ bs, b.free = true → b.size < n) ∧ firstFit m n left (linkTo a bs) = none) := by
  induction bs generalizing prev a left with
  | nil =>
    refine .inr ⟨by simp, ?_⟩
    cases left <;> rfl
  | cons b bs ih =>
    obtain ⟨left, rfl⟩ : ∃ k, left = k + 1 := ⟨left - 1, by rw [List.length_cons] at hleft; omega⟩
    rw [linkTo, if_neg (List.cons_ne_nil _ _), firstFit, if_neg (by omega), h.1]
    by_cases hfit : b.free = true ∧ n ≤ b.size
    · exact .inl ⟨[], b, bs, rfl, hfit.1, hfit.2, if_pos hfit⟩
    · rw [if_neg hfit]
      rcases ih h.2 (by omega) (by simpa using hleft) with ⟨xs, c, ys, rfl, hfree, hsize, hfind⟩ | ⟨hnone, hfind⟩
      · exact .inl ⟨b :: xs, c, ys, rfl, hfree, hsize, hfind⟩
      · refine .inr ⟨fun c hc hfree => ?_, hfind⟩
        rcases List.mem_cons.mp hc with rfl | hc
        · exact not_le.mp fun hle => hfit ⟨hfree, hle⟩
        · exact hnone c hc hfree

end Layout

end Zelr.Heap
