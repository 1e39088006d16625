import Mathlib.Data.List.Basic
import Zelr.Paging.Holds
import Zelr.Paging.Space

/-!
# What a release gives back

Releasing a table reads the tables under it and gives back a list of frames, one hold for each place
in the list.
-/

namespace Zelr.Paging

open Act
open Pmm (put_same put_other)

/-! ## The list -/

def counted (e : Word) : Bool :=
  has e PTE_PRESENT && !has e PTE_HUGE && has e PTE_USER && !has e PTE_BORROWED

/-- What `freeLeaf` gives back for an entry of a page table. -/
def leafOwed (e : Word) : List Nat := if counted e then [frameOf e] else []

def leads (e : Word) : Bool := has e PTE_PRESENT && !has e PTE_HUGE

/-- What `freeTable` gives back, in that order. -/
def owed (mem : Nat → Nat → Word) : Nat → Nat → List Nat
  | 0, _ => []
  | 1, t => (List.range ENTRIES).flatMap fun i => leafOwed (mem t i)
  | n + 2, t => (List.range ENTRIES).flatMap fun i =>
      if leads (mem t i) then owed mem (n + 1) (frameOf (mem t i)) ++ [frameOf (mem t i)] else []

/-- What one entry of a table of level `n` adds. -/
def owedAt (mem : Nat → Nat → Word) : Nat → Word → List Nat
  | 0, _ => []
  | 1, e => leafOwed e
  | n + 2, e => if leads e then owed mem (n + 1) (frameOf e) ++ [frameOf e] else []

def leadsOwn (e k : Word) : Bool := has e PTE_PRESENT && !isKernels e k

def owedDir (mem : Nat → Nat → Word) (kernel dir : Nat) : List Nat :=
  (List.range ENTRIES).flatMap fun i =>
    if leadsOwn (mem dir i) (mem kernel i) then owed mem 3 (frameOf (mem dir i)) ++ [frameOf (mem dir i)] else []

section Owed

variable {mem mem' : Nat → Nat → Word} {t dir i n : Nat} {e : Word} {P Q : Nat → Prop}

theorem owed_eq (hn : n ≠ 0) :
    owed mem n t = (List.range ENTRIES).flatMap fun i => owedAt mem n (mem t i) := by
  match n with
  | 0 => exact absurd rfl hn
  | 1 => rfl
  | n + 2 => rfl

theorem owedAt_absent (h : has e PTE_PRESENT = false) : owedAt mem n e = [] := by
  match n with
  | 0 => rfl
  | 1 => simp [owedAt, leafOwed, counted, h]
  | n + 2 => simp [owedAt, leads, h]

/-- All tables below `t`, which has level `n`, are in `P`. -/
def Under (mem : Nat → Nat → Word) (P : Nat → Prop) : Nat → Nat → Prop
  | 0, _ => True
  | 1, _ => True
  | n + 2, t => ∀ i, i < ENTRIES → leads (mem t i) = true →
      P (frameOf (mem t i)) ∧ Under mem P (n + 1) (frameOf (mem t i))

def UnderAt (mem : Nat → Nat → Word) (P : Nat → Prop) : Nat → Word → Prop
  | 0, _ => True
  | 1, _ => True
  | n + 2, e => leads e = true → P (frameOf e) ∧ Under mem P (n + 1) (frameOf e)

theorem under_iff (hn : n ≠ 0) :
    Under mem P n t ↔ ∀ i, i < ENTRIES → UnderAt mem P n (mem t i) := by
  match n with
  | 0 => exact absurd rfl hn
  | 1 => exact ⟨fun _ _ _ => trivial, fun _ => trivial⟩
  | n + 2 => rfl

theorem UnderAt.absent (h : has e PTE_PRESENT = false) : UnderAt mem P n e := by
  match n with
  | 0 => trivial
  | 1 => trivial
  | n + 2 => exact fun hl => by simp [leads, h] at hl

theorem Under.mono (hPQ : ∀ f, P f → Q f) : ∀ {n t : Nat}, Under mem P n t → Under mem Q n t
  | 0, _, _ => trivial
  | 1, _, _ => trivial
  | _ + 2, _, h => fun i hi hl => ⟨hPQ _ (h i hi hl).1, (h i hi hl).2.mono hPQ⟩

theorem UnderAt.mono (hPQ : ∀ f, P f → Q f) (h : UnderAt mem P n e) : UnderAt mem Q n e := by
  match n with
  | 0 => trivial
  | 1 => trivial
  | n + 2 => exact fun hl => ⟨hPQ _ (h hl).1, (h hl).2.mono hPQ⟩

theorem owed_congr (hsame : ∀ f, P f → mem' f = mem f) : ∀ {n t : Nat}, Under mem P n t → mem' t = mem t →
    owed mem' n t = owed mem n t ∧ Under mem' P n t
  | 0, _, _, _ => ⟨rfl, trivial⟩
  | 1, t, _, ht => ⟨by simp only [owed, ht], trivial⟩
  | n + 2, t, h, ht => by
    have hbelow : ∀ i, i < ENTRIES → leads (mem t i) = true →
        owed mem' (n + 1) (frameOf (mem t i)) = owed mem (n + 1) (frameOf (mem t i)) ∧
          Under mem' P (n + 1) (frameOf (mem t i)) := by
      intro i hi hl
      obtain ⟨hP, hunder⟩ := h i hi hl
      exact owed_congr hsame hunder (hsame _ hP)
    constructor
    · simp only [owed, ht]
      apply List.flatMap_congr
      intro i hi
      split
      · next hl => rw [(hbelow i (List.mem_range.mp hi) hl).1]
      · rfl
    · intro i hi hl
      rw [ht] at hl ⊢
      exact ⟨(h i hi hl).1, (hbelow i hi hl).2⟩

theorem owedAt_congr (hsame : ∀ f, P f → mem' f = mem f) (h : UnderAt mem P n e) :
    owedAt mem' n e = owedAt mem n e ∧ UnderAt mem' P n e := by
  match n with
  | 0 => exact ⟨rfl, trivial⟩
  | 1 => exact ⟨rfl, trivial⟩
  | n + 2 =>
    by_cases hl : leads e = true
    · obtain ⟨hP, hunder⟩ := h hl
      obtain ⟨howed, hunder'⟩ := owed_congr hsame hunder (hsame _ hP)
      exact ⟨by simp only [owedAt, hl, if_true, howed], fun _ => ⟨hP, hunder'⟩⟩
    · exact ⟨by simp only [owedAt, hl, Bool.false_eq_true, if_false], fun hl' => absurd hl' hl⟩

theorem count_flatMap_fill {g g' : Nat → List Nat} {N : Nat} (f : Nat) (hi : i < N)
    (hsame : ∀ j, j < N → j ≠ i → g' j = g j) (hempty : g i = []) :
    ((List.range N).flatMap g').count f = ((List.range N).flatMap g).count f + (g' i).count f := by
  induction N with
  | zero => omega
  | succ N ih =>
    simp only [List.range_succ, List.flatMap_append, List.flatMap_singleton, List.count_append]
    by_cases hN : i = N
    · subst hN
      have hbefore : (List.range i).flatMap g' = (List.range i).flatMap g := by
        apply List.flatMap_congr
        intro j hj
        have := List.mem_range.mp hj
        exact hsame j (by omega) (by omega)
      rw [hbefore, hempty, List.count_nil]
      omega
    · rw [ih (by omega) fun j hj => hsame j (by omega), hsame N (by omega) (fun h => hN h.symm)]
      omega

end Owed

/-! ## Giving it back -/

def freeAll : List Nat → Act Machine Unit
  | [] => pure ()
  | f :: fs => do
    freeFrame f
    freeAll fs

section Free

variable {s s' : Machine} {dir n t : Nat} {fs : List Nat}

theorem freeFrame_run (f : Nat) (s : Machine) :
    ∃ pm, freeFrame f s = (some (), { s with pmm := pm }) ∧ Pmm.freeFrame f s.pmm = (some (), pm) := by
  have hfree : ∃ pm, Pmm.freeFrame f s.pmm = (some (), pm) := by
    unfold Pmm.freeFrame
    split
    · exact ⟨_, rfl⟩
    · split
      · split
        · exact ⟨_, rfl⟩
        · exact ⟨_, rfl⟩
      · exact ⟨_, rfl⟩
  obtain ⟨pm, hpm⟩ := hfree
  refine ⟨pm, ?_, hpm⟩
  unfold freeFrame onPmm zoom
  rw [hpm]

theorem freeAll_run (fs : List Nat) (s : Machine) : ∃ pm, freeAll fs s = (some (), { s with pmm := pm }) := by
  induction fs generalizing s with
  | nil => exact ⟨s.pmm, rfl⟩
  | cons f fs ih =>
    obtain ⟨pm, hrun, -⟩ := freeFrame_run f s
    obtain ⟨pm', hrest⟩ := ih { s with pmm := pm }
    refine ⟨pm', ?_⟩
    unfold freeAll
    rw [bind_of_some hrun, hrest]

theorem freeAll_append (fs fs' : List Nat) (s : Machine) :
    freeAll (fs ++ fs') s = (freeAll fs >>= fun _ => freeAll fs') s := by
  induction fs generalizing s with
  | nil => rfl
  | cons f fs ih =>
    obtain ⟨pm, hrun, -⟩ := freeFrame_run f s
    obtain ⟨pm', hrest⟩ := freeAll_run fs { s with pmm := pm }
    have hcons : freeAll (f :: fs) s = (some (), { s with pmm := pm' }) := by
      unfold freeAll
      rw [bind_of_some hrun, hrest]
    rw [List.cons_append, freeAll, bind_of_some hrun, ih, bind_of_some hrest, bind_of_some hcons]

theorem freeAll_single (f : Nat) (s : Machine) : freeAll [f] s = freeFrame f s := by
  obtain ⟨pm, hrun, -⟩ := freeFrame_run f s
  rw [freeAll, bind_of_some hrun, hrun]
  rfl

theorem upto_freeAll {body : Nat → Act Machine Unit} {g : Nat → List Nat} (N : Nat)
    (hbody : ∀ i pm, body i { s with pmm := pm } = freeAll (g i) { s with pmm := pm }) :
    upto body N s = freeAll ((List.range N).flatMap g) s := by
  induction N with
  | zero => rfl
  | succ N ih =>
    rw [List.range_succ, List.flatMap_append, List.flatMap_singleton, freeAll_append]
    unfold upto
    rw [bind_apply, bind_apply, ih]
    obtain ⟨pm, hrun⟩ := freeAll_run ((List.range N).flatMap g) s
    rw [hrun]
    exact hbody N pm

theorem freeTable_eq : ∀ (n : Nat) (t : Nat) (s : Machine), freeTable n t s = freeAll (owed s.mem n t) s
  | 0, _, _ => rfl
  | 1, t, s => by
    apply upto_freeAll
    intro i pm
    unfold freeLeaf
    rw [bind_word]
    unfold leafOwed counted
    rcases Bool.eq_false_or_eq_true (has (s.mem t i) PTE_PRESENT) with hp | hp
    · rcases Bool.eq_false_or_eq_true (has (s.mem t i) PTE_HUGE) with hh | hh
      · simp only [hp, hh]
        rfl
      · simp only [hp, hh, Bool.not_true, Bool.or_self, Bool.false_eq_true, if_false, Bool.not_false, Bool.and_self,
          Bool.true_and]
        split
        · rw [freeAll_single]
        · rfl
    · simp only [hp]
      rfl
  | n + 2, t, s => by
    apply upto_freeAll
    intro i pm
    simp only [bind_word]
    rcases Bool.eq_false_or_eq_true (has (s.mem t i) PTE_PRESENT) with hp | hp
    · rcases Bool.eq_false_or_eq_true (has (s.mem t i) PTE_HUGE) with hh | hh
      · simp only [leads, hp, hh]
        rfl
      · simp only [leads, hp, hh, Bool.not_true, Bool.or_self, Bool.false_eq_true, if_false, Bool.not_false,
          Bool.and_self, if_true]
        rw [freeAll_append, bind_apply, bind_apply, freeTable_eq (n + 1)]
        obtain ⟨pm', hrun⟩ := freeAll_run (owed s.mem (n + 1) (frameOf (s.mem t i))) { s with pmm := pm }
        rw [hrun]
        exact (freeAll_single _ _).symm
    · simp only [leads, hp]
      rfl

theorem freeDirectory_eq (hpos : dir ≠ 0) (hkernel : dir ≠ s.kernelPml4) :
    freeDirectory dir s = freeAll (owedDir s.mem s.kernelPml4 dir ++ [dir]) s := by
  have hloop : upto (freeEntry dir) ENTRIES s = freeAll (owedDir s.mem s.kernelPml4 dir) s := by
    apply upto_freeAll
    intro i pm
    unfold freeEntry leadsOwn
    rw [bind_get, bind_word, bind_word]
    rcases Bool.eq_false_or_eq_true (has (s.mem dir i) PTE_PRESENT) with hp | hp
    · rcases Bool.eq_false_or_eq_true (isKernels (s.mem dir i) (s.mem s.kernelPml4 i)) with hk | hk
      · simp only [hp, hk]
        rfl
      · simp only [hp, hk, Bool.not_true, Bool.or_self, Bool.false_eq_true, if_false, Bool.not_false, Bool.and_self,
          if_true]
        rw [freeAll_append, bind_apply, bind_apply, freeTable_eq 3]
        obtain ⟨pm', hrun⟩ := freeAll_run (owed s.mem 3 (frameOf (s.mem dir i))) { s with pmm := pm }
        rw [hrun]
        exact (freeAll_single _ _).symm
    · simp only [hp]
      rfl
  unfold freeDirectory
  rw [bind_get, if_neg (by rintro (h | h); exact hpos h; exact hkernel h), freeAll_append, bind_apply, bind_apply,
    hloop]
  obtain ⟨pm, hrun⟩ := freeAll_run (owedDir s.mem s.kernelPml4 dir) s
  rw [hrun]
  exact (freeAll_single _ _).symm

end Free

/-! ## The holds that go with it -/

namespace Ledger

variable {l : Ledger} {s : Machine} {fs : List Nat}

theorem Kept.isUsed (hl : Kept l) (f : Nat) :
    l.pmm.isUsed f = true ↔ l.pmm.totalFrames ≤ f ∨ 0 < l.holders f := by
  by_cases hf : f < l.pmm.totalFrames
  · unfold Pmm.isUsed
    rw [if_neg (by omega), hl.bit f hf]
    exact ⟨Or.inr, fun h => h.resolve_left (by omega)⟩
  · unfold Pmm.isUsed
    rw [if_pos (by omega)]
    exact ⟨fun _ => Or.inl (by omega), fun _ => rfl⟩

theorem Kept.freeAll (hl : Kept l) (hpmm : l.pmm = s.pmm) (hheld : ∀ f, fs.count f ≤ l.taken f) :
    ∃ l', freeAll fs s = (some (), { s with pmm := l'.pmm }) ∧ Kept l' ∧ l'.reserved = l.reserved ∧
      l'.pmm.totalFrames = l.pmm.totalFrames ∧ ∀ f, l'.taken f + fs.count f = l.taken f := by
  induction fs generalizing l s with
  | nil =>
    refine ⟨l, ?_, hl, rfl, rfl, fun f => by simp⟩
    rw [hpmm]
    rfl
  | cons f fs ih =>
    obtain ⟨pm, hrun, hfree⟩ := freeFrame_run f s
    have hone : 0 < l.taken f := by
      have := hheld f
      rw [List.count_cons_self] at this
      omega
    rw [← hpmm] at hfree
    have hl1 := hl.free hone hfree
    have hleft : ∀ f', fs.count f' ≤ Pmm.put l.taken f (l.taken f - 1) f' := by
      intro f'
      have := hheld f'
      by_cases hff : f' = f
      · subst hff
        rw [put_same]
        rw [List.count_cons_self] at this
        omega
      · rw [put_other _ _ hff]
        rwa [List.count_cons_of_ne (Ne.symm hff)] at this
    obtain ⟨l', hrest, hl', hres, htotal, htaken⟩ := ih (s := { s with pmm := pm }) hl1 rfl hleft
    refine ⟨l', ?_, hl', hres, htotal.trans (Pmm.freeFrame_total hfree), ?_⟩
    · rw [Zelr.Paging.freeAll, bind_of_some hrun, hrest]
    · intro f'
      have := htaken f'
      simp only at this
      by_cases hff : f' = f
      · subst hff
        rw [put_same] at this
        rw [List.count_cons_self]
        omega
      · rw [put_other _ _ hff] at this
        rwa [List.count_cons_of_ne (Ne.symm hff)]

end Ledger

end Zelr.Paging
