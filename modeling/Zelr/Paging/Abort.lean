import Zelr.Paging.Partial

/-!
# A clone that fails

`paging_clone_directory` gives up where an allocation fails, at any level, and releases what it has
made so far.
-/

namespace Zelr.Paging

open Act
open Pmm (put_same put_other)

/-- A space: tables of its own under entries the kernel does not share, each used at one level only. -/
structure Rooted (tier : Tier) (m : Machine) (src : Nat) : Prop extends Tiers tier m where
  root : tier src = some 4
  kernel : tier m.kernelPml4 ≠ some 1
  kernelUsed : m.pmm.isUsed m.kernelPml4 = true
  top : ∀ i, i < ENTRIES → leadsOwn (m.mem src i) (m.mem m.kernelPml4 i) = true →
    tier (frameOf (m.mem src i)) = some 3
  /-- where the space has a table in place of the kernel's, that one is not free -/
  apart : ∀ i, i < ENTRIES → leadsOwn (m.mem src i) (m.mem m.kernelPml4 i) = true →
    has (m.mem m.kernelPml4 i) PTE_PRESENT = true → m.pmm.isUsed (frameOf (m.mem m.kernelPml4 i)) = true

def Undone (tier : Tier) (m : Machine) (l₀ : Ledger) (s : Machine) : Prop :=
  (∃ l, Balanced m l₀ s l []) ∧ ∀ t, m.pmm.isUsed t = true → Marked tier t (m.mem t) (s.mem t)

def ownAt (mem : Nat → Nat → Word) (k e : Word) : List Nat :=
  if leadsOwn e k then owed mem 3 (frameOf e) ++ [frameOf e] else []

def OwnUnder (mem : Nat → Nat → Word) (P : Nat → Prop) (k e : Word) : Prop :=
  leadsOwn e k = true → P (frameOf e) ∧ Under mem P 3 (frameOf e)

structure Filling (tier : Tier) (m : Machine) (l₀ : Ledger) (dir : Nat) (s : Machine) (l : Ledger) : Prop where
  balanced : Balanced m l₀ s l (owedDir s.mem m.kernelPml4 dir ++ [dir])
  mem : ∀ t, m.pmm.isUsed t = true → Marked tier t (m.mem t) (s.mem t)
  new : New m s dir
  pos : dir ≠ 0
  under : ∀ i, i < ENTRIES → OwnUnder s.mem (fun f => New m s f ∧ f ≠ dir) (m.mem m.kernelPml4 i) (s.mem dir i)

section Clone

variable {tier : Tier} {m s s' : Machine} {l₀ l l' : Ledger} {src dir i f : Nat} {e k : Word} {P Q : Nat → Prop}
  {mem mem' : Nat → Nat → Word} {fs : List Nat}

theorem owedDir_eq (mem : Nat → Nat → Word) (kernel dir : Nat) :
    owedDir mem kernel dir = (List.range ENTRIES).flatMap fun i => ownAt mem (mem kernel i) (mem dir i) := rfl

theorem ownAt_congr (hsame : ∀ f, P f → mem' f = mem f) (h : OwnUnder mem P k e) :
    ownAt mem' k e = ownAt mem k e ∧ OwnUnder mem' P k e := by
  by_cases hl : leadsOwn e k = true
  · obtain ⟨hP, hunder⟩ := h hl
    obtain ⟨howed, hunder'⟩ := owed_congr hsame hunder (hsame _ hP)
    exact ⟨by simp only [ownAt, hl, if_true, howed], fun _ => ⟨hP, hunder'⟩⟩
  · exact ⟨by simp only [ownAt, hl, Bool.false_eq_true, if_false], fun hl' => absurd hl' hl⟩

theorem OwnUnder.mono (hPQ : ∀ f, P f → Q f) (h : OwnUnder mem P k e) : OwnUnder mem Q k e := fun hl =>
  ⟨hPQ _ (h hl).1, (h hl).2.mono hPQ⟩

theorem ownAt_none (h : leadsOwn e k = false) : ownAt mem k e = [] := by simp [ownAt, h]

theorem leadsOwn_kernels (h : isKernels e k = true) : leadsOwn e k = false := by simp [leadsOwn, h]

theorem leadsOwn_absent (h : has e PTE_PRESENT = false) : leadsOwn e k = false := by simp [leadsOwn, h]

theorem isKernels_frame (h : isKernels e k = true) : has k PTE_PRESENT = true ∧ frameOf e = frameOf k := by
  unfold isKernels at h
  rw [Bool.and_eq_true, beq_iff_eq] at h
  exact ⟨h.1, by unfold frameOf; rw [h.2]⟩

section
variable (hR : Rooted tier m src)
include hR

theorem Rooted.kernelMem
    (h : ∀ t, m.pmm.isUsed t = true → Marked tier t (m.mem t) (s.mem t)) :
    s.mem m.kernelPml4 = m.mem m.kernelPml4 := (h _ hR.kernelUsed).same hR.kernel

theorem Rooted.rootMem
    (h : ∀ t, m.pmm.isUsed t = true → Marked tier t (m.mem t) (s.mem t)) : s.mem src = m.mem src :=
  (h _ (hR.used src 4 hR.root)).same (by simp [hR.root])

omit hR in
theorem Filling.ne_dir (h : Filling tier m l₀ dir s l) (hf : m.pmm.isUsed f = true) : f ≠ dir := by
  rintro rfl
  rw [h.new.1] at hf
  simp at hf

theorem Rooted.new_same
    (hmem : ∀ t, s.pmm.isUsed t = true → t ≠ dir → Marked tier t (s.mem t) (s'.mem t)) :
    ∀ f, New m s f ∧ f ≠ dir → s'.mem f = s.mem f := by
  rintro f ⟨⟨hold, hnow⟩, hne⟩
  exact (hmem f hnow hne).same (by simp [hR.toTiers.unused hold])

variable (hl₀ : l₀.Kept) (hp₀ : l₀.pmm = m.pmm)
include hl₀ hp₀

omit hR in
theorem Filling.marks (h : Filling tier m l₀ dir s l)
    (hmem : ∀ t, s.pmm.isUsed t = true → t ≠ dir → Marked tier t (s.mem t) (s'.mem t)) (t : Nat)
    (ht : m.pmm.isUsed t = true) : Marked tier t (m.mem t) (s'.mem t) :=
  (h.mem t ht).trans (hmem t (h.balanced.used hl₀ hp₀ ht) (h.ne_dir ht))

theorem Filling.next (hi : i < ENTRIES)
    (h : Filling tier m l₀ dir s l) (hempty : leadsOwn (s.mem dir i) (m.mem m.kernelPml4 i) = false)
    (hb : Balanced s l s' l' (ownAt s'.mem (m.mem m.kernelPml4 i) (s'.mem dir i)))
    (hmem : ∀ t, s.pmm.isUsed t = true → t ≠ dir → Marked tier t (s.mem t) (s'.mem t))
    (hothers : ∀ j, j ≠ i → s'.mem dir j = s.mem dir j)
    (hunder : OwnUnder s'.mem (New s s') (m.mem m.kernelPml4 i) (s'.mem dir i)) :
    Filling tier m l₀ dir s' l' := by
  have hused : ∀ f, m.pmm.isUsed f = true → s.pmm.isUsed f = true := fun f => h.balanced.used hl₀ hp₀
  have hused' : ∀ f, s.pmm.isUsed f = true → s'.pmm.isUsed f = true := fun f =>
    hb.used h.balanced.kept h.balanced.pmm
  have hmem' := h.marks hl₀ hp₀ hmem
  have hkernel := hR.kernelMem h.mem
  have hkernel' := hR.kernelMem hmem'
  have hnew := hR.new_same hmem
  have hsame : ∀ j, j < ENTRIES → j ≠ i →
      ownAt s'.mem (m.mem m.kernelPml4 j) (s'.mem dir j) = ownAt s.mem (m.mem m.kernelPml4 j) (s.mem dir j) ∧
        OwnUnder s'.mem (fun f => New m s f ∧ f ≠ dir) (m.mem m.kernelPml4 j) (s'.mem dir j) := by
    intro j hj hji
    rw [hothers j hji]
    exact ownAt_congr hnew (h.under j hj)
  refine ⟨(h.balanced.trans hb).congr ?_, hmem', ⟨h.new.1, hused' _ h.new.2⟩, h.pos, ?_⟩
  · intro f
    have hfill := count_flatMap_fill f hi (fun j hj hji => (hsame j hj hji).1) (ownAt_none hempty)
    rw [owedDir_eq, owedDir_eq, hkernel, hkernel', List.count_append, List.count_append, List.count_append, hfill]
    omega
  · intro j hj
    by_cases hji : j = i
    · subst hji
      refine hunder.mono ?_
      rintro f ⟨hold, hnow⟩
      refine ⟨⟨?_, hnow⟩, ?_⟩
      · rw [← Bool.not_eq_true] at hold ⊢
        exact fun hu => hold (hused f hu)
      · rintro rfl
        rw [h.new.2] at hold
        simp at hold
    · refine (hsame j hj hji).2.mono ?_
      rintro f ⟨⟨hold, hnow⟩, hne⟩
      exact ⟨⟨hold, hused' f hnow⟩, hne⟩

theorem Filling.undo (fs : List Nat) (h : Filling tier m l₀ dir s l) (hb : Balanced s l s' l' fs)
    (hmem : ∀ t, s.pmm.isUsed t = true → t ≠ dir → Marked tier t (s.mem t) (s'.mem t))
    (hdir : s'.mem dir = s.mem dir) :
    ∃ pm, (freeAll fs >>= fun _ => freeDirectory dir) s' = (some (), { s' with pmm := pm }) ∧
      Undone tier m l₀ { s' with pmm := pm } := by
  have hmem' := h.marks hl₀ hp₀ hmem
  have hkernel : s'.kernelPml4 = m.kernelPml4 := hb.kernel.trans h.balanced.kernel
  have hnew := hR.new_same hmem
  have howed : owedDir s'.mem m.kernelPml4 dir = owedDir s.mem m.kernelPml4 dir := by
    rw [owedDir_eq, owedDir_eq, hR.kernelMem h.mem, hR.kernelMem hmem', hdir]
    apply List.flatMap_congr
    intro j hj
    exact (ownAt_congr hnew (h.under j (List.mem_range.mp hj))).1
  obtain ⟨l'', hrun, hback⟩ := (h.balanced.trans hb).freeAll
    (show ∀ f, (fs ++ (owedDir s'.mem m.kernelPml4 dir ++ [dir])).count f = _ from fun f => by
      rw [howed]
      simp only [List.count_append]
      omega)
  refine ⟨l''.pmm, ?_, ⟨l'', hback⟩, hmem'⟩
  rw [freeAll_append] at hrun
  obtain ⟨pm, hfs⟩ := freeAll_run fs s'
  rw [bind_of_some hfs] at hrun ⊢
  rw [freeDirectory_eq h.pos]
  · rw [← hkernel] at hrun
    exact hrun
  · show dir ≠ s'.kernelPml4
    rw [hkernel]
    exact (h.ne_dir hR.kernelUsed).symm

theorem Filling.tiers (h : Filling tier m l₀ dir s l) : Tiers tier s :=
  hR.toTiers.step h.balanced.total (fun _ => h.balanced.used hl₀ hp₀) fun t k ht => h.mem t (hR.used t k ht)

omit hR hl₀ hp₀ in
theorem word_leadsOwn (hlt : f < FRAME_LIMIT) (hp : has e PTE_PRESENT = true)
    (hk : has k PTE_PRESENT = true → frameOf k ≠ f) : leadsOwn (withFlags f e) k = true := by
  unfold leadsOwn
  rw [withFlags_has hlt (by decide) (by decide), hp, Bool.true_and, Bool.not_eq_true', ← Bool.not_eq_true]
  intro hkern
  obtain ⟨hpres, hframe⟩ := isKernels_frame hkern
  rw [withFlags_frame hlt] at hframe
  exact hk hpres hframe.symm

theorem cloneTable_undo (hi : i < ENTRIES)
    (h : Filling tier m l₀ dir s l) (hempty : leadsOwn (s.mem dir i) (m.mem m.kernelPml4 i) = false)
    (hown : leadsOwn (m.mem src i) (m.mem m.kernelPml4 i) = true) :
    match cloneTable dir i (m.mem src i) s with
    | (some (), s') => ∃ l', Filling tier m l₀ dir s' l' ∧ ∀ j, j ≠ i → s'.mem dir j = s.mem dir j
    | (none, s') => Undone tier m l₀ s' := by
  have hT := h.tiers hR hl₀ hp₀
  have hnedir : ∀ f, m.pmm.isUsed f = true → f ≠ dir := fun _ => h.ne_dir
  have halloc := alloc_balanced h.balanced.kept h.balanced.pmm
  unfold cloneTable
  rw [bind_apply, attempt_apply]
  rcases hrun : allocFrame s with ⟨_ | f, s1⟩
  · rw [hrun] at halloc
    obtain ⟨hmem1, l1, hb1⟩ := halloc
    obtain ⟨pm, hundo, hdone⟩ := h.undo hR hl₀ hp₀ _ hb1 (fun t _ _ => Marked.of_eq (by rw [hmem1])) (by rw [hmem1])
    have hfree : freeDirectory dir s1 = (some (), { s1 with pmm := pm }) := hundo
    dsimp only
    rw [bind_of_some hfree]
    exact hdone
  · rw [hrun] at halloc
    obtain ⟨hmem1, hunused, hnow, -, hlt, l1, hb1⟩ := halloc
    have hlimit : f < FRAME_LIMIT := Nat.lt_of_lt_of_le hlt hT.total
    have hnef : ∀ t, s.pmm.isUsed t = true → t ≠ f := by
      rintro t ht rfl
      rw [ht] at hunused
      simp at hunused
    have hfd : dir ≠ f := hnef dir h.new.2
    obtain ⟨s2, hs2⟩ : ∃ s2, s2 = s1.setFrame f fun _ => 0 := ⟨_, rfl⟩
    have hmem2 : ∀ t, t ≠ f → s2.mem t = s.mem t := by
      intro t ht
      rw [hs2, setFrame_mem_other _ _ ht, hmem1]
    have hb2 : Balanced s l s2 l1 [f] := hb1.mem (by rw [hs2]; rfl) (by rw [hs2]; rfl)
    have hused2 : ∀ t, s.pmm.isUsed t = true → s2.pmm.isUsed t = true := fun t =>
      hb2.used h.balanced.kept h.balanced.pmm
    have hT2 : Tiers tier s2 := by
      refine hT.step hb2.total hused2 ?_
      exact fun t k ht => Marked.of_eq (hmem2 t (hnef t (hT.used t k ht)))
    obtain ⟨l3, hcopy⟩ := copyTable_copying 2 (by omega) hT2 hb2.kept hb2.pmm (hR.top i hi hown)
      (hT.unused hunused) (by rw [hs2]; exact hnow) (fun j _ => by
        rw [hs2, setFrame_mem_same]
        exact has_zero _)
    dsimp only
    have hclear : clearFrame f s1 = (some (), s2) := by
      rw [hs2]
      rfl
    rw [bind_of_some hclear, bind_apply, attempt_apply]
    have hmem3 : ∀ t, s.pmm.isUsed t = true → Marked tier t (s.mem t)
        ((copyTable 3 f (frameOf (m.mem src i)) s2).2.mem t) := by
      intro t ht
      rw [← hmem2 t (hnef t ht)]
      exact hcopy.mem t (hused2 t ht) (hnef t ht)
    have hdtier : tier dir ≠ some 1 := by simp [hR.toTiers.unused h.new.1]
    have hdir := (hmem3 dir h.new.2).same hdtier
    rcases hrun3 : copyTable 3 f (frameOf (m.mem src i)) s2 with ⟨_ | _, s3⟩
    · -- cut short: the table, what is under it, and the directory
      rw [hrun3] at hcopy hmem3 hdir
      have hb3 := hb2.trans hcopy.balanced
      obtain ⟨pm, hundo, hdone⟩ := h.undo hR hl₀ hp₀ (owed s3.mem 3 f ++ [f])
        (hb3.congr fun t => by rw [List.count_append, List.count_append, Nat.add_comm])
        (fun t ht _ => hmem3 t ht) hdir
      obtain ⟨pm1, htable⟩ := freeAll_run (owed s3.mem 3 f) s3
      have hfree : freeTable 3 f s3 = (some (), { s3 with pmm := pm1 }) := by
        rw [freeTable_eq]
        exact htable
      obtain ⟨pm2, hframe, -⟩ := freeFrame_run f { s3 with pmm := pm1 }
      have hboth : freeAll (owed s3.mem 3 f ++ [f]) s3 = (some (), { s3 with pmm := pm2 }) := by
        rw [freeAll_append, bind_of_some htable, freeAll_single]
        exact hframe
      rw [bind_of_some hboth] at hundo
      dsimp only
      rw [bind_of_some hfree, bind_of_some hframe, bind_of_some hundo]
      exact hdone
    · rw [hrun3] at hcopy hmem3 hdir
      have hb3 := hb2.trans hcopy.balanced
      have hown' : leadsOwn (withFlags f (m.mem src i)) (m.mem m.kernelPml4 i) = true := by
        refine word_leadsOwn hlimit ?_ ?_
        · unfold leadsOwn at hown
          rw [Bool.and_eq_true] at hown
          exact hown.1
        · intro hk
          exact hnef _ (h.balanced.used hl₀ hp₀ (hR.apart i hi hown hk))
      -- linking the table changes the directory alone
      have hbelow : ∀ t, New s2 s3 t → (s3.setEntry dir i (withFlags f (m.mem src i))).mem t = s3.mem t := by
        rintro t ⟨hold, -⟩
        apply setEntry_mem_other
        rintro rfl
        rw [hused2 _ h.new.2] at hold
        simp at hold
      obtain ⟨howed, hunder⟩ := owed_congr hbelow
        hcopy.under (setEntry_mem_other _ _ _ hfd.symm)
      obtain ⟨s4, hs4⟩ : ∃ s4, s4 = s3.setEntry dir i (withFlags f (m.mem src i)) := ⟨_, rfl⟩
      rw [← hs4] at howed hunder
      have hentry : s4.mem dir i = withFlags f (m.mem src i) := by rw [hs4, setEntry_mem_same]
      have hothers : ∀ j, j ≠ i → s4.mem dir j = s.mem dir j := by
        intro j hj
        rw [hs4, setEntry_mem_index _ _ _ hj, hdir]
      suffices hdone : ∃ l', Filling tier m l₀ dir s4 l' ∧ ∀ j, j ≠ i → s4.mem dir j = s.mem dir j by
        rw [hs4] at hdone
        exact hdone
      refine ⟨l3, h.next hR hl₀ hp₀ hi hempty ?_ ?_ hothers ?_, hothers⟩
      · rw [hentry]
        simp only [ownAt, hown', if_true, withFlags_frame hlimit, howed]
        exact (hb3.congr fun t => by rw [List.count_append, List.count_append, Nat.add_comm]).mem
          (by rw [hs4]; rfl) (by rw [hs4]; rfl)
      · intro t ht htd
        rw [hs4, setEntry_mem_other _ _ _ htd]
        exact hmem3 t ht
      · rw [hentry]
        intro _
        rw [withFlags_frame hlimit]
        refine ⟨⟨hunused, ?_⟩, hunder.mono ?_⟩
        · rw [hs4]
          exact hcopy.balanced.used hb2.kept hb2.pmm (by rw [hs2]; exact hnow)
        · rintro t ⟨hold, ht⟩
          refine ⟨?_, by rw [hs4]; exact ht⟩
          rw [← Bool.not_eq_true] at hold ⊢
          exact fun hu => hold (hused2 t hu)

theorem cloneEntry_undo (hi : i < ENTRIES)
    (h : Filling tier m l₀ dir s l) (hempty : leadsOwn (s.mem dir i) (m.mem m.kernelPml4 i) = false) :
    match cloneEntry dir src i s with
    | (some (), s') => ∃ l', Filling tier m l₀ dir s' l' ∧ ∀ j, j ≠ i → s'.mem dir j = s.mem dir j
    | (none, s') => Undone tier m l₀ s' := by
  have hkernel : s.kernelPml4 = m.kernelPml4 := h.balanced.kernel
  unfold cloneEntry
  rw [bind_get, bind_word, bind_word, hkernel, hR.kernelMem h.mem, hR.rootMem h.mem]
  rcases Bool.eq_false_or_eq_true (has (m.mem src i) PTE_PRESENT) with hp | hp
  · rcases Bool.eq_false_or_eq_true (isKernels (m.mem src i) (m.mem m.kernelPml4 i)) with hk | hk
    · rw [if_neg (by simp [hp]), if_pos hk]
      have hnone := leadsOwn_kernels hk
      have hothers : ∀ j, j ≠ i → (s.setEntry dir i (m.mem src i)).mem dir j = s.mem dir j := fun j hj =>
        setEntry_mem_index _ _ _ hj
      refine ⟨l, h.next hR hl₀ hp₀ hi hempty ?_ ?_ hothers ?_, hothers⟩
      · rw [setEntry_mem_same, ownAt_none hnone]
        exact (Balanced.refl h.balanced.kept h.balanced.pmm).mem rfl rfl
      · exact fun t _ htd => Marked.of_eq (setEntry_mem_other _ _ _ htd)
      · rw [setEntry_mem_same]
        intro hlead
        rw [hnone] at hlead
        simp at hlead
    · rw [if_neg (by simp [hp]), if_neg (by simp [hk])]
      exact cloneTable_undo hR hl₀ hp₀ hi h hempty (by simp [leadsOwn, hp, hk])
  · rw [if_pos (by simp [hp])]
    exact ⟨l, h, fun _ _ => rfl⟩

theorem newDirectory_filling :
    match newDirectory m with
    | (some dir, s) => (∃ l, Filling tier m l₀ dir s l) ∧
        ∀ j, leadsOwn (s.mem dir j) (m.mem m.kernelPml4 j) = false
    | (none, s) => Undone tier m l₀ s := by
  have halloc := alloc_balanced hl₀ hp₀
  unfold newDirectory
  rw [bind_apply]
  rcases hrun : allocFrame m with ⟨_ | dir, s1⟩
  · rw [hrun] at halloc
    obtain ⟨hmem1, l1, hb1⟩ := halloc
    exact ⟨⟨l1, hb1⟩, fun t _ => Marked.of_eq (by rw [hmem1])⟩
  · rw [hrun] at halloc
    obtain ⟨hmem1, hunused, hnow, hpos, -, l1, hb1⟩ := halloc
    have hnedir : ∀ t, m.pmm.isUsed t = true → t ≠ dir := by
      rintro t ht rfl
      rw [ht] at hunused
      simp at hunused
    have hkdir := hnedir _ hR.kernelUsed
    dsimp only
    -- only the directory is written, and only with the kernel's entries
    let I : Machine → Prop := fun s => s.pmm = s1.pmm ∧ s.kernelPml4 = m.kernelPml4 ∧
      (∀ t, t ≠ dir → s.mem t = m.mem t) ∧ ∀ j, leadsOwn (s.mem dir j) (m.mem m.kernelPml4 j) = false
    have hstart : I (s1.setFrame dir fun _ => 0) := by
      refine ⟨rfl, hb1.kernel, ?_, ?_⟩
      · intro t ht
        rw [setFrame_mem_other _ _ ht, hmem1]
      · intro j
        rw [setFrame_mem_same]
        exact leadsOwn_absent (has_zero _)
    have hturn : ∀ i, Preserves I (shareKernel dir i) := by
      rintro i s ⟨hpmm, hk, hmem, hown⟩
      unfold shareKernel
      rw [bind_get, bind_word]
      split
      · next hp =>
        refine ⟨hpmm, hk, ?_, ?_⟩
        · intro t ht
          show (s.setEntry dir i _).mem t = _
          rw [setEntry_mem_other _ _ _ ht, hmem t ht]
        · intro j
          show leadsOwn ((s.setEntry dir i _).mem dir j) _ = false
          by_cases hj : j = i
          · subst hj
            rw [setEntry_mem_same, hk, hmem _ hkdir]
            rw [hk, hmem _ hkdir] at hp
            exact leadsOwn_kernels (isKernels_self hp)
          · rw [setEntry_mem_index _ _ _ hj]
            exact hown j
      · exact ⟨hpmm, hk, hmem, hown⟩
    have hall : ∀ N s, I s → ∃ s', upto (shareKernel dir) N s = (some (), s') ∧ I s' := by
      intro N
      induction N with
      | zero => exact fun s hs => ⟨s, rfl, hs⟩
      | succ N ih =>
        intro s hs
        obtain ⟨s', hrun', hs'⟩ := ih s hs
        have hlast := hturn N s' hs'
        have hanswer : (shareKernel dir N s').1 = some () := by
          unfold shareKernel
          rw [bind_get, bind_word]
          split <;> rfl
        refine ⟨(shareKernel dir N s').2, ?_, hlast⟩
        unfold upto
        rw [bind_of_some hrun', ← hanswer]
    obtain ⟨s, hloop, hpmm, hk, hmem, hown⟩ := hall ENTRIES _ hstart
    have hclear : clearFrame dir s1 = (some (), s1.setFrame dir fun _ => 0) := rfl
    rw [bind_of_some hclear, bind_of_some hloop]
    refine ⟨⟨l1, ?_, ?_, ⟨hunused, by rw [hpmm]; exact hnow⟩, hpos, ?_⟩, hown⟩
    · have hnone : owedDir s.mem m.kernelPml4 dir = [] := by
        rw [owedDir_eq, List.flatMap_eq_nil_iff]
        intro j _
        rw [hmem _ hkdir]
        exact ownAt_none (hown j)
      rw [hnone]
      exact hb1.mem hpmm (hk.trans hb1.kernel.symm)
    · exact fun t ht => Marked.of_eq (hmem t (hnedir t ht))
    · intro j _ hlead
      rw [hown j] at hlead
      simp at hlead

theorem cloneDirectory_undone (h : cloneDirectory src m = (none, s')) : Undone tier m l₀ s' := by
  unfold cloneDirectory at h
  split at h
  · rw [stop_apply, Prod.mk.injEq] at h
    rw [← h.2]
    exact ⟨⟨l₀, Balanced.refl hl₀ hp₀⟩, fun _ _ => Marked.refl _ _ _⟩
  · have hnew := newDirectory_filling hR hl₀ hp₀
    rw [bind_apply] at h
    rcases hrun : newDirectory m with ⟨_ | dir, s⟩
    · rw [hrun] at hnew h
      rw [← (Prod.mk.inj h).2]
      exact hnew
    · rw [hrun] at hnew h
      obtain ⟨⟨l, hfill⟩, hown⟩ := hnew
      have hloop : ∀ N, N ≤ ENTRIES → match upto (cloneEntry dir src) N s with
          | (some (), s1) => ∃ l1, Filling tier m l₀ dir s1 l1 ∧
              ∀ j, N ≤ j → leadsOwn (s1.mem dir j) (m.mem m.kernelPml4 j) = false
          | (none, s1) => Undone tier m l₀ s1 := by
        intro N
        induction N with
        | zero => exact fun _ => ⟨l, hfill, fun j _ => hown j⟩
        | succ N ih =>
          intro hN
          have ih := ih (by omega)
          unfold upto
          rw [bind_apply]
          rcases hrun1 : upto (cloneEntry dir src) N s with ⟨_ | _, s1⟩
          · rw [hrun1] at ih
            exact ih
          · rw [hrun1] at ih
            obtain ⟨l1, hfill1, hrest⟩ := ih
            have hstep := cloneEntry_undo hR hl₀ hp₀ (by omega) hfill1 (hrest N (Nat.le_refl N))
            dsimp only
            rcases hrun2 : cloneEntry dir src N s1 with ⟨_ | _, s2⟩
            · rw [hrun2] at hstep
              exact hstep
            · rw [hrun2] at hstep
              obtain ⟨l2, hfill2, hothers⟩ := hstep
              refine ⟨l2, hfill2, ?_⟩
              intro j hj
              rw [hothers j (by omega)]
              exact hrest j (by omega)
      have hend := hloop ENTRIES (Nat.le_refl _)
      dsimp only at h
      rw [bind_apply] at h
      rcases hrun1 : upto (cloneEntry dir src) ENTRIES s with ⟨_ | _, s1⟩
      · rw [hrun1] at hend h
        rw [← (Prod.mk.inj h).2]
        exact hend
      · rw [hrun1] at h
        simp at h

end

end Clone

end Zelr.Paging
