import Zelr.Paging.Owed

/-!
# A copy that stops part way

What `copy_table` has done by the time it stops, for whatever reason: the holds it took are those a
release of the half made table gives back, and of what was in use before it changed only the rights in
the parent's page tables.
-/

namespace Zelr.Paging

open Act
open Pmm (put_same put_other)

/-! ## What happens to the parent's entries -/

def Marks (e e' : Word) : Prop := e' = e ∨ (counted e = true ∧ e' = sharedEntry e)

section Marks

variable {e e' e'' : Word}

theorem counted_sharedEntry (e : Word) : counted (sharedEntry e) = counted e := by
  simp [counted]

theorem sharedEntry_twice (e : Word) : sharedEntry (sharedEntry e) = sharedEntry e := by
  unfold sharedEntry
  apply BitVec.eq_of_getLsbD_eq
  intro i _
  simp only [BitVec.getLsbD_or, BitVec.getLsbD_and, BitVec.getLsbD_not]
  rcases e.getLsbD i with _ | _
  · rcases PTE_COW.getLsbD i with _ | _
    · simp
    · have hrw : PTE_RW.getLsbD i = PTE_RW.getLsbD i := rfl
      simp
  · rcases PTE_COW.getLsbD i with _ | _
    · simp
    · simp

theorem Marks.trans (h : Marks e e') (h' : Marks e' e'') : Marks e e'' := by
  rcases h with rfl | ⟨hc, rfl⟩
  · exact h'
  · rcases h' with rfl | ⟨-, rfl⟩
    · exact Or.inr ⟨hc, rfl⟩
    · exact Or.inr ⟨hc, sharedEntry_twice e⟩

theorem Marks.frame (h : Marks e e') : frameOf e' = frameOf e := by
  rcases h with rfl | ⟨-, rfl⟩
  · rfl
  · exact sharedEntry_frame

theorem Marks.leads (h : Marks e e') : leads e' = leads e := by
  rcases h with rfl | ⟨-, rfl⟩
  · rfl
  · simp [Zelr.Paging.leads]

theorem Marks.counted (h : Marks e e') : counted e' = counted e := by
  rcases h with rfl | ⟨-, rfl⟩
  · rfl
  · exact counted_sharedEntry e

end Marks

/-- The level of each frame a space uses: its tables from 4 down to 1, and 0 for a page. -/
abbrev Tier := Nat → Option Nat

def Marked (tier : Tier) (t : Nat) (w w' : Nat → Word) : Prop :=
  if tier t = some 1 then ∀ i, Marks (w i) (w' i) else w' = w

section Marked

variable {tier : Tier} {t : Nat} {w w' w'' : Nat → Word}

theorem Marked.refl (tier : Tier) (t : Nat) (w : Nat → Word) : Marked tier t w w := by
  unfold Marked
  split
  · exact fun i => Or.inl rfl
  · rfl

theorem Marked.trans (h : Marked tier t w w') (h' : Marked tier t w' w'') : Marked tier t w w'' := by
  unfold Marked at *
  split
  · next ht =>
    rw [if_pos ht] at h h'
    exact fun i => (h i).trans (h' i)
  · next ht =>
    rw [if_neg ht] at h h'
    exact h'.trans h

theorem Marked.marks (h : Marked tier t w w') (i : Nat) : Marks (w i) (w' i) := by
  unfold Marked at h
  split at h
  · exact h i
  · rw [h]
    exact Or.inl rfl

theorem Marked.same (h : Marked tier t w w') (ht : tier t ≠ some 1) : w' = w := by
  unfold Marked at h
  rwa [if_neg ht] at h

theorem Marked.of_eq (h : w' = w) : Marked tier t w w' := h ▸ Marked.refl tier t w

end Marked

/-- The tables of a space are in use, each at one level, and so are its pages. -/
structure Tiers (tier : Tier) (m : Machine) : Prop where
  total : m.pmm.totalFrames ≤ FRAME_LIMIT
  used : ∀ t n, tier t = some n → m.pmm.isUsed t = true
  below : ∀ t n i, tier t = some (n + 2) → n < 2 → i < ENTRIES → leads (m.mem t i) = true →
    tier (frameOf (m.mem t i)) = some (n + 1)
  page : ∀ t i, tier t = some 1 → i < ENTRIES → counted (m.mem t i) = true →
    m.pmm.isUsed (frameOf (m.mem t i)) = true

/-! ## Accounts -/

/-- Since `s₀`, one hold was taken for each place in a list. -/
structure Balanced (s₀ : Machine) (l₀ : Ledger) (s : Machine) (l : Ledger) (fs : List Nat) : Prop where
  kept : l.Kept
  pmm : l.pmm = s.pmm
  reserved : l.reserved = l₀.reserved
  kernel : s.kernelPml4 = s₀.kernelPml4
  total : s.pmm.totalFrames = s₀.pmm.totalFrames
  taken : ∀ f, l.taken f = l₀.taken f + fs.count f

section Accounts

variable {s₀ s s' : Machine} {l₀ l l' : Ledger} {fs fs' : List Nat} {f : Nat}

theorem Balanced.refl (hl : l.Kept) (hp : l.pmm = s.pmm) : Balanced s l s l [] :=
  ⟨hl, hp, rfl, rfl, rfl, fun _ => rfl⟩

section
variable (h : Balanced s₀ l₀ s l fs)
include h

theorem Balanced.trans (h' : Balanced s l s' l' fs') :
    Balanced s₀ l₀ s' l' (fs ++ fs') where
  kept := h'.kept
  pmm := h'.pmm
  reserved := h'.reserved.trans h.reserved
  kernel := h'.kernel.trans h.kernel
  total := h'.total.trans h.total
  taken f := by rw [h'.taken, h.taken, List.count_append, Nat.add_assoc]

theorem Balanced.congr (hfs : ∀ f, fs'.count f = fs.count f) :
    Balanced s₀ l₀ s l fs' := { h with taken := fun f => by rw [h.taken, hfs] }

theorem Balanced.mem (hp : s'.pmm = s.pmm) (hk : s'.kernelPml4 = s.kernelPml4) :
    Balanced s₀ l₀ s' l fs where
  kept := h.kept
  pmm := h.pmm.trans hp.symm
  reserved := h.reserved
  kernel := hk.trans h.kernel
  total := by rw [hp, h.total]
  taken := h.taken

theorem Balanced.used (hl : l₀.Kept) (hp : l₀.pmm = s₀.pmm)
    (hf : s₀.pmm.isUsed f = true) : s.pmm.isUsed f = true := by
  rw [← hp, hl.isUsed] at hf
  rw [← h.pmm, h.kept.isUsed, h.pmm, h.total, ← hp]
  rcases hf with hf | hf
  · exact Or.inl hf
  · right
    unfold Ledger.holders at *
    rw [h.reserved, h.taken]
    omega

theorem Balanced.freeAll (hfs : ∀ f, fs'.count f = fs.count f) :
    ∃ l', Zelr.Paging.freeAll fs' s = (some (), { s with pmm := l'.pmm }) ∧
      Balanced s₀ l₀ { s with pmm := l'.pmm } l' [] := by
  obtain ⟨l', hrun, hkept, hres, htotal, htaken⟩ := h.kept.freeAll h.pmm
    (fun f => by rw [h.taken, hfs]; omega)
  refine ⟨l', hrun, hkept, rfl, hres.trans h.reserved, h.kernel, ?_, ?_⟩
  · rw [← h.total, ← h.pmm]
    exact htotal
  · intro f
    have := htaken f
    rw [h.taken, hfs] at this
    rw [List.count_nil]
    omega

end

theorem Ledger.Kept.zero_used (hl : l.Kept) (hp : l.pmm = s.pmm) : 0 < s.pmm.totalFrames → s.pmm.bitmap 0 = true := by
  intro hpos
  rw [← hp] at hpos ⊢
  exact (hl.bit 0 hpos).mpr (hl.zero.2 hpos)

theorem alloc_balanced (hl : l.Kept) (hp : l.pmm = s.pmm) :
    match allocFrame s with
    | (some f, s') => s'.mem = s.mem ∧ s.pmm.isUsed f = false ∧ s'.pmm.isUsed f = true ∧
        f ≠ 0 ∧ f < s.pmm.totalFrames ∧ ∃ l', Balanced s l s' l' [f]
    | (none, s') => s'.mem = s.mem ∧ ∃ l', Balanced s l s' l' [] := by
  obtain ⟨f, pm, hcall⟩ : ∃ f pm, Pmm.allocFrame s.pmm = (some f, pm) := by
    unfold Pmm.allocFrame
    split
    · exact ⟨_, _, rfl⟩
    · split
      · exact ⟨_, _, rfl⟩
      · exact ⟨_, _, rfl⟩
  have hon : onPmm Pmm.allocFrame s = (some f, { s with pmm := pm }) := by
    unfold onPmm zoom
    rw [hcall]
  unfold allocFrame
  rw [bind_of_some hon]
  have hkept := hl.alloc (hp ▸ hcall)
  by_cases hf : f = 0
  · rw [if_pos hf]
    subst hf
    obtain ⟨-, htotal, -, -, -⟩ := Pmm.allocFrame_none hcall (hl.zero_used hp)
    refine ⟨rfl, _, hkept, rfl, rfl, rfl, htotal, ?_⟩
    intro f
    rfl
  · rw [if_neg hf]
    obtain ⟨hlt, hbit, hbits, htotal, -, -, -⟩ := Pmm.allocFrame_exact hcall hf
    refine ⟨rfl, ?_, ?_, hf, hlt, _, hkept, rfl, rfl, rfl, htotal, ?_⟩
    · rw [Pmm.isUsed_eq_false]
      exact ⟨hlt, hbit⟩
    · show pm.isUsed f = true
      unfold Pmm.isUsed
      rw [if_neg (by omega), hbits, put_same]
    · intro f'
      simp only [if_neg hf]
      by_cases hff : f' = f
      · subst hff
        rw [put_same, List.count_singleton_self]
      · rw [put_other _ _ hff, List.count_singleton, if_neg (by simpa using Ne.symm hff)]
        rfl

theorem Pmm.share_inside {p p' : Pmm} (h : Pmm.share f p = (some true, p')) : f < p.totalFrames := by
  unfold Pmm.share at h
  split at h
  · simp at h
  · split at h
    · simp at h
    · next hin =>
      rw [not_or] at hin
      omega

theorem share_balanced (hl : l.Kept) (hp : l.pmm = s.pmm) (hused : s.pmm.isUsed f = true) :
    ∃ took s', share f s = (some took, s') ∧ s'.mem = s.mem ∧
      ∃ l', Balanced s l s' l' (if took then [f] else []) := by
  obtain ⟨took, pm, hcall⟩ : ∃ took pm, Pmm.share f s.pmm = (some took, pm) := by
    unfold Pmm.share
    split
    · exact ⟨_, _, rfl⟩
    · split
      · exact ⟨_, _, rfl⟩
      · split
        · exact ⟨_, _, rfl⟩
        · exact ⟨_, _, rfl⟩
  have hon : share f s = (some took, { s with pmm := pm }) := by
    unfold share onPmm zoom
    rw [hcall]
  refine ⟨took, _, hon, rfl, ?_⟩
  rcases took with _ | _
  · have hsame := Pmm.share_refused hcall
    subst hsame
    exact ⟨l, Balanced.refl hl hp⟩
  · obtain ⟨-, hbits, htotal, -⟩ := Pmm.share_exact hcall
    have hheld : 0 < l.holders f := by
      rw [← hp, hl.isUsed] at hused
      have hlt := Pmm.share_inside hcall
      rw [← hp] at hlt
      exact hused.resolve_left (by omega)
    have hkept := hl.share hheld (hp ▸ hcall)
    refine ⟨_, hkept, rfl, rfl, rfl, htotal, ?_⟩
    intro f'
    simp only [if_true]
    by_cases hff : f' = f
    · subst hff
      rw [put_same, List.count_singleton_self]
    · rw [put_other _ _ hff, List.count_singleton, if_neg (by simpa using Ne.symm hff)]
      rfl

end Accounts

/-! ## One entry -/

/-- Handed out since `s₀`. -/
def New (s₀ s : Machine) (f : Nat) : Prop := s₀.pmm.isUsed f = false ∧ s.pmm.isUsed f = true

/-- What was done to entry `i` of the table `dst`, and to what is under it, took the holds `fs`. -/
structure Adds (tier : Tier) (s : Machine) (l : Ledger) (n dst i : Nat) (s' : Machine) (l' : Ledger) : Prop where
  balanced : Balanced s l s' l' (owedAt s'.mem n (s'.mem dst i))
  mem : ∀ t, s.pmm.isUsed t = true → t ≠ dst → Marked tier t (s.mem t) (s'.mem t)
  others : ∀ j, j ≠ i → s'.mem dst j = s.mem dst j
  under : UnderAt s'.mem (New s s') n (s'.mem dst i)

/-- What was done to the table `dst`, which was empty, and to what is under it. -/
structure Copying (tier : Tier) (s₀ : Machine) (l₀ : Ledger) (n dst : Nat) (s : Machine) (l : Ledger) : Prop where
  balanced : Balanced s₀ l₀ s l (owed s.mem n dst)
  mem : ∀ t, s₀.pmm.isUsed t = true → t ≠ dst → Marked tier t (s₀.mem t) (s.mem t)
  under : Under s.mem (New s₀ s) n dst

section Copy

variable {tier : Tier} {s₀ s s' : Machine} {l₀ l l' : Ledger} {n dst src i f : Nat}

theorem Tiers.unused (hT : Tiers tier s) (hf : s.pmm.isUsed f = false) : tier f = none := by
  rcases htier : tier f with _ | k
  · rfl
  · rw [hT.used f k htier] at hf
    simp at hf

theorem Tiers.step (hT : Tiers tier s) (htotal : s'.pmm.totalFrames = s.pmm.totalFrames)
    (hused : ∀ f, s.pmm.isUsed f = true → s'.pmm.isUsed f = true)
    (hmem : ∀ t k, tier t = some k → Marked tier t (s.mem t) (s'.mem t)) : Tiers tier s' where
  total := htotal ▸ hT.total
  used t k ht := hused t (hT.used t k ht)
  below t k i ht hk hi hl := by
    have hm := (hmem t _ ht).marks i
    rw [hm.frame]
    exact hT.below t k i ht hk hi (hm.leads ▸ hl)
  page t i ht hi hc := by
    have hm := (hmem t _ ht).marks i
    rw [hm.frame]
    exact hused _ (hT.page t i ht hi (hm.counted ▸ hc))

theorem Copying.start (hl : l.Kept) (hp : l.pmm = s.pmm) (hn : n ≠ 0)
    (hempty : ∀ j, j < ENTRIES → has (s.mem dst j) PTE_PRESENT = false) : Copying tier s l n dst s l := by
  refine ⟨(Balanced.refl hl hp).congr ?_, fun _ _ _ => Marked.refl _ _ _, ?_⟩
  · intro f
    have hnone : owed s.mem n dst = [] := by
      rw [owed_eq hn, List.flatMap_eq_nil_iff]
      intro j hj
      exact owedAt_absent (hempty j (List.mem_range.mp hj))
    rw [hnone]
  · rw [under_iff hn]
    exact fun j hj => UnderAt.absent (hempty j hj)

theorem Copying.next (hT : Tiers tier s₀) (hl₀ : l₀.Kept) (hp₀ : l₀.pmm = s₀.pmm) (hn : n ≠ 0)
    (hdst : tier dst = none) (hdused : s₀.pmm.isUsed dst = true) (hi : i < ENTRIES)
    (h : Copying tier s₀ l₀ n dst s l) (hempty : has (s.mem dst i) PTE_PRESENT = false)
    (hadd : Adds tier s l n dst i s' l') : Copying tier s₀ l₀ n dst s' l' := by
  have hused : ∀ f, s₀.pmm.isUsed f = true → s.pmm.isUsed f = true := fun f => h.balanced.used hl₀ hp₀
  have hused' : ∀ f, s.pmm.isUsed f = true → s'.pmm.isUsed f = true := fun f =>
    hadd.balanced.used h.balanced.kept h.balanced.pmm
  -- the tables made before are not touched again
  have hnew : ∀ f, New s₀ s f → s'.mem f = s.mem f := by
    rintro f ⟨hold, hnow⟩
    have hne : f ≠ dst := by
      rintro rfl
      rw [hdused] at hold
      simp at hold
    exact (hadd.mem f hnow hne).same (by simp [hT.unused hold])
  have hothers : ∀ j, j < ENTRIES → j ≠ i → owedAt s'.mem n (s'.mem dst j) = owedAt s.mem n (s.mem dst j) ∧
      UnderAt s'.mem (New s₀ s) n (s'.mem dst j) := by
    intro j hj hji
    rw [hadd.others j hji]
    exact owedAt_congr hnew ((under_iff hn).mp h.under j hj)
  refine ⟨(h.balanced.trans hadd.balanced).congr ?_, ?_, ?_⟩
  · intro f
    rw [owed_eq hn, owed_eq hn, List.count_append]
    exact count_flatMap_fill f hi (fun j hj hji => (hothers j hj hji).1) (owedAt_absent hempty)
  · exact fun t ht hne => (h.mem t ht hne).trans (hadd.mem t (hused t ht) hne)
  · rw [under_iff hn]
    intro j hj
    by_cases hji : j = i
    · subst hji
      refine hadd.under.mono ?_
      rintro f ⟨hold, hnow⟩
      refine ⟨?_, hnow⟩
      rw [← Bool.not_eq_true] at hold ⊢
      exact fun hu => hold (hused f hu)
    · refine (hothers j hj hji).2.mono ?_
      rintro f ⟨hold, hnow⟩
      exact ⟨hold, hused' f hnow⟩

theorem Copying.tiers (hT : Tiers tier s₀) (hl₀ : l₀.Kept) (hp₀ : l₀.pmm = s₀.pmm) (hdst : tier dst = none)
    (h : Copying tier s₀ l₀ n dst s l) : Tiers tier s := by
  refine hT.step h.balanced.total (fun f => h.balanced.used hl₀ hp₀) ?_
  intro t k ht
  refine h.mem t (hT.used t k ht) ?_
  rintro rfl
  rw [hdst] at ht
  simp at ht

theorem copying_loop {body : Nat → Act Machine Unit} (hT : Tiers tier s₀) (hl₀ : l₀.Kept) (hp₀ : l₀.pmm = s₀.pmm)
    (hn : n ≠ 0) (hdst : tier dst = none) (hdused : s₀.pmm.isUsed dst = true)
    (hempty : ∀ j, j < ENTRIES → has (s₀.mem dst j) PTE_PRESENT = false)
    (hbody : ∀ i s l, i < ENTRIES → Tiers tier s → l.Kept → l.pmm = s.pmm → s.pmm.isUsed dst = true →
      has (s.mem dst i) PTE_PRESENT = false → ∃ l', Adds tier s l n dst i (body i s).2 l') :
    ∃ l, Copying tier s₀ l₀ n dst (upto body ENTRIES s₀).2 l := by
  have hloop : ∀ N, N ≤ ENTRIES → ∃ l, Copying tier s₀ l₀ n dst (upto body N s₀).2 l ∧
      ((upto body N s₀).1 = some () → ∀ j, N ≤ j → j < ENTRIES →
        has ((upto body N s₀).2.mem dst j) PTE_PRESENT = false) := by
    intro N
    induction N with
    | zero => exact fun _ => ⟨l₀, Copying.start hl₀ hp₀ hn hempty, fun _ j _ hj => hempty j hj⟩
    | succ N ih =>
      intro hN
      obtain ⟨l, hcopy, hrest⟩ := ih (by omega)
      unfold upto
      rw [bind_apply]
      rcases hrun : upto body N s₀ with ⟨_ | _, s⟩
      · rw [hrun] at hcopy
        exact ⟨l, hcopy, fun h => by simp at h⟩
      · rw [hrun] at hcopy hrest
        have hempty' := hrest rfl N (Nat.le_refl N) (by omega)
        obtain ⟨l', hadd⟩ := hbody N s l (by omega) (hcopy.tiers hT hl₀ hp₀ hdst) hcopy.balanced.kept
          hcopy.balanced.pmm (hcopy.balanced.used hl₀ hp₀ hdused) hempty'
        refine ⟨l', hcopy.next hT hl₀ hp₀ hn hdst hdused (by omega) hempty' hadd, ?_⟩
        intro _ j hj hlt
        rw [hadd.others j (by omega)]
        exact hrest rfl j (by omega) hlt
  obtain ⟨l, hcopy, -⟩ := hloop ENTRIES (Nat.le_refl _)
  exact ⟨l, hcopy⟩

/-! ### What is done to an entry -/

theorem Adds.plain {e : Word} (hl : l.Kept) (hp : l.pmm = s.pmm) (howed : ∀ mem, owedAt mem n e = [])
    (hunder : ∀ mem, UnderAt mem (New s s) n e) : Adds tier s l n dst i (s.setEntry dst i e) l where
  balanced := by
    rw [setEntry_mem_same, howed]
    exact (Balanced.refl hl hp).mem rfl rfl
  mem t _ hne := Marked.of_eq (setEntry_mem_other _ _ _ hne)
  others j hj := setEntry_mem_index _ _ _ hj
  under := by
    rw [setEntry_mem_same]
    exact hunder _

theorem Adds.none (hb : Balanced s l s' l' []) (hmem : s'.mem = s.mem)
    (hempty : has (s.mem dst i) PTE_PRESENT = false) : Adds tier s l n dst i s' l' where
  balanced := by
    rw [hmem, owedAt_absent hempty]
    exact hb
  mem t _ _ := Marked.of_eq (by rw [hmem])
  others j _ := by rw [hmem]
  under := by
    rw [hmem]
    exact UnderAt.absent hempty

theorem leafOwed_counted {e : Word} (h : counted e = true) : leafOwed e = [frameOf e] := if_pos h

theorem leafOwed_not {e : Word} (h : counted e = false) : leafOwed e = [] := if_neg (by simp [h])

theorem copyPage_adds (hT : Tiers tier s) (hl : l.Kept) (hp : l.pmm = s.pmm) (hsrc : tier src = some 1)
    (hdst : tier dst = Option.none) (hdused : s.pmm.isUsed dst = true) (hi : i < ENTRIES)
    (hempty : has (s.mem dst i) PTE_PRESENT = false) (hc : counted (s.mem src i) = true) :
    ∃ l', Adds tier s l 1 dst i (copyPage dst src i (s.mem src i) s).2 l' := by
  have hne : src ≠ dst := by
    rintro rfl
    rw [hdst] at hsrc
    simp at hsrc
  obtain ⟨took, s1, hshare, hmem, l1, hb⟩ := share_balanced hl hp (hT.page src i hsrc hi hc)
  unfold copyPage
  rw [bind_of_some hshare]
  rcases took with _ | _
  · -- copied then and there
    rw [if_neg (by simp)] at hb ⊢
    have halloc := alloc_balanced hb.kept hb.pmm
    rcases hrun : allocFrame s1 with ⟨_ | f, s2⟩
    · rw [hrun] at halloc
      obtain ⟨hmem2, l2, hb2⟩ := halloc
      rw [bind_of_none hrun]
      exact ⟨l2, Adds.none (hb.trans hb2) (hmem2.trans hmem) hempty⟩
    · rw [hrun] at halloc
      obtain ⟨hmem2, hunused, hnow, -, hlt, l2, hb2⟩ := halloc
      have hlimit : f < FRAME_LIMIT := by
        have := hT.total
        have := hb.total
        omega
      have hused1 : ∀ t, s.pmm.isUsed t = true → s1.pmm.isUsed t = true := fun t => hb.used hl hp
      have hnef : ∀ t, s.pmm.isUsed t = true → t ≠ f := by
        rintro t ht rfl
        rw [hused1 t ht] at hunused
        simp at hunused
      rw [bind_of_some hrun]
      refine ⟨l2, ?_, ?_, ?_, trivial⟩
      · show Balanced s l _ l2 (leafOwed (((s2.setFrame f _).setEntry dst i (withFlags f (s.mem src i))).mem dst i))
        have hflags : counted (withFlags f (s.mem src i)) = true := by
          unfold counted at hc ⊢
          rw [withFlags_has hlimit (by decide) (by decide), withFlags_has hlimit (by decide) (by decide),
            withFlags_has hlimit (by decide) (by decide), withFlags_has hlimit (by decide) (by decide)]
          exact hc
        rw [setEntry_mem_same, leafOwed_counted hflags, withFlags_frame hlimit]
        exact (hb.trans hb2).mem rfl rfl
      · intro t ht htd
        apply Marked.of_eq
        show ((s2.setFrame f _).setEntry dst i _).mem t = _
        rw [setEntry_mem_other _ _ _ htd, setFrame_mem_other _ _ (hnef t ht), hmem2, hmem]
      · intro j hj
        show ((s2.setFrame f _).setEntry dst i _).mem dst j = _
        rw [setEntry_mem_index _ _ _ hj, setFrame_mem_other _ _ (hnef dst hdused), hmem2, hmem]
  · rw [if_pos rfl] at hb ⊢
    refine ⟨l1, ?_, ?_, ?_, trivial⟩
    · show Balanced s l _ l1 (leafOwed (((s1.setEntry dst i _).setEntry src i _).mem dst i))
      rw [setEntry_mem_other _ _ _ hne.symm, setEntry_mem_same,
        leafOwed_counted (by rw [counted_sharedEntry]; exact hc), sharedEntry_frame]
      exact hb.mem rfl rfl
    · intro t ht htd
      show Marked tier t _ (((s1.setEntry dst i _).setEntry src i _).mem t)
      by_cases hts : t = src
      · subst hts
        unfold Marked
        rw [if_pos hsrc]
        intro j
        by_cases hji : j = i
        · subst hji
          rw [setEntry_mem_same]
          exact Or.inr ⟨hc, rfl⟩
        · rw [setEntry_mem_index _ _ _ hji, setEntry_mem_other _ _ _ hne, hmem]
          exact Or.inl rfl
      · rw [setEntry_mem_other _ _ _ hts, setEntry_mem_other _ _ _ htd, hmem]
        exact Marked.refl _ _ _
    · intro j hj
      show ((s1.setEntry dst i _).setEntry src i _).mem dst j = _
      rw [setEntry_mem_other _ _ _ hne.symm, setEntry_mem_index _ _ _ hj, hmem]

theorem copyLeaf_adds (hT : Tiers tier s) (hl : l.Kept) (hp : l.pmm = s.pmm) (hsrc : tier src = some 1)
    (hdst : tier dst = Option.none) (hdused : s.pmm.isUsed dst = true) (hi : i < ENTRIES)
    (hempty : has (s.mem dst i) PTE_PRESENT = false) :
    ∃ l', Adds tier s l 1 dst i (copyLeaf dst src i s).2 l' := by
  have hplain : ∀ e, counted e = false → ∃ l', Adds tier s l 1 dst i (s.setEntry dst i e) l' := fun e he =>
    ⟨l, Adds.plain hl hp (fun _ => leafOwed_not he) fun _ => trivial⟩
  unfold copyLeaf
  rw [bind_word]
  split
  · exact hplain _ (by decide)
  · next hpres =>
    split
    · next hhuge => exact hplain _ (by simp [counted, hhuge])
    · next hhuge =>
      split
      · next huser => exact hplain _ (by simpa [counted] using fun _ _ h => absurd h (by simpa using huser))
      · next huser =>
        split
        · exact hplain _ (by decide)
        · next hborrowed =>
          refine copyPage_adds hT hl hp hsrc hdst hdused hi hempty ?_
          simp only [Bool.not_eq_true', Bool.not_eq_false] at hpres huser
          simp [counted, hpres, hhuge, huser, hborrowed]

theorem link_adds {s2 : Machine} {l2 : Ledger} {e : Word} {below : Nat} (hT : Tiers tier s) (hl : l.Kept)
    (hp : l.pmm = s.pmm) (hdst : tier dst = Option.none) (hdused : s.pmm.isUsed dst = true)
    (hmem2 : s2.mem = s.mem) (hunused : s.pmm.isUsed f = false)
    (hnow : s2.pmm.isUsed f = true) (hlt : f < s.pmm.totalFrames) (hb2 : Balanced s l s2 l2 [f])
    (hlead : leads e = true) (hbelow : tier below = some (n + 1))
    (hfill : ∀ {s3 : Machine}, Tiers tier s3 → l2.Kept → l2.pmm = s3.pmm → s3.pmm.isUsed f = true →
      (∀ j, j < ENTRIES → has (s3.mem f j) PTE_PRESENT = false) → tier below = some (n + 1) →
        tier f = Option.none → ∃ l', Copying tier s3 l2 (n + 1) f (copyTable (n + 1) f below s3).2 l') :
    ∃ l', Adds tier s l (n + 2) dst i ((do
      clearFrame f
      setWord dst i (addr f ||| (e &&& PTE_FLAGS))
      copyTable (n + 1) f below : Act Machine Unit) s2).2 l' := by
  have hlimit : f < FRAME_LIMIT := Nat.lt_of_lt_of_le hlt hT.total
  have hnef : ∀ t, s.pmm.isUsed t = true → t ≠ f := by
    rintro t ht rfl
    rw [ht] at hunused
    simp at hunused
  have hfree := hT.unused hunused
  obtain ⟨s3, hs3⟩ : ∃ s3, s3 = (s2.setFrame f fun _ => 0).setEntry dst i (withFlags f e) := ⟨_, rfl⟩
  have hmem3 : ∀ t, s.pmm.isUsed t = true → t ≠ dst → s3.mem t = s.mem t := by
    intro t ht htd
    rw [hs3, setEntry_mem_other _ _ _ htd, setFrame_mem_other _ _ (hnef t ht), hmem2]
  have hfd : f ≠ dst := (hnef dst hdused).symm
  have hempty3 : ∀ j, has (s3.mem f j) PTE_PRESENT = false := by
    intro j
    rw [hs3, setEntry_mem_other _ _ _ hfd, setFrame_mem_same]
    exact has_zero _
  have hb3 : Balanced s l s3 l2 [f] := hb2.mem (by rw [hs3]; rfl) (by rw [hs3]; rfl)
  have hT3 : Tiers tier s3 := by
    refine hT.step hb3.total (fun t => hb3.used hl hp) ?_
    intro t k ht
    apply Marked.of_eq
    apply hmem3 t (hT.used t k ht)
    rintro rfl
    rw [hdst] at ht
    simp at ht
  have hnow3 : s3.pmm.isUsed f = true := by rw [hs3]; exact hnow
  obtain ⟨l', hcopy⟩ := hfill hT3 hb3.kept hb3.pmm hnow3 (fun j _ => hempty3 j) hbelow hfree
  have hrun : ((do
      clearFrame f
      setWord dst i (addr f ||| (e &&& PTE_FLAGS))
      copyTable (n + 1) f below : Act Machine Unit) s2) = copyTable (n + 1) f below s3 := by
    rw [hs3]
    rfl
  rw [hrun]
  obtain ⟨s', hs'⟩ : ∃ s', s' = (copyTable (n + 1) f below s3).2 := ⟨_, rfl⟩
  rw [← hs'] at hcopy ⊢
  have hused3 : ∀ t, s.pmm.isUsed t = true → s3.pmm.isUsed t = true := fun t => hb3.used hl hp
  -- the entry that was linked is still there
  have hdst' : s'.mem dst = s3.mem dst := (hcopy.mem dst (hused3 dst hdused) hfd.symm).same (by simp [hdst])
  have hentry : s'.mem dst i = withFlags f e := by rw [hdst', hs3, setEntry_mem_same]
  have hlead' : leads (withFlags f e) = true := by
    unfold leads at hlead ⊢
    rw [withFlags_has hlimit (by decide) (by decide), withFlags_has hlimit (by decide) (by decide)]
    exact hlead
  have hframe : frameOf (withFlags f e) = f := withFlags_frame hlimit
  refine ⟨l', ?_, ?_, ?_, ?_⟩
  · rw [hentry]
    simp only [owedAt, hlead', if_true, hframe]
    exact (hb3.trans hcopy.balanced).congr fun t => by rw [List.count_append, List.count_append, Nat.add_comm]
  · intro t ht htd
    have := hcopy.mem t (hused3 t ht) (hnef t ht)
    rwa [hmem3 t ht htd] at this
  · intro j hj
    rw [hdst', hs3, setEntry_mem_index _ _ _ hj, setFrame_mem_other _ _ hfd.symm, hmem2]
  · rw [hentry]
    intro _
    rw [hframe]
    refine ⟨⟨hunused, hcopy.balanced.used hb3.kept hb3.pmm hnow3⟩, hcopy.under.mono ?_⟩
    rintro t ⟨hold, ht⟩
    refine ⟨?_, ht⟩
    rw [← Bool.not_eq_true] at hold ⊢
    exact fun hu => hold (hused3 t hu)

theorem copyTable_copying : ∀ (n : Nat) {s : Machine} {l : Ledger} {src dst : Nat}, n + 1 < 4 → Tiers tier s →
    l.Kept → l.pmm = s.pmm → tier src = some (n + 1) → tier dst = Option.none → s.pmm.isUsed dst = true →
      (∀ j, j < ENTRIES → has (s.mem dst j) PTE_PRESENT = false) →
        ∃ l', Copying tier s l (n + 1) dst (copyTable (n + 1) dst src s).2 l'
  | 0, s, l, src, dst, _, hT, hl, hp, hsrc, hdst, hdused, hempty =>
    copying_loop hT hl hp (by omega) hdst hdused hempty fun i s1 l1 hi hT1 hl1 hp1 hdused1 hempty1 =>
      copyLeaf_adds hT1 hl1 hp1 hsrc hdst hdused1 hi hempty1
  | n + 1, s, l, src, dst, hn, hT, hl, hp, hsrc, hdst, hdused, hempty => by
    refine copying_loop hT hl hp (by omega) hdst hdused hempty ?_
    intro i s1 l1 hi hT1 hl1 hp1 hdused1 hempty1
    simp only [bind_word]
    rcases Bool.eq_false_or_eq_true (has (s1.mem src i) PTE_PRESENT) with hpres | hpres
    · rcases Bool.eq_false_or_eq_true (has (s1.mem src i) PTE_HUGE) with hhuge | hhuge
      · rw [if_neg (by simp [hpres]), if_pos hhuge]
        exact ⟨l1, Adds.plain hl1 hp1 (fun _ => by simp [owedAt, leads, hhuge]) fun _ hlead => by
          simp [leads, hhuge] at hlead⟩
      · rw [if_neg (by simp [hpres]), if_neg (by simp [hhuge])]
        have hlead : leads (s1.mem src i) = true := by simp [leads, hpres, hhuge]
        have halloc := alloc_balanced hl1 hp1
        rcases hrun : allocFrame s1 with ⟨_ | f, s2⟩
        · rw [hrun] at halloc
          obtain ⟨hmem2, l2, hb2⟩ := halloc
          rw [bind_of_none hrun]
          exact ⟨l2, Adds.none hb2 hmem2 hempty1⟩
        · rw [hrun] at halloc
          obtain ⟨hmem2, hunused, hnow, -, hlt, l2, hb2⟩ := halloc
          rw [bind_of_some hrun]
          refine link_adds hT1 hl1 hp1 hdst hdused1 hmem2 hunused hnow hlt hb2 hlead
            (hT1.below src n i hsrc (by omega) hi hlead) ?_
          intro s3 hT3 hl3 hp3 hused3 hempty3 hbelow hfree
          exact copyTable_copying n (by omega) hT3 hl3 hp3 hbelow hfree hused3 hempty3
    · rw [if_pos (by simp [hpres])]
      exact ⟨l1, Adds.plain hl1 hp1 (fun _ => owedAt_absent (has_zero _)) fun _ => UnderAt.absent (has_zero _)⟩

end Copy

end Zelr.Paging
