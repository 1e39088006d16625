import Zelr.Paging.Fork

/-!
# Making, copying and releasing address spaces
-/

namespace Zelr.Paging

open Act
open Pmm (put_same put_other)

variable {e k : Word} {g1 : Labels} {s s' : Machine}

section Space

variable {g : Labels} {m m' : Machine} {dir src f i : Nat} {p : List Nat}

def NotOf (dir : Nat) : Nat → List Nat → Prop := fun d _ => d ≠ dir

theorem NotOf.beyond {d : Nat} {r : List Nat} (h : NotOf dir d r) : Beyond dir p d r := fun hb => h hb.1

theorem set_kernels (hg : Inv g m) (hdir : g.own dir = .table dir []) (hi : i ≠ 1)
    (he : isKernels e (m.mem m.kernelPml4 i) = true) :
    Inv g (m.setEntry dir i e) ∧ Keeps (Beyond dir [i]) g m g (m.setEntry dir i e) :=
  hg.setEntry hdir (fun _ => Or.inl ⟨rfl, hi, he⟩) fun hb => absurd ⟨rfl, List.prefix_refl _⟩ hb

theorem isKernels_self (h : has k PTE_PRESENT = true) : isKernels k k = true := by
  simp [isKernels, h]

theorem hole_not_kernels (h : has k PTE_PRESENT = false) : isKernels e k = false := by
  simp [isKernels, h]

structure Sharing (g : Labels) (m : Machine) (dir : Nat) (g1 : Labels) (s : Machine) : Prop where
  inv : Inv g1 s
  keeps : Keeps (NotOf dir) g m g1 s
  root : g1.own dir = .table dir []
  empty : has (s.mem dir 1) PTE_PRESENT = false

theorem shareKernel_spec (hs : Sharing g m dir g1 s)
    (h : shareKernel dir i s = (some (), s')) : Sharing g m dir g1 s' := by
  unfold shareKernel at h
  rw [bind_get, bind_word] at h
  split at h
  · next hp =>
    cases h
    have hi : i ≠ 1 := by
      rintro rfl
      rw [hs.inv.hole] at hp
      cases hp
    obtain ⟨hg', hk'⟩ := set_kernels hs.inv hs.root hi (isKernels_self hp)
    refine ⟨hg', hs.keeps.trans (hk'.mono fun _ _ => NotOf.beyond), hs.root, ?_⟩
    rw [setEntry_mem_index _ _ _ (Ne.symm hi)]
    exact hs.empty
  · cases h
    exact hs

theorem loop_spec {I : Nat → Machine → Prop} {body : Nat → Act Machine Unit} {N : Nat}
    (hbody : ∀ i s s', i < N → I i s → body i s = (some (), s') → I (i + 1) s')
    (h0 : I 0 m) (h : upto body N m = (some (), m')) : I N m' := by
  have hloop : Triple (I 0) (upto body N) (fun _ => I N) (fun _ => True) := by
    apply Triple.upto
    intro i hi s hs
    split
    · next s' hrun => exact hbody i s s' hi hs hrun
    · trivial
  exact hloop.gives h0 h

theorem newDirectory_spec (hg : Inv g m) (h : newDirectory m = (some dir, m')) :
    g.own dir = .free ∧ dir ≠ 0 ∧ ∃ g', Sharing g m dir g' m' := by
  unfold newDirectory at h
  obtain ⟨f, m1, halloc, h⟩ := bind_eq_some.mp h
  obtain ⟨hfresh, hg1, -, hk1⟩ := allocFrame_inv (O := NotOf f) hg halloc
  obtain ⟨_, m2, hclear, h⟩ := bind_eq_some.mp h
  cases hclear
  obtain ⟨_, m3, hloop, h⟩ := bind_eq_some.mp h
  cases h
  obtain ⟨hg2, hk2⟩ := hg1.scratch (O := NotOf dir) hfresh.free fun _ => 0
  have hzero : ∀ i, has ((m1.setFrame dir fun _ => 0).mem dir i) PTE_PRESENT = false := by
    intro i
    rw [setFrame_mem_same]
    exact has_zero _
  obtain ⟨hg3, hk3⟩ := hg2.giveTable (O := NotOf dir) (d := dir) (p := []) (hfresh.setFrame _) hzero fun _ => rfl
  refine ⟨hfresh.free, hfresh.ne, g.give dir (.table dir []) [], ?_⟩
  have hstart : Sharing g m dir (g.give dir (.table dir []) []) (m1.setFrame dir fun _ => 0) :=
    ⟨hg3, (hk1.trans hk2).trans hk3, Labels.give_own _ _ _ _, hzero 1⟩
  exact loop_spec (I := fun _ s => Sharing g m dir (g.give dir (.table dir []) []) s)
    (fun _ _ _ _ hs hrun => shareKernel_spec hs hrun) hstart hloop

/-! ## A copy -/

/-- While the entries of the top level are copied. -/
structure Cloning (g : Labels) (m : Machine) (src dir i : Nat) (g1 : Labels) (s : Machine) : Prop where
  inv : Inv g1 s
  keeps : Keeps (NotOf dir) g m g1 s
  root : g1.own dir = .table dir []
  empty : i ≤ 1 → has (s.mem dir 1) PTE_PRESENT = false
  copied : 1 < i → ∀ q, q.length = 3 → Bounded q → Copied m src s dir (1 :: q)

theorem cloneTable_spec (hg1 : Inv g1 s) (hsrc : g1.own src = .table src [])
    (hroot : g1.own dir = .table dir []) (hne : src ≠ dir) (hp : has (s.mem src 1) PTE_PRESENT = true)
    (h : cloneTable dir 1 (s.mem src 1) s = (some (), s')) :
    ∃ g', Inv g' s' ∧ Keeps (Beyond dir [1]) g1 s g' s' ∧
      ∀ q, q.length = 3 → Bounded q → Copied s src s' dir (1 :: q) := by
  have hlink := (hg1.entries src src [] hsrc 1).link hp (by simp) (fun _ => rfl)
  unfold cloneTable at h
  obtain ⟨r, s1, hattempt, h⟩ := bind_eq_some.mp h
  rw [attempt_apply] at hattempt
  obtain ⟨hr, rfl⟩ := Prod.mk.inj hattempt
  rcases r with _ | f
  · obtain ⟨_, _, -, h⟩ := bind_eq_some.mp h
    cases h
  · have halloc : allocFrame s = (some f, (allocFrame s).2) := by
      rw [← Option.some.inj hr]
    obtain ⟨s1, hs1⟩ : ∃ s1, s1 = (allocFrame s).2 := ⟨_, rfl⟩
    rw [← hs1] at halloc h
    obtain ⟨hfresh, hg2, hmem, hk1⟩ := allocFrame_inv (O := Beyond dir [1]) hg1 halloc
    have hlimit : f < FRAME_LIMIT := Nat.lt_of_lt_of_le hfresh.lt hg2.total
    have hfd : f ≠ dir := ne_of_own hfresh.free hroot (by simp)
    obtain ⟨_, s2, hclear, h⟩ := bind_eq_some.mp h
    cases hclear
    obtain ⟨hg3, hk3⟩ := hg2.scratch (O := Beyond dir [1]) hfresh.free fun _ => 0
    obtain ⟨s2, hs2⟩ : ∃ s2, s2 = s1.setFrame f fun _ => 0 := ⟨_, rfl⟩
    have hfresh2 := hfresh.setFrame fun _ => 0
    rw [← hs2] at hg3 hk3 hfresh2
    have hzero : ∀ j, has (s2.mem f j) PTE_PRESENT = false := by
      intro j
      rw [hs2, setFrame_mem_same]
      exact has_zero _
    obtain ⟨hg4, hk4⟩ := hg3.giveTable (O := Beyond dir [1]) (d := dir) (p := [1]) hfresh2 hzero (by simp)
    have hkeep := (hk1.trans hk3).trans hk4
    obtain ⟨r, s3, hattempt, h⟩ := bind_eq_some.mp h
    rw [attempt_apply] at hattempt
    obtain ⟨hr, rfl⟩ := Prod.mk.inj hattempt
    rcases r with _ | ⟨⟩
    · obtain ⟨_, _, -, h⟩ := bind_eq_some.mp h
      obtain ⟨_, _, -, h⟩ := bind_eq_some.mp h
      obtain ⟨_, _, -, h⟩ := bind_eq_some.mp h
      cases h
    · have hcopy : copyTable 3 f (frameOf (s.mem src 1)) s2 = (some (), (copyTable 3 f (frameOf (s.mem src 1)) s2).2) := by
        rw [hs2, ← Option.some.inj hr]
      obtain ⟨s3, hs3⟩ : ∃ s3, s3 = (copyTable 3 f (frameOf (s.mem src 1)) s2).2 := ⟨_, rfl⟩
      have hend : s' = s3.setEntry dir 1 (withFlags f (s.mem src 1)) := by
        rw [hs3, hs2]
        cases h
        rfl
      rw [← hs3] at hcopy
      obtain ⟨g', hg', hk', hcopied⟩ := copyTable_spec 3 hg4 (hkeep.own_eq hlink.below (by simp))
        (Labels.give_own _ _ _ _) hne rfl (by decide) (by simp) hzero hcopy
      have hkeep' := hkeep.trans (hk'.mono fun _ _ => Beyond.outside)
      have hroot' := hkeep'.own_eq hroot (by simp)
      have hflag : ∀ flag, PTE_ADDR_MASK &&& flag = 0#64 → PTE_FLAGS &&& flag = flag →
          has (withFlags f (s.mem src 1)) flag = has (s.mem src 1) flag := fun _ => withFlags_has hlimit
      have hbelow : g'.own f = .table dir [1] := hk'.own_eq (Labels.give_own _ _ _ _) (by simp)
      obtain ⟨hg5, hk5⟩ := hg'.setEntry_but hroot' (i := 1) (e := withFlags f (s.mem src 1))
        (fun _ => Or.inr (Or.inl ⟨by simp, fun _ => rfl, (hflag _ (by decide) (by decide)).trans hlink.user,
          (hflag _ (by decide) (by decide)).trans hlink.rw, (hflag _ (by decide) (by decide)).trans hlink.huge,
          by rw [withFlags_frame hlimit]; exact hbelow⟩))
      rw [hend]
      refine ⟨g', hg5, hkeep'.trans (hk5.mono fun _ _ => Beyond.but), ?_⟩
      intro q hq hb
      have hnew := hcopied q hq hb
      have hp2 : has ((s3.setEntry dir 1 (withFlags f (s.mem src 1))).mem dir 1) PTE_PRESENT = true := by
        rw [setEntry_mem_same]
        exact (hflag _ (by decide) (by decide)).trans hp
      have hframe : frameOf ((s3.setEntry dir 1 (withFlags f (s.mem src 1))).mem dir 1) = f := by
        rw [setEntry_mem_same]
        exact withFlags_frame hlimit
      have hqne : q ≠ [] := by
        rintro rfl
        cases hq
      -- linking the table changes nothing under it, and what is under the parent's was not touched
      obtain ⟨hpage, hwrite⟩ := hk5.walk hg' q hbelow (by simp; omega) hqne (by simp) (by
        rintro r hr - ⟨-, heq⟩
        exact hr (by simpa using heq))
      obtain ⟨hpage', hwrite'⟩ := hkeep.walk hg1 q hlink.below (by simp; omega) hqne (by simp)
        fun r _ _ => Beyond.other hne _
      constructor
      · rw [page_cons hp, page_cons hp2, hframe, hpage, hnew.page, hpage']
      · simp only [writable, hframe, hp, hlink.rw, Bool.true_and, Bool.and_eq_true]
        exact fun hw => hwrite' (hnew.writable (hwrite hw.2))

theorem cloneEntry_spec (hg : Inv g m) (hsrc : g.own src = .table src [])
    (hne : src ≠ dir) (hs : Cloning g m src dir i g1 s) (h : cloneEntry dir src i s = (some (), s')) :
    ∃ g', Cloning g m src dir (i + 1) g' s' := by
  have hsrc1 := hs.keeps.own_eq hsrc (by simp)
  -- what is under the program's entry of the parent is as it was at first
  have hparent : ∀ q, q.length = 3 → page s.mem src (1 :: q) = page m.mem src (1 :: q) ∧
      (writable s.mem src (1 :: q) = true → writable m.mem src (1 :: q) = true) := fun q hq =>
    hs.keeps.walk hg (1 :: q) hsrc (by simp; omega) (by simp) (by simp) fun _ _ _ => hne
  unfold cloneEntry at h
  rw [bind_get, bind_word, bind_word] at h
  rcases Bool.eq_false_or_eq_true (has (s.mem src i) PTE_PRESENT) with hp | hp
  · rw [if_neg (by simp [hp])] at h
    by_cases hi : i = 1
    · subst hi
      rw [if_neg (by simp [hole_not_kernels hs.inv.hole])] at h
      obtain ⟨g', hg', hk', hcopied⟩ := cloneTable_spec hs.inv hsrc1 hs.root hne hp h
      refine ⟨g', hg', hs.keeps.trans (hk'.mono fun _ _ => NotOf.beyond), hk'.own_eq hs.root (by simp), by omega, ?_⟩
      intro _ q hq hb
      have hnew := hcopied q hq hb
      exact ⟨hnew.page.trans (hparent q hq).1, fun hw => (hparent q hq).2 (hnew.writable hw)⟩
    · have hk : isKernels (s.mem src i) (s.mem s.kernelPml4 i) = true := by
        rcases hs.inv.entries src src [] hsrc1 i hp with ⟨-, -, hk⟩ | ⟨-, htop, -⟩ | ⟨hthree, -⟩
        · exact hk
        · exact absurd (htop rfl) hi
        · cases hthree
      rw [if_pos hk] at h
      cases h
      obtain ⟨hg', hk'⟩ := set_kernels hs.inv hs.root hi hk
      refine ⟨g1, hg', hs.keeps.trans (hk'.mono fun _ _ => NotOf.beyond), hs.root, ?_, ?_⟩
      · intro hle
        rw [setEntry_mem_index _ _ _ (Ne.symm hi)]
        exact hs.empty (by omega)
      · intro hlt q hq hb
        have hold := hs.copied (by omega) q hq hb
        obtain ⟨hpage, hwrite⟩ := hk'.walk hs.inv (1 :: q) hs.root (by simp; omega) (by simp) (by simp) (by
          rintro (_ | ⟨a, r⟩) hr hpre
          · exact absurd rfl hr
          · rw [List.cons_prefix_cons] at hpre
            rw [hpre.1]
            exact Beyond.sibling (p := []) (Ne.symm hi) r)
        exact ⟨hpage.trans hold.page, fun hw => hold.writable (hwrite hw)⟩
  · rw [if_pos (by simp [hp])] at h
    cases h
    refine ⟨g1, hs.inv, hs.keeps, hs.root, fun hle => hs.empty (by omega), ?_⟩
    intro hlt q hq hb
    by_cases hi : i = 1
    · subst hi
      have hnone := hs.empty (Nat.le_refl 1)
      refine ⟨?_, ?_⟩
      · rw [page_none hnone, ← (hparent q hq).1, page_none hp]
      · simp [writable, hnone]
    · exact hs.copied (by omega) q hq hb

theorem cloneDirectory_spec (hg : Inv g m) (hsrc : g.own src = .table src [])
    (h : cloneDirectory src m = (some dir, m')) :
    g.own dir = .free ∧ dir ≠ 0 ∧ ∃ g', Inv g' m' ∧ Keeps (NotOf dir) g m g' m' ∧ g'.own dir = .table dir [] ∧
      ∀ q, q.length = 3 → Bounded q → Copied m src m' dir (1 :: q) := by
  unfold cloneDirectory at h
  split at h
  · cases h
  · obtain ⟨f, m1, hnew, h⟩ := bind_eq_some.mp h
    obtain ⟨_, m2, hloop, h⟩ := bind_eq_some.mp h
    cases h
    obtain ⟨hfree, hne0, g1, hs⟩ := newDirectory_spec hg hnew
    have hne : src ≠ dir := ne_of_own hsrc hfree (by simp)
    have hstart : ∃ g', Cloning g m src dir 0 g' m1 :=
      ⟨g1, hs.inv, hs.keeps, hs.root, fun _ => hs.empty, fun hlt => absurd hlt (by omega)⟩
    obtain ⟨g', hend⟩ := loop_spec (I := fun i s => ∃ g', Cloning g m src dir i g' s)
      (fun i s s' _ hI hrun => by
        obtain ⟨g2, hcl⟩ := hI
        exact cloneEntry_spec hg hsrc hne hcl hrun) hstart hloop
    exact ⟨hfree, hne0, g', hend.inv, hend.keeps, hend.root, hend.copied (by rw [ENTRIES]; decide)⟩

end Space

end Zelr.Paging
