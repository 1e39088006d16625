import Zelr.Paging.Isolation

/-!
# Rights across a fork

`PTE_COW` is meant for a page made read only by sharing, not for one the program asked to have read only.
`copy_table` puts it on both, and the fault that follows gives either its write bit.
-/

namespace Zelr.Paging

open Act
open Pmm (put_same put_other)

def cowMarked (m : Machine) (dir : Nat) (virt : Word) : Bool :=
  match (entryFor dir (pageOf virt) m).1 with
  | some (table, i) => has (m.mem table i) PTE_COW
  | none => false

/-- No write fault is taken on a page that was mapped to be read only and that a clone has marked. -/
def Spared (w : World) : Op → Prop
  | .store dir virt _ => ∀ a c, w.spaces dir = some a → a (pageNumber virt) = some c → c.writable = false →
    cowMarked w.machine dir virt = false
  | .fault dir virt => ∀ a c, w.spaces dir = some a → a (pageNumber virt) = some c → c.writable = false →
    cowMarked w.machine dir virt = false
  | _ => True

def SparedRun : World → World → Prop := Relation.ReflTransGen fun w w' => ∃ op, Spared w op ∧ Step op w w'

/-- What was mapped to be read only cannot be written. -/
def ReadOnlyKept (w : World) : Prop :=
  ∀ dir a virt c, w.spaces dir = some a → IsUser virt → a (pageNumber virt) = some c → c.writable = false →
    walk w.machine.mem true virt 4 dir = none

section Rights

variable {g : Labels} {m m' : Machine} {R : Nat → Option Space} {a : Space} {dir : Nat} {virt : Word}

theorem entryFor_same (dir : Nat) (virt : Word) : Preserves (fun s => s = m) (entryFor dir virt) := by
  have hword : ∀ t i, Preserves (fun s => s = m) (word t i) := fun _ _ _ h => h
  unfold entryFor
  refine Preserves.bind (hword _ _) fun _ => Preserves.ite Preserves.stop ?_
  refine Preserves.bind (hword _ _) fun _ => Preserves.ite Preserves.stop ?_
  refine Preserves.bind (hword _ _) fun _ => Preserves.ite Preserves.stop ?_
  exact Preserves.bind (hword _ _) fun _ => Preserves.ite Preserves.stop (Preserves.pure _)

theorem resolveCow_marked (h : resolveCow dir virt m = (some (), m')) : cowMarked m dir virt = true := by
  unfold resolveCow at h
  split at h
  · cases h
  · obtain ⟨⟨t, i⟩, m1, hentry, hrest⟩ := bind_eq_some.mp h
    have hsame : m1 = m := (entryFor_same dir (pageOf virt)).of_eq hentry rfl
    subst hsame
    unfold cowMarked
    rw [hentry]
    simp only [bind_word] at hrest
    split at hrest
    · cases hrest
    · next hcow => simpa using hcow

def Guarded (m : Machine) (R : Nat → Option Space) : Prop :=
  ∀ d a virt c, R d = some a → IsUser virt → a (pageNumber virt) = some c → c.writable = false →
    writable m.mem d (1 :: pathOf virt) = false

theorem Shows.walk_write (hs : Shows g m R) (live : R dir = some a) (huser : IsUser virt) :
    walk m.mem true virt 4 dir =
      if writable m.mem dir (1 :: pathOf virt) then follow m.mem dir (1 :: pathOf virt) else none := by
  rw [walk_eq hs.inv true 4 (hs.root dir a live) rfl (by decide) fun _ => huser.top, below_four huser]
  rfl

theorem Guarded.set {now : Option Space} (hG : Guarded m R)
    (hothers : ∀ d a, d ≠ dir → R d = some a → ∀ virt, IsUser virt →
      writable m'.mem d (1 :: pathOf virt) = true → writable m.mem d (1 :: pathOf virt) = true)
    (hdir : ∀ a virt c, now = some a → IsUser virt → a (pageNumber virt) = some c → c.writable = false →
      writable m'.mem dir (1 :: pathOf virt) = false) : Guarded m' (Pmm.put R dir now) := by
  intro d a virt c hd huser hc hro
  by_cases hdd : d = dir
  · subst hdd
    rw [put_same] at hd
    exact hdir a virt c hd huser hc hro
  · rw [put_other _ _ hdd] at hd
    have hold := hG d a virt c hd huser hc hro
    rw [← Bool.not_eq_true]
    intro hw
    rw [hothers d a hdd hd virt huser hw] at hold
    cases hold

theorem Guarded.setPage {page' : Option Page} (hG : Guarded m R) (live : R dir = some a) (huser : IsUser virt)
    (hothers : ∀ d a virt', R d = some a → ¬(d = dir ∧ pathOf virt' = pathOf virt) →
      writable m'.mem d (1 :: pathOf virt') = true → writable m.mem d (1 :: pathOf virt') = true)
    (hpage : ∀ c, page' = some c → c.writable = false → writable m'.mem dir (1 :: pathOf virt) = false) :
    Guarded m' (Pmm.put R dir (some (Pmm.put a (pageNumber virt) page'))) := by
  apply hG.set
  · intro d a' hd hlive virt' _
    exact hothers d a' virt' hlive fun hb => hd hb.1
  · rintro a' virt' c ⟨⟩ huser' hc hro
    by_cases hsame : pathOf virt' = pathOf virt
    · rw [(pathOf_eq_iff huser' huser).mp hsame, put_same] at hc
      rw [hsame]
      exact hpage c hc hro
    · rw [put_other _ _ (mt (pathOf_eq_iff huser' huser).mpr hsame)] at hc
      have hold := hG dir a virt' c live huser' hc hro
      rw [← Bool.not_eq_true]
      intro hw
      rw [hothers dir a virt' live (fun hb => hsame hb.2) hw] at hold
      cases hold

theorem Guarded.map {f : Nat} {flags : Word} {writable : Bool} (hs : Shows g m R) (hG : Guarded m R)
    (live : R dir = some a) (huser : IsUser virt) (hflags : has flags PTE_USER = true)
    (hhuge : has flags PTE_HUGE = false) (hborrowed : has flags PTE_BORROWED = false)
    (hrw : has flags PTE_RW = writable) (h : mapFresh dir virt flags m = (some f, m')) :
    Guarded m' (Pmm.put R dir (some (Pmm.put a (pageNumber virt) (some (zeroPage writable))))) := by
  obtain ⟨g', hm⟩ := mapFresh_spec hs.inv (hs.root dir a live) huser.top hflags hhuge hborrowed h
  apply hG.setPage live huser
  · intro d a' virt' hlive hnot
    exact (hm.others d _ (hs.root d a' hlive) rfl hnot).2
  · rintro c ⟨⟩ hro
    rw [← Bool.not_eq_true]
    intro hw
    have := hm.writable hw
    rw [hrw] at this
    exact absurd (hro.symm.trans this) (by decide)

theorem resolve_rights (hs : Shows g m R) (live : R dir = some a) (huser : IsUser virt)
    (h : resolveCow dir virt m = (some (), m')) (d : Nat) (a' : Space) (virt' : Word) (hlive : R d = some a')
    (hnot : ¬(d = dir ∧ pathOf virt' = pathOf virt)) (hw : writable m'.mem d (1 :: pathOf virt') = true) :
    writable m.mem d (1 :: pathOf virt') = true := by
  obtain ⟨g', hg', hk', -, -⟩ := resolveCow_spec hs.inv (hs.root dir a live) huser h
  exact (hk'.walk hs.inv (1 :: pathOf virt') (hs.root d a' hlive) rfl (by simp) (by simp)
    fun _ _ => But.path rfl hnot).2 hw

theorem Guarded.fault (hs : Shows g m R) (hG : Guarded m R) (live : R dir = some a) (huser : IsUser virt)
    (hspared : ∀ c, a (pageNumber virt) = some c → c.writable = false → cowMarked m dir virt = false)
    (h : resolveCow dir virt m = (some (), m')) : Guarded m' R := by
  intro d a' virt' c hd huser' hc hro
  have hold := hG d a' virt' c hd huser' hc hro
  rw [← Bool.not_eq_true]
  intro hw
  by_cases hsame : d = dir ∧ pathOf virt' = pathOf virt
  · obtain ⟨rfl, hpath⟩ := hsame
    rw [live] at hd
    cases hd
    rw [(pathOf_eq_iff huser' huser).mp hpath] at hc
    have hmarked := resolveCow_marked h
    rw [hspared c hc hro] at hmarked
    cases hmarked
  · rw [resolve_rights hs live huser h d a' virt' hd hsame hw] at hold
    cases hold

theorem Guarded.storeAt {f : Word → Word} (hs : Shows g m R) (hG : Guarded m R) (live : R dir = some a)
    (huser : IsUser virt) (h : storeAt dir virt f m = (some (), m')) :
    Guarded m' (Pmm.put R dir (some (Pmm.put a (pageNumber virt)
      ((a (pageNumber virt)).map fun c => { c with words := stored c.words (wordOf virt) f })))) := by
  obtain ⟨-, -, -, -, hsame⟩ := storeAt_spec hs.inv (hs.root dir a live) huser h
  apply hG.setPage live huser
  · intro d a' virt' hlive _ hw
    rwa [hsame d _ (hs.root d a' hlive) rfl] at hw
  · intro c hc hro
    obtain ⟨c', hc', rfl⟩ := Option.map_eq_some_iff.mp hc
    rw [hsame dir _ (hs.root dir a live) rfl]
    exact hG dir a virt c' live huser hc' hro

theorem Guarded.store {f : Word → Word} (hs : Shows g m R) (hG : Guarded m R) (live : R dir = some a)
    (huser : IsUser virt)
    (hspared : ∀ c, a (pageNumber virt) = some c → c.writable = false → cowMarked m dir virt = false)
    (h : userStore dir virt f m = (some (), m')) :
    Guarded m' (Pmm.put R dir (some (Pmm.put a (pageNumber virt)
      ((a (pageNumber virt)).map fun c => { c with words := stored c.words (wordOf virt) f })))) := by
  unfold userStore at h
  rw [bind_get] at h
  split at h
  · exact hG.storeAt hs live huser h
  · obtain ⟨_, m1, hfault, hstore⟩ := bind_eq_some.mp h
    have hG1 := Guarded.fault hs hG live huser hspared hfault
    obtain ⟨g1, hs1⟩ := hs.fault live huser hfault
    exact hG1.storeAt hs1 live huser hstore

theorem Guarded.clone {src : Nat} (hs : Shows g m R) (hG : Guarded m R) (live : R src = some a)
    (h : cloneDirectory src m = (some dir, m')) : Guarded m' (Pmm.put R dir (some a)) := by
  obtain ⟨-, -, g', -, hk', -, hcopied⟩ := cloneDirectory_spec hs.inv (hs.root src a live) h
  apply hG.set
  · intro d a' hd hlive virt _ hw
    exact (hk'.walk hs.inv (1 :: pathOf virt) (hs.root d a' hlive) rfl (by simp) (by simp) fun _ _ _ => hd).2 hw
  · rintro a' virt c ⟨⟩ huser hc hro
    rw [← Bool.not_eq_true]
    intro hw
    have hold := hG src a virt c live huser hc hro
    rw [(hcopied _ rfl (bounded_pathOf virt)).writable hw] at hold
    cases hold

theorem Step.guarded {op : Op} {w w' : World} (h : Step op w w') (hspared : Spared w op)
    (hs : Shows g w.machine w.spaces) (hG : Guarded w.machine w.spaces) : Guarded w'.machine w'.spaces := by
  cases h with
  | new call =>
    obtain ⟨-, -, g', hsh⟩ := newDirectory_spec hs.inv call
    apply hG.set
    · intro d a hd hlive virt _ hw
      exact (hsh.keeps.walk hs.inv (1 :: pathOf virt) (hs.root d a hlive) rfl (by simp) (by simp) fun _ _ _ => hd).2 hw
    · rintro a virt c ⟨⟩ _ hc
      cases hc
  | alloc live user call =>
    exact Guarded.map hs hG live user (by decide) (by decide) (by decide) (by decide) call
  | @fill m m' R a dir frame virt writable live user call =>
    rcases writable with _ | _
    · exact Guarded.map hs hG live user (by decide) (by decide) (by decide) (by decide) call
    · exact Guarded.map hs hG live user (by decide) (by decide) (by decide) (by decide) call
  | clone live call => exact Guarded.clone hs hG live call
  | store live user call => exact Guarded.store hs hG live user (fun c hc hro => hspared _ c live hc hro) call
  | fault live user call => exact Guarded.fault hs hG live user (fun c hc hro => hspared _ c live hc hro) call
  | free live call =>
    obtain ⟨g', -, hmem, -, -⟩ := freeDirectory_spec hs.inv (hs.root _ _ live) call
    apply hG.set
    · intro d a _ _ virt _ hw
      rwa [hmem] at hw
    · simp

theorem SparedRun.guarded {w w' : World} (h : SparedRun w w') (hs : ∃ g, Shows g w.machine w.spaces)
    (hG : Guarded w.machine w.spaces) : (∃ g, Shows g w'.machine w'.spaces) ∧ Guarded w'.machine w'.spaces := by
  induction h with
  | refl => exact ⟨hs, hG⟩
  | tail _ hstep ih =>
    obtain ⟨op, hspared, hstep⟩ := hstep
    obtain ⟨⟨g, hs1⟩, hG1⟩ := ih
    exact ⟨hstep.shows ⟨g, hs1⟩, hstep.guarded hspared hs1 hG1⟩

end Rights

/-- While no write fault is taken on a read only page a clone has marked, no page mapped read only can be written in any
space; a fault that is taken there and handled lets the program write. -/
theorem readOnly_kept {m : Machine} {w : World} (hboot : Booted m) (hrun : SparedRun ⟨m, fun _ => none⟩ w) :
    ReadOnlyKept w ∧
      ∀ dir virt w', Step (.fault dir virt) w w' → ¬Spared w (.fault dir virt) → ¬ReadOnlyKept w' := by
  obtain ⟨⟨g, hs⟩, hG⟩ := hrun.guarded ⟨_, hboot.shows⟩ (by rintro d a virt c ⟨⟩)
  refine ⟨?_, ?_⟩
  · intro dir a virt c live huser hc hro
    rw [hs.walk_write live huser, hG dir a virt c live huser hc hro]
    rfl
  · rintro dir virt w' hstep hnot hkept
    cases hstep with
    | @fault m m' R a dir virt live user call =>
      obtain ⟨g', hg', hk', hpage, hwrite⟩ := resolveCow_spec hs.inv (hs.root _ _ live) user call
      obtain ⟨g'', hs'⟩ := hs.fault live user call
      apply hnot
      intro a' c live' hc hro
      exfalso
      have hnone := hkept dir a' virt c live' user hc hro
      rw [hs'.walk_write live' user, hwrite, if_pos rfl] at hnone
      have hreads := hs'.reads dir a' live' virt user
      unfold page at hreads
      rw [hnone, hc] at hreads
      cases hreads

def sampleNext : Word := 0x8000001000

theorem sampleNext_user : IsUser sampleNext := ⟨by decide, by decide⟩

/-- Beside its read only page the program has one it may write. -/
def samplePair : Machine := (fillPage 2 sampleNext true (sampleMapped false)).2
def samplePairCloned : Machine := (cloneFew 2 samplePair).2
def samplePairStored : Machine := (userStore 8 sampleNext (fun _ => 5) samplePairCloned).2

theorem samplePair_answers : (fillPage 2 sampleNext true (sampleMapped false)).1 = some 7 ∧ (cloneFew 2 samplePair).1 = some 8 ∧
    (userStore 8 sampleNext (fun _ => 5) samplePairCloned).1 = some () ∧
    (resolveCow 2 sampleNext samplePairStored).1 = some () ∧
    (walk (resolveCow 2 sampleNext samplePairStored).2.mem true sampleNext 4 2).isSome = true ∧
    (resolveCow 2 sampleVirt (sampleCloned false)).1 = some () ∧
    (walk (resolveCow 2 sampleVirt (sampleCloned false)).2.mem true sampleVirt 4 2).isSome = true := by
  decide +kernel

/-- The clone writes its copy of the other page, its parent takes the fault on what is left to it. -/
theorem readOnly_kept_sample : ∃ w, SparedRun ⟨sampleBoot, fun _ => none⟩ w ∧
    (walk w.machine.mem true sampleNext 4 2).isSome = true ∧
    walk w.machine.mem true sampleVirt 4 2 = none ∧ walk w.machine.mem true sampleVirt 4 8 = none := by
  obtain ⟨hfilled, hcloned, hstored, htaken, hwritten, -⟩ := samplePair_answers
  have hfilled : fillPage 2 sampleNext true (sampleMapped false) = (some 7, samplePair) := Prod.ext hfilled rfl
  have hplain := mapFresh_plain (sampleMapped_plain false) (by decide) (by decide) (by decide) (by decide) (by decide) hfilled
  have hcloned : cloneDirectory 2 samplePair = (some 8, samplePairCloned) :=
    cloneDirectory_few hplain.1 (Prod.ext hcloned rfl)
  have hstored : userStore 8 sampleNext (fun _ => 5) samplePairCloned = (some (), samplePairStored) := Prod.ext hstored rfl
  have htaken : resolveCow 2 sampleNext samplePairStored = (some (), (resolveCow 2 sampleNext samplePairStored).2) :=
    Prod.ext htaken rfl
  have hnew : SparedRun ⟨sampleBoot, fun _ => none⟩ _ :=
    Relation.ReflTransGen.single ⟨.new, trivial, Step.new sampleSpace_run⟩
  have hfill := hnew.tail ⟨.fill 2 sampleVirt false, trivial, Step.fill (put_same _ _ _) sampleVirt_user (sampleMapped_run false)⟩
  have hpair := hfill.tail ⟨.fill 2 sampleNext true, trivial, Step.fill (put_same _ _ _) sampleNext_user hfilled⟩
  have hclone := hpair.tail ⟨.clone 2, trivial, Step.clone (put_same _ _ _) hcloned⟩
  have hstore := hclone.tail ⟨.store 8 sampleNext fun _ => 5, by rintro _ _ ⟨⟩ ⟨⟩ ⟨⟩,
    Step.store (put_same _ _ _) sampleNext_user hstored⟩
  have hfault := hstore.tail ⟨.fault 2 sampleNext, by rintro _ _ ⟨⟩ ⟨⟩ ⟨⟩, Step.fault rfl sampleNext_user htaken⟩
  have hkept := (readOnly_kept sampleBoot_booted hfault).1
  exact ⟨_, hfault, hwritten, hkept 2 _ sampleVirt _ rfl sampleVirt_user rfl rfl,
    hkept 8 _ sampleVirt _ rfl sampleVirt_user rfl rfl⟩

/-- A read only page, a clone, and a write to it: the page can be written. -/
theorem readOnly_granted : ∃ w, Run ⟨sampleBoot, fun _ => none⟩ w ∧ ¬ReadOnlyKept w := by
  obtain ⟨-, -, -, -, -, htaken, hsome⟩ := samplePair_answers
  have hfault : resolveCow 2 sampleVirt (sampleCloned false) =
      (some (), (resolveCow 2 sampleVirt (sampleCloned false)).2) := Prod.ext htaken rfl
  refine ⟨_, (sampleWorld_steps false).tail ⟨_, Step.fault rfl sampleVirt_user hfault⟩, ?_⟩
  intro hkept
  have hnone := hkept 2 _ sampleVirt _ rfl sampleVirt_user rfl rfl
  simp only [hnone] at hsome
  cases hsome

end Zelr.Paging
