import Zelr.User.Life

/-!
# Fresh room

Whatever was asked for and given back before, `user_mmap` finds room that nobody has, except where
the length comes round when it is rounded up to pages.
-/

namespace Zelr.User

open Act Paging
open Pmm (put_same put_other)

variable {v : Vma} {r : Option Unit} {s s' : Life}

/-! ## Runs -/

structure Life where
  machine : Machine
  spaces : Nat → Option Space
  task : Task

inductive Step : Life → Life → Prop
  | mmap (s : Life) (len : Word) (prot : BitVec 32) : Step s { s with task := (userMmap len prot s.task).2 }
  | munmap {s : Life} {m : Machine} {t : Task} {a : Space} {start len : Word} (live : s.spaces s.task.dir = some a)
    (call : userMunmap start len ⟨s.machine, s.task⟩ = (some (), ⟨m, t⟩)) :
    Step s ⟨m, Pmm.put s.spaces s.task.dir (some (released a (pageOf start) (roundUp len))), t⟩
  | munmapRefused {s : Life} {m : Machine} {t : Task} {start len : Word}
    (call : userMunmap start len ⟨s.machine, s.task⟩ = (none, ⟨m, t⟩)) : Step s ⟨m, s.spaces, t⟩
  | touch {s : Life} {m : Machine} {a : Space} {virt err : Word} (writable : Bool) (live : s.spaces s.task.dir = some a)
    (call : userFaultFill s.task virt err s.machine = (some (), m)) :
    Step s ⟨m, Pmm.put s.spaces s.task.dir (some (touched a (pageNumber virt) writable)), s.task⟩
  | touchRefused {s : Life} {m : Machine} {virt err : Word}
    (call : userFaultFill s.task virt err s.machine = (none, m)) : Step s ⟨m, s.spaces, s.task⟩
  /-- a page that any space could not have -/
  | refused {s : Life} {m : Machine} {a : Space} {dir : Nat} {virt flags : Word} (live : s.spaces dir = some a)
    (user : IsUser virt) (flagged : has flags PTE_USER = true) (call : mapFresh dir virt flags s.machine = (none, m)) :
    Step s ⟨m, s.spaces, s.task⟩
  /-- what the kernel does to a space -/
  | work {s : Life} {m : Machine} {R : Nat → Option Space} {op : Op}
    (call : Paging.Step op ⟨s.machine, s.spaces⟩ ⟨m, R⟩) (live : (R s.task.dir).isSome) : Step s ⟨m, R, s.task⟩

def Run : Life → Life → Prop := Relation.ReflTransGen Step

def ZerosInside (t : Task) : Prop := ∀ a : Word, t.zeroLo ≤ a → a < t.zeroHi → IsUser a

/-- A program that has asked for nothing, in a space made since the boot. -/
structure Started (s : Life) : Prop where
  machine : ∃ m, Booted m ∧ Paging.Run ⟨m, fun _ => none⟩ ⟨s.machine, s.spaces⟩
  live : (s.spaces s.task.dir).isSome
  zeros : ZerosInside s.task
  ranges : s.task.vma = []

structure Sane (s : Life) : Prop where
  shows : ∃ g, Shows g s.machine s.spaces
  live : (s.spaces s.task.dir).isSome
  zeros : ZerosInside s.task
  ranges : Ranges s.task.vma

section Runs

variable {s s' : Life} {g : Labels} {m m' : Machine} {t t' : Task} {R : Nat → Option Space} {a : Space}
  {virt err start len base : Word} {prot : BitVec 32}

theorem Started.sane (h : Started s) : Sane s := by
  obtain ⟨m, hboot, hrun⟩ := h.machine
  exact ⟨hrun.shows ⟨_, hboot.shows⟩, h.live, h.zeros, by rw [h.ranges]; exact Ranges.nil⟩

theorem shows_dir_pos (hs : Shows g m R) (live : R t.dir = some a) : t.dir ≠ 0 := by
  have hroot := hs.root t.dir a live
  have := hs.inv.inside t.dir (by rw [hroot]; simp) (by rw [hroot]; simp)
  omega

theorem fault_user (hR : Ranges t.vma) (h : vmaHolding t.vma virt = some v) : IsUser virt := by
  unfold vmaHolding at h
  have hfound := List.find?_some h
  obtain ⟨i, hi⟩ := List.getElem?_of_mem (List.mem_of_find?_eq_some h)
  simp only [Bool.and_eq_true, bne_iff_ne, decide_eq_true_eq, BitVec.le_def, BitVec.lt_def] at hfound
  have hin := hR.inside i v hi hfound.1.1
  have hlow := hin.low
  have hhigh := hin.high
  rw [hin.limit] at hfound
  rw [mmap_base_toNat] at hlow
  rw [mmap_max_toNat] at hhigh
  unfold IsUser USER_SPACE_BASE USER_SPACE_END
  omega

theorem stack_user (h : virt < USER_STACK_TOP ∧ virt ≥ USER_STACK_TOP - USER_STACK_MAX) : IsUser virt := by
  obtain ⟨hhi, hlo⟩ := h
  rw [BitVec.lt_def, show USER_STACK_TOP.toNat = 0x8050000000 from rfl] at hhi
  rw [ge_iff_le, BitVec.le_def, show (USER_STACK_TOP - USER_STACK_MAX).toNat = 0x804F800000 from rfl] at hlo
  unfold IsUser USER_SPACE_BASE USER_SPACE_END
  omega

theorem userFaultFill_cases (hR : Ranges t.vma) (hzeros : ZerosInside t)
    (h : userFaultFill t virt err m = (r, m')) :
    (r = none ∧ m' = m) ∨ ∃ flags, IsUser virt ∧ has flags PTE_USER = true ∧ has flags PTE_HUGE = false ∧
      has flags PTE_BORROWED = false ∧ fillMissing t.dir (pageOf virt) flags m = (r, m') := by
  unfold userFaultFill at h
  split at h
  · cases h
    exact Or.inl ⟨rfl, rfl⟩
  · split at h
    · cases h
      exact Or.inl ⟨rfl, rfl⟩
    · split at h
      · next hown =>
        refine Or.inr ⟨_, ?_, by decide, by decide, by decide, h⟩
        rcases hown with hstack | ⟨hlo, hhi⟩
        · exact stack_user hstack
        · exact hzeros virt hlo hhi
      · rcases hv : vmaHolding t.vma virt with _ | v
        · rw [hv] at h
          cases h
          exact Or.inl ⟨rfl, rfl⟩
        · rw [hv] at h
          simp only at h
          split at h
          · cases h
            exact Or.inl ⟨rfl, rfl⟩
          · refine Or.inr ⟨_, fault_user hR hv, ?_, ?_, ?_, h⟩
            · split <;> decide
            · split <;> decide
            · split <;> decide

theorem userMunmap_cases (h : userMunmap start len ⟨m, t⟩ = (r, ⟨m', t'⟩)) :
    (r = none ∧ m' = m ∧ t' = t) ∨ ∃ (i : Nat) (v : Vma), t.vma[i]? = some v ∧ v.base = pageOf start ∧
      v.len = roundUp len ∧ ((r = none ∧ (forPages (dropPage t.dir) v.base (v.base + v.len) m).1 = none) ∨
        (r = some () ∧ forPages (dropPage t.dir) v.base (v.base + v.len) m = (some (), m') ∧
          t' = { t with vma := t.vma.set i { v with base := 0, len := 0 } })) := by
  unfold userMunmap at h
  rw [bind_apply, get_apply] at h
  simp only at h
  split at h
  · cases h
    exact Or.inl ⟨rfl, rfl, rfl⟩
  · rcases hfind : t.vma.findIdx? (fun v => v.base == pageOf start && v.len == roundUp len) with _ | i
    · rw [hfind] at h
      cases h
      exact Or.inl ⟨rfl, rfl, rfl⟩
    · rw [hfind] at h
      simp only at h
      obtain ⟨hlt, hmatch, -⟩ := List.findIdx?_eq_some_iff_getElem.mp hfind
      rw [Bool.and_eq_true, beq_iff_eq, beq_iff_eq] at hmatch
      refine Or.inr ⟨i, t.vma[i], List.getElem?_eq_getElem hlt, hmatch.1, hmatch.2, ?_⟩
      rw [hmatch.1, hmatch.2]
      rcases hloop : forPages (dropPage t.dir) (pageOf start) (pageOf start + roundUp len) m with ⟨_ | ⟨⟩, m1⟩
      · have hrun : onMachine (forPages (dropPage t.dir) (pageOf start) (pageOf start + roundUp len)) ⟨m, t⟩ =
            (none, ⟨m1, t⟩) := by
          rw [onMachine_apply, hloop]
        rw [bind_of_none hrun] at h
        cases h
        exact Or.inl ⟨rfl, rfl⟩
      · have hrun : onMachine (forPages (dropPage t.dir) (pageOf start) (pageOf start + roundUp len)) ⟨m, t⟩ =
            (some (), ⟨m1, t⟩) := by
          rw [onMachine_apply, hloop]
        rw [bind_of_some hrun] at h
        cases h
        refine Or.inr ⟨rfl, rfl, ?_⟩
        congr 1
        apply List.ext_getElem?
        intro j
        rw [List.getElem?_modify, List.getElem?_set]
        split
        · next hij =>
          subst hij
          simp [hlt]
        · simp

theorem forPages_none {σ : Type} {body : Word → Act σ Unit} {first limit : Word} (h : ¬first < limit) :
    forPages body first limit = pure () := by
  unfold forPages
  rw [pagesLoop, if_neg h]

theorem munmap_pages {i : Nat} (hs : Shows g m R) (live : R t.dir = some a) (hR : Ranges t.vma)
    (hv : t.vma[i]? = some v) :
    ∃ m' g', forPages (dropPage t.dir) v.base (v.base + v.len) m = (some (), m') ∧
      Shows g' m' (Pmm.put R t.dir (some (released a v.base v.len))) ∧
      (∀ virt, IsUser virt → ¬(v.base.toNat ≤ virt.toNat ∧ virt.toNat < v.base.toNat + v.len.toNat) →
        lastEntry m'.mem t.dir virt = lastEntry m.mem t.dir virt ∧ userLoad m' t.dir virt = userLoad m t.dir virt) := by
  by_cases hbase : v.base = 0
  · have hlen := hR.free i v hv hbase
    have hnone : released a v.base v.len = a := by
      funext n
      unfold released
      rw [hbase, hlen, if_neg]
      rintro ⟨-, hn⟩
      exact Nat.not_lt_zero _ hn
    rw [hnone, put_self live, hbase, hlen, forPages_none (by decide)]
    exact ⟨m, g, rfl, hs, fun _ _ _ => ⟨rfl, rfl⟩⟩
  · have hin := hR.inside i v hv hbase
    obtain ⟨m', g', hrun, hdropped⟩ := dropPages_spec hs.inv (hs.root _ a live) hin
    have hs' := shows_dropped hs live hin hdropped
    refine ⟨m', g', hrun, hs', ?_⟩
    intro virt huser hout
    have hnot := mt (hin.mem_page huser).mp hout
    refine ⟨hdropped.entries _ virt (hs.root _ a live) huser.top fun hb => hnot hb.2, ?_⟩
    rw [userLoad_eq hs.inv (hs.root _ a live) huser, userLoad_eq hs'.inv (hs'.root _ _ (put_same _ _ _)) huser,
      hdropped.pages _ _ (hs.root _ a live) rfl fun hb => hnot hb.2]

theorem munmap_same (hs : Shows g m R) (live : R t.dir = some a) (hR : Ranges t.vma)
    (call : userMunmap start len ⟨m, t⟩ = (none, ⟨m', t'⟩)) : m' = m ∧ t' = t := by
  rcases userMunmap_cases call with ⟨-, hm, ht⟩ | ⟨i, v, hv, -, -, ⟨-, hrun⟩ | ⟨hr, -⟩⟩
  · exact ⟨hm, ht⟩
  · obtain ⟨m'', g', hrun', -⟩ := munmap_pages hs live hR hv
    rw [hrun'] at hrun
    cases hrun
  · cases hr

theorem Step.sane (h : Step s s') (hs : Sane s) : Sane s' := by
  obtain ⟨⟨g, hg⟩, hlive, hzeros, hranges⟩ := hs
  cases h with
  | mmap len prot =>
    have htask : (userMmap len prot s.task).2.dir = s.task.dir ∧ ZerosInside (userMmap len prot s.task).2 := by
      rcases h : userMmap len prot s.task with ⟨_ | base, t'⟩
      · rcases userMmap_none h with rfl | ⟨slot, vma, -, rfl⟩
        · exact ⟨rfl, hzeros⟩
        · exact ⟨rfl, hzeros⟩
      · obtain ⟨slot, vma, -, -, -, rfl⟩ := userMmap_some h
        exact ⟨rfl, hzeros⟩
    exact ⟨⟨g, hg⟩, by rw [htask.1]; exact hlive, htask.2, userMmap_ranges hranges⟩
  | @munmap m t a start len live call =>
    rcases userMunmap_cases call with ⟨hr, -⟩ | ⟨i, v, hv, hbase, hlen, ⟨hr, -⟩ | ⟨-, hrun, rfl⟩⟩
    · cases hr
    · cases hr
    · obtain ⟨m', g', hrun', hs', -⟩ := munmap_pages hg live hranges hv
      rw [hrun] at hrun'
      cases hrun'
      rw [hbase, hlen] at hs'
      refine ⟨⟨g', hs'⟩, ?_, hzeros, hranges.clear i v⟩
      show (Pmm.put s.spaces s.task.dir _ s.task.dir).isSome
      rw [put_same]
      rfl
  | @munmapRefused m t start len call =>
    obtain ⟨a, live⟩ := Option.isSome_iff_exists.mp hlive
    obtain ⟨rfl, rfl⟩ := munmap_same hg live hranges call
    exact ⟨⟨g, hg⟩, hlive, hzeros, hranges⟩
  | @touch m a virt err writable live call =>
    refine ⟨?_, by simp, hzeros, hranges⟩
    rcases userFaultFill_cases hranges hzeros call with ⟨hr, -⟩ | ⟨flags, huser, hflags, hhuge, hborrowed, hrun⟩
    · cases hr
    · exact fillMissing_some writable hg live huser hflags hhuge hborrowed hrun
  | @touchRefused m virt err call =>
    obtain ⟨a, live⟩ := Option.isSome_iff_exists.mp hlive
    refine ⟨?_, hlive, hzeros, hranges⟩
    rcases userFaultFill_cases hranges hzeros call with ⟨-, rfl⟩ | ⟨flags, huser, hflags, -, -, hrun⟩
    · exact ⟨g, hg⟩
    · exact fillMissing_none hg live huser hflags hrun
  | refused live user flagged call => exact ⟨hg.refused live user flagged call, hlive, hzeros, hranges⟩
  | work call live => exact ⟨call.shows ⟨g, hg⟩, live, hzeros, hranges⟩

theorem Run.sane (h : Run s s') (hs : Sane s) : Sane s' := by
  induction h with
  | refl => exact hs
  | tail _ hstep ih => exact hstep.sane ih

end Runs

/-! ## Room -/

/-- What is given has room for the length, on a page of the window, where no range was. -/
def FreshRoom (t : Task) (len : Word) (prot : BitVec 32) : Prop :=
  ∀ base t', userMmap len prot t = (some base, t') → ∃ room, ⟨base, room, prot⟩ ∈ t'.vma ∧
    base.toNat % 4096 = 0 ∧ len.toNat ≤ room.toNat ∧
    USER_MMAP_BASE.toNat ≤ base.toNat ∧ base.toNat + room.toNat ≤ USER_MMAP_MAX.toNat ∧
    ∀ w ∈ t.vma, w.base ≠ 0 → Apart ⟨base, room, prot⟩ w

/-- What is given back is one entry and its pages; the other ranges lie elsewhere, and every address
outside has its entry and reads what it read. -/
def OthersKept (m : Machine) (t : Task) (start len : Word) : Prop :=
  ∀ m' t', userMunmap start len ⟨m, t⟩ = (some (), ⟨m', t'⟩) → ∃ (i : Nat) (v : Vma), t.vma[i]? = some v ∧
    v.base = pageOf start ∧ v.len = roundUp len ∧
    (∀ j w, j ≠ i → t.vma[j]? = some w → t'.vma[j]? = some w ∧ (v.base ≠ 0 → w.base ≠ 0 → Apart v w)) ∧
    ∀ virt, IsUser virt → ¬(v.base.toNat ≤ virt.toNat ∧ virt.toNat < v.base.toNat + v.len.toNat) →
      lastEntry m'.mem t.dir virt = lastEntry m.mem t.dir virt ∧ userLoad m' t.dir virt = userLoad m t.dir virt

/-- Every entry is in use and there is no other. -/
def Full (vma : List Vma) : Prop := VMA_MAX ≤ vma.length ∧ ∀ v ∈ vma, v.base ≠ 0

section Room

variable {s : Life} {t : Task} {len : Word} {prot : BitVec 32}

theorem slotFor_none (vma : List Vma) : slotFor vma = none ↔ Full vma := by
  unfold slotFor Full
  split
  · next i hi =>
    obtain ⟨hlt, hfree, -⟩ := List.findIdx?_eq_some_iff_getElem.mp hi
    constructor
    · intro h
      cases h
    · intro h
      exact absurd (by simpa using hfree) (h.2 _ (List.getElem_mem hlt))
  · next hnone =>
    rw [List.findIdx?_eq_none_iff] at hnone
    have hall : ∀ v ∈ vma, v.base ≠ 0 := fun v hv => by simpa using hnone v hv
    split
    · next hlt =>
      constructor
      · intro h
        cases h
      · intro h
        omega
    · next hlt => exact ⟨fun _ => ⟨by omega, hall⟩, fun _ => rfl⟩

theorem freshRoom_of (hR : Ranges t.vma) (hlen : len.toNat + 4095 < 2 ^ 64) : FreshRoom t len prot := by
  intro base t' h
  obtain ⟨slot, vma, hslot, hfit, hplace, rfl⟩ := userMmap_some h
  obtain ⟨⟨z, hz, -⟩, hgrown⟩ := slotFor_spec hslot
  obtain ⟨hin, hapart⟩ := place_inside prot (hR.slot hslot) hfit (roundUp_whole len) hplace
  refine ⟨roundUp len, ?_, hin.aligned, roundUp_least hlen, hin.low, hin.high, ?_⟩
  · apply List.mem_of_getElem? (i := slot)
    rw [List.getElem?_set, if_pos rfl, if_pos (List.getElem?_eq_some_iff.mp hz).1]
  · intro w hw hbase
    obtain ⟨j, hj⟩ := List.getElem?_of_mem hw
    apply hapart j w _ hbase
    rcases hgrown with rfl | rfl
    · exact hj
    · rw [List.getElem?_append_left (List.getElem?_eq_some_iff.mp hj).1]
      exact hj

theorem userMmap_past {slot : Nat} {vma : List Vma} (hR : Ranges t.vma) (hdir : t.dir ≠ 0)
    (hlen : 2 ^ 64 ≤ len.toNat + 4095) (hslot : slotFor t.vma = some (slot, vma)) :
    userMmap len prot t = (some USER_MMAP_BASE, { t with vma := vma.set slot ⟨USER_MMAP_BASE, 0#64, prot⟩ }) := by
  have hne : len ≠ 0 := by
    rintro rfl
    exact absurd hlen (by decide)
  unfold userMmap
  rw [bind_apply, get_apply]
  simp only [roundUp_past hlen, hslot]
  rw [if_neg (not_or.mpr ⟨hdir, hne⟩), if_neg (by decide), place_empty (hR.slot hslot)]
  rfl

theorem freshRoom_iff (hR : Ranges t.vma) (hdir : t.dir ≠ 0) :
    FreshRoom t len prot ↔ len.toNat + 4095 < 2 ^ 64 ∨ Full t.vma := by
  constructor
  · intro hfresh
    rw [← slotFor_none]
    by_contra hnot
    obtain ⟨hlen, hslot⟩ := not_or.mp hnot
    obtain ⟨⟨slot, vma⟩, hslot⟩ := Option.ne_none_iff_exists'.mp hslot
    obtain ⟨room, -, -, hroom, -, hhigh, -⟩ := hfresh _ _ (userMmap_past hR hdir (by omega) hslot)
    rw [mmap_base_toNat, mmap_max_toNat] at hhigh
    omega
  · rintro (hlen | hfull)
    · exact freshRoom_of hR hlen
    · intro base t' h
      obtain ⟨slot, vma, hslot, -⟩ := userMmap_some h
      rw [(slotFor_none _).mpr hfull] at hslot
      cases hslot

theorem Sane.othersKept (hs : Sane s) (start len : Word) : OthersKept s.machine s.task start len := by
  obtain ⟨⟨g, hg⟩, hlive, -, hranges⟩ := hs
  obtain ⟨a, live⟩ := Option.isSome_iff_exists.mp hlive
  intro m' t' call
  rcases userMunmap_cases call with ⟨hr, -⟩ | ⟨i, v, hv, hbase, hlen, ⟨hr, -⟩ | ⟨-, hrun, rfl⟩⟩
  · cases hr
  · cases hr
  · obtain ⟨m1, g1, hrun', -, hothers⟩ := munmap_pages hg live hranges hv
    rw [hrun] at hrun'
    cases hrun'
    refine ⟨i, v, hv, hbase, hlen, ?_, hothers⟩
    intro j w hj hw
    refine ⟨?_, fun hv0 hw0 => hranges.apart i j v w hv hw (Ne.symm hj) hv0 hw0⟩
    rw [List.getElem?_set, if_neg (Ne.symm hj)]
    exact hw

end Room

/-- In every state the calls can lead to, what `user_mmap` gives is fresh room exactly unless the length
comes round and an entry is free; and giving a range back leaves the others alone. -/
theorem mmap_fresh {s₀ s : Life} (hstart : Started s₀) (hrun : Run s₀ s) :
    (∀ len prot, FreshRoom s.task len prot ↔ len.toNat + 4095 < 2 ^ 64 ∨ Full s.task.vma) ∧
      ∀ start len, OthersKept s.machine s.task start len := by
  have hs := hrun.sane hstart.sane
  obtain ⟨g, hg⟩ := hs.shows
  obtain ⟨a, live⟩ := Option.isSome_iff_exists.mp hs.live
  exact ⟨fun len prot => freshRoom_iff hs.ranges (shows_dir_pos hg live), hs.othersKept⟩

/-! ## A program that has just started -/

def sampleTask : Task where
  dir := 2
  brkBase := 0
  brk := 0
  vma := []
  zeroLo := 0
  zeroHi := 0

def sampleLife : Life where
  machine := sampleSpace
  spaces := Pmm.put (fun _ => none) 2 (some fun _ => none)
  task := sampleTask

theorem sampleLife_started : Started sampleLife where
  machine := ⟨sampleBoot, sampleBoot_booted, Relation.ReflTransGen.single ⟨_, Paging.Step.new sampleSpace_run⟩⟩
  live := rfl
  zeros := fun a _ hhi => absurd hhi (by
    rw [BitVec.lt_def]
    exact Nat.not_lt_zero _)
  ranges := rfl

/-- Two pages are asked for, and then a third. -/
theorem mmap_fresh_sample : ∃ s, Run sampleLife s ∧ s.task.vma = [⟨USER_MMAP_BASE, 8192, 3⟩] ∧
    FreshRoom s.task 100 3 ∧ ∀ start len, OthersKept s.machine s.task start len := by
  have hrun : Run sampleLife _ := Relation.ReflTransGen.single (Step.mmap sampleLife 5000 3)
  obtain ⟨hfresh, hothers⟩ := mmap_fresh sampleLife_started hrun
  refine ⟨_, hrun, by decide +kernel, (hfresh 100 3).mpr (Or.inl (by decide)), hothers⟩

/-- All of memory is asked for, and no room is given. -/
theorem mmap_no_room : ∃ s₀ s, Started s₀ ∧ Run s₀ s ∧
    (userMmap (-1) 3 s.task).1 = some USER_MMAP_BASE ∧ (userMmap (-1) 3 s.task).2.vma = [⟨USER_MMAP_BASE, 0, 3⟩] ∧
    ¬FreshRoom s.task (-1) 3 := by
  refine ⟨sampleLife, sampleLife, sampleLife_started, Relation.ReflTransGen.refl, by decide +kernel, by decide +kernel, ?_⟩
  rw [freshRoom_iff Ranges.nil (by decide)]
  unfold Full
  decide

/-!
## The last page

User space ends a page short of what its entry of the top level covers, and nothing is ever mapped there.
-/

/-- `USER_SPACE_END`, as an address. -/
def EDGE : Word := 0xFFFFFFF000

def Edge (m : Machine) (R : Nat → Option Space) : Prop :=
  ∀ d a, R d = some a → page m.mem d (1 :: pathOf EDGE) = none

section Edges

variable {g : Labels} {m m' : Machine} {R R' : Nat → Option Space} {a : Space} {dir : Nat} {virt flags : Word}

theorem edge_ne (h : IsUser virt) : pathOf EDGE ≠ pathOf virt := by
  obtain ⟨hlo, hhi⟩ := h
  have hedge : EDGE.toNat = 0xFFFFFFF000 := rfl
  intro heq
  simp only [pathOf, indexOf_eq, List.cons.injEq, and_true, hedge] at heq
  unfold USER_SPACE_BASE USER_SPACE_END at *
  omega

theorem Edge.set {now : Option Space} (hE : Edge m R)
    (hothers : ∀ d a, d ≠ dir → R d = some a → page m'.mem d (1 :: pathOf EDGE) = page m.mem d (1 :: pathOf EDGE))
    (hdir : ∀ a, now = some a → page m'.mem dir (1 :: pathOf EDGE) = none) : Edge m' (Pmm.put R dir now) := by
  intro d a hd
  by_cases hdd : d = dir
  · rw [hdd, put_same] at hd
    rw [hdd]
    exact hdir a hd
  · rw [put_other _ _ hdd] at hd
    rw [hothers d a hdd hd]
    exact hE d a hd

theorem Edge.setPage (hE : Edge m R) (live : R dir = some a) {now : Space}
    (hothers : ∀ d b, R d = some b → page m'.mem d (1 :: pathOf EDGE) = page m.mem d (1 :: pathOf EDGE)) :
    Edge m' (Pmm.put R dir (some now)) :=
  hE.set (fun d b _ hd => hothers d b hd) fun _ _ => (hothers dir a live).trans (hE dir a live)

theorem Edge.map {f : Nat} (now : Space) (hs : Shows g m R) (hE : Edge m R) (live : R dir = some a) (huser : IsUser virt)
    (hflags : has flags PTE_USER = true) (hhuge : has flags PTE_HUGE = false)
    (hborrowed : has flags PTE_BORROWED = false) (h : mapFresh dir virt flags m = (some f, m')) :
    Edge m' (Pmm.put R dir (some now)) := by
  obtain ⟨g', hm⟩ := mapFresh_spec hs.inv (hs.root dir a live) huser.top hflags hhuge hborrowed h
  exact hE.setPage live fun d b hd => (hm.others d _ (hs.root d b hd) rfl fun hb => edge_ne huser hb.2).1

theorem Edge.refused (hs : Shows g m R) (hE : Edge m R) (live : R dir = some a) (huser : IsUser virt)
    (hflags : has flags PTE_USER = true) (h : mapFresh dir virt flags m = (none, m')) : Edge m' R := by
  obtain ⟨g', hp⟩ := mapFresh_refused hs.inv (hs.root dir a live) huser.top hflags h
  intro d b hd
  rw [(hp.view d _ (hs.root d b hd) rfl).1]
  exact hE d b hd

theorem fillMissing_edge (hs : Shows g m R) (hE : Edge m R) (live : R dir = some a)
    (huser : IsUser virt) (hflags : has flags PTE_USER = true) (hhuge : has flags PTE_HUGE = false)
    (hborrowed : has flags PTE_BORROWED = false) (h : fillMissing dir (pageOf virt) flags m = (r, m')) : Edge m' R := by
  have hpage := isUser_pageOf huser
  obtain ⟨w, hlook, -, -⟩ := virtToPhysIn_spec hs.inv (hs.root dir a live) hpage.top
  unfold fillMissing at h
  rw [bind_of_some hlook] at h
  split at h
  · cases h
    exact hE
  · rcases hmap : mapFresh dir (pageOf virt) flags m with ⟨_ | f, m1⟩
    · rw [bind_of_none hmap] at h
      cases h
      exact hE.refused hs live hpage hflags hmap
    · rw [bind_of_some hmap] at h
      cases h
      have := hE.map a hs live hpage hflags hhuge hborrowed hmap
      rwa [put_self live] at this

theorem Edge.work {op : Op} (hs : Shows g m R) (hE : Edge m R) (h : Paging.Step op ⟨m, R⟩ ⟨m', R'⟩) : Edge m' R' := by
  cases h with
  | @new _ _ _ dir call =>
    obtain ⟨-, -, g', hsh⟩ := newDirectory_spec hs.inv call
    refine hE.set (fun d b hd hb => ?_) fun _ _ => page_none hsh.empty
    exact (hsh.keeps.walk hs.inv _ (hs.root d b hb) rfl (by simp) (by simp) fun _ _ _ => hd).1
  | alloc live user call => exact hE.map _ hs live user (by decide) (by decide) (by decide) call
  | @fill _ _ _ a dir frame virt writable live user call =>
    rcases writable with _ | _
    · exact hE.map _ hs live user (by decide) (by decide) (by decide) call
    · exact hE.map _ hs live user (by decide) (by decide) (by decide) call
  | @clone _ _ _ a src dir live call =>
    obtain ⟨-, -, g', -, hk', -, hcopied⟩ := cloneDirectory_spec hs.inv (hs.root src a live) call
    refine hE.set (fun d b hd hb => ?_) fun _ _ => ?_
    · exact (hk'.walk hs.inv _ (hs.root d b hb) rfl (by simp) (by simp) fun _ _ _ => hd).1
    · rw [(hcopied _ rfl (bounded_pathOf EDGE)).page]
      exact hE src a live
  | @store _ _ _ a dir virt f live user call =>
    unfold userStore at call
    rw [bind_get] at call
    split at call
    · obtain ⟨-, -, -, hothers, -⟩ := storeAt_spec hs.inv (hs.root dir a live) user call
      exact hE.setPage live fun d b hd => hothers d _ (hs.root d b hd) rfl fun hb => edge_ne user hb.2
    · obtain ⟨_, m1, hfault, hstore⟩ := bind_eq_some.mp call
      obtain ⟨g1, hg1, hk1, hpage1, -⟩ := resolveCow_spec hs.inv (hs.root dir a live) user hfault
      have hroot1 := fun d b (hd : R d = some b) => hk1.own_eq (hs.root d b hd) (by simp)
      obtain ⟨-, -, -, hothers, -⟩ := storeAt_spec hg1 (hroot1 dir a live) user hstore
      exact hE.setPage live fun d b hd => (hothers d _ (hroot1 d b hd) rfl fun hb => edge_ne user hb.2).trans
        (resolve_pages hs.inv hk1 hpage1 d _ (hs.root d b hd) rfl)
  | @fault _ _ _ a dir virt live user call =>
    obtain ⟨g1, -, hk1, hpage1, -⟩ := resolveCow_spec hs.inv (hs.root dir a live) user call
    intro d b hd
    rw [resolve_pages hs.inv hk1 hpage1 d _ (hs.root d b hd) rfl]
    exact hE d b hd
  | @free _ _ _ a dir live call =>
    obtain ⟨g', -, hmem, -, -⟩ := freeDirectory_spec hs.inv (hs.root dir a live) call
    refine hE.set (fun d b _ _ => by rw [hmem]) fun _ h => ?_
    cases h

theorem kernel_edge {w w' : World} (h : Paging.Run w w') (hs : ∃ g, Shows g w.machine w.spaces)
    (hE : Edge w.machine w.spaces) : Edge w'.machine w'.spaces := by
  induction h with
  | refl => exact hE
  | tail hrun hstep ih =>
    obtain ⟨g, hs'⟩ := Paging.Run.shows hrun hs
    obtain ⟨op, hstep⟩ := hstep
    exact ih.work hs' hstep

theorem Started.edge (h : Started s) : Edge s.machine s.spaces := by
  obtain ⟨m, hboot, hrun⟩ := h.machine
  exact kernel_edge hrun ⟨_, hboot.shows⟩ fun d a hd => by cases hd

theorem Step.edge (h : Step s s') (hs : Sane s) (hE : Edge s.machine s.spaces) :
    Edge s'.machine s'.spaces := by
  obtain ⟨⟨g, hg⟩, hlive, hzeros, hranges⟩ := hs
  obtain ⟨b, hb⟩ := Option.isSome_iff_exists.mp hlive
  cases h with
  | mmap len prot => exact hE
  | @munmap m t a start len live call =>
    rcases userMunmap_cases call with ⟨hr, -⟩ | ⟨i, v, hv, hbase, hlen, ⟨hr, -⟩ | ⟨-, hrun, rfl⟩⟩
    · cases hr
    · cases hr
    · by_cases hv0 : v.base = 0
      · rw [hv0, hranges.free i v hv hv0, forPages_none (by decide)] at hrun
        cases hrun
        exact hE.setPage live fun _ _ _ => rfl
      · have hin := hranges.inside i v hv hv0
        obtain ⟨m', g', hrun', hdropped⟩ := dropPages_spec hg.inv (hg.root _ a live) hin
        rw [hrun] at hrun'
        cases hrun'
        apply hE.setPage live
        intro d c hd
        apply hdropped.pages d _ (hg.root d c hd) rfl
        rintro ⟨-, j, hj, hpath⟩
        exact edge_ne (hin.page hj).1 hpath
  | @munmapRefused m t start len call =>
    obtain ⟨rfl, rfl⟩ := munmap_same hg hb hranges call
    exact hE
  | @touch m a virt err writable live call =>
    rcases userFaultFill_cases hranges hzeros call with ⟨hr, -⟩ | ⟨flags, huser, hflags, hhuge, hborrowed, hrun⟩
    · cases hr
    · have hE' := fillMissing_edge hg hE live huser hflags hhuge hborrowed hrun
      exact hE'.setPage live fun _ _ _ => rfl
  | @touchRefused m virt err call =>
    rcases userFaultFill_cases hranges hzeros call with ⟨-, rfl⟩ | ⟨flags, huser, hflags, hhuge, hborrowed, hrun⟩
    · exact hE
    · exact fillMissing_edge hg hE hb huser hflags hhuge hborrowed hrun
  | refused live user flagged call => exact hE.refused hg live user flagged call
  | work call live => exact hE.work hg call

theorem Run.edge (h : Run s s') (hs : Sane s) (hE : Edge s.machine s.spaces) :
    Edge s'.machine s'.spaces := by
  induction h with
  | refl => exact hE
  | tail hrun hstep ih => exact hstep.edge (Run.sane hrun hs) ih

end Edges

end Zelr.User
