import Zelr.Paging.Isolation

/-!
# A page that could not be had

A table may have been made on the way; it is empty and it stays. The frame for the page goes back.
-/

namespace Zelr.Paging

open Act
open Pmm (put_same put_other)

section Refused

variable {g : Labels} {m m' : Machine} {dir t : Nat} {virt flags : Word} {p : List Nat}

theorem Pmm.allocFrame_refused {q q' : Pmm} (h : Pmm.allocFrame q = (some 0, q')) :
    q'.totalFrames = q.totalFrames ∧ q'.past = q.past ∧ ∀ f, q'.isUsed f = false → q.isUsed f = false := by
  unfold Pmm.allocFrame at h
  split at h
  · cases h
    exact ⟨rfl, rfl, fun _ hf => hf⟩
  · split at h
    · next i hi =>
      cases h
      refine ⟨by rw [Pmm.claim_total, Pmm.countDown_total], by rw [Pmm.claim_past, Pmm.countDown_past], ?_⟩
      intro f hf
      have := (Pmm.markUsed_isUsed (p := Pmm.countDown q) hf).1
      rwa [Pmm.countDown_isUsed] at this
    · cases h
      refine ⟨Pmm.countDown_total q, Pmm.countDown_past q, ?_⟩
      intro f hf
      rwa [Pmm.countDown_isUsed] at hf

theorem SameView.of_mem (h : m'.mem = m.mem) : SameView g m m' := by
  intro d q _ _
  rw [h]
  exact ⟨rfl, id⟩

theorem allocFrame_refused (hg : Inv g m) (h : allocFrame m = (none, m')) : Prepared g m g m' := by
  unfold allocFrame at h
  obtain ⟨⟨r, q⟩, hq⟩ : ∃ x, x = Pmm.allocFrame m.pmm := ⟨_, rfl⟩
  have hcall : onPmm Pmm.allocFrame m = (r, { m with pmm := q }) := by
    unfold onPmm zoom
    rw [← hq]
  rw [bind_apply, hcall] at h
  rcases r with _ | f
  · unfold Pmm.allocFrame at hq
    split at hq
    · cases hq
    · split at hq <;> cases hq
  · simp only at h
    split at h
    · next hzero =>
      cases h
      rw [hzero] at hq
      obtain ⟨htotal, hpast, hused⟩ := Pmm.allocFrame_refused hq.symm
      refine ⟨?_, ⟨rfl, htotal, fun _ _ => rfl, fun _ _ _ _ _ _ => Kin.refl _, fun _ _ => rfl, fun _ _ => rfl⟩,
        SameView.of_mem rfl, fun _ _ _ _ => rfl⟩
      exact { hg with
        total := by simpa only [htotal] using hg.total
        unused := fun f hf => hg.unused f (hused f hf)
        inside := by simpa only [htotal] using hg.inside
        count := by simpa only [hpast] using hg.count
        uncounted := by simpa only [hpast] using hg.uncounted }
    · cases h

theorem step_refused {level : Nat} (hg : Inv g m) (ht : g.own t = .table dir p) (hlen : p.length < 3)
    (htop : p = [] → indexOf virt level = 1) (hflags : has flags PTE_USER = true)
    (h : step t virt level true flags m = (none, m')) : Prepared g m g m' := by
  obtain ⟨i, hi⟩ : ∃ i, i = indexOf virt level := ⟨_, rfl⟩
  unfold step makeBelow widen at h
  simp only [← hi] at h htop
  rw [bind_apply, bind_word] at h
  rcases Bool.eq_false_or_eq_true (has (m.mem t i) PTE_PRESENT) with hp | hp
  · have hlink := (hg.entries t dir p ht i).link hp hlen htop
    rw [if_pos hp, pure_apply] at h
    simp only [hflags, if_true] at h
    rw [bind_apply, bind_word, setWord_apply] at h
    simp only [bind_word, setEntry_mem_same, has_or, hlink.huge, show has PTE_USER PTE_HUGE = false by decide,
      Bool.or_self, Bool.false_eq_true, if_false] at h
    cases h
  · simp only [hp, Bool.false_eq_true, if_false, if_true] at h
    rcases halloc : allocFrame m with ⟨_ | f, m0⟩
    · rw [bind_apply, halloc] at h
      cases h
      exact allocFrame_refused hg halloc
    · obtain ⟨hfresh, hg0, -, -⟩ := allocFrame_inv (O := fun _ _ => True) hg halloc
      have hlimit : f < FRAME_LIMIT := Nat.lt_of_lt_of_le hfresh.lt hg0.total
      rw [bind_of_some halloc] at h
      simp only [clearFrame, bind_apply, modify_apply, setWord_apply, hflags, if_true, word, gets_apply,
        setEntry_mem_same, has_or, has_addr hlimit (show PTE_ADDR_MASK &&& PTE_HUGE = 0#64 by decide),
        show has PTE_PRESENT PTE_HUGE = false by decide, show has PTE_RW PTE_HUGE = false by decide,
        show has PTE_USER PTE_HUGE = false by decide, Bool.or_self, Bool.false_eq_true, if_false] at h
      cases h

theorem tableFor_refused (hg : Inv g m) (hroot : g.own dir = .table dir []) (hvirt : indexOf virt 4 = 1)
    (hflags : has flags PTE_USER = true) (h : tableFor dir virt true flags m = (none, m')) :
    ∃ g', Prepared g m g' m' := by
  unfold tableFor at h
  rcases h4 : step dir virt 4 true flags m with ⟨_ | pdpt, m1⟩
  · rw [bind_of_none h4] at h
    cases h
    exact ⟨g, step_refused hg hroot (by simp) (fun _ => hvirt) hflags h4⟩
  · rw [bind_of_some h4] at h
    obtain ⟨g1, hp1, hf1⟩ := step_spec (p := []) hg hroot (by simp) (by simp [hvirt]) hflags rfl h4
    rw [List.nil_append, hvirt] at hf1
    have hroot1 := hp1.keeps.own_eq hroot (by simp)
    have hpdpt : g1.own pdpt = .table dir [1] := hp1.inv.follow_own _ hroot1 (by simp) (by simp) hf1
    rcases h3 : step pdpt virt 3 true flags m1 with ⟨_ | pd, m2⟩
    · rw [bind_of_none h3] at h
      cases h
      exact ⟨g1, hp1.trans (step_refused hp1.inv hpdpt (by simp) (by simp) hflags h3)⟩
    · rw [bind_of_some h3] at h
      obtain ⟨g2, hp2, hf2⟩ := step_spec hp1.inv hroot1 (by simp) (by simp) hflags hf1 h3
      have hroot2 := hp2.keeps.own_eq hroot1 (by simp)
      have hpd : g2.own pd = .table dir [1, indexOf virt 3] := hp2.inv.follow_own _ hroot2 (by simp) (by simp) hf2
      simp only [bind_word] at h
      rw [if_neg (by simp [hp2.inv.small hpd])] at h
      exact ⟨g2, (hp1.trans hp2).trans (step_refused hp2.inv hpd (by simp) (by simp) hflags h)⟩

theorem mapFresh_refused (hg : Inv g m) (hroot : g.own dir = .table dir []) (hvirt : indexOf virt 4 = 1)
    (hflags : has flags PTE_USER = true) (h : mapFresh dir virt flags m = (none, m')) :
    ∃ g', Prepared g m g' m' := by
  unfold mapFresh at h
  rcases halloc : allocFrame m with ⟨_ | f, m1⟩
  · rw [bind_of_none halloc] at h
    cases h
    exact ⟨g, allocFrame_refused hg halloc⟩
  · rw [bind_of_some halloc] at h
    obtain ⟨hfresh, hg2, hkeep⟩ := allocFrame_held hg halloc
    obtain ⟨m2, hm2⟩ : ∃ m2, m2 = m1.setFrame f fun _ => 0 := ⟨_, rfl⟩
    rw [← hm2] at hg2 hkeep
    have hclear : clearFrame f m1 = (some (), m2) := by rw [hm2]; rfl
    rw [bind_of_some hclear, bind_apply, attempt_apply] at h
    rcases hmap : mapPageIn dir virt (addr f) flags m2 with ⟨_ | ⟨⟩, m3⟩
    · simp only [hmap] at h
      have hdir : dir ≠ 0 := by
        have := hg.inside dir (by rw [hroot]; simp) (by rw [hroot]; simp)
        omega
      have htable : tableFor dir virt true flags m2 = (none, m3) := by
        unfold mapPageIn mapIn at hmap
        rw [if_neg hdir, bind_apply] at hmap
        rcases htable : tableFor dir virt true flags m2 with ⟨_ | pt, m4⟩
        · rw [htable] at hmap
          cases hmap
          rfl
        · rw [htable] at hmap
          cases hmap
      obtain ⟨g4, hp⟩ := tableFor_refused hg2 (hkeep.own_eq hroot (by simp)) hvirt hflags htable
      have hother : g4.own f = .other := hp.keeps.own_eq (Labels.give_own _ _ _ _) (by simp)
      have hp4 := hp.after hg hkeep
      have hpast := hp4.inv.uncounted f (by rw [hother]; simp)
      have hkernel : f ≠ m3.kernelPml4 := by
        rw [hp4.keeps.kernel]
        exact ne_of_own hfresh.free hg.kernel (by simp)
      obtain ⟨pm, hpm, htotal, hsame, hused⟩ := Pmm.freeFrame_last hpast
      have hrun : freeFrame f m3 = (some (), { m3 with pmm := pm }) := by
        unfold freeFrame onPmm zoom
        rw [hpm]
      rw [bind_of_some hrun] at h
      cases h
      have hback := hp4.inv.takeBack hkernel (by simp [hother]) hpast htotal hsame hused (by
        intro t d p i ht hlen hp hframe
        have hdata := ((hp4.inv.entries t d p ht i).leaf hp hlen).data
        rw [hframe, hother] at hdata
        cases hdata)
      refine ⟨g4.give f .free [], hback, ⟨hp4.keeps.kernel, htotal.trans hp4.keeps.total, ?_, fun _ _ _ _ _ hf => hf.elim,
        hp4.keeps.data, hp4.keeps.other⟩, hp4.view, hp4.frames⟩
      intro x hx
      have hxf : x ≠ f := by
        rintro rfl
        exact hx hfresh.free
      exact (put_other _ _ hxf).trans (hp4.keeps.own x hx)
    · simp only [hmap] at h
      cases h

theorem Shows.refused {R : Nat → Option Space} {a : Space} (hs : Shows g m R) (live : R dir = some a)
    (huser : IsUser virt) (hflags : has flags PTE_USER = true) (h : mapFresh dir virt flags m = (none, m')) :
    ∃ g', Shows g' m' R := by
  obtain ⟨g', hp⟩ := mapFresh_refused hs.inv (hs.root dir a live) huser.top hflags h
  refine ⟨g', hp.inv, fun d a' hd => hp.keeps.own_eq (hs.root d a' hd) (by simp), ?_⟩
  intro d a' hd virt' huser'
  rw [(hp.view d _ (hs.root d a' hd) rfl).1]
  exact hs.reads d a' hd virt' huser'

end Refused

end Zelr.Paging
