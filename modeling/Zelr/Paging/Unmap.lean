import Zelr.Paging.Isolation

/-!
# Looking an address up, and taking its page away
-/

namespace Zelr.Paging

open Act
open Pmm (put_same put_other)

/-- The physical address behind an address, 0 where nothing is mapped. A large page is found above the last
level. -/
def resolve (pml4 : Nat) (virt : Word) : Act Machine Word := do
  match ← attempt (step pml4 virt 4 false 0) with
  | none => pure 0
  | some pdpt => do
    let e3 ← word pdpt (indexOf virt 3)
    if !has e3 PTE_PRESENT then pure 0
    else if has e3 PTE_HUGE then pure ((e3 &&& PTE_ADDR_MASK) ||| (virt &&& 0x3FFFFFFF))
    else do
      let e2 ← word (frameOf e3) (indexOf virt 2)
      if !has e2 PTE_PRESENT then pure 0
      else if has e2 PTE_HUGE then pure ((e2 &&& PTE_ADDR_MASK) ||| (virt &&& 0x1FFFFF))
      else do
        let e1 ← word (frameOf e2) (indexOf virt 1)
        if !has e1 PTE_PRESENT then pure 0 else pure ((e1 &&& PTE_ADDR_MASK) ||| (virt &&& 0xFFF))

def virtToPhysIn (pml4 : Nat) (virt : Word) : Act Machine Word :=
  if pml4 = 0 then pure 0 else resolve pml4 virt

def unmapPageIn (pml4 : Nat) (virt : Word) : Act Machine Unit :=
  if pml4 = 0 then pure ()
  else do
    match ← attempt (tableFor pml4 virt false 0) with
    | none => pure ()
    | some pt => setWord pt (indexOf virt 1) 0

/-- What the loop of `user_munmap` does to a page. -/
def dropPage (dir : Nat) (virt : Word) : Act Machine Unit := do
  let phys ← virtToPhysIn dir virt
  -- never touched, never given
  if phys = 0 then pure ()
  else do
    unmapPageIn dir virt
    freeFrame (phys.toNat / PAGE_SIZE)

def lastEntry (mem : Nat → Nat → Word) (dir : Nat) (virt : Word) : Option Word :=
  (follow mem dir [indexOf virt 4, indexOf virt 3, indexOf virt 2]).map fun t => mem t (indexOf virt 1)

section Look

variable {g : Labels} {m m' : Machine} {dir t i f level : Nat} {virt e : Word}

theorem step_look (t : Nat) (virt : Word) (level : Nat) (m : Machine) :
    step t virt level false 0 m =
      (if has (m.mem t (indexOf virt level)) PTE_PRESENT && !has (m.mem t (indexOf virt level)) PTE_HUGE then
        some (frameOf (m.mem t (indexOf virt level))) else none, m) := by
  have hflags : has 0 PTE_USER = false := by decide
  unfold step makeBelow widen
  simp only [hflags]
  rcases Bool.eq_false_or_eq_true (has (m.mem t (indexOf virt level)) PTE_PRESENT) with hp | hp
  · rcases Bool.eq_false_or_eq_true (has (m.mem t (indexOf virt level)) PTE_HUGE) with hh | hh
    · simp [bind_apply, word, hp, hh]
    · simp [bind_apply, word, hp, hh]
  · simp [bind_apply, word, hp]

theorem attempt_look (t : Nat) (virt : Word) (level : Nat) (m : Machine) :
    attempt (step t virt level false 0) m =
      (some (if has (m.mem t (indexOf virt level)) PTE_PRESENT && !has (m.mem t (indexOf virt level)) PTE_HUGE then
        some (frameOf (m.mem t (indexOf virt level))) else none), m) := by
  rw [attempt_apply, step_look]

theorem phys_frame (e virt : Word) : ((e &&& PTE_ADDR_MASK) ||| (virt &&& 0xFFF)).toNat / PAGE_SIZE = frameOf e := by
  have hlow : (virt &&& 0xFFF).toNat < 2 ^ 12 := by
    rw [BitVec.toNat_and]
    exact Nat.lt_of_le_of_lt Nat.and_le_right (by decide)
  unfold frameOf PAGE_SIZE
  rw [BitVec.toNat_or, show (4096 : Nat) = 2 ^ 12 from rfl, ← Nat.shiftRight_eq_div_pow, ← Nat.shiftRight_eq_div_pow,
    Nat.shiftRight_or_distrib, Nat.shiftRight_eq_div_pow (virt &&& 0xFFF).toNat, Nat.div_eq_of_lt hlow, Nat.or_zero]

theorem Inv.root_ne (hg : Inv g m) (hroot : g.own dir = .table dir []) : dir ≠ 0 := by
  have := hg.inside dir (by rw [hroot]; simp) (by rw [hroot]; simp)
  omega

/-- An entry that leads a program on to the table `t'`. -/
structure Leads (m : Machine) (t i t' : Nat) : Prop where
  present : has (m.mem t i) PTE_PRESENT = true
  user : has (m.mem t i) PTE_USER = true
  huge : has (m.mem t i) PTE_HUGE = false
  frame : frameOf (m.mem t i) = t'

/-- How far down the tables an address leads, and where. -/
inductive Way (g : Labels) (m : Machine) (dir : Nat) (virt : Word) : Option Nat → Prop where
  | four (h4 : has (m.mem dir 1) PTE_PRESENT = false) : Way g m dir virt none
  | three {pdpt : Nat} (h4 : Leads m dir 1 pdpt) (h3 : has (m.mem pdpt (indexOf virt 3)) PTE_PRESENT = false) :
    Way g m dir virt none
  | two {pdpt pd : Nat} (h4 : Leads m dir 1 pdpt) (h3 : Leads m pdpt (indexOf virt 3) pd)
    (h2 : has (m.mem pd (indexOf virt 2)) PTE_PRESENT = false) : Way g m dir virt none
  | one {pdpt pd pt : Nat} (h4 : Leads m dir 1 pdpt) (h3 : Leads m pdpt (indexOf virt 3) pd)
    (h2 : Leads m pd (indexOf virt 2) pt) (h1 : has (m.mem pt (indexOf virt 1)) PTE_PRESENT = false) :
    Way g m dir virt none
  | page {pdpt pd pt f : Nat} (h4 : Leads m dir 1 pdpt) (h3 : Leads m pdpt (indexOf virt 3) pd)
    (h2 : Leads m pd (indexOf virt 2) pt) (h1 : has (m.mem pt (indexOf virt 1)) PTE_PRESENT = true)
    (huser : has (m.mem pt (indexOf virt 1)) PTE_USER = true) (hf : frameOf (m.mem pt (indexOf virt 1)) = f)
    (hdata : g.own f = .data) : Way g m dir virt (some f)

theorem Inv.leads (hg : Inv g m) {d : Nat} {p : List Nat} (ht : g.own t = .table d p) (hlen : p.length < 3)
    (htop : p = [] → i = 1) (hp : has (m.mem t i) PTE_PRESENT = true) :
    Leads m t i (frameOf (m.mem t i)) ∧ g.own (frameOf (m.mem t i)) = .table d (p ++ [i]) := by
  have hlink := (hg.entries t d p ht i).link hp (by omega) htop
  exact ⟨⟨hp, hlink.user, hlink.huge, rfl⟩, hlink.below⟩

theorem Inv.way (hg : Inv g m) (hroot : g.own dir = .table dir []) (virt : Word) :
    Way g m dir virt (follow m.mem dir (1 :: pathOf virt)) := by
  simp only [pathOf, follow]
  split
  · next h4 =>
    obtain ⟨hleads4, hbelow4⟩ := hg.leads hroot (by simp) (by simp) h4
    split
    · next h3 =>
      obtain ⟨hleads3, hbelow3⟩ := hg.leads hbelow4 (by simp) (by simp) h3
      split
      · next h2 =>
        obtain ⟨hleads2, hbelow2⟩ := hg.leads hbelow3 (by simp) (by simp) h2
        split
        · next h1 =>
          have hleaf := (hg.entries _ dir _ hbelow2 (indexOf virt 1)).leaf h1 (by simp)
          exact .page hleads4 hleads3 hleads2 h1 hleaf.user rfl hleaf.data
        · next h1 => exact .one hleads4 hleads3 hleads2 (Bool.eq_false_iff.mpr h1)
      · next h2 => exact .two hleads4 hleads3 (Bool.eq_false_iff.mpr h2)
    · next h3 => exact .three hleads4 (Bool.eq_false_iff.mpr h3)
  · next h4 => exact .four (Bool.eq_false_iff.mpr h4)

theorem virtToPhysIn_spec (hg : Inv g m) (hroot : g.own dir = .table dir []) (hvirt : indexOf virt 4 = 1) :
    ∃ w, virtToPhysIn dir virt m = (some w, m) ∧
      (follow m.mem dir (1 :: pathOf virt) = none → w = 0) ∧
      ∀ f, follow m.mem dir (1 :: pathOf virt) = some f → w ≠ 0 ∧ w.toNat / PAGE_SIZE = f := by
  unfold virtToPhysIn resolve
  rw [if_neg (hg.root_ne hroot), bind_apply, attempt_look, hvirt]
  have hway := hg.way hroot virt
  generalize follow m.mem dir (1 :: pathOf virt) = reached at hway
  cases hway with
  | four h4 => exact ⟨0, by simp [h4, pure_apply], fun _ => rfl, by simp⟩
  | three h4 h3 => exact ⟨0, by simp [h4.present, h4.huge, h4.frame, bind_word, h3, pure_apply], fun _ => rfl, by simp⟩
  | two h4 h3 h2 =>
    refine ⟨0, ?_, fun _ => rfl, by simp⟩
    simp [h4.present, h4.huge, h4.frame, bind_word, h3.present, h3.huge, h3.frame, h2, pure_apply]
  | one h4 h3 h2 h1 =>
    refine ⟨0, ?_, fun _ => rfl, by simp⟩
    simp [h4.present, h4.huge, h4.frame, bind_word, h3.present, h3.huge, h3.frame, h2.present, h2.huge, h2.frame, h1,
      pure_apply]
  | @page pdpt pd pt f h4 h3 h2 h1 _ hf hdata =>
    have hpos := (hg.inside f (by rw [hdata]; simp) (by rw [hdata]; simp)).1
    have hphys := (phys_frame (m.mem pt (indexOf virt 1)) virt).trans hf
    refine ⟨(m.mem pt (indexOf virt 1) &&& PTE_ADDR_MASK) ||| (virt &&& 0xFFF), ?_, by simp, ?_⟩
    · simp [h4.present, h4.huge, h4.frame, bind_word, h3.present, h3.huge, h3.frame, h2.present, h2.huge, h2.frame, h1,
        pure_apply]
    rintro f ⟨⟩
    refine ⟨fun hzero => ?_, hphys⟩
    rw [hzero] at hphys
    rw [← hphys] at hpos
    exact absurd hpos (by decide)

theorem unmapPageIn_spec (hg : Inv g m) (hroot : g.own dir = .table dir []) (hvirt : indexOf virt 4 = 1)
    (h : follow m.mem dir (1 :: pathOf virt) = some f) :
    ∃ pt, follow m.mem dir [1, indexOf virt 3, indexOf virt 2] = some pt ∧
      has (m.mem pt (indexOf virt 1)) PTE_PRESENT = true ∧ frameOf (m.mem pt (indexOf virt 1)) = f ∧
      unmapPageIn dir virt m = (some (), m.setEntry pt (indexOf virt 1) 0) := by
  have hway := hg.way hroot virt
  rw [h] at hway
  cases hway with
  | @page pdpt pd pt _ h4 h3 h2 h1 _ hf _ =>
    refine ⟨pt, ?_, h1, hf, ?_⟩
    · simp only [follow, h4.present, h4.frame, h3.present, h3.frame, h2.present, h2.frame, if_true]
    · unfold unmapPageIn tableFor
      rw [if_neg (hg.root_ne hroot), bind_apply, attempt_apply, bind_apply, step_look, hvirt]
      simp only [h4.present, h4.huge, h4.frame, Bool.not_false, Bool.and_self, if_true]
      rw [bind_apply, step_look]
      simp only [h3.present, h3.huge, h3.frame, Bool.not_false, Bool.and_self, if_true]
      rw [bind_word]
      simp only [h2.present, h2.huge, Bool.and_false, Bool.false_eq_true, if_false]
      rw [step_look]
      simp only [h2.present, h2.huge, h2.frame, Bool.not_false, Bool.and_self, if_true]
      rfl

end Look

/-! ## Taking a page away -/

section Drop

variable {g : Labels} {m m' : Machine} {dir t d i f : Nat} {p : List Nat} {virt virt' : Word}

theorem drop_page {pm : Pmm} (hg : Inv g m) (ht : g.own t = .table d p) (hlen : p.length = 3)
    (hp : has (m.mem t i) PTE_PRESENT = true)
    (hfree : Pmm.freeFrame (frameOf (m.mem t i)) m.pmm = (some (), pm)) :
    ∃ g', Inv g' { m.setEntry t i 0 with pmm := pm } ∧
      ∀ x d' r, g.own x = .table d' r → g'.own x = .table d' r := by
  have hleaf := (hg.entries t d p ht i).leaf hp hlen
  obtain ⟨hclear, -⟩ := hg.setEntry_but (e := 0) ht (EntryOk.absent (has_zero _))
  obtain ⟨frame, hframe⟩ : ∃ frame, frame = frameOf (m.mem t i) := ⟨_, rfl⟩
  have hdata := hleaf.data
  have hheld := hleaf.held
  rw [← hframe] at hfree hdata hheld
  obtain ⟨hpos, hlt⟩ := hg.inside frame (by rw [hdata]; simp) (by rw [hdata]; simp)
  have hcount := hg.count frame hdata
  -- no other entry that names the page is lost
  have hothers : ∀ t' d' r j, g.own t' = .table d' r → r.length = 3 →
      has ((m.setEntry t i 0).mem t' j) PTE_PRESENT = true → frameOf ((m.setEntry t i 0).mem t' j) = frame →
        (t', j) ∈ (g.holds frame).erase (t, i) := by
    intro t' d' r j ht' hr hp' hframe'
    have hin := ((hclear.entries t' d' r ht' j).leaf hp' hr).held
    rw [hframe'] at hin
    refine (List.mem_erase_of_ne ?_).mpr hin
    intro heq
    obtain ⟨rfl, rfl⟩ := Prod.mk.inj heq
    rw [setEntry_mem_same, has_zero] at hp'
    cases hp'
  rcases Nat.eq_zero_or_pos (m.pmm.past frame) with hpast | hpast
  · obtain ⟨pm', hfree', htotal, hsame, hused⟩ := Pmm.freeFrame_last hpast
    rw [hfree] at hfree'
    cases hfree'
    refine ⟨g.give frame .free [], hclear.takeBack (ne_of_own hdata hg.kernel (by simp)) (by simp [hdata]) hpast htotal
      hsame hused ?_, ?_⟩
    · intro t' d' r j ht' hr hp' hframe'
      have hin := hothers t' d' r j ht' hr hp' hframe'
      have hlen := List.length_pos_of_mem hin
      rw [List.length_erase_of_mem hheld] at hlen
      omega
    · intro x d' r hx
      exact (put_other _ _ (ne_of_own hx hdata (by simp))).trans hx
  · obtain ⟨pm', hfree', htotal, hused, hsame⟩ := Pmm.freeFrame_shared (by omega) hlt (by omega)
    rw [hfree] at hfree'
    cases hfree'
    refine ⟨g.setHolds frame ((g.holds frame).erase (t, i)), hclear.setHolds hdata htotal hused hsame
      (by rw [List.length_erase_of_mem hheld]; omega) ?_, fun x d' r hx => hx⟩
    intro t' d' r j ht' hr hp' hframe'
    refine ⟨hothers t' d' r j ht' hr hp' hframe', ?_⟩
    intro hrw
    have hone := ((hclear.entries t' d' r ht' j).leaf hp' hr).sole hrw
    rw [hframe'] at hone
    omega

theorem lastEntry_other {e : Word} {d' : Nat} (hg : Inv g m) (hroot : g.own dir = .table dir [])
    (hfollow : follow m.mem dir [1, indexOf virt 3, indexOf virt 2] = some t)
    (hk : Keeps (But dir (1 :: pathOf virt)) g m g (m.setEntry t (indexOf virt 1) e))
    (hroot' : g.own d' = .table d' []) (hvirt' : indexOf virt' 4 = 1) (hne : ¬(d' = dir ∧ pathOf virt' = pathOf virt)) :
    lastEntry (m.setEntry t (indexOf virt 1) e).mem d' virt' = lastEntry m.mem d' virt' := by
  unfold lastEntry
  rw [hvirt', hk.follow hg _ hroot' (by simp) (by simp)]
  · rcases hf : follow m.mem d' [1, indexOf virt' 3, indexOf virt' 2] with _ | t'
    · rfl
    · have ht : g.own t = .table dir [1, indexOf virt 3, indexOf virt 2] :=
        hg.follow_own _ hroot (by simp) (by simp) hfollow
      have ht' : g.own t' = .table d' [1, indexOf virt' 3, indexOf virt' 2] :=
        hg.follow_own _ hroot' (by simp) (by simp) hf
      simp only [Option.map_some, Option.some.injEq]
      rw [setEntry_mem, if_neg]
      rintro ⟨rfl, hi⟩
      rw [ht, Owner.table.injEq] at ht'
      obtain ⟨hdir, hpath⟩ := ht'
      simp only [List.cons.injEq, true_and, and_true] at hpath
      apply hne
      unfold pathOf
      rw [hpath.1, hpath.2, hi]
      exact ⟨hdir.symm, rfl⟩
  · rintro r - hr ⟨-, heq⟩
    have hle := hr.length_le
    rw [List.nil_append] at heq
    rw [heq] at hle
    simp [pathOf] at hle

theorem dropPage_spec (hg : Inv g m) (hroot : g.own dir = .table dir []) (hvirt : indexOf virt 4 = 1) :
    ∃ m' g', dropPage dir virt m = (some (), m') ∧ Inv g' m' ∧
      (∀ x d r, g.own x = .table d r → g'.own x = .table d r) ∧ page m'.mem dir (1 :: pathOf virt) = none ∧
      (∀ d r, g.own d = .table d [] → r.length = 3 → ¬(d = dir ∧ r = pathOf virt) →
        page m'.mem d (1 :: r) = page m.mem d (1 :: r)) ∧
      ∀ d virt', g.own d = .table d [] → indexOf virt' 4 = 1 → ¬(d = dir ∧ pathOf virt' = pathOf virt) →
        lastEntry m'.mem d virt' = lastEntry m.mem d virt' := by
  obtain ⟨w, hlook, hnone, hsome⟩ := virtToPhysIn_spec hg hroot hvirt
  unfold dropPage
  rw [bind_of_some hlook]
  rcases hf : follow m.mem dir (1 :: pathOf virt) with _ | f
  · rw [if_pos (hnone hf)]
    refine ⟨m, g, rfl, hg, fun _ _ _ h => h, ?_, fun _ _ _ _ _ => rfl, fun _ _ _ _ _ => rfl⟩
    unfold page
    rw [hf]
    rfl
  · obtain ⟨hne, hframe⟩ := hsome f hf
    obtain ⟨pt, hfollow, hp, hpt, hunmap⟩ := unmapPageIn_spec hg hroot hvirt hf
    have ht : g.own pt = .table dir [1, indexOf virt 3, indexOf virt 2] :=
      hg.follow_own _ hroot (by simp) (by simp) hfollow
    obtain ⟨pm, hpm⟩ : ∃ pm, Pmm.freeFrame f m.pmm = (some (), pm) := by
      rcases Nat.eq_zero_or_pos (m.pmm.past f) with hpast | hpast
      · obtain ⟨pm, hpm, -⟩ := Pmm.freeFrame_last hpast
        exact ⟨pm, hpm⟩
      · have hdata := ((hg.entries pt dir _ ht (indexOf virt 1)).leaf hp rfl).data
        rw [hpt] at hdata
        obtain ⟨hpos, hlt⟩ := hg.inside f (by rw [hdata]; simp) (by rw [hdata]; simp)
        obtain ⟨pm, hpm, -⟩ := Pmm.freeFrame_shared (by omega) hlt (by omega)
        exact ⟨pm, hpm⟩
    rw [if_neg hne, bind_of_some hunmap, hframe]
    have hrun : freeFrame f (m.setEntry pt (indexOf virt 1) 0) =
        (some (), { m.setEntry pt (indexOf virt 1) 0 with pmm := pm }) := by
      unfold freeFrame onPmm zoom
      rw [show (m.setEntry pt (indexOf virt 1) 0).pmm = m.pmm from rfl, hpm]
    obtain ⟨g', hg', htables⟩ := drop_page hg ht rfl hp (by rw [hpt]; exact hpm)
    obtain ⟨-, hk⟩ := hg.setEntry_but (e := 0) ht (i := indexOf virt 1) (EntryOk.absent (has_zero _))
    refine ⟨_, g', hrun, hg', htables, ?_, ?_, ?_⟩
    · have hfollow' : follow (m.setEntry pt (indexOf virt 1) 0).mem dir [1, indexOf virt 3, indexOf virt 2] = some pt := by
        rw [hk.follow hg _ hroot (by simp) (by simp), hfollow]
        rintro r - hr ⟨-, heq⟩
        have hle := hr.length_le
        rw [List.nil_append] at heq
        rw [heq] at hle
        simp at hle
      show page (m.setEntry pt (indexOf virt 1) 0).mem dir ([1, indexOf virt 3, indexOf virt 2] ++ [indexOf virt 1]) = none
      rw [page_append _ hfollow']
      exact page_none (by rw [setEntry_mem_same]; exact has_zero _)
    · intro d r hd hr hnot
      exact (hk.walk hg (1 :: r) hd (by simp; omega) (by simp) (by simp) fun _ _ => But.path hr hnot).1
    · exact fun d virt' hd hvirt' hnot => lastEntry_other hg hroot hfollow hk hd hvirt' hnot

end Drop

end Zelr.Paging
