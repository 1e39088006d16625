import Zelr.Paging.Tables

/-!
# Copying an address space

What `copy_table` leaves behind: a second set of tables that lead to the same contents, with no write
bit where a page is shared.
-/

namespace Zelr.Paging

open Act
open Pmm (put_same put_other)

variable {d t t' j f n : Nat} {r : List Nat} {e : Word} {O : Nat → List Nat → Prop}

/-! ## The entries that are made -/

section Bits

variable {e : Word} {flag : Word} {f : Nat}

theorem sharedEntry_has (hrw : ~~~PTE_RW &&& flag = flag) (hcow : has PTE_COW flag = false) :
    has (sharedEntry e) flag = has e flag := by
  unfold sharedEntry
  rw [has_or, hcow, Bool.or_false, has_and_of hrw]

@[simp] theorem sharedEntry_present : has (sharedEntry e) PTE_PRESENT = has e PTE_PRESENT :=
  sharedEntry_has (by decide) (by decide)

@[simp] theorem sharedEntry_user : has (sharedEntry e) PTE_USER = has e PTE_USER :=
  sharedEntry_has (by decide) (by decide)

@[simp] theorem sharedEntry_huge : has (sharedEntry e) PTE_HUGE = has e PTE_HUGE :=
  sharedEntry_has (by decide) (by decide)

@[simp] theorem sharedEntry_borrowed : has (sharedEntry e) PTE_BORROWED = has e PTE_BORROWED :=
  sharedEntry_has (by decide) (by decide)

@[simp] theorem sharedEntry_rw : has (sharedEntry e) PTE_RW = false := by
  unfold sharedEntry
  rw [has_or, has_and_none (by decide)]
  decide

@[simp] theorem sharedEntry_frame : frameOf (sharedEntry e) = frameOf e := by
  unfold sharedEntry
  rw [frameOf_or (by decide), frameOf_and (by decide)]

theorem takeBack_has (hrw : has PTE_RW flag = false) (hcow : ~~~PTE_COW &&& flag = flag) :
    has (takeBack e) flag = has e flag := by
  unfold takeBack
  rw [has_and_of hcow, has_or, hrw, Bool.or_false]

@[simp] theorem takeBack_present : has (takeBack e) PTE_PRESENT = has e PTE_PRESENT :=
  takeBack_has (by decide) (by decide)

@[simp] theorem takeBack_user : has (takeBack e) PTE_USER = has e PTE_USER :=
  takeBack_has (by decide) (by decide)

@[simp] theorem takeBack_huge : has (takeBack e) PTE_HUGE = has e PTE_HUGE :=
  takeBack_has (by decide) (by decide)

@[simp] theorem takeBack_borrowed : has (takeBack e) PTE_BORROWED = has e PTE_BORROWED :=
  takeBack_has (by decide) (by decide)

@[simp] theorem takeBack_rw : has (takeBack e) PTE_RW = true := by
  unfold takeBack
  rw [has_and_of (by decide), has_or, show has PTE_RW PTE_RW = true by decide, Bool.or_true]

@[simp] theorem takeBack_frame : frameOf (takeBack e) = frameOf e := by
  unfold takeBack
  rw [frameOf_and (by decide), frameOf_or (by decide)]

def withFlags (f : Nat) (e : Word) : Word := addr f ||| (e &&& PTE_FLAGS)

theorem withFlags_frame (h : f < FRAME_LIMIT) : frameOf (withFlags f e) = f := frameOf_addr_flags e h

theorem withFlags_has (h : f < FRAME_LIMIT) (hmask : PTE_ADDR_MASK &&& flag = 0#64)
    (hflag : PTE_FLAGS &&& flag = flag) : has (withFlags f e) flag = has e flag := has_addr_flags e h hmask hflag

end Bits

/-! ## Running a call -/

section Calls

variable {α β : Type} {m m' : Machine}

theorem bind_word (t i : Nat) (k : Word → Act Machine β) (m : Machine) :
    (word t i >>= k) m = k (m.mem t i) m := rfl

theorem bind_setWord (t i : Nat) (e : Word) (k : Unit → Act Machine β) (m : Machine) :
    (setWord t i e >>= k) m = k () (m.setEntry t i e) := rfl

theorem setWord_apply (t i : Nat) (e : Word) (m : Machine) : setWord t i e m = (some (), m.setEntry t i e) := rfl

theorem onPmm_some {act : Act Pmm α} {a : α} (h : onPmm act m = (some a, m')) :
    ∃ pm, act m.pmm = (some a, pm) ∧ m' = { m with pmm := pm } := by
  unfold onPmm zoom at h
  obtain ⟨ha, hm⟩ := Prod.mk.inj h
  exact ⟨(act m.pmm).2, by rw [← ha], hm.symm⟩

end Calls

/-! ## One page -/

def Beyond (dd : Nat) (p : List Nat) : Nat → List Nat → Prop := fun d r => ¬(d = dd ∧ p <+: r)

theorem Beyond.but {dd : Nat} {p : List Nat} (h : Beyond dd p d r) : But dd p d r := by
  rintro ⟨hd, rfl⟩
  exact h ⟨hd, List.prefix_refl _⟩

def Outside (dd : Nat) (p : List Nat) : Nat → List Nat → Prop := fun d r => d = dd → p <+: r → r = p

section Copy

variable {g : Labels} {m m' : Machine} {ds dd dst src i : Nat} {p : List Nat}

/-- An entry of the copy leads where the original's did. -/
structure Copied (m : Machine) (src : Nat) (m' : Machine) (dst : Nat) (q : List Nat) : Prop where
  page : page m'.mem dst q = page m.mem src q
  writable : writable m'.mem dst q = true → writable m.mem src q = true

theorem Beyond.other (h : ds ≠ dd) (r : List Nat) : Beyond dd p ds r := fun hb => h hb.1

theorem page_leaf {mem : Nat → Nat → Word} (h : has (mem t i) PTE_PRESENT = true) :
    page mem t [i] = some (mem (frameOf (mem t i))) := by
  rw [page_cons h]
  rfl

theorem writable_leaf (mem : Nat → Nat → Word) (t i : Nat) :
    writable mem t [i] = (has (mem t i) PTE_PRESENT && has (mem t i) PTE_RW) := by
  simp [writable]

theorem ne_of_own {o o' : Owner} (h : g.own t = o) (h' : g.own t' = o') (hne : o ≠ o') : t ≠ t' := by
  rintro rfl
  exact hne (h.symm.trans h')

theorem setEntry_comm {e' : Word} (m : Machine) (h : t ≠ t') :
    (m.setEntry t i e).setEntry t' j e' = (m.setEntry t' j e').setEntry t i e := by
  have hmem : ((m.setEntry t i e).setEntry t' j e').mem = ((m.setEntry t' j e').setEntry t i e).mem := by
    funext a b
    simp only [setEntry_mem]
    by_cases h1 : a = t' ∧ b = j
    · rw [if_pos h1, if_neg fun h2 => h (h2.1.symm.trans h1.1), if_pos h1]
    · rw [if_neg h1, if_neg h1]
  unfold Machine.setEntry at hmem ⊢
  simp only at hmem ⊢
  rw [hmem]

theorem share_page (hg : Inv g m) (hsrc : g.own src = .table ds p) (hdst : g.own dst = .table dd p)
    (hlen : p.length = 3) (hne : ds ≠ dd) (hp : has (m.mem src i) PTE_PRESENT = true) {pm : Pmm}
    (hshare : Pmm.share (frameOf (m.mem src i)) m.pmm = (some true, pm)) :
    ∃ g', Inv g' ((({ m with pmm := pm } : Machine).setEntry dst i (sharedEntry (m.mem src i))).setEntry src i
        (sharedEntry (m.mem src i))) ∧
      Keeps (Beyond dd (p ++ [i])) g m g' ((({ m with pmm := pm } : Machine).setEntry dst i
        (sharedEntry (m.mem src i))).setEntry src i (sharedEntry (m.mem src i))) := by
  have hleaf := (hg.entries src ds p hsrc i).leaf hp hlen
  have hneq : src ≠ dst := ne_of_own hsrc hdst (by simpa using hne)
  obtain ⟨htotal, hused, hpast⟩ := Pmm.share_spec hshare
  obtain ⟨e, he⟩ : ∃ e, e = m.mem src i := ⟨_, rfl⟩
  rw [← he] at hleaf hp hshare hpast ⊢
  have hkin : Kin e (sharedEntry e) := ⟨by simp, fun _ => by simp, by simp⟩
  -- first the parent's entry, which names the page either way
  have hokSrc : EntryOk g (m.mem m.kernelPml4) src ds p i (sharedEntry e) := fun _ =>
    Or.inr (Or.inr ⟨hlen, by simpa using hleaf.user, by simpa using hleaf.huge, by simpa using hleaf.borrowed,
      by simpa using hleaf.data, by simpa using hleaf.held, by simp⟩)
  obtain ⟨hg1, hk1⟩ := hg.setEntry (O := Beyond dd (p ++ [i])) hsrc hokSrc fun _ => he ▸ hkin
  -- then the count
  have hg2 := hg1.setHolds (H := (dst, i) :: g.holds (frameOf e)) (n := m.pmm.past (frameOf e) + 1)
    hleaf.data htotal hused hpast (by simp [hg.count _ hleaf.data]; omega) (by
      intro t d r j ht hr hpres hframe
      have hleaf' := (hg1.entries t d r ht j).leaf hpres hr
      refine ⟨List.mem_cons_of_mem _ (hframe ▸ hleaf'.held), ?_⟩
      intro hrw
      -- an entry that could write would be the only one, and the parent's cannot
      exfalso
      have hone := hleaf'.sole hrw
      rw [hframe] at hone
      obtain ⟨x, hx⟩ := List.length_eq_one_iff.mp hone
      have h1 := hleaf.held
      have h2 := hleaf'.held
      rw [hframe, hx, List.mem_singleton] at h2
      rw [hx, List.mem_singleton] at h1
      obtain ⟨rfl, rfl⟩ := Prod.mk.inj (h1.trans h2.symm)
      rw [setEntry_mem_same, sharedEntry_rw] at hrw
      cases hrw)
  have hdst2 : (g.setHolds (frameOf e) ((dst, i) :: g.holds (frameOf e))).own dst = .table dd p := hdst
  -- and last the child's
  obtain ⟨hg3, hk3⟩ := hg2.setEntry (O := Beyond dd (p ++ [i])) hdst2 (i := i) (e := sharedEntry e)
    (fun _ => Or.inr (Or.inr ⟨hlen, by simpa using hleaf.user, by simpa using hleaf.huge,
      by simpa using hleaf.borrowed, by simpa [Labels.setHolds] using hleaf.data,
      by simp [Labels.setHolds], by simp⟩))
    (fun hb => absurd ⟨rfl, List.prefix_refl _⟩ hb)
  have hsame : (({ m with pmm := pm } : Machine).setEntry dst i (sharedEntry e)).setEntry src i (sharedEntry e) =
      Machine.setEntry { m.setEntry src i (sharedEntry e) with pmm := pm } dst i (sharedEntry e) :=
    setEntry_comm _ hneq.symm
  rw [hsame]
  refine ⟨_, hg3, ?_⟩
  exact ⟨rfl, htotal, fun _ _ => rfl, fun t d r j ht hb => (hk1.tables t d r j ht hb).trans (hk3.tables t d r j ht hb),
    fun f hf => (hk3.data f hf).trans (hk1.data f hf), fun f hf => (hk3.other f hf).trans (hk1.other f hf)⟩

theorem setFrame_mem_same (m : Machine) (f : Nat) (words : Nat → Word) : (m.setFrame f words).mem f = words :=
  put_same _ _ _

theorem setFrame_mem_other (m : Machine) (words : Nat → Word) (h : t ≠ f) :
    (m.setFrame f words).mem t = m.mem t := put_other _ _ h

theorem place_page (hg : Inv g m) (hf : Fresh g m f) (words : Nat → Word)
    (ht : g.own t = .table d p) (hlen : p.length = 3) (hframe : frameOf e = f) (huser : has e PTE_USER = true)
    (hhuge : has e PTE_HUGE = false) (hborrowed : has e PTE_BORROWED = false)
    (hout : ¬O d (p ++ [i])) :
    Inv (g.give f .data [(t, i)]) ((m.setFrame f words).setEntry t i e) ∧
      Keeps O g m (g.give f .data [(t, i)]) ((m.setFrame f words).setEntry t i e) := by
  obtain ⟨hg1, hk1⟩ := hg.scratch (O := O) hf.free words
  obtain ⟨hg2, hk2⟩ := hg1.givePage (O := O) (hf.setFrame words) (t, i)
  have ht2 := hk2.own_eq ht (by simp)
  obtain ⟨hg3, hk3⟩ := hg2.setEntry (O := O) ht2 (i := i) (e := e)
    (fun _ => Or.inr (Or.inr ⟨hlen, huser, hhuge, hborrowed, by simp [hframe], by simp [hframe], by simp [hframe]⟩))
    (fun hb => absurd hb hout)
  exact ⟨hg3, (hk1.trans hk2).trans hk3⟩

theorem copyPage_spec (hg : Inv g m) (hsrc : g.own src = .table ds p) (hdst : g.own dst = .table dd p)
    (hlen : p.length = 3) (hne : ds ≠ dd) (hp : has (m.mem src i) PTE_PRESENT = true)
    (h : copyPage dst src i (m.mem src i) m = (some (), m')) :
    ∃ g', Inv g' m' ∧ Keeps (Beyond dd (p ++ [i])) g m g' m' ∧ Copied m src m' dst [i] ∧
      ∀ j, j ≠ i → m'.mem dst j = m.mem dst j := by
  have hleaf := (hg.entries src ds p hsrc i).leaf hp hlen
  have hneq : src ≠ dst := ne_of_own hsrc hdst (by simpa using hne)
  have hdata : frameOf (m.mem src i) ≠ dst := ne_of_own hleaf.data hdst (by simp)
  have hdata' : frameOf (m.mem src i) ≠ src := ne_of_own hleaf.data hsrc (by simp)
  unfold copyPage at h
  obtain ⟨took, m1, hcall, h⟩ := bind_eq_some.mp h
  obtain ⟨pm, hshare, rfl⟩ := onPmm_some hcall
  rcases took with _ | _
  · -- copied then and there
    cases Pmm.share_refused hshare
    rw [if_neg (by simp)] at h
    obtain ⟨f, m2, halloc, h⟩ := bind_eq_some.mp h
    obtain ⟨hfresh, hg2, hmem, hk⟩ := allocFrame_inv (O := Beyond dd (p ++ [i])) hg halloc
    have hlimit : f < FRAME_LIMIT := Nat.lt_of_lt_of_le hfresh.lt hg2.total
    have hfd : f ≠ dst := ne_of_own hfresh.free hdst (by simp)
    cases h
    obtain ⟨hg3, hk3⟩ := place_page (i := i) (e := withFlags f (m.mem src i)) (O := Beyond dd (p ++ [i])) hg2 hfresh
      (m2.mem (frameOf (m.mem src i))) hdst hlen (withFlags_frame hlimit)
      (by rw [withFlags_has hlimit (by decide) (by decide)]; exact hleaf.user)
      (by rw [withFlags_has hlimit (by decide) (by decide)]; exact hleaf.huge)
      (by rw [withFlags_has hlimit (by decide) (by decide)]; exact hleaf.borrowed)
      (fun hb => hb ⟨rfl, List.prefix_refl _⟩)
    refine ⟨_, hg3, hk.trans hk3, ⟨?_, ?_⟩, ?_⟩
    · rw [page_leaf hp, page_leaf]
      · rw [setEntry_mem_same]
        show some (((m2.setFrame f _).setEntry dst i _).mem (frameOf (withFlags f (m.mem src i)))) = _
        rw [withFlags_frame hlimit, setEntry_mem_other _ _ _ hfd, setFrame_mem_same, hmem]
      · rw [setEntry_mem_same]
        exact (withFlags_has hlimit (by decide) (by decide)).trans hp
    · rw [writable_leaf, writable_leaf, setEntry_mem_same, hp]
      have hrw : has (withFlags f (m.mem src i)) PTE_RW = has (m.mem src i) PTE_RW :=
        withFlags_has hlimit (by decide) (by decide)
      intro hw
      rw [Bool.and_eq_true] at hw
      rw [Bool.true_and, ← hrw]
      exact hw.2
    · intro j hj
      rw [setEntry_mem_index _ _ _ hj, setFrame_mem_other _ _ hfd.symm, hmem]
  · rw [if_pos rfl, bind_setWord, bind_setWord] at h
    cases h
    obtain ⟨g', hg', hk'⟩ := share_page hg hsrc hdst hlen hne hp hshare
    refine ⟨g', { hg' with }, { hk' with }, ⟨?_, ?_⟩, ?_⟩
    · rw [page_leaf hp, page_leaf]
      · simp only [setEntry_mem_other _ _ _ hneq.symm, setEntry_mem_same, sharedEntry_frame]
        rw [setEntry_mem_other _ _ _ hdata', setEntry_mem_other _ _ _ hdata]
      · simp only [setEntry_mem_other _ _ _ hneq.symm, setEntry_mem_same, sharedEntry_present]
        exact hp
    · simp only [writable_leaf, setEntry_mem_other _ _ _ hneq.symm, setEntry_mem_same, sharedEntry_rw]
      simp
    · intro j hj
      simp only [setEntry_mem_other _ _ _ hneq.symm, setEntry_mem_index _ _ _ hj]

/-! ## A table and what is under it -/

def Bounded (q : List Nat) : Prop := ∀ j ∈ q, j < ENTRIES

def CopiesEntry (n : Nat) (g : Labels) (m : Machine) (src : Nat) (m' : Machine) (dst dd : Nat) (p : List Nat)
    (i : Nat) : Prop :=
  ∃ g', Inv g' m' ∧ Keeps (Beyond dd (p ++ [i])) g m g' m' ∧
    ∀ q, q.length + 1 = n → Bounded q → Copied m src m' dst (i :: q)

def CopiesTable (n : Nat) (g : Labels) (m : Machine) (src : Nat) (m' : Machine) (dst dd : Nat) (p : List Nat) :
    Prop :=
  ∃ g', Inv g' m' ∧ Keeps (Outside dd p) g m g' m' ∧ ∀ q, q.length = n → Bounded q → Copied m src m' dst q

theorem Beyond.sibling (h : j ≠ i) (r : List Nat) : Beyond dd (p ++ [i]) dd (p ++ j :: r) := by
  rintro ⟨-, hb⟩
  rw [List.prefix_append_right_inj, List.cons_prefix_cons] at hb
  exact h hb.1.symm

theorem Outside.other (h : ds ≠ dd) (r : List Nat) : Outside dd p ds r := fun hb => absurd hb h

theorem Outside.beyond (h : Outside dd p d r) : Beyond dd (p ++ [i]) d r := by
  rintro ⟨hd, hb⟩
  have heq := h hd ((List.prefix_append p [i]).trans hb)
  have hle := hb.length_le
  rw [heq, List.length_append, List.length_singleton] at hle
  omega

theorem Beyond.outside (h : Beyond dd p d r) : Outside dd p d r := fun hd hb =>
  absurd ⟨hd, hb⟩ h

/-- Entries before `i` are copied, those from it on are empty. -/
structure Progress (n : Nat) (g : Labels) (m : Machine) (src dst dd : Nat) (p : List Nat) (i : Nat) (s : Machine)
    (g' : Labels) : Prop where
  inv : Inv g' s
  keeps : Keeps (Outside dd p) g m g' s
  empty : ∀ j, i ≤ j → has (s.mem dst j) PTE_PRESENT = false
  copied : ∀ j, j < i → ∀ q, q.length + 1 = n → Bounded q → Copied m src s dst (j :: q)

theorem Progress.next {s s' : Machine} {g1 : Labels} (hg : Inv g m) (hsrc : g.own src = .table ds p)
    (hdst : g.own dst = .table dd p) (hne : ds ≠ dd) (hlen : p.length + n = 4) (hpne : p ≠ [])
    (h : Progress n g m src dst dd p i s g1) (hcopy : CopiesEntry n g1 s src s' dst dd p i) :
    ∃ g', Progress n g m src dst dd p (i + 1) s' g' := by
  obtain ⟨g2, hg2, hk2, hcopied⟩ := hcopy
  have hdst1 := h.keeps.own_eq hdst (by simp)
  refine ⟨g2, hg2, h.keeps.trans (hk2.mono fun _ _ => Outside.beyond), ?_, ?_⟩
  · intro j hj
    have hkin := hk2.tables dst dd p j hdst1 (Beyond.sibling (by omega) [])
    rw [hkin.present]
    exact h.empty j (by omega)
  · intro j hj q hq hb
    by_cases hji : j = i
    · subst hji
      have hnew := hcopied q hq hb
      obtain ⟨hpage, hwrite⟩ := h.keeps.walk hg (j :: q) hsrc (by simp; omega) (by simp)
        (fun hnil => absurd hnil hpne) fun r _ _ => Outside.other hne _
      exact ⟨hnew.page.trans hpage, fun hw => hwrite (hnew.writable hw)⟩
    · have hold := h.copied j (by omega) q hq hb
      obtain ⟨hpage, hwrite⟩ := hk2.walk h.inv (j :: q) hdst1 (by simp; omega) (by simp)
        (fun hnil => absurd hnil hpne) (by
          rintro (_ | ⟨a, r⟩) hr hpre
          · exact absurd rfl hr
          · rw [List.cons_prefix_cons] at hpre
            rw [hpre.1]
            exact Beyond.sibling hji r)
      exact ⟨hpage.trans hold.page, fun hw => hold.writable (hwrite hw)⟩

theorem copy_loop {body : Nat → Act Machine Unit} (hg : Inv g m) (hsrc : g.own src = .table ds p)
    (hdst : g.own dst = .table dd p) (hne : ds ≠ dd) (hlen : p.length + n = 4) (hn : n ≠ 0) (hpne : p ≠ [])
    (hempty : ∀ j, has (m.mem dst j) PTE_PRESENT = false)
    (hbody : ∀ i g1 s s', Inv g1 s → g1.own src = .table ds p → g1.own dst = .table dd p →
      has (s.mem dst i) PTE_PRESENT = false → body i s = (some (), s') →
        CopiesEntry n g1 s src s' dst dd p i)
    (h : upto body ENTRIES m = (some (), m')) : CopiesTable n g m src m' dst dd p := by
  have hloop : ∀ N, Triple (fun s => ∃ g1, Progress n g m src dst dd p 0 s g1) (upto body N)
      (fun _ s => ∃ g1, Progress n g m src dst dd p N s g1) (fun _ => True) := by
    intro N
    apply Triple.upto (I := fun i s => ∃ g1, Progress n g m src dst dd p i s g1)
    rintro i _ s ⟨g1, hpro⟩
    split
    · next s' hrun =>
      exact hpro.next hg hsrc hdst hne hlen hpne (hbody i g1 s s' hpro.inv (hpro.keeps.own_eq hsrc (by simp))
        (hpro.keeps.own_eq hdst (by simp)) (hpro.empty i (Nat.le_refl i)) hrun)
    · trivial
  have hend : ∀ N, upto body N m = (some (), m') → ∃ g1, Progress n g m src dst dd p N m' g1 := fun N hrun =>
    (hloop N).gives ⟨g, hg, Keeps.refl g m, fun j _ => hempty j, fun j hj => absurd hj (by omega)⟩ hrun
  obtain ⟨g', hpro⟩ := hend ENTRIES h
  refine ⟨g', hpro.inv, hpro.keeps, ?_⟩
  rintro (_ | ⟨j, q⟩) hq hb
  · exact absurd hq.symm hn
  · exact hpro.copied j (hb j (by simp)) q hq fun k hk => hb k (by simp [hk])

theorem copy_absent (hg : Inv g m) (hdst : g.own dst = .table dd p)
    (hsrc : has (m.mem src i) PTE_PRESENT = false) (he : has e PTE_PRESENT = false) :
    CopiesEntry n g m src (m.setEntry dst i e) dst dd p i := by
  obtain ⟨hg', hk'⟩ := hg.setEntry (O := Beyond dd (p ++ [i])) hdst (i := i) (EntryOk.absent he)
    fun hb => absurd ⟨rfl, List.prefix_refl _⟩ hb
  refine ⟨g, hg', hk', ?_⟩
  intro q _ _
  have he' : has ((m.setEntry dst i e).mem dst i) PTE_PRESENT = false := by rwa [setEntry_mem_same]
  constructor
  · rw [page_none hsrc, page_none he']
  · simp [writable, he']

theorem copyLeaf_spec (hg : Inv g m) (hsrc : g.own src = .table ds p) (hdst : g.own dst = .table dd p)
    (hlen : p.length = 3) (hne : ds ≠ dd) (h : copyLeaf dst src i m = (some (), m')) :
    CopiesEntry 1 g m src m' dst dd p i := by
  unfold copyLeaf at h
  rw [bind_word] at h
  rcases Bool.eq_false_or_eq_true (has (m.mem src i) PTE_PRESENT) with hp | hp
  · have hleaf := (hg.entries src ds p hsrc i).leaf hp hlen
    simp only [hp, hleaf.huge, hleaf.user, hleaf.borrowed] at h
    obtain ⟨g', hg', hk', hcopied, -⟩ := copyPage_spec hg hsrc hdst hlen hne hp h
    refine ⟨g', hg', hk', ?_⟩
    intro q hq _
    rw [List.length_eq_zero_iff.mp (by omega : q.length = 0)]
    exact hcopied
  · rw [if_pos (by simp [hp])] at h
    cases h
    exact copy_absent hg hdst hp (has_zero _)

theorem place_table (hg : Inv g m) (hf : Fresh g m f)
    (ht : g.own t = .table d p) (hlen : p.length < 3) (htop : p = [] → i = 1) (hframe : frameOf e = f)
    (huser : has e PTE_USER = true) (hrw : has e PTE_RW = true) (hhuge : has e PTE_HUGE = false)
    (hout : ¬O d (p ++ [i])) :
    Inv (g.give f (.table d (p ++ [i])) []) ((m.setFrame f fun _ => 0).setEntry t i e) ∧
      Keeps O g m (g.give f (.table d (p ++ [i])) []) ((m.setFrame f fun _ => 0).setEntry t i e) := by
  obtain ⟨hg1, hk1⟩ := hg.scratch (O := O) hf.free fun _ => 0
  obtain ⟨hg2, hk2⟩ := hg1.giveTable (O := O) (d := d) (p := p ++ [i]) (hf.setFrame _)
    (fun j => by rw [setFrame_mem_same]; exact has_zero _) (by simp)
  have ht2 := hk2.own_eq ht (by simp)
  obtain ⟨hg3, hk3⟩ := hg2.setEntry (O := O) ht2 (i := i) (e := e)
    (fun _ => Or.inr (Or.inl ⟨hlen, htop, huser, hrw, hhuge, by simp [hframe]⟩))
    (fun hb => absurd hb hout)
  exact ⟨hg3, (hk1.trans hk2).trans hk3⟩

theorem copyTable_spec : ∀ (n : Nat) {g : Labels} {m m' : Machine} {src dst : Nat} {p : List Nat}, Inv g m →
    g.own src = .table ds p → g.own dst = .table dd p → ds ≠ dd → p.length + n = 4 → n ≠ 0 → p ≠ [] →
      (∀ j, has (m.mem dst j) PTE_PRESENT = false) → copyTable n dst src m = (some (), m') →
        CopiesTable n g m src m' dst dd p
  | 0, _, _, _, _, _, _, _, _, _, _, _, hn, _, _, _ => absurd rfl hn
  | 1, _, _, _, _, _, _, hg, hsrc, hdst, hne, hlen, hn, hpne, hempty, h =>
    copy_loop hg hsrc hdst hne hlen hn hpne hempty
      (fun _ _ _ _ hg1 hsrc1 hdst1 _ hrun => copyLeaf_spec hg1 hsrc1 hdst1 (by omega) hne hrun) h
  | n + 2, g, m, m', src, dst, p, hg, hsrc, hdst, hne, hlen, hn, hpne, hempty, h => by
    refine copy_loop hg hsrc hdst hne hlen hn hpne hempty ?_ h
    intro i g1 s s' hg1 hsrc1 hdst1 _ hrun
    simp only [bind_word] at hrun
    rcases Bool.eq_false_or_eq_true (has (s.mem src i) PTE_PRESENT) with hp | hp
    · have hlink := (hg1.entries src ds p hsrc1 i).link hp (by omega) (fun hnil => absurd hnil hpne)
      rw [if_neg (by simp [hp]), if_neg (by simp [hlink.huge])] at hrun
      obtain ⟨f, s1, halloc, hrun⟩ := bind_eq_some.mp hrun
      obtain ⟨hfresh, hg2, hmem, hk1⟩ := allocFrame_inv (O := Beyond dd (p ++ [i])) hg1 halloc
      have hlimit : f < FRAME_LIMIT := Nat.lt_of_lt_of_le hfresh.lt hg2.total
      have hfd : f ≠ dst := ne_of_own hfresh.free hdst1 (by simp)
      have hflag : ∀ flag, PTE_ADDR_MASK &&& flag = 0#64 → PTE_FLAGS &&& flag = flag →
          has (withFlags f (s.mem src i)) flag = has (s.mem src i) flag := fun _ => withFlags_has hlimit
      obtain ⟨s2, hs2⟩ : ∃ s2, s2 = (s1.setFrame f fun _ => 0).setEntry dst i (withFlags f (s.mem src i)) := ⟨_, rfl⟩
      obtain ⟨hg3, hk3⟩ := place_table (i := i) (e := withFlags f (s.mem src i)) (O := Beyond dd (p ++ [i])) hg2 hfresh
        hdst1 (by omega) (fun hnil => absurd hnil hpne) (withFlags_frame hlimit)
        ((hflag _ (by decide) (by decide)).trans hlink.user) ((hflag _ (by decide) (by decide)).trans hlink.rw)
        ((hflag _ (by decide) (by decide)).trans hlink.huge) (fun hb => hb ⟨rfl, List.prefix_refl _⟩)
      rw [← hs2] at hg3 hk3
      have hrun' : copyTable (n + 1) f (frameOf (s.mem src i)) s2 = (some (), s') := by
        rw [hs2]
        exact hrun
      have hkeep2 := hk1.trans hk3
      obtain ⟨g', hg', hk', hcopied⟩ := copyTable_spec (n + 1) hg3 (hkeep2.own_eq hlink.below (by simp))
        (Labels.give_own _ _ _ _) hne (by simp; omega) (by omega) (by simp)
        (fun j => by rw [hs2, setEntry_mem_other _ _ _ hfd, setFrame_mem_same]; exact has_zero _) hrun'
      have hkeep3 := hkeep2.trans (hk'.mono fun _ _ => Beyond.outside)
      refine ⟨g', hg', hkeep3, ?_⟩
      intro q hq hb
      have hnew := hcopied q (by omega) hb
      -- the entry that was linked is still there
      have hkin := hk'.tables dst dd p i (hkeep2.own_eq hdst1 (by simp)) (fun _ _ => rfl)
      have hentry : s2.mem dst i = withFlags f (s.mem src i) := by rw [hs2, setEntry_mem_same]
      rw [hentry] at hkin
      have hp2 : has (withFlags f (s.mem src i)) PTE_PRESENT = true := (hflag _ (by decide) (by decide)).trans hp
      have hp' := hkin.present.trans hp2
      have hframe : frameOf (s'.mem dst i) = f := (hkin.frame hp2).trans (withFlags_frame hlimit)
      -- and what is under the parent's entry was not touched before
      obtain ⟨hpage, hwrite⟩ := hkeep2.walk hg1 q hlink.below (by simp; omega)
        (by rintro rfl; simp at hq) (by simp) fun r _ _ => Beyond.other hne _
      constructor
      · rw [page_cons hp, page_cons hp', hframe, hnew.page, hpage]
      · simp only [writable, hframe, hp, hlink.rw, Bool.true_and, Bool.and_eq_true]
        exact fun hw => hwrite (hnew.writable hw.2)
    · rw [if_pos (by simp [hp])] at hrun
      cases hrun
      exact copy_absent hg1 hdst1 hp (has_zero _)

end Copy

end Zelr.Paging
