import Zelr.Paging.Space

/-!
# Mapping a page

The tables on the way to a page are there or are made, empty; then one entry of the last is written.
-/

namespace Zelr.Paging

open Act
open Pmm (put_same put_other)

variable {t t' level : Nat} {g1 : Labels} {m1 : Machine} {p : List Nat}

section Paths

variable {g g' : Labels} {m m' : Machine} {O : Nat → List Nat → Prop} {d : Nat}

theorem follow_append (mem : Nat → Nat → Word) (q r : List Nat) :
    ∀ t, follow mem t (q ++ r) = (follow mem t q).bind fun t' => follow mem t' r := by
  induction q with
  | nil => exact fun t => rfl
  | cons i q ih =>
    intro t
    simp only [List.cons_append, follow]
    split
    · exact ih _
    · rfl

theorem page_append {mem : Nat → Nat → Word} {q : List Nat} (r : List Nat)
    (h : follow mem t q = some t') : page mem t (q ++ r) = page mem t' r := by
  unfold page
  rw [follow_append, h]
  rfl

theorem Inv.follow_own (hg : Inv g m) : ∀ (q : List Nat) {t t' : Nat} {p : List Nat}, g.own t = .table d p →
    p.length + q.length ≤ 3 → (p = [] → q ≠ [] → q.head? = some 1) → follow m.mem t q = some t' →
      g.own t' = .table d (p ++ q) := by
  intro q
  induction q with
  | nil =>
    intro t t' p ht _ _ hf
    cases hf
    rwa [List.append_nil]
  | cons i q ih =>
    intro t t' p ht hlen htop hf
    unfold follow at hf
    split at hf
    · next hp =>
      have hlink := (hg.entries t d p ht i).link hp (by simp at hlen; omega) (by simpa using htop)
      have := ih hlink.below (by simp at hlen ⊢; omega) (by simp) hf
      rwa [List.append_assoc] at this
    · cases hf

def SameView (g : Labels) (m m' : Machine) : Prop :=
  ∀ d q, g.own d = .table d [] → q.length = 3 →
    page m'.mem d (1 :: q) = page m.mem d (1 :: q) ∧
      (writable m'.mem d (1 :: q) = true → writable m.mem d (1 :: q) = true)

def SameFrames (g : Labels) (m m' : Machine) : Prop :=
  ∀ d q, g.own d = .table d [] → q.length = 3 → follow m'.mem d (1 :: q) = follow m.mem d (1 :: q)

theorem writable_of_follow (hg : Inv g m) : ∀ (q : List Nat) {t t' : Nat} {p : List Nat}, g.own t = .table d p →
    p.length + q.length ≤ 3 → (p = [] → q ≠ [] → q.head? = some 1) → follow m.mem t q = some t' →
      ∀ r, writable m.mem t (q ++ r) = writable m.mem t' r := by
  intro q
  induction q with
  | nil =>
    rintro t t' p _ _ _ ⟨⟩ r
    rfl
  | cons i q ih =>
    intro t t' p ht hlen htop hf r
    unfold Paging.follow at hf
    split at hf
    · next hp =>
      have hlink := (hg.entries t d p ht i).link hp (by simp at hlen; omega) (by simpa using htop)
      simp only [List.cons_append, writable, hp, hlink.rw, Bool.true_and]
      exact ih hlink.below (by simp at hlen ⊢; omega) (by simp) hf r
    · cases hf

end Paths

/-! ## One level down -/

section Step

variable {g : Labels} {m m' : Machine} {d t t' i : Nat} {p : List Nat}

theorem setEntry_twice (m : Machine) (t i : Nat) (e e' : Word) :
    (m.setEntry t i e).setEntry t i e' = m.setEntry t i e' := by
  have hmem : ((m.setEntry t i e).setEntry t i e').mem = (m.setEntry t i e').mem := by
    funext a b
    simp only [setEntry_mem]
    split <;> rfl
  unfold Machine.setEntry at hmem ⊢
  simp only at hmem ⊢
  rw [hmem]

theorem head_init {x : Nat} (h : (p ++ [i]).head? = some x) (hne : p ≠ []) : p.head? = some x := by
  rcases p with _ | ⟨a, p⟩
  · exact absurd rfl hne
  · simpa using h

/-- One entry now leads to a table: the one it led to, or an empty one where it led nowhere. -/
structure Stepped (g : Labels) (m : Machine) (d : Nat) (p : List Nat) (t i t' : Nat) (g' : Labels) (m' : Machine) :
    Prop where
  inv : Inv g' m'
  keeps : Keeps (But d (p ++ [i])) g m g' m'
  own : g'.own t' = .table d (p ++ [i])
  present : has (m'.mem t i) PTE_PRESENT = true
  frame : frameOf (m'.mem t i) = t'
  before : Kin (m.mem t i) (m'.mem t i) ∨
    (has (m.mem t i) PTE_PRESENT = false ∧ ∀ j, has (m'.mem t' j) PTE_PRESENT = false)

theorem step_stepped {virt flags : Word} (hg : Inv g m) (ht : g.own t = .table d p)
    (hlen : p.length < 3) (htop : p = [] → indexOf virt level = 1) (hflags : has flags PTE_USER = true)
    (h : step t virt level true flags m = (some t', m')) :
    ∃ g', Stepped g m d p t (indexOf virt level) t' g' m' := by
  obtain ⟨i, hi⟩ : ∃ i, i = indexOf virt level := ⟨_, rfl⟩
  unfold step at h
  simp only [← hi] at h htop ⊢
  obtain ⟨_, m1, hmake, hrest⟩ := bind_eq_some.mp h
  obtain ⟨_, m2, hwiden, hlast⟩ := bind_eq_some.mp hrest
  rw [bind_word] at hlast
  clear h hrest
  have hm2 : m2 = m1.setEntry t i (m1.mem t i ||| PTE_USER) := by
    unfold widen at hwiden
    rw [if_pos hflags, bind_word] at hwiden
    cases hwiden
    rfl
  unfold makeBelow at hmake
  rw [bind_word] at hmake
  rcases Bool.eq_false_or_eq_true (has (m.mem t i) PTE_PRESENT) with hp | hp
  · rw [if_pos hp] at hmake
    cases hmake
    have hlink := (hg.entries t d p ht i).link hp hlen htop
    have hframe : frameOf (m.mem t i ||| PTE_USER) = frameOf (m.mem t i) := frameOf_or (by decide)
    have hhuge : has (m.mem t i ||| PTE_USER) PTE_HUGE = false := by
      rw [has_or, hlink.huge]
      decide
    have hp' : has (m.mem t i ||| PTE_USER) PTE_PRESENT = true := by rw [has_or, hp, Bool.true_or]
    rw [hm2, setEntry_mem_same, if_neg (by simp [hhuge])] at hlast
    cases hlast
    obtain ⟨hg', hk'⟩ := hg.setEntry_but ht (i := i) (e := m.mem t i ||| PTE_USER)
      (fun _ => Or.inr (Or.inl ⟨hlen, htop, by rw [has_or, hlink.user, Bool.true_or],
        by rw [has_or, hlink.rw, Bool.true_or], hhuge, by rw [hframe]; exact hlink.below⟩))
    refine ⟨g, hg', hk', by rw [hframe]; exact hlink.below, ?_, ?_, Or.inl ?_⟩
    · rw [setEntry_mem_same]
      exact hp'
    · rw [setEntry_mem_same]
    · rw [setEntry_mem_same]
      exact ⟨by rw [hp', hp], fun _ => hframe, fun _ => hlink.rw⟩
  · rw [if_neg (by simp [hp]), if_pos rfl] at hmake
    obtain ⟨f, m0, halloc, hmake⟩ := bind_eq_some.mp hmake
    obtain ⟨hfresh, hg0, hmem, hk0⟩ := allocFrame_inv (O := But d (p ++ [i])) hg halloc
    have hlimit : f < FRAME_LIMIT := Nat.lt_of_lt_of_le hfresh.lt hg0.total
    have hft : f ≠ t := ne_of_own hfresh.free ht (by simp)
    have hm1 : m1 = (m0.setFrame f fun _ => 0).setEntry t i (addr f ||| PTE_PRESENT ||| PTE_RW) := by
      cases hmake
      rfl
    obtain ⟨e, he⟩ : ∃ e, e = addr f ||| PTE_PRESENT ||| PTE_RW ||| PTE_USER := ⟨_, rfl⟩
    have hm2' : m2 = (m0.setFrame f fun _ => 0).setEntry t i e := by
      rw [hm2, hm1, setEntry_mem_same, setEntry_twice, he]
    have hframe : frameOf e = f := by
      rw [he, frameOf_or (by decide), frameOf_or (by decide), frameOf_or (by decide), frameOf_addr hlimit]
    have hhuge : has e PTE_HUGE = false := by
      rw [he, has_or, has_or, has_or, has_addr hlimit (by decide)]
      decide
    have huser : has e PTE_USER = true := by
      rw [he, has_or, show has PTE_USER PTE_USER = true by decide, Bool.or_true]
    have hrw : has e PTE_RW = true := by
      rw [he, has_or, has_or, show has PTE_RW PTE_RW = true by decide, Bool.or_true, Bool.true_or]
    have hpres : has e PTE_PRESENT = true := by
      rw [he, has_or, has_or, has_or, show has PTE_PRESENT PTE_PRESENT = true by decide, Bool.or_true, Bool.true_or,
        Bool.true_or]
    rw [hm2', setEntry_mem_same, if_neg (by simp [hhuge])] at hlast
    obtain ⟨hg', hk'⟩ := place_table (i := i) (e := e) (O := But d (p ++ [i])) hg0 hfresh ht hlen htop hframe huser hrw
      hhuge fun hb => hb ⟨rfl, rfl⟩
    cases hlast
    refine ⟨_, hg', hk0.trans hk', ?_, ?_, ?_, Or.inr ⟨hp, ?_⟩⟩
    · rw [hframe]
      exact Labels.give_own _ _ _ _
    · rw [setEntry_mem_same]
      exact hpres
    · rw [setEntry_mem_same]
    · intro j
      rw [hframe, setEntry_mem_other _ _ _ hft, setFrame_mem_same]
      exact has_zero _

theorem Stepped.view {g' : Labels} (hg : Inv g m) (hroot : g.own d = .table d []) (hlen : p.length < 3)
    (htop : (p ++ [i]).head? = some 1) (hfollow : follow m.mem d p = some t) (hs : Stepped g m d p t i t' g' m') :
    follow m'.mem d (p ++ [i]) = some t' ∧ SameView g m m' ∧ SameFrames g m m' := by
  have hpre : ∀ r, r ≠ [] → r <+: p → But d (p ++ [i]) d ([] ++ r) := by
    rintro r _ hr ⟨-, heq⟩
    have hle := hr.length_le
    rw [List.nil_append] at heq
    rw [heq, List.length_append, List.length_singleton] at hle
    omega
  have htop' := fun _ : ([] : List Nat) = [] => head_init htop
  have hfollow' : follow m'.mem d p = some t := by
    rw [hs.keeps.follow hg p hroot (by simp; omega) htop' hpre]
    exact hfollow
  have ht : g.own t = .table d p := hg.follow_own p hroot (by simp; omega) htop' hfollow
  have hhere : follow m'.mem d (p ++ [i]) = some t' := by
    rw [follow_append, hfollow']
    simp [follow, hs.present, hs.frame]
  have hold : Kin (m.mem t i) (m'.mem t i) → has (m.mem t i) PTE_PRESENT = true ∧ frameOf (m.mem t i) = t' ∧
      has (m.mem t i) PTE_RW = true ∧ g.own t' = .table d (p ++ [i]) := by
    intro hkin
    have hp : has (m.mem t i) PTE_PRESENT = true := by rw [← hkin.present]; exact hs.present
    have hlink := (hg.entries t d p ht i).link hp hlen (by
      rintro rfl
      simpa using htop)
    have hframe : frameOf (m.mem t i) = t' := by rw [← hkin.frame hp, hs.frame]
    exact ⟨hp, hframe, hlink.rw, hframe ▸ hlink.below⟩
  have hbelow : ∀ r r', r' ≠ [] → r' <+: r → But d (p ++ [i]) d (p ++ [i] ++ r') := by
    rintro r r' hr' - ⟨-, heq⟩
    exact hr' (by simpa using heq)
  have hother : ∀ d' q, ¬ (d' = d ∧ p ++ [i] <+: 1 :: q) → ∀ r, r ≠ [] → r <+: 1 :: q →
      But d (p ++ [i]) d' ([] ++ r) := by
    rintro d' q hnot r _ hr ⟨rfl, heq⟩
    rw [List.nil_append] at heq
    exact hnot ⟨rfl, heq ▸ hr⟩
  have hlenr : ∀ q r, q.length = 3 → p ++ [i] ++ r = 1 :: q → p.length + r.length = 3 := by
    intro q r hq hr
    have := congrArg List.length hr
    simp at this
    omega
  refine ⟨hhere, fun d' q hd' hq => ?_, fun d' q hd' hq => ?_⟩
  · by_cases hthrough : d' = d ∧ p ++ [i] <+: 1 :: q
    · obtain ⟨rfl, r, hr⟩ := hthrough
      have hlenr := hlenr q r hq hr
      rw [← hr, List.append_assoc]
      rw [page_append _ hfollow, page_append _ hfollow']
      have hrne : r ≠ [] := by
        rintro rfl
        simp at hlenr
        omega
      have hwrite' := writable_of_follow hs.inv p (hs.keeps.own_eq hroot (by simp)) (by simp; omega) htop' hfollow' ([i] ++ r)
      have hwrite := writable_of_follow hg p hroot (by simp; omega) htop' hfollow ([i] ++ r)
      rw [hwrite', hwrite]
      show page m'.mem t (i :: r) = page m.mem t (i :: r) ∧ (writable m'.mem t (i :: r) = true → _)
      rcases hs.before with hkin | ⟨hnone, hempty⟩
      · obtain ⟨hp, hframe, hrw, hown⟩ := hold hkin
        obtain ⟨hpage, hw⟩ := hs.keeps.walk hg r hown (by simp; omega) hrne (by simp) (hbelow r)
        rw [page_cons hp, page_cons hs.present, hs.frame, hframe, hpage]
        refine ⟨rfl, ?_⟩
        simp only [List.cons_append, List.nil_append, writable, hs.frame, hframe, hp, hrw, Bool.true_and, Bool.and_eq_true]
        exact fun h => hw h.2
      · rcases r with _ | ⟨j, r⟩
        · exact absurd rfl hrne
        · rw [page_none hnone, page_cons hs.present, hs.frame, page_none (hempty j)]
          refine ⟨rfl, ?_⟩
          simp [writable, hs.frame, hempty j]
    · exact hs.keeps.walk hg (1 :: q) hd' (by simp; omega) (by simp) (by simp) (hother d' q hthrough)
  · by_cases hthrough : d' = d ∧ p ++ [i] <+: 1 :: q
    · obtain ⟨rfl, r, hr⟩ := hthrough
      have hlenr := hlenr q r hq hr
      rw [← hr, follow_append, hhere, List.append_assoc, follow_append, hfollow]
      simp only [Option.bind_some, List.cons_append, List.nil_append]
      rcases hs.before with hkin | ⟨hnone, hempty⟩
      · obtain ⟨hp, hframe, -, hown⟩ := hold hkin
        rw [follow_cons hp, hframe]
        exact hs.keeps.follow hg r hown (by simp; omega) (by simp) (hbelow r)
      · rcases r with _ | ⟨j, r⟩
        · simp at hlenr
          omega
        · simp [follow, hnone, hempty j]
    · exact hs.keeps.follow hg (1 :: q) hd' (by simp; omega) (by simp) (hother d' q hthrough)

end Step

/-! ## The page -/

section Map

variable {g : Labels} {m m' : Machine} {dir pt f : Nat} {virt flags : Word}

def pathOf (virt : Word) : List Nat := [indexOf virt 3, indexOf virt 2, indexOf virt 1]

/-- No right is given, nothing reads differently, and every address is in the frame it was in. -/
structure Prepared (g : Labels) (m : Machine) (g' : Labels) (m' : Machine) : Prop where
  inv : Inv g' m'
  keeps : Keeps (fun _ _ => False) g m g' m'
  view : SameView g m m'
  frames : SameFrames g m m'

theorem Prepared.trans {g2 : Labels} {m2 : Machine} (h : Prepared g m g1 m1) (h' : Prepared g1 m1 g2 m2) :
    Prepared g m g2 m2 := by
  refine ⟨h'.inv, h.keeps.trans h'.keeps, fun d q hd hq => ?_, fun d q hd hq => ?_⟩
  · obtain ⟨hpage, hwrite⟩ := h.view d q hd hq
    obtain ⟨hpage', hwrite'⟩ := h'.view d q (h.keeps.own_eq hd (by simp)) hq
    exact ⟨hpage'.trans hpage, fun hw => hwrite (hwrite' hw)⟩
  · rw [h'.frames d q (h.keeps.own_eq hd (by simp)) hq, h.frames d q hd hq]

theorem step_spec (hg : Inv g m) (hroot : g.own dir = .table dir [])
    (hlen : p.length < 3) (htop : (p ++ [indexOf virt level]).head? = some 1) (hflags : has flags PTE_USER = true)
    (hfollow : follow m.mem dir p = some t) (h : step t virt level true flags m = (some t', m')) :
    ∃ g', Prepared g m g' m' ∧ follow m'.mem dir (p ++ [indexOf virt level]) = some t' := by
  have ht : g.own t = .table dir p := hg.follow_own p hroot (by simp; omega) (fun _ => head_init htop) hfollow
  obtain ⟨g', hs⟩ := step_stepped hg ht hlen (by rintro rfl; simpa using htop) hflags h
  obtain ⟨hfollow', hview, hframes⟩ := hs.view hg hroot hlen htop hfollow
  exact ⟨g', ⟨hs.inv, hs.keeps.mono fun _ _ hf => hf.elim, hview, hframes⟩, hfollow'⟩

theorem Inv.small {i : Nat} (hg : Inv g m) (ht : g.own t = .table dir p) (hne : p ≠ []) (hlen : p.length < 3) :
    (has (m.mem t i) PTE_PRESENT && has (m.mem t i) PTE_HUGE) = false := by
  rcases Bool.eq_false_or_eq_true (has (m.mem t i) PTE_PRESENT) with hp | hp
  · rw [((hg.entries t dir p ht i).link hp hlen (absurd · hne)).huge, Bool.and_false]
  · rw [hp, Bool.false_and]

theorem tableFor_spec (hg : Inv g m) (hroot : g.own dir = .table dir []) (hvirt : indexOf virt 4 = 1)
    (hflags : has flags PTE_USER = true) (h : tableFor dir virt true flags m = (some pt, m')) :
    ∃ g', Prepared g m g' m' ∧ follow m'.mem dir [1, indexOf virt 3, indexOf virt 2] = some pt := by
  unfold tableFor at h
  obtain ⟨pdpt, m1, hstep4, h⟩ := bind_eq_some.mp h
  obtain ⟨g1, hp1, hf1⟩ := step_spec (p := []) hg hroot (by simp) (by simp [hvirt]) hflags rfl hstep4
  rw [List.nil_append, hvirt] at hf1
  have hroot1 := hp1.keeps.own_eq hroot (by simp)
  obtain ⟨pd, m2, hstep3, h⟩ := bind_eq_some.mp h
  obtain ⟨g2, hp2, hf2⟩ := step_spec hp1.inv hroot1 (by simp) (by simp) hflags hf1 hstep3
  have hroot2 := hp2.keeps.own_eq hroot1 (by simp)
  have hpd : g2.own pd = .table dir [1, indexOf virt 3] := hp2.inv.follow_own _ hroot2 (by simp) (by simp) hf2
  rw [bind_word, if_neg (by simp [hp2.inv.small hpd])] at h
  obtain ⟨g3, hp3, hf3⟩ := step_spec hp2.inv hroot2 (by simp) (by simp) hflags hf2 h
  exact ⟨g3, (hp1.trans hp2).trans hp3, hf3⟩

/-- Filling in the last entry: one address of one space reads the page, with the right asked for. -/
structure Mapped (g : Labels) (m : Machine) (dir : Nat) (q : List Nat) (words : Nat → Word) (rw : Bool) (g' : Labels)
    (m' : Machine) : Prop where
  inv : Inv g' m'
  keeps : Keeps (fun _ _ => False) g m g' m'
  others : ∀ d r, g.own d = .table d [] → r.length = 3 → ¬(d = dir ∧ r = q) →
    page m'.mem d (1 :: r) = page m.mem d (1 :: r) ∧
      (writable m'.mem d (1 :: r) = true → writable m.mem d (1 :: r) = true)
  page : page m'.mem dir (1 :: q) = some words
  writable : writable m'.mem dir (1 :: q) = true → rw = true

/-- The address is in the frame, and every other where it was. -/
structure Framed (g : Labels) (m : Machine) (dir : Nat) (q : List Nat) (f : Nat) (m' : Machine) : Prop where
  here : follow m'.mem dir (1 :: q) = some f
  others : ∀ d r, g.own d = .table d [] → r.length = 3 → ¬(d = dir ∧ r = q) →
    follow m'.mem d (1 :: r) = follow m.mem d (1 :: r)

/-- The entry `map_in` writes for a user's page. -/
def leafEntry (f : Nat) (flags : Word) : Word := (addr f &&& PTE_ADDR_MASK) ||| (flags &&& PTE_FLAGS) ||| PTE_PRESENT

theorem leafEntry_frame (hf : f < FRAME_LIMIT) : frameOf (leafEntry f flags) = f := by
  unfold leafEntry
  rw [frameOf_or (by decide), addr_and_mask hf]
  exact frameOf_addr_flags flags hf

theorem leafEntry_has {flag : Word} (hf : f < FRAME_LIMIT) (hmask : PTE_ADDR_MASK &&& flag = 0#64)
    (hflag : PTE_FLAGS &&& flag = flag) : has (leafEntry f flags) flag = (has flags flag || has PTE_PRESENT flag) := by
  unfold leafEntry
  rw [has_or, addr_and_mask hf, has_addr_flags flags hf hmask hflag]

theorem map_leaf (hg1 : Inv g1 m1)
    (hkeep : Keeps (fun _ _ => False) g m g1 m1) (hview : SameView g m m1) (hframes : SameFrames g m m1)
    (hroot : g.own dir = .table dir []) (hfollow : follow m1.mem dir [1, indexOf virt 3, indexOf virt 2] = some pt)
    (huser : has flags PTE_USER = true) (hhuge : has flags PTE_HUGE = false)
    (hborrowed : has flags PTE_BORROWED = false) (hfree : g.own f = .free) (hother : g1.own f = .other)
    (hkernel : f ≠ m1.kernelPml4) (hne : f ≠ 0) (hlt : f < m1.pmm.totalFrames) :
    ∃ g', Mapped g m dir (pathOf virt) (m1.mem f) (has flags PTE_RW) g'
        (m1.setEntry pt (indexOf virt 1) (leafEntry f flags)) ∧ g'.own f = .data ∧
      Framed g m dir (pathOf virt) f (m1.setEntry pt (indexOf virt 1) (leafEntry f flags)) := by
  obtain ⟨i, hi⟩ : ∃ i, i = indexOf virt 1 := ⟨_, rfl⟩
  have hlimit : f < FRAME_LIMIT := Nat.lt_of_lt_of_le hlt hg1.total
  have hroot1 := hkeep.own_eq hroot (by simp)
  have hpt1 : g1.own pt = .table dir [1, indexOf virt 3, indexOf virt 2] :=
    hg1.follow_own _ hroot1 (by simp) (by simp) hfollow
  have hfpt : f ≠ pt := ne_of_own hother hpt1 (by simp)
  have hused : m1.pmm.isUsed f = true := by
    rw [← Bool.not_eq_false]
    intro hnot
    rw [hg1.unused f hnot] at hother
    cases hother
  have hg2 : Inv (g1.give f .data [(pt, i)]) m1 :=
    hg1.relabel (Or.inr hother) hkernel hused hne hlt (fun _ => rfl) (by simp)
  have hown2 : ∀ t, t ≠ f → (g1.give f .data [(pt, i)]).own t = g1.own t := fun t ht => put_other _ _ ht
  have hpt2 := (hown2 pt hfpt.symm).trans hpt1
  have hroot2 : (g1.give f .data [(pt, i)]).own dir = .table dir [] :=
    (hown2 dir (ne_of_own hroot1 hother (by simp))).trans hroot1
  obtain ⟨e, he⟩ : ∃ e, e = leafEntry f flags := ⟨_, rfl⟩
  have hframe : frameOf e = f := by rw [he, leafEntry_frame hlimit]
  have hflag : ∀ flag, PTE_ADDR_MASK &&& flag = 0#64 → PTE_FLAGS &&& flag = flag →
      has e flag = (has flags flag || has PTE_PRESENT flag) := by
    intro flag hmask hflag
    rw [he, leafEntry_has hlimit hmask hflag]
  have hpres : has e PTE_PRESENT = true := by
    rw [hflag _ (by decide) (by decide), show has PTE_PRESENT PTE_PRESENT = true by decide, Bool.or_true]
  have hrw : has e PTE_RW = has flags PTE_RW := by
    rw [hflag _ (by decide) (by decide), show has PTE_PRESENT PTE_RW = false by decide, Bool.or_false]
  obtain ⟨hg3, hk3⟩ := hg2.setEntry_but hpt2 (i := i) (e := e)
    (fun _ => Or.inr (Or.inr ⟨rfl, by rw [hflag _ (by decide) (by decide), huser, Bool.true_or],
      by rw [hflag _ (by decide) (by decide), hhuge]; decide,
      by rw [hflag _ (by decide) (by decide), hborrowed]; decide,
      by simp [hframe], by simp [hframe], by simp [hframe]⟩))
  rw [← hi, ← he]
  have hfollow3 : follow (m1.setEntry pt i e).mem dir [1, indexOf virt 3, indexOf virt 2] = some pt := by
    rw [hk3.follow hg2 _ hroot2 (by simp) (by simp), hfollow]
    rintro r - hr ⟨-, heq⟩
    have hle := hr.length_le
    rw [List.nil_append] at heq
    rw [heq] at hle
    simp at hle
  have hpath : 1 :: pathOf virt = [1, indexOf virt 3, indexOf virt 2] ++ [i] := by rw [hi]; rfl
  have hentry : (m1.setEntry pt i e).mem pt i = e := setEntry_mem_same _ _ _ _
  have hbut : ∀ d r, r.length = 3 → ¬(d = dir ∧ r = pathOf virt) → ∀ r', r' ≠ [] → r' <+: 1 :: r →
      But dir ([1, indexOf virt 3, indexOf virt 2] ++ [i]) d ([] ++ r') := by
    rintro d r hr hnot r' _ hpre ⟨rfl, heq⟩
    rw [List.nil_append] at heq
    rw [heq, ← hpath] at hpre
    have := List.IsPrefix.eq_of_length hpre (by simp [pathOf, hr])
    exact hnot ⟨rfl, (List.cons.inj this).2.symm⟩
  refine ⟨_, ⟨hg3, ⟨hkeep.kernel, hkeep.total, ?_, fun _ _ _ _ _ hf => hf.elim, ?_, ?_⟩, ?_, ?_, ?_⟩, put_same _ _ _, ?_, ?_⟩
  · intro t ht
    have htf : t ≠ f := by
      rintro rfl
      exact ht hfree
    rw [hown2 t htf, hkeep.own t ht]
  · intro t ht
    have ht1 := hkeep.own_eq ht (by simp)
    rw [setEntry_mem_other _ _ _ (ne_of_own ht1 hpt1 (by simp)), hkeep.data t ht]
  · intro t ht
    have ht1 := hkeep.own_eq ht (by simp)
    rw [setEntry_mem_other _ _ _ (ne_of_own ht1 hpt1 (by simp)), hkeep.other t ht]
  · intro d r hd hr hnot
    have hd1 := hkeep.own_eq hd (by simp)
    have hd2 := (hown2 d (ne_of_own hd1 hother (by simp))).trans hd1
    obtain ⟨hpage, hwrite⟩ := hview d r hd hr
    obtain ⟨hpage', hwrite'⟩ := hk3.walk hg2 (1 :: r) hd2 (by simp; omega) (by simp) (by simp) (hbut d r hr hnot)
    exact ⟨hpage'.trans hpage, fun hw => hwrite (hwrite' hw)⟩
  · rw [hpath, page_append _ hfollow3, page_leaf (by rw [hentry]; exact hpres), hentry, hframe,
      setEntry_mem_other _ _ _ hfpt]
  · rw [hpath, writable_of_follow hg3 _ hroot2 (by simp) (by simp) hfollow3, writable_leaf, hentry, hrw]
    intro hw
    exact (Bool.and_eq_true _ _ ▸ hw).2
  · rw [hpath, follow_append, hfollow3, Option.bind_some, follow_cons (by rw [hentry]; exact hpres), hentry, hframe]
    rfl
  · intro d r hd hr hnot
    have hd1 := hkeep.own_eq hd (by simp)
    have hd2 := (hown2 d (ne_of_own hd1 hother (by simp))).trans hd1
    rw [hk3.follow hg2 (1 :: r) hd2 (by simp; omega) (by simp) (hbut d r hr hnot), hframes d r hd hr]

theorem allocFrame_held (hg : Inv g m) (halloc : allocFrame m = (some f, m1)) :
    Fresh g (m1.setFrame f fun _ => 0) f ∧ Inv (g.give f .other []) (m1.setFrame f fun _ => 0) ∧
      Keeps (fun _ _ => True) g m (g.give f .other []) (m1.setFrame f fun _ => 0) := by
  obtain ⟨hfresh, hg1, -, hk1⟩ := allocFrame_inv (O := fun _ _ => True) hg halloc
  obtain ⟨hg2, hk2⟩ := hg1.scratch (O := fun _ _ => True) hfresh.free fun _ => 0
  have hfresh2 := hfresh.setFrame fun _ => 0
  obtain ⟨hg3, hk3⟩ := hg2.give (O := fun _ _ => True) (o := .other) (H := []) hfresh2 (by simp) (by simp)
  exact ⟨hfresh2, hg3, (hk1.trans hk2).trans hk3⟩

theorem Prepared.after (hp : Prepared g' m' g1 m1) (hg : Inv g m) (hkeep : Keeps (fun _ _ => True) g m g' m') :
    Prepared g m g1 m1 where
  inv := hp.inv
  keeps := (hkeep.mono fun _ _ hf => hf.elim).trans hp.keeps
  view d q hd hq := by
    obtain ⟨hpage, hwrite⟩ := hkeep.walk hg (1 :: q) hd (by simp; omega) (by simp) (by simp) fun _ _ _ => trivial
    obtain ⟨hpage', hwrite'⟩ := hp.view d q (hkeep.own_eq hd (by simp)) hq
    exact ⟨hpage'.trans hpage, fun hw => hwrite (hwrite' hw)⟩
  frames d q hd hq := by
    rw [hp.frames d q (hkeep.own_eq hd (by simp)) hq]
    exact hkeep.follow hg (1 :: q) hd (by simp; omega) (by simp) fun _ _ _ => trivial

theorem mapFresh_framed (hg : Inv g m) (hroot : g.own dir = .table dir []) (hvirt : indexOf virt 4 = 1)
    (huser : has flags PTE_USER = true) (hhuge : has flags PTE_HUGE = false)
    (hborrowed : has flags PTE_BORROWED = false) (h : mapFresh dir virt flags m = (some f, m')) :
    g.own f = .free ∧ ∃ g', Mapped g m dir (pathOf virt) (fun _ => 0) (has flags PTE_RW) g' m' ∧ g'.own f = .data ∧
      Framed g m dir (pathOf virt) f m' := by
  unfold mapFresh at h
  obtain ⟨f', m1, halloc, h⟩ := bind_eq_some.mp h
  obtain ⟨hfresh, hg2, hkeep⟩ := allocFrame_held hg halloc
  obtain ⟨_, m2, hclear, h⟩ := bind_eq_some.mp h
  obtain rfl : m1.setFrame f' (fun _ => 0) = m2 := by
    cases hclear
    rfl
  obtain ⟨r, m3, hattempt, h⟩ := bind_eq_some.mp h
  rw [attempt_apply] at hattempt
  obtain ⟨hr, hm3⟩ := Prod.mk.inj hattempt
  rcases r with _ | ⟨⟩
  · obtain ⟨_, _, -, h⟩ := bind_eq_some.mp h
    cases h
  · cases h
    have hmap : mapPageIn dir virt (addr f) flags (m1.setFrame f fun _ => 0) = (some (), m') := by
      rw [← Option.some.inj hr, ← hm3]
    unfold mapPageIn at hmap
    split at hmap
    · cases hmap
    · unfold mapIn at hmap
      obtain ⟨pt, m4, htable, hset⟩ := bind_eq_some.mp hmap
      obtain ⟨g4, hp, hfollow⟩ := tableFor_spec hg2 (hkeep.own_eq hroot (by simp)) hvirt huser htable
      have hother : g4.own f = .other := hp.keeps.own_eq (Labels.give_own _ _ _ _) (by simp)
      have hp4 := hp.after hg hkeep
      have hkernel : f ≠ m4.kernelPml4 := by
        rw [hp4.keeps.kernel]
        exact ne_of_own hfresh.free hg.kernel (by simp)
      have hlt : f < m4.pmm.totalFrames := by
        rw [hp.keeps.total]
        exact hfresh.lt
      have hwords : m4.mem f = fun _ => 0 := by
        rw [hp.keeps.other f (Labels.give_own _ _ _ _), setFrame_mem_same]
      cases hset
      rw [← hwords]
      exact ⟨hfresh.free, map_leaf hp4.inv hp4.keeps hp4.view hp4.frames hroot hfollow huser hhuge hborrowed hfresh.free
        hother hkernel hfresh.ne hlt⟩

theorem mapFresh_spec (hg : Inv g m) (hroot : g.own dir = .table dir []) (hvirt : indexOf virt 4 = 1)
    (huser : has flags PTE_USER = true) (hhuge : has flags PTE_HUGE = false)
    (hborrowed : has flags PTE_BORROWED = false) (h : mapFresh dir virt flags m = (some f, m')) :
    ∃ g', Mapped g m dir (pathOf virt) (fun _ => 0) (has flags PTE_RW) g' m' := by
  obtain ⟨-, g', hm, -⟩ := mapFresh_framed hg hroot hvirt huser hhuge hborrowed h
  exact ⟨g', hm⟩

end Map

end Zelr.Paging
