import Zelr.Paging.Abort
import Zelr.Paging.Isolation

/-!
# What the parent notices

After a clone that failed, a program of the parent reads what it read before, and a store that would
have succeeded still does, although the page it goes to may have been marked for copying.
-/

namespace Zelr.Paging

open Act
open Pmm (put_same put_other)

variable {e : Word} {s' : Machine}

/-! ## The way to a page table -/

def leafTable (mem : Nat → Nat → Word) (dir : Nat) (virt : Word) : Option Nat :=
  let e4 := mem dir (indexOf virt 4)
  if has e4 PTE_PRESENT then
    let e3 := mem (frameOf e4) (indexOf virt 3)
    if leads e3 then
      let e2 := mem (frameOf e3) (indexOf virt 2)
      if leads e2 then some (frameOf e2) else none
    else none
  else none

def grants (write : Bool) (e : Word) : Bool := has e PTE_USER && (!write || has e PTE_RW)

def upper (mem : Nat → Nat → Word) (write : Bool) (dir : Nat) (virt : Word) : Bool :=
  let e4 := mem dir (indexOf virt 4)
  let e3 := mem (frameOf e4) (indexOf virt 3)
  let e2 := mem (frameOf e3) (indexOf virt 2)
  grants write e4 && grants write e3 && grants write e2

/-- An address under an entry of the space's own. -/
def Mine (m : Machine) (dir : Nat) (virt : Word) : Prop :=
  isKernels (m.mem dir (indexOf virt 4)) (m.mem m.kernelPml4 (indexOf virt 4)) = false

/-- A space a program runs in. Whatever it can read has level 0, and a page it can write to in place
is its alone. -/
structure Inhabited (tier : Tier) (m : Machine) (dir : Nat) : Prop extends Rooted tier m dir where
  pages : ∀ virt f, Mine m dir virt → walk m.mem false virt 4 dir = some f → tier f = some 0
  sole : ∀ t i, tier t = some 1 → i < ENTRIES → counted (m.mem t i) = true → has (m.mem t i) PTE_RW = true →
    m.pmm.past (frameOf (m.mem t i)) = 0

section Way

variable {tier : Tier} {m s : Machine} {mem : Nat → Nat → Word} {dir t f : Nat} {virt : Word} {write : Bool}

theorem grants_mono (h : grants true e = true) : grants false e = true := by
  simp only [grants, Bool.not_true, Bool.false_or, Bool.and_eq_true] at h
  simp [grants, h.1]

theorem upper_mono (h : upper mem true dir virt = true) : upper mem false dir virt = true := by
  simp only [upper, Bool.and_eq_true] at h ⊢
  exact ⟨⟨grants_mono h.1.1, grants_mono h.1.2⟩, grants_mono h.2⟩

theorem walk_leaf (h : leafTable mem dir virt = some t) :
    walk mem write virt 4 dir =
      if upper mem write dir virt && (has (mem t (indexOf virt 1)) PTE_PRESENT && grants write (mem t (indexOf virt 1)))
      then some (frameOf (mem t (indexOf virt 1))) else none := by
  unfold leafTable at h
  simp only at h
  split at h
  · next h4 =>
    split at h
    · next h3 =>
      split at h
      · next h2 =>
        rw [Option.some.injEq] at h
        subst h
        simp only [leads, Bool.and_eq_true, Bool.not_eq_true'] at h3 h2
        have hg : ∀ e, (has e PTE_USER && (!write || has e PTE_RW)) = grants write e := fun _ => rfl
        simp only [walk, upper, Bool.and_assoc, hg, h4, h3.1, h3.2, h2.1, h2.2, Bool.true_and, Bool.and_false]
        split_ifs <;> simp_all
      · simp at h
    · simp at h
  · simp at h

theorem leads_cases (h : leads e = false) :
    has e PTE_PRESENT = false ∨ (has e PTE_PRESENT = true ∧ has e PTE_HUGE = true) := by
  unfold leads at h
  rcases Bool.eq_false_or_eq_true (has e PTE_PRESENT) with hp | hp
  · right
    rw [hp, Bool.true_and, Bool.not_eq_false'] at h
    exact ⟨hp, h⟩
  · exact Or.inl hp

theorem way_same (hR : Rooted tier m dir) (hmine : Mine m dir virt)
    (hsame : ∀ t k, tier t = some k → 2 ≤ k → mem t = m.mem t) :
    leafTable mem dir virt = leafTable m.mem dir virt ∧
      (leafTable m.mem dir virt = none → ∀ write, walk mem write virt 4 dir = walk m.mem write virt 4 dir) ∧
      ∀ t, leafTable m.mem dir virt = some t → tier t = some 1 ∧ ∀ write, walk mem write virt 4 dir =
        if upper m.mem write dir virt && (has (mem t (indexOf virt 1)) PTE_PRESENT && grants write (mem t (indexOf virt 1)))
        then some (frameOf (mem t (indexOf virt 1))) else none := by
  suffices hway : leafTable mem dir virt = leafTable m.mem dir virt ∧
      (leafTable m.mem dir virt = none → ∀ write, walk mem write virt 4 dir = walk m.mem write virt 4 dir) ∧
      ∀ t, leafTable m.mem dir virt = some t →
        tier t = some 1 ∧ ∀ write, upper mem write dir virt = upper m.mem write dir virt by
    obtain ⟨hleaf, hnone, hsome⟩ := hway
    exact ⟨hleaf, hnone, fun t ht => ⟨(hsome t ht).1, fun write => by
      rw [walk_leaf (hleaf.trans ht), (hsome t ht).2]⟩⟩
  have hdir : mem dir = m.mem dir := hsame dir 4 hR.root (by omega)
  unfold leafTable upper
  simp only [walk, hdir]
  rcases Bool.eq_false_or_eq_true (has (m.mem dir (indexOf virt 4)) PTE_PRESENT) with h4 | h4
  · have ht3 := hR.top _ (indexOf_lt virt 4) (by
      unfold Mine at hmine
      simp [leadsOwn, h4, hmine])
    rw [hsame _ 3 ht3 (by omega)]
    have hbelow3 := hR.below _ 1 _ ht3 (by omega) (indexOf_lt virt 3)
    generalize m.mem (frameOf (m.mem dir (indexOf virt 4))) (indexOf virt 3) = e3 at *
    rcases Bool.eq_false_or_eq_true (leads e3) with h3 | h3
    · have ht2 := hbelow3 h3
      rw [hsame _ 2 ht2 (by omega)]
      have hbelow2 := hR.below _ 0 _ ht2 (by omega) (indexOf_lt virt 2)
      generalize m.mem (frameOf e3) (indexOf virt 2) = e2 at *
      refine ⟨rfl, ?_, ?_⟩
      · intro hnone write
        rw [if_pos h4, if_pos h3] at hnone
        have h2 : leads e2 = false := by
          rw [← Bool.not_eq_true]
          intro h2
          simp [h2] at hnone
        rcases leads_cases h2 with hp | ⟨hp, hh⟩
        · simp [hp]
        · simp [hp, hh]
      · intro t hsome
        rw [if_pos h4, if_pos h3] at hsome
        split at hsome
        · next h2 =>
          rw [Option.some.injEq] at hsome
          exact ⟨hsome ▸ hbelow2 h2, fun _ => rfl⟩
        · simp at hsome
    · refine ⟨by simp [h3], ?_, by simp [h3]⟩
      intro _ write
      rcases leads_cases h3 with hp | ⟨hp, hh⟩
      · simp [hp]
      · simp [hp, hh]
  · simp [h4]

theorem walk_read (h : walk mem true virt 4 dir = some f) : walk mem false virt 4 dir = some f := by
  have hstep : ∀ n t, walk mem true virt n t = some f → walk mem false virt n t = some f := by
    intro n
    induction n with
    | zero => exact fun t h => h
    | succ n ih =>
      intro t h
      unfold walk at h ⊢
      simp only at h ⊢
      split at h
      · next hg =>
        simp only [Bool.and_eq_true] at hg
        rw [if_pos (by simp [hg.1.1, hg.1.2])]
        split at h
        · next hh => rwa [if_pos hh]
        · next hh =>
          rw [if_neg hh]
          exact ih _ h
      · simp at h
  exact hstep 4 dir h

theorem entryFor_run (s : Machine) (h : leafTable s.mem dir virt = some t)
    (hp : has (s.mem t (indexOf virt 1)) PTE_PRESENT = true) :
    entryFor dir (pageOf virt) s = (some (t, indexOf virt 1), s) := by
  unfold leafTable at h
  simp only at h
  unfold entryFor
  simp only [indexOf_pageOf]
  split at h
  · next h4 =>
    split at h
    · next h3 =>
      split at h
      · next h2 =>
        rw [Option.some.injEq] at h
        subst h
        simp only [leads, Bool.and_eq_true, Bool.not_eq_true'] at h3 h2
        rw [bind_word, if_neg (by simp [h4]), bind_word, if_neg (by simp [h3.1, h3.2]), bind_word,
          if_neg (by simp [h2.1, h2.2]), bind_word, if_neg (by simp [hp])]
        rfl
      · simp at h
    · simp at h
  · simp at h

theorem entryFor_some {i : Nat} (h : entryFor dir (pageOf virt) s = (some (t, i), s')) :
    s' = s ∧ i = indexOf virt 1 ∧ leafTable s.mem dir virt = some t ∧
      has (s.mem t (indexOf virt 1)) PTE_PRESENT = true := by
  unfold entryFor at h
  simp only [indexOf_pageOf] at h
  rw [bind_word] at h
  split at h
  · simp at h
  · next h4 =>
    rw [bind_word] at h
    split at h
    · simp at h
    · next h3 =>
      rw [bind_word] at h
      split at h
      · simp at h
      · next h2 =>
        rw [bind_word] at h
        split at h
        · simp at h
        · next h1 =>
          rw [pure_apply, Prod.mk.injEq, Option.some.injEq, Prod.mk.injEq] at h
          obtain ⟨⟨rfl, rfl⟩, rfl⟩ := h
          simp only [Bool.not_eq_true', Bool.not_eq_false, Bool.or_eq_true, not_or, Bool.not_eq_true] at h4 h3 h2 h1
          refine ⟨rfl, rfl, ?_, h1⟩
          simp [leafTable, leads, h4, h3.1, h3.2, h2.1, h2.2]

end Way

/-! ## Beside the machine as it was -/

/-- As a failed clone leaves the machine, whatever further allocations may be had. -/
structure Twin (tier : Tier) (m s : Machine) : Prop where
  total : s.pmm.totalFrames = m.pmm.totalFrames
  used : s.pmm.isUsed = m.pmm.isUsed
  past : s.pmm.past = m.pmm.past
  mem : ∀ t, m.pmm.isUsed t = true → Marked tier t (m.mem t) (s.mem t)
  hint : s.pmm.nextHint < s.pmm.totalFrames
  zero : m.pmm.isUsed 0 = true

section Beside

variable {tier : Tier} {m s : Machine} {mem mem' : Nat → Nat → Word} {dir t f fa fb : Nat} {virt virt' : Word}

theorem Twin.tables (hI : Inhabited tier m dir) (h : Twin tier m s) :
    ∀ t k, tier t = some k → 2 ≤ k → s.mem t = m.mem t := by
  intro t k ht hk
  refine (h.mem t (hI.used t k ht)).same ?_
  rw [ht]
  simp
  omega

theorem Twin.load (hI : Inhabited tier m dir) (h : Twin tier m s) (hmine : Mine m dir virt) :
    userLoad s dir virt = userLoad m dir virt := by
  obtain ⟨-, hnone, hsome⟩ := way_same hI.toRooted hmine (h.tables hI)
  have hwalk : walk s.mem false virt 4 dir = walk m.mem false virt 4 dir := by
    rcases ht : leafTable m.mem dir virt with _ | t
    · exact hnone ht false
    · obtain ⟨htier, hupper⟩ := hsome t ht
      have hmark := (h.mem t (hI.used t 1 htier)).marks (indexOf virt 1)
      rw [walk_leaf ht, hupper, hmark.frame]
      rcases hmark with heq | ⟨-, heq⟩
      · rw [heq]
      · simp [heq, grants]
  unfold userLoad
  rw [hwalk]
  rcases hf : walk m.mem false virt 4 dir with _ | f
  · rfl
  · have htier := hI.pages virt f hmine hf
    rw [Option.map_some, Option.map_some, (h.mem f (hI.used f 0 htier)).same (by simp [htier])]

/-! ## Stores -/

/-- Memory after a store to a page that was in frame `fr`: the page is in `fa` now, and every other
address leads where it led. -/
structure Written (tier : Tier) (m : Machine) (dir : Nat) (virt : Word) (f : Word → Word) (fr : Nat)
    (mem : Nat → Nat → Word) (fa : Nat) : Prop where
  moved : fa = fr ∨ m.pmm.isUsed fa = false
  others : ∀ x, m.pmm.isUsed x = true → tier x ≠ some 1 → x ≠ fa → mem x = m.mem x
  stored : mem fa = stored (m.mem fr) (wordOf virt) f
  marks : ∀ t i, tier t = some 1 → i < ENTRIES → has (mem t i) PTE_PRESENT = has (m.mem t i) PTE_PRESENT ∧
    has (mem t i) PTE_USER = has (m.mem t i) PTE_USER ∧
    frameOf (mem t i) =
      if leafTable m.mem dir virt = some t ∧ i = indexOf virt 1 then fa else frameOf (m.mem t i)

variable {fr x : Nat}

theorem Written.load {f : Word → Word} (hI : Inhabited tier m dir)
    (hfr : tier fr = some 0) (h : Written tier m dir virt f fr mem fa) (h' : Written tier m dir virt f fr mem' fb)
    (hmove : fa = fr ↔ fb = fr) (hmine : Mine m dir virt') :
    (walk mem false virt' 4 dir).map (fun x => mem x (wordOf virt')) =
      (walk mem' false virt' 4 dir).map (fun x => mem' x (wordOf virt')) := by
  have hfresh : ∀ {mem : Nat → Nat → Word} {fa : Nat}, Written tier m dir virt f fr mem fa → ∀ x k,
      tier x = some k → k ≠ 0 → x ≠ fa := by
    rintro mem fa hw x k hx hk rfl
    rcases hw.moved with rfl | hun
    · rw [hfr] at hx
      simp at hx
      omega
    · rw [hI.used x k hx] at hun
      simp at hun
  have htables : ∀ {mem : Nat → Nat → Word} {fa : Nat}, Written tier m dir virt f fr mem fa →
      ∀ t k, tier t = some k → 2 ≤ k → mem t = m.mem t := by
    intro mem fa hw t k ht hk
    refine hw.others t (hI.used t k ht) ?_ (hfresh hw t k ht (by omega))
    rw [ht]
    simp
    omega
  -- a page that was not stored to
  have hpage : ∀ x, tier x = some 0 → (x = fa ↔ x = fb) → mem x = mem' x := by
    intro x hx hxy
    by_cases hxa : x = fa
    · rw [← hxa] at h
      rw [← hxy.mp hxa] at h'
      rw [h.stored, h'.stored]
    · rw [h.others x (hI.used x 0 hx) (by simp [hx]) hxa,
        h'.others x (hI.used x 0 hx) (by simp [hx]) (mt hxy.mpr hxa)]
  have hsame : ∀ x, tier x = some 0 → (x = fa ↔ x = fb) := by
    intro x hx
    rcases h.moved with ha | ha
    · rw [ha, hmove.mp ha]
    · have hxa : x ≠ fa := by
        rintro rfl
        rw [hI.used x 0 hx] at ha
        simp at ha
      rcases h'.moved with hb | hb
      · exact absurd (hmove.mpr hb) (fun hafr => hxa (by
          rw [hafr, hI.used fr 0 hfr] at ha
          simp at ha))
      · have hxb : x ≠ fb := by
          rintro rfl
          rw [hI.used x 0 hx] at hb
          simp at hb
        exact iff_of_false hxa hxb
  obtain ⟨-, hnone, hsome⟩ := way_same hI.toRooted hmine (htables h)
  obtain ⟨-, hnone', hsome'⟩ := way_same hI.toRooted hmine (htables h')
  rcases ht : leafTable m.mem dir virt' with _ | t
  · rw [hnone ht, hnone' ht]
    rcases hw : walk m.mem false virt' 4 dir with _ | x
    · rfl
    · have hx := hI.pages virt' x hmine hw
      rw [Option.map_some, Option.map_some, hpage x hx (hsame x hx)]
  · obtain ⟨htier, hupper⟩ := hsome t ht
    obtain ⟨-, hupper'⟩ := hsome' t ht
    obtain ⟨hp, hu, hframe⟩ := h.marks t (indexOf virt' 1) htier (indexOf_lt virt' 1)
    obtain ⟨hp', hu', hframe'⟩ := h'.marks t (indexOf virt' 1) htier (indexOf_lt virt' 1)
    have hread : walk m.mem false virt' 4 dir = _ := walk_leaf ht
    rw [hupper, hupper']
    have hg : ∀ e, grants false e = has e PTE_USER := by simp [grants]
    rw [hg] at hread ⊢
    rw [hg, hp, hp', hu, hu']
    by_cases hgo : (upper m.mem false dir virt' &&
        (has (m.mem t (indexOf virt' 1)) PTE_PRESENT && has (m.mem t (indexOf virt' 1)) PTE_USER)) = true
    · rw [if_pos hgo] at hread
      rw [if_pos hgo, if_pos hgo, Option.map_some, Option.map_some]
      have hx := hI.pages virt' _ hmine hread
      by_cases hthis : leafTable m.mem dir virt = some t ∧ indexOf virt' 1 = indexOf virt 1
      · rw [if_pos hthis] at hframe hframe'
        rw [hframe, hframe', h.stored, h'.stored]
      · rw [if_neg hthis] at hframe hframe'
        rw [hframe, hframe', hpage _ hx (hsame _ hx)]
    · rw [if_neg hgo, if_neg hgo]
      rfl

/-- When a store succeeds, and whether the page is copied for it; `fr` is the frame the page is in. -/
inductive Storable (m : Machine) (dir : Nat) (virt : Word) (n fr : Nat) : Bool → Prop
  | direct (hwalk : walk m.mem true virt 4 dir = some fr) : Storable m dir virt n fr false
  | marked {t : Nat} {moves : Bool} (hwalk : walk m.mem true virt 4 dir = none)
      (htable : leafTable m.mem dir virt = some t) (hupper : upper m.mem true dir virt = true)
      (hentry : has (m.mem t (indexOf virt 1)) PTE_PRESENT = true ∧ has (m.mem t (indexOf virt 1)) PTE_USER = true ∧
        has (m.mem t (indexOf virt 1)) PTE_COW = true)
      (hframe : frameOf (m.mem t (indexOf virt 1)) = fr)
      (hholders : if moves then 1 < Pmm.holders fr m.pmm ∧ n ≠ 0 ∧ ∃ x, m.pmm.isUsed x = false
        else Pmm.holders fr m.pmm ≤ 1) : Storable m dir virt n fr moves

theorem storeAt_run {f : Word → Word} (h : walk s.mem true virt 4 dir = some fr) :
    storeAt dir virt f s = (some (), s.setEntry fr (wordOf virt) (f (s.mem fr (wordOf virt)))) := by
  unfold storeAt
  rw [bind_get, h]
  rfl

theorem setEntry_stored {f : Word → Word} (s : Machine) (fr w : Nat) :
    (s.setEntry fr w (f (s.mem fr w))).mem fr = stored (s.mem fr) w f := put_same _ _ _

theorem Written.inPlace {f : Word → Word} (hfr : tier fr = some 0)
    (hleaf : ∀ t, leafTable m.mem dir virt = some t → frameOf (m.mem t (indexOf virt 1)) = fr)
    (hothers : ∀ x, m.pmm.isUsed x = true → tier x ≠ some 1 → s.mem x = m.mem x)
    (hused : m.pmm.isUsed fr = true)
    (hmarks : ∀ t i, tier t = some 1 → i < ENTRIES → has (s.mem t i) PTE_PRESENT = has (m.mem t i) PTE_PRESENT ∧
      has (s.mem t i) PTE_USER = has (m.mem t i) PTE_USER ∧ frameOf (s.mem t i) = frameOf (m.mem t i)) :
    Written tier m dir virt f fr (s.setEntry fr (wordOf virt) (f (s.mem fr (wordOf virt)))).mem fr where
  moved := Or.inl rfl
  others x hx htier hne := by rw [setEntry_mem_other _ _ _ hne, hothers x hx htier]
  stored := by rw [setEntry_stored, hothers fr hused (by simp [hfr])]
  marks t i ht hi := by
    have hne : t ≠ fr := by
      rintro rfl
      rw [ht] at hfr
      simp at hfr
    rw [setEntry_mem_other _ _ _ hne]
    obtain ⟨hp, hu, hf⟩ := hmarks t i ht hi
    refine ⟨hp, hu, ?_⟩
    split
    · next hthis =>
      rw [hf, hthis.2]
      exact hleaf t hthis.1
    · exact hf

theorem Marks.flags {e' : Word} (h : Marks e e') : has e' PTE_PRESENT = has e PTE_PRESENT ∧
    has e' PTE_USER = has e PTE_USER ∧ (has e PTE_COW = true → has e' PTE_COW = true) ∧
      (has e' PTE_RW = true → has e PTE_RW = true) := by
  rcases h with rfl | ⟨-, rfl⟩
  · exact ⟨rfl, rfl, id, id⟩
  · refine ⟨sharedEntry_present, sharedEntry_user, fun _ => ?_, fun h => by simp at h⟩
    unfold sharedEntry
    rw [has_or, show has PTE_COW PTE_COW = true by decide, Bool.or_true]

theorem Twin.others (h : Twin tier m s) : ∀ x, m.pmm.isUsed x = true → tier x ≠ some 1 → s.mem x = m.mem x :=
  fun x hx htier => (h.mem x hx).same htier

theorem Twin.marks (hI : Inhabited tier m dir) (h : Twin tier m s) (t i : Nat) (ht : tier t = some 1) :
    Marks (m.mem t i) (s.mem t i) := (h.mem t (hI.used t 1 ht)).marks i

theorem Twin.holders (h : Twin tier m s) (fr : Nat) : Pmm.holders fr s.pmm = Pmm.holders fr m.pmm := by
  unfold Pmm.holders
  rw [h.total, h.past]

/-- A page the clone marked: its entry in table `t` is the program's, and a store to it faults. -/
structure Cowed (tier : Tier) (m s : Machine) (dir : Nat) (virt : Word) (t fr : Nat) : Prop where
  inhabited : Inhabited tier m dir
  twin : Twin tier m s
  root : dir ≠ 0
  mine : Mine m dir virt
  table : leafTable m.mem dir virt = some t
  upper : upper m.mem true dir virt = true
  present : has (s.mem t (indexOf virt 1)) PTE_PRESENT = true
  user : has (s.mem t (indexOf virt 1)) PTE_USER = true
  fixed : has (s.mem t (indexOf virt 1)) PTE_RW = false
  marked : has (s.mem t (indexOf virt 1)) PTE_COW = true
  frame : frameOf (m.mem t (indexOf virt 1)) = fr
  page : tier fr = some 0

namespace Cowed

variable (h : Cowed tier m s dir virt t fr)
include h

theorem way : leafTable s.mem dir virt = some t ∧ tier t = some 1 := by
  obtain ⟨hleaf, -, hsome⟩ := way_same h.inhabited.toRooted h.mine (h.twin.tables h.inhabited)
  exact ⟨hleaf.trans h.table, (hsome t h.table).1⟩

theorem marks : Marks (m.mem t (indexOf virt 1)) (s.mem t (indexOf virt 1)) := h.twin.marks h.inhabited t _ h.way.2

theorem held : holders (frameOf (s.mem t (indexOf virt 1))) s = (some (Pmm.holders fr m.pmm), s) := by
  rw [h.marks.frame, h.frame, ← h.twin.holders]
  rfl

theorem store (f : Word → Word) {s2 : Machine} {e : Word} (hrun : resolveCow dir virt s = (some (), s2))
    (hbeside : ∀ x, m.pmm.isUsed x = true → x ≠ t → s2.mem x = s.mem x)
    (he : s2.mem t (indexOf virt 1) = takeBack e) (hp : has e PTE_PRESENT = true) (hu : has e PTE_USER = true) :
    userStore dir virt f s =
      (some (), s2.setEntry (frameOf e) (wordOf virt) (f (s2.mem (frameOf e) (wordOf virt)))) := by
  have hfault : walk s.mem true virt 4 dir = none := by
    rw [walk_leaf h.way.1, if_neg (by simp [grants, h.fixed])]
  have htables : ∀ x k, tier x = some k → 2 ≤ k → s2.mem x = m.mem x := by
    intro x k hx hk
    have hne : x ≠ t := by
      rintro rfl
      rw [h.way.2] at hx
      simp at hx
      omega
    rw [hbeside x (h.inhabited.used x k hx) hne, h.twin.tables h.inhabited x k hx hk]
  obtain ⟨-, -, hsome⟩ := way_same h.inhabited.toRooted h.mine htables
  have hwalk : walk s2.mem true virt 4 dir = some (frameOf e) := by
    rw [(hsome t h.table).2, h.upper, he, if_pos (by simp [grants, hp, hu]), takeBack_frame]
  unfold userStore
  rw [bind_get, if_neg (by simp [hfault]), bind_of_some hrun, storeAt_run hwalk]

end Cowed

theorem store_alone {f : Word → Word} (h : Cowed tier m s dir virt t fr) (hone : Pmm.holders fr m.pmm ≤ 1) :
    ∃ s1, userStore dir virt f s = (some (), s1) ∧ Written tier m dir virt f fr s1.mem fr := by
  obtain ⟨s2, hs2⟩ : ∃ s2, s2 = s.setEntry t (indexOf virt 1) (takeBack (s.mem t (indexOf virt 1))) := ⟨_, rfl⟩
  have hresolve : resolveCow dir virt s = (some (), s2) := by
    unfold resolveCow
    rw [if_neg h.root, bind_of_some (entryFor_run s h.way.1 h.present)]
    dsimp only
    rw [bind_word, if_neg (by simp [h.marked]), bind_of_some h.held, if_pos hone, hs2]
    rfl
  have hbeside : ∀ x, x ≠ t → s2.mem x = s.mem x := fun x hne => by rw [hs2, setEntry_mem_other _ _ _ hne]
  have hstore := h.store f hresolve (fun x _ => hbeside x) (by rw [hs2, setEntry_mem_same]) h.present h.user
  rw [h.marks.frame, h.frame] at hstore
  refine ⟨_, hstore, Written.inPlace h.page ?_ ?_ (h.inhabited.used fr 0 h.page) ?_⟩
  · intro t' ht'
    rw [h.table, Option.some.injEq] at ht'
    rw [← ht', h.frame]
  · intro x hx hxt
    rw [hbeside x (by rintro rfl; exact hxt h.way.2), h.twin.others x hx hxt]
  · intro t' i ht' _
    have hm := h.twin.marks h.inhabited t' i ht'
    obtain ⟨hpm, hum, -, -⟩ := hm.flags
    rw [hs2, setEntry_mem]
    split
    · next heq =>
      obtain ⟨rfl, rfl⟩ := heq
      rw [takeBack_present, takeBack_user, takeBack_frame]
      exact ⟨hpm, hum, hm.frame⟩
    · exact ⟨hpm, hum, hm.frame⟩

theorem store_direct {f : Word → Word} (hI : Inhabited tier m dir) (h : Twin tier m s) (hpos : dir ≠ 0)
    (hmine : Mine m dir virt) (hwalk : walk m.mem true virt 4 dir = some fr) :
    ∃ s1, userStore dir virt f s = (some (), s1) ∧ Written tier m dir virt f fr s1.mem fr := by
  have hfr := hI.pages virt fr hmine (walk_read hwalk)
  obtain ⟨-, hnone, hsome⟩ := way_same hI.toRooted hmine (h.tables hI)
  have hname : ∀ t, leafTable m.mem dir virt = some t → frameOf (m.mem t (indexOf virt 1)) = fr := by
    intro t ht
    rw [walk_leaf ht] at hwalk
    split at hwalk
    · rwa [Option.some.injEq] at hwalk
    · simp at hwalk
  -- the store goes through as it would have
  have hplain : walk s.mem true virt 4 dir = some fr →
      ∃ s1, userStore dir virt f s = (some (), s1) ∧ Written tier m dir virt f fr s1.mem fr := by
    intro hs
    refine ⟨_, ?_, Written.inPlace (s := s) hfr hname h.others (hI.used fr 0 hfr) ?_⟩
    · unfold userStore
      rw [bind_get, if_pos (by simp [hs]), storeAt_run hs]
    · intro t i ht _
      have hm := h.marks hI t i ht
      exact ⟨hm.flags.1, hm.flags.2.1, hm.frame⟩
  rcases ht : leafTable m.mem dir virt with _ | t
  · exact hplain (by rw [hnone ht, hwalk])
  · obtain ⟨htier, hup⟩ := hsome t ht
    have hgo := hwalk
    rw [walk_leaf ht] at hgo
    split at hgo
    · next hall =>
      simp only [Bool.and_eq_true, grants, Bool.not_true, Bool.false_or] at hall
      obtain ⟨hupper, hp, hu, hrw⟩ := hall
      rcases h.marks hI t (indexOf virt 1) htier with heq | ⟨hc, heq⟩
      · apply hplain
        rw [hup, hupper, heq, if_pos (by simp [grants, hp, hu, hrw]), hname t ht]
      · -- shared by the clone and given back: nobody else holds it
        have hone : Pmm.holders fr m.pmm ≤ 1 := by
          have hpast := hI.sole t (indexOf virt 1) htier (indexOf_lt virt 1) hc hrw
          rw [hname t ht] at hpast
          unfold Pmm.holders
          rw [hpast]
          split
          · omega
          · split <;> omega
        refine store_alone ⟨hI, h, hpos, hmine, ht, hupper, ?_, ?_, ?_, ?_, hname t ht, hfr⟩ hone
        · simp [heq, hp]
        · simp [heq, hu]
        · simp [heq]
        · rw [heq]
          unfold sharedEntry
          rw [has_or, show has PTE_COW PTE_COW = true by decide, Bool.or_true]
    · simp at hgo

theorem Pmm.allocFrame_some {p : Pmm} (hleft : p.testAllocsLeft ≠ 0) (hhint : p.nextHint < p.totalFrames)
    (hfree : p.isUsed x = false) (hzero : p.isUsed 0 = true) :
    ∃ f p', Pmm.allocFrame p = (some f, p') ∧ f ≠ 0 := by
  obtain ⟨hlt, -⟩ := Pmm.isUsed_eq_false.mp hfree
  have hhint' : (Pmm.countDown p).nextHint = p.nextHint := by
    unfold Pmm.countDown
    split <;> rfl
  unfold Pmm.allocFrame
  rw [if_neg hleft]
  rcases hs : Pmm.search (Pmm.countDown p) with _ | f
  · -- the search passes by every frame
    unfold Pmm.search at hs
    rw [List.find?_eq_none] at hs
    have hmem : x ∈ (List.range (Pmm.countDown p).totalFrames).map (Pmm.countDown p).candidate := by
      rw [List.mem_map, Pmm.countDown_total]
      by_cases hx : p.nextHint ≤ x
      · refine ⟨x - p.nextHint, List.mem_range.mpr (by omega), ?_⟩
        unfold Pmm.candidate
        rw [hhint', Pmm.countDown_total, if_neg (by omega)]
        omega
      · refine ⟨x + p.totalFrames - p.nextHint, List.mem_range.mpr (by omega), ?_⟩
        unfold Pmm.candidate
        rw [hhint', Pmm.countDown_total, if_pos (by omega)]
        omega
    have := hs x hmem
    rw [Pmm.countDown_isUsed, hfree] at this
    simp at this
  · refine ⟨f, _, rfl, ?_⟩
    rintro rfl
    have := Pmm.search_unused hs
    rw [Pmm.countDown_isUsed, hzero] at this
    simp at this

theorem store_copied {f : Word → Word} (h : Cowed tier m s dir virt t fr) (hmany : 1 < Pmm.holders fr m.pmm)
    (hleft : s.pmm.testAllocsLeft ≠ 0) (hfree : m.pmm.isUsed x = false) :
    ∃ s1 fa, userStore dir virt f s = (some (), s1) ∧ Written tier m dir virt f fr s1.mem fa ∧ fa ≠ fr := by
  have hI := h.inhabited
  have hT := h.twin
  obtain ⟨hleaf, htier⟩ := h.way
  obtain ⟨fa, pm, hcall, hfa⟩ := Pmm.allocFrame_some hleft hT.hint (by rw [hT.used]; exact hfree)
    (by rw [hT.used]; exact hT.zero)
  obtain ⟨hunused, -, -, -⟩ := Pmm.allocFrame_spec hcall hfa
  rw [hT.used] at hunused
  have hlt : fa < FRAME_LIMIT :=
    Nat.lt_of_lt_of_le (Pmm.isUsed_eq_false.mp hunused).1 hI.total
  have hne : ∀ y, m.pmm.isUsed y = true → y ≠ fa := by
    rintro y hy rfl
    rw [hy] at hunused
    simp at hunused
  have halloc : allocFrame s = (some fa, { s with pmm := pm }) := by
    unfold allocFrame
    have hon : onPmm Pmm.allocFrame s = (some fa, { s with pmm := pm }) := by
      unfold onPmm zoom
      rw [hcall]
    rw [bind_of_some hon, if_neg hfa]
    rfl
  have hp := h.present
  have hu := h.user
  have hmark := h.marks
  have hentry := entryFor_run s hleaf hp
  have hheld := h.held
  have hcow := h.marked
  obtain ⟨e, he⟩ : ∃ e, e = s.mem t (indexOf virt 1) := ⟨_, rfl⟩
  rw [← he] at hp hu hmark hheld hcow
  have hframe : frameOf e = fr := hmark.frame.trans h.frame
  obtain ⟨s3, hs3⟩ : ∃ s3, s3 = ({ s with pmm := pm } : Machine).setFrame fa (s.mem fr) := ⟨_, rfl⟩
  obtain ⟨pm', hrun, -⟩ := freeFrame_run fr s3
  obtain ⟨s2, hresolve, hs2⟩ : ∃ s2, resolveCow dir virt s = (some (), s2) ∧
      s2.mem = (s3.setEntry t (indexOf virt 1) (takeBack (withFlags fa e))).mem := by
    refine ⟨{ ({ s3 with pmm := pm' } : Machine).setEntry t (indexOf virt 1) (takeBack (withFlags fa e)) with
      cowCopies := s.cowCopies + 1 }, ?_, rfl⟩
    unfold resolveCow
    rw [if_neg h.root, bind_of_some hentry]
    dsimp only
    rw [bind_word, ← he, if_neg (by simp [hcow])]
    have hcopy : copyFrame fa (frameOf e) { s with pmm := pm } = (some (), s3) := by
      rw [hs3, hframe]
      rfl
    rw [bind_of_some hheld, if_neg (by omega), bind_of_some halloc, bind_of_some hcopy, hframe, bind_of_some hrun,
      bind_setWord, hs3]
    rfl
  have htfa : t ≠ fa := hne t (hI.used t 1 htier)
  have hfrfa : fr ≠ fa := hne fr (hI.used fr 0 h.page)
  have hothers : ∀ y, y ≠ t → y ≠ fa → s2.mem y = s.mem y := by
    intro y hyt hya
    rw [hs2, setEntry_mem_other _ _ _ hyt, hs3, setFrame_mem_other _ _ hya]
  have hnew : s2.mem fa = s.mem fr := by rw [hs2, setEntry_mem_other _ _ _ htfa.symm, hs3, setFrame_mem_same]
  have hflag : ∀ flag, PTE_ADDR_MASK &&& flag = 0#64 → PTE_FLAGS &&& flag = flag →
      has (withFlags fa e) flag = has e flag := fun _ => withFlags_has hlt
  have hown : s2.mem t (indexOf virt 1) = takeBack (withFlags fa e) := by rw [hs2, setEntry_mem_same]
  have hstore := h.store f hresolve (fun y hy hyt => hothers y hyt (hne y hy)) hown
    (by rw [hflag _ (by decide) (by decide), hp]) (by rw [hflag _ (by decide) (by decide), hu])
  rw [withFlags_frame hlt] at hstore
  refine ⟨_, fa, hstore, ⟨Or.inr hunused, ?_, ?_, ?_⟩, hfrfa.symm⟩
  · intro y hy hyt hya
    rw [setEntry_mem_other _ _ _ hya, hothers y (by rintro rfl; exact hyt htier) hya, hT.others y hy hyt]
  · rw [setEntry_stored, hnew, hT.others fr (hI.used fr 0 h.page) (by simp [h.page])]
  · intro t' i ht' _
    have hm := hT.marks hI t' i ht'
    have hta := hne t' (hI.used t' 1 ht')
    rw [setEntry_mem_other _ _ _ hta]
    by_cases hthis : leafTable m.mem dir virt = some t' ∧ i = indexOf virt 1
    · obtain ⟨hleaf', rfl⟩ := hthis
      rw [h.table, Option.some.injEq] at hleaf'
      subst hleaf'
      rw [if_pos ⟨h.table, rfl⟩, hown, takeBack_present, takeBack_user, takeBack_frame, withFlags_frame hlt,
        hflag _ (by decide) (by decide), hflag _ (by decide) (by decide), he]
      exact ⟨hm.flags.1, hm.flags.2.1, rfl⟩
    · rw [if_neg hthis]
      have hsame : s2.mem t' i = s.mem t' i := by
        by_cases htt : t' = t
        · subst htt
          rw [hs2, setEntry_mem_index _ _ _ fun hi => hthis ⟨h.table, hi⟩, hs3, setFrame_mem_other _ _ hta]
        · rw [hothers t' htt hta]
      rw [hsame]
      exact ⟨hm.flags.1, hm.flags.2.1, hm.frame⟩

theorem Storable.store {f : Word → Word} {moves : Bool} (hI : Inhabited tier m dir) (h : Twin tier m s)
    (hpos : dir ≠ 0) (hmine : Mine m dir virt) (hs : Storable m dir virt s.pmm.testAllocsLeft fr moves) :
    ∃ s1 fa, userStore dir virt f s = (some (), s1) ∧ Written tier m dir virt f fr s1.mem fa ∧
      (fa = fr ↔ moves = false) := by
  cases hs with
  | direct hwalk =>
    obtain ⟨s1, hrun, hw⟩ := store_direct hI h hpos hmine hwalk
    exact ⟨s1, fr, hrun, hw, by simp⟩
  | @marked t _ hwalk ht hupper hentry hframe hholders =>
    obtain ⟨hp, hu, hcow⟩ := hentry
    obtain ⟨-, -, hsome⟩ := way_same hI.toRooted hmine (h.tables hI)
    obtain ⟨hp', hu', hcow', hrw'⟩ := (h.marks hI t (indexOf virt 1) (hsome t ht).1).flags
    have hfr : tier fr = some 0 := by
      apply hI.pages virt fr hmine
      rw [walk_leaf ht, upper_mono hupper, hframe, if_pos (by simp [grants, hp, hu])]
    have hrw : has (s.mem t (indexOf virt 1)) PTE_RW = false := by
      rw [← Bool.not_eq_true]
      intro hrw
      rw [walk_leaf ht, hupper, if_pos (by simp [grants, hp, hu, hrw' hrw])] at hwalk
      simp at hwalk
    have hcowed : Cowed tier m s dir virt t fr :=
      ⟨hI, h, hpos, hmine, ht, hupper, hp'.trans hp, hu'.trans hu, hrw, hcow' hcow, hframe, hfr⟩
    rcases moves with _ | _
    · obtain ⟨s1, hrun, hw⟩ := store_alone hcowed hholders
      exact ⟨s1, fr, hrun, hw, by simp⟩
    · obtain ⟨hmany, hleft, x, hx⟩ := hholders
      obtain ⟨s1, fa, hrun, hw, hne⟩ := store_copied hcowed hmany hleft hx
      exact ⟨s1, fa, hrun, hw, by simp [hne]⟩

theorem allocFrame_had (h : allocFrame m = (some x, s')) :
    ∃ pm, s' = { m with pmm := pm } ∧ m.pmm.isUsed x = false ∧ m.pmm.testAllocsLeft ≠ 0 ∧ x < m.pmm.totalFrames := by
  unfold allocFrame at h
  obtain ⟨y, m1, hcall, h⟩ := bind_eq_some.mp h
  obtain ⟨pm, hpm, rfl⟩ := onPmm_some hcall
  split at h
  · simp at h
  · next hne =>
    rw [pure_apply, Prod.mk.injEq, Option.some.injEq] at h
    obtain ⟨rfl, rfl⟩ := h
    obtain ⟨hunused, -⟩ := Pmm.allocFrame_spec hpm hne
    refine ⟨pm, rfl, hunused, ?_, (Pmm.isUsed_eq_false.mp hunused).1⟩
    intro hzero
    unfold Pmm.allocFrame at hpm
    rw [if_pos hzero, Prod.mk.injEq, Option.some.injEq] at hpm
    exact hne hpm.1.symm

theorem storable_of_store {f : Word → Word} {m1 : Machine} (hI : Inhabited tier m dir) (hmine : Mine m dir virt)
    (h : userStore dir virt f m = (some (), m1)) :
    ∃ fr moves, Storable m dir virt m.pmm.testAllocsLeft fr moves ∧ tier fr = some 0 := by
  unfold userStore at h
  rw [bind_get] at h
  rcases hwalk : walk m.mem true virt 4 dir with _ | fr
  · rw [hwalk, if_neg (by simp)] at h
    obtain ⟨_, m2, hresolve, hstore⟩ := bind_eq_some.mp h
    unfold resolveCow at hresolve
    split at hresolve
    · simp at hresolve
    obtain ⟨⟨t, i⟩, m', hentry, hresolve⟩ := bind_eq_some.mp hresolve
    obtain ⟨rfl, rfl, ht, hp⟩ := entryFor_some hentry
    dsimp only at hresolve
    rw [bind_word] at hresolve
    split at hresolve
    · simp at hresolve
    next hcow =>
    have hupper : ∀ t k, tier t = some k → 2 ≤ k → m'.mem t = m'.mem t := fun _ _ _ _ => rfl
    obtain ⟨-, -, hsome⟩ := way_same hI.toRooted hmine hupper
    have htier := (hsome t ht).1
    have htables : ∀ {s : Machine}, (∀ x, x ≠ t → m'.pmm.isUsed x = true → s.mem x = m'.mem x) →
        ∀ x k, tier x = some k → 2 ≤ k → s.mem x = m'.mem x := by
      intro s hs x k hx hk
      refine hs x ?_ (hI.used x k hx)
      rintro rfl
      rw [htier] at hx
      simp at hx
      omega
    -- the store that follows shows the rights
    have hrights : (∀ x, x ≠ t → m'.pmm.isUsed x = true → m2.mem x = m'.mem x) →
        upper m'.mem true dir virt = true ∧ has (m2.mem t (indexOf virt 1)) PTE_USER = true := by
      intro hs
      obtain ⟨-, -, hsome2⟩ := way_same hI.toRooted hmine (htables hs)
      unfold storeAt at hstore
      rw [bind_get] at hstore
      obtain ⟨x, _, hx, -⟩ := bind_eq_some.mp hstore
      rw [ofOption_apply, Prod.mk.injEq, (hsome2 t ht).2] at hx
      obtain ⟨hx, -⟩ := hx
      split at hx
      · next hgo =>
        simp only [Bool.and_eq_true, grants] at hgo
        exact ⟨hgo.1, hgo.2.2.1⟩
      · simp at hx
    obtain ⟨n, m3, hholders, hresolve⟩ := bind_eq_some.mp hresolve
    rw [show holders (frameOf (m'.mem t (indexOf virt 1))) m' =
      (some (Pmm.holders (frameOf (m'.mem t (indexOf virt 1))) m'.pmm), m') from rfl, Prod.mk.injEq,
      Option.some.injEq] at hholders
    obtain ⟨rfl, rfl⟩ := hholders
    have hcow' : has (m'.mem t (indexOf virt 1)) PTE_COW = true := by simpa using hcow
    have hdone : ∀ moves : Bool, upper m'.mem true dir virt = true → has (m'.mem t (indexOf virt 1)) PTE_USER = true →
        (if moves then 1 < Pmm.holders (frameOf (m'.mem t (indexOf virt 1))) m'.pmm ∧ m'.pmm.testAllocsLeft ≠ 0 ∧
            ∃ x, m'.pmm.isUsed x = false
          else Pmm.holders (frameOf (m'.mem t (indexOf virt 1))) m'.pmm ≤ 1) →
        ∃ fr moves, Storable m' dir virt m'.pmm.testAllocsLeft fr moves ∧ tier fr = some 0 := by
      intro moves hupper hu hholders
      refine ⟨_, moves, .marked hwalk ht hupper ⟨hp, hu, hcow'⟩ rfl hholders, ?_⟩
      apply hI.pages virt _ hmine
      rw [walk_leaf ht, upper_mono hupper, if_pos (by simp [grants, hp, hu])]
    split at hresolve
    · next hone =>
      rw [setWord_apply, Prod.mk.injEq] at hresolve
      obtain ⟨-, rfl⟩ := hresolve
      obtain ⟨hupper, hu⟩ := hrights fun x hx _ => setEntry_mem_other _ _ _ hx
      rw [setEntry_mem_same, takeBack_user] at hu
      exact hdone false hupper hu hone
    · next hmany =>
      obtain ⟨x, m4, halloc, hresolve⟩ := bind_eq_some.mp hresolve
      obtain ⟨pm, rfl, hunused, hleft, hlt⟩ := allocFrame_had halloc
      obtain ⟨_, m5, hcopy, hresolve⟩ := bind_eq_some.mp hresolve
      obtain ⟨pm', hrun, -⟩ := freeFrame_run (frameOf (m'.mem t (indexOf virt 1))) m5
      rw [bind_of_some hrun, bind_setWord] at hresolve
      have hm5 : m5.mem = Pmm.put m'.mem x (m'.mem (frameOf (m'.mem t (indexOf virt 1)))) := by
        rw [show copyFrame x (frameOf (m'.mem t (indexOf virt 1))) { m' with pmm := pm } =
          (some (), ({ m' with pmm := pm } : Machine).setFrame x _) from rfl, Prod.mk.injEq] at hcopy
        rw [← hcopy.2]
        rfl
      rw [modify_apply, Prod.mk.injEq] at hresolve
      obtain ⟨-, rfl⟩ := hresolve
      have hlimit : x < FRAME_LIMIT := Nat.lt_of_lt_of_le hlt hI.total
      obtain ⟨hupper, hu⟩ := hrights (by
        intro y hy hyu
        show (({ m5 with pmm := pm' } : Machine).setEntry t (indexOf virt 1) _).mem y = _
        rw [setEntry_mem_other _ _ _ hy]
        show m5.mem y = _
        rw [hm5, put_other]
        rintro rfl
        rw [hyu] at hunused
        simp at hunused)
      have hu' : has (m'.mem t (indexOf virt 1)) PTE_USER = true := by
        have hu2 : has ((({ m5 with pmm := pm' } : Machine).setEntry t (indexOf virt 1)
            (takeBack (withFlags x (m'.mem t (indexOf virt 1))))).mem t (indexOf virt 1)) PTE_USER = true := hu
        rw [setEntry_mem_same, takeBack_user, withFlags_has hlimit (by decide) (by decide)] at hu2
        exact hu2
      exact hdone true hupper hu' ⟨by omega, hleft, x, hunused⟩
  · exact ⟨fr, false, .direct hwalk, hI.pages virt fr hmine (walk_read hwalk)⟩

end Beside

/-! ## Where the next search starts -/

def Hinted (m : Machine) : Prop := m.pmm.nextHint < m.pmm.totalFrames

section Hint

theorem hinted_alloc : Preserves Hinted allocFrame := by
  apply Preserves.bind
  · intro s hs
    show (Pmm.allocFrame s.pmm).2.nextHint < (Pmm.allocFrame s.pmm).2.totalFrames
    have hcount : (Pmm.countDown s.pmm).nextHint = s.pmm.nextHint := by
      unfold Pmm.countDown
      split <;> rfl
    unfold Pmm.allocFrame
    split
    · exact hs
    · split
      · next f hf =>
        have hlt := (Pmm.isUsed_eq_false.mp (Pmm.search_unused hf)).1
        show (if f + 1 ≥ (Pmm.countDown s.pmm).totalFrames then 0 else f + 1) < (Pmm.claim f (Pmm.countDown s.pmm)).totalFrames
        rw [Pmm.claim_total]
        split <;> omega
      · rw [hcount, Pmm.countDown_total]
        exact hs
  · exact fun _ => Preserves.ite Preserves.stop (Preserves.pure _)

theorem hinted_share (f : Nat) : Preserves Hinted (share f) := by
  intro s hs
  show (Pmm.share f s.pmm).2.nextHint < (Pmm.share f s.pmm).2.totalFrames
  unfold Pmm.share
  split
  · exact hs
  · split
    · exact hs
    · split <;> exact hs

theorem hinted_free (f : Nat) : Preserves Hinted (freeFrame f) := by
  intro s hs
  have hmark : (Pmm.markFree f s.pmm).nextHint = s.pmm.nextHint := by
    unfold Pmm.markFree
    split
    · rfl
    · split <;> rfl
  show (Pmm.freeFrame f s.pmm).2.nextHint < (Pmm.freeFrame f s.pmm).2.totalFrames
  unfold Pmm.freeFrame
  split
  · exact hs
  · split
    · split
      · exact hs
      · rw [hmark, Pmm.markFree_total]
        exact hs
    · rw [hmark, Pmm.markFree_total]
      exact hs

theorem hinted_word (t i : Nat) : Preserves Hinted (word t i) := fun _ h => h

theorem hinted_setWord (t i : Nat) (e : Word) : Preserves Hinted (setWord t i e) := fun _ h => h

theorem hinted_freeTable : ∀ (n t : Nat), Preserves Hinted (freeTable n t)
  | 0, _ => Preserves.pure ()
  | 1, t => Preserves.upto fun i _ => Preserves.bind (hinted_word t i) fun _ =>
      Preserves.ite (Preserves.pure ()) (Preserves.ite (hinted_free _) (Preserves.pure ()))
  | n + 2, t => Preserves.upto fun i _ => Preserves.bind (hinted_word t i) fun _ =>
      Preserves.ite (Preserves.pure ()) (Preserves.bind (hinted_freeTable (n + 1) _) fun _ => hinted_free _)

theorem hinted_freeDirectory (dir : Nat) : Preserves Hinted (freeDirectory dir) := by
  refine Preserves.bind Preserves.get fun m => Preserves.ite (Preserves.pure ()) (Preserves.bind ?_ fun _ => hinted_free dir)
  refine Preserves.upto fun i _ => Preserves.bind Preserves.get fun m => Preserves.bind (hinted_word dir i) fun _ =>
    Preserves.bind (hinted_word _ i) fun _ => Preserves.ite (Preserves.pure ()) ?_
  exact Preserves.bind (hinted_freeTable 3 _) fun _ => hinted_free _

theorem hinted_copyPage (dst src i : Nat) (e : Word) : Preserves Hinted (copyPage dst src i e) := by
  refine Preserves.bind (hinted_share _) fun _ => Preserves.ite ?_ ?_
  · exact Preserves.bind (hinted_setWord _ _ _) fun _ => Preserves.bind (hinted_setWord _ _ _) fun _ =>
      Preserves.modify fun _ h => h
  · exact Preserves.bind hinted_alloc fun _ => Preserves.bind (Preserves.modify fun _ h => h) fun _ =>
      hinted_setWord _ _ _

theorem hinted_copyTable : ∀ (n dst src : Nat), Preserves Hinted (copyTable n dst src)
  | 0, _, _ => Preserves.pure ()
  | 1, _, src => Preserves.upto fun i _ => Preserves.bind (hinted_word src i) fun _ =>
      Preserves.ite (hinted_setWord _ _ _) (Preserves.ite (hinted_setWord _ _ _) (Preserves.ite (hinted_setWord _ _ _)
        (Preserves.ite (hinted_setWord _ _ _) (hinted_copyPage _ _ _ _))))
  | n + 2, _, src => Preserves.upto fun i _ => Preserves.bind (hinted_word src i) fun _ =>
      Preserves.ite (hinted_setWord _ _ _) (Preserves.ite (hinted_setWord _ _ _)
        (Preserves.bind hinted_alloc fun _ => Preserves.bind (Preserves.modify fun _ h => h) fun _ =>
          Preserves.bind (hinted_setWord _ _ _) fun _ => hinted_copyTable (n + 1) _ _))

theorem hinted_cloneTable (dst i : Nat) (e : Word) : Preserves Hinted (cloneTable dst i e) := by
  refine Preserves.bind (Preserves.attempt hinted_alloc) ?_
  rintro (_ | table)
  · exact Preserves.bind (hinted_freeDirectory dst) fun _ => Preserves.stop
  · refine Preserves.bind (Preserves.modify fun _ h => h) fun _ =>
      Preserves.bind (Preserves.attempt (hinted_copyTable 3 table _)) ?_
    rintro (_ | _)
    · exact Preserves.bind (hinted_freeTable 3 table) fun _ => Preserves.bind (hinted_free table) fun _ =>
        Preserves.bind (hinted_freeDirectory dst) fun _ => Preserves.stop
    · exact hinted_setWord _ _ _

theorem hinted_cloneDirectory (src : Nat) : Preserves Hinted (cloneDirectory src) := by
  refine Preserves.ite Preserves.stop (Preserves.bind ?_ fun fresh => Preserves.bind ?_ fun _ => Preserves.pure _)
  · refine Preserves.bind hinted_alloc fun frame => Preserves.bind (Preserves.modify fun _ h => h) fun _ =>
      Preserves.bind (Preserves.upto fun i _ => ?_) fun _ => Preserves.pure _
    exact Preserves.bind Preserves.get fun m => Preserves.bind (hinted_word _ i) fun _ =>
      Preserves.ite (hinted_setWord _ _ _) (Preserves.pure ())
  · refine Preserves.upto fun i _ => Preserves.bind Preserves.get fun m => Preserves.bind (hinted_word src i) fun e =>
      Preserves.bind (hinted_word _ i) fun k => Preserves.ite (Preserves.pure ())
        (Preserves.ite (hinted_setWord _ _ _) (hinted_cloneTable fresh i e))

end Hint

end Zelr.Paging
