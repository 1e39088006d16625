import Mathlib.Logic.Relation
import Zelr.Paging.Few
import Zelr.Paging.Release

/-!
# Fork is isolation

The reference is a memory in which a clone copies every page there and then.
-/

namespace Zelr.Paging

open Act
open Pmm (put_same put_other)

variable {p r q : List Nat} {w w' : World}

def USER_SPACE_BASE : Nat := 0x0000008000000000
def USER_SPACE_END : Nat := 0x000000FFFFFFF000

def IsUser (virt : Word) : Prop := USER_SPACE_BASE ≤ virt.toNat ∧ virt.toNat < USER_SPACE_END

def pageNumber (virt : Word) : Nat := virt.toNat / PAGE_SIZE

section Addresses

variable {virt virt' : Word}

theorem indexOf_eq (virt : Word) (level : Nat) :
    indexOf virt level = virt.toNat / 2 ^ (12 + 9 * (level - 1)) % 512 := by
  unfold indexOf
  rw [BitVec.toNat_ushiftRight, Nat.shiftRight_eq_div_pow]

theorem IsUser.top (h : IsUser virt) : indexOf virt 4 = 1 := by
  obtain ⟨hlo, hhi⟩ := h
  rw [indexOf_eq]
  unfold USER_SPACE_BASE USER_SPACE_END at *
  omega

theorem pathOf_eq_iff (h : IsUser virt) (h' : IsUser virt') :
    pathOf virt = pathOf virt' ↔ pageNumber virt = pageNumber virt' := by
  obtain ⟨hlo, hhi⟩ := h
  obtain ⟨hlo', hhi'⟩ := h'
  simp only [pathOf, pageNumber, indexOf_eq, PAGE_SIZE, List.cons.injEq, and_true]
  unfold USER_SPACE_BASE USER_SPACE_END at *
  constructor
  · rintro ⟨h3, h2, h1⟩
    omega
  · intro hpage
    omega

theorem indexOf_pageOf (virt : Word) (level : Nat) :
    indexOf (pageOf virt) level = indexOf virt level := by
  have hmask : ∀ j, j < 64 → 12 ≤ j → (~~~(0xFFF : Word)).getLsbD j = true := by decide
  unfold indexOf pageOf
  have hshift : (virt &&& ~~~0xFFF) >>> (12 + 9 * (level - 1)) = virt >>> (12 + 9 * (level - 1)) := by
    apply BitVec.eq_of_getLsbD_eq
    intro i hi
    rw [BitVec.getLsbD_ushiftRight, BitVec.getLsbD_ushiftRight, BitVec.getLsbD_and]
    by_cases hj : 12 + 9 * (level - 1) + i < 64
    · rw [hmask _ hj (by omega), Bool.and_true]
    · rw [BitVec.getLsbD_of_ge virt _ (by omega), Bool.false_and]
  rw [hshift]

end Addresses

/-! ## What the processor finds -/

section Access

variable {g : Labels} {m m' : Machine} {dir : Nat} {virt : Word}

def below (virt : Word) : Nat → List Nat
  | 0 => []
  | n + 1 => indexOf virt (n + 1) :: below virt n

theorem below_length (virt : Word) (n : Nat) : (below virt n).length = n := by
  induction n with
  | zero => rfl
  | succ n ih => rw [below, List.length_cons, ih]

theorem walk_eq (hg : Inv g m) (write : Bool) : ∀ (n : Nat) {t : Nat} {p : List Nat}, g.own t = .table dir p →
    p.length + n = 4 → n ≠ 0 → (p = [] → indexOf virt n = 1) →
      walk m.mem write virt n t =
        if !write || writable m.mem t (below virt n) then follow m.mem t (below virt n) else none := by
  intro n
  induction n with
  | zero => exact fun _ _ hn => absurd rfl hn
  | succ n ih =>
    intro t p ht hlen _ htop
    unfold walk below
    obtain ⟨i, hi⟩ : ∃ i, i = indexOf virt (n + 1) := ⟨_, rfl⟩
    rw [← hi] at htop ⊢
    rcases Bool.eq_false_or_eq_true (has (m.mem t i) PTE_PRESENT) with hp | hp
    · rcases n with _ | n
      · have hleaf := (hg.entries t dir p ht i).leaf hp (by omega)
        simp only [hp, hleaf.user, writable, follow, walk, below]
        simp
      · have hlink := (hg.entries t dir p ht i).link hp (by omega) htop
        simp only [hp, hlink.user, hlink.rw, hlink.huge, writable, follow, Bool.and_true, Bool.or_true, Bool.and_false,
          Bool.true_and, if_true]
        rw [if_neg (by simp)]
        exact ih hlink.below (by simp; omega) (by omega) (by simp)
    · simp [hp, writable, follow]

theorem below_four (h : IsUser virt) : below virt 4 = 1 :: pathOf virt := by
  simp only [below, pathOf, h.top]

theorem userLoad_eq (hg : Inv g m) (hroot : g.own dir = .table dir []) (huser : IsUser virt) :
    userLoad m dir virt = (page m.mem dir (1 :: pathOf virt)).map fun words => words (wordOf virt) := by
  unfold userLoad page
  rw [walk_eq hg false 4 hroot rfl (by decide) fun _ => huser.top, below_four huser, Option.map_map]
  rfl

variable {i t d f : Nat}

theorem entryFor_spec (htop : indexOf virt 4 = 1)
    (h : entryFor dir virt m = (some (t, i), m')) :
    m' = m ∧ i = indexOf virt 1 ∧ follow m.mem dir [1, indexOf virt 3, indexOf virt 2] = some t ∧
      has (m.mem t i) PTE_PRESENT = true := by
  unfold entryFor at h
  rw [bind_word, htop] at h
  split at h
  · cases h
  · next h4 =>
    rw [bind_word] at h
    split at h
    · cases h
    · next h3 =>
      rw [bind_word] at h
      split at h
      · cases h
      · next h2 =>
        rw [bind_word] at h
        split at h
        · cases h
        · next h1 =>
          cases h
          simp only [Bool.not_eq_true', Bool.not_eq_false, Bool.or_eq_true, not_or, Bool.not_eq_true] at h4 h3 h2 h1
          refine ⟨rfl, rfl, ?_, h1⟩
          simp [follow, h4, h3.1, h2.1]

theorem take_last (hg : Inv g m) (ht : g.own t = .table d p) (hlen : p.length = 3)
    (hp : has (m.mem t i) PTE_PRESENT = true) (hlast : Pmm.holders (frameOf (m.mem t i)) m.pmm ≤ 1) :
    Inv g (m.setEntry t i (takeBack (m.mem t i))) ∧
      Keeps (But d (p ++ [i])) g m g (m.setEntry t i (takeBack (m.mem t i))) := by
  have hleaf := (hg.entries t d p ht i).leaf hp hlen
  obtain ⟨hpos, hlt⟩ := hg.inside _ (by rw [hleaf.data]; simp) (by rw [hleaf.data]; simp)
  rw [Pmm.holders_eq (by omega) hlt] at hlast
  apply hg.setEntry_but ht
  intro _
  refine Or.inr (Or.inr ⟨hlen, by simpa using hleaf.user, by simpa using hleaf.huge, by simpa using hleaf.borrowed,
    by simpa using hleaf.data, by simpa using hleaf.held, ?_⟩)
  intro _
  rw [takeBack_frame, hg.count _ hleaf.data]
  omega

theorem split_page {m1 : Machine} {pm : Pmm} (hg : Inv g m)
    (ht : g.own t = .table d p) (hlen : p.length = 3) (hp : has (m.mem t i) PTE_PRESENT = true)
    (hmany : ¬Pmm.holders (frameOf (m.mem t i)) m.pmm ≤ 1) (halloc : allocFrame m = (some f, m1))
    (hfree : Pmm.freeFrame (frameOf (m.mem t i)) m1.pmm = (some (), pm)) :
    ∃ g' s, s = Machine.setEntry { m1.setFrame f (m1.mem (frameOf (m.mem t i))) with pmm := pm } t i
        (takeBack (withFlags f (m.mem t i))) ∧
      Inv g' s ∧ Keeps (But d (p ++ [i])) g m g' s ∧ has (s.mem t i) PTE_PRESENT = true ∧
      s.mem (frameOf (s.mem t i)) = m.mem (frameOf (m.mem t i)) ∧ has (s.mem t i) PTE_RW = true := by
  have hleaf := (hg.entries t d p ht i).leaf hp hlen
  obtain ⟨hfresh, hg1, hmem, hk1⟩ := allocFrame_inv (O := But d (p ++ [i])) hg halloc
  have hlimit : f < FRAME_LIMIT := Nat.lt_of_lt_of_le hfresh.lt hg1.total
  obtain ⟨old, hold⟩ : ∃ old, old = frameOf (m.mem t i) := ⟨_, rfl⟩
  obtain ⟨e, he⟩ : ∃ e, e = takeBack (withFlags f (m.mem t i)) := ⟨_, rfl⟩
  rw [← hold] at hmany hfree ⊢
  rw [← he]
  have hdata := hleaf.data
  have hheld := hleaf.held
  rw [← hold] at hdata hheld
  have hft : f ≠ t := ne_of_own hfresh.free ht (by simp)
  have hfold : old ≠ f := ne_of_own hdata hfresh.free (by simp)
  have hframe : frameOf e = f := by rw [he, takeBack_frame, withFlags_frame hlimit]
  have hpres : has e PTE_PRESENT = true := by
    rw [he, takeBack_present, withFlags_has hlimit (by decide) (by decide)]
    exact hp
  obtain ⟨hg2, hk2⟩ := place_page (i := i) (e := e) (O := But d (p ++ [i])) hg1 hfresh (m1.mem old) ht hlen hframe
    (by rw [he, takeBack_user, withFlags_has hlimit (by decide) (by decide)]; exact hleaf.user)
    (by rw [he, takeBack_huge, withFlags_has hlimit (by decide) (by decide)]; exact hleaf.huge)
    (by rw [he, takeBack_borrowed, withFlags_has hlimit (by decide) (by decide)]; exact hleaf.borrowed)
    (fun hb => hb ⟨rfl, rfl⟩)
  obtain ⟨hpos, hlt⟩ := hg1.inside old (by rw [hdata]; simp) (by rw [hdata]; simp)
  have hpast : m1.pmm.past old ≠ 0 := by
    have h1 := hg1.count old hdata
    have h0 := hg.count old hdata
    rw [Pmm.holders_eq (by omega) (by rw [← hk1.total]; exact hlt)] at hmany
    omega
  obtain ⟨pm', hfree', htotal, hused, hsame⟩ := Pmm.freeFrame_shared (by omega) hlt hpast
  rw [hfree] at hfree'
  cases hfree'
  have hdata2 : (g.give f .data [(t, i)]).own old = .data := hk2.own_eq hdata (by simp)
  have hholds : (g.give f .data [(t, i)]).holds old = g.holds old := put_other _ _ hfold
  have hcount := hg1.count old hdata
  have hg3 := hg2.setHolds (H := (g.holds old).erase (t, i)) hdata2 htotal hused hsame
    (by rw [List.length_erase_of_mem hheld, hcount]; omega) (by
      intro t' d' r j ht' hr hp' hframe'
      have hleaf' := (hg2.entries t' d' r ht' j).leaf hp' hr
      have hin := hleaf'.held
      rw [hframe', hholds] at hin
      refine ⟨(List.mem_erase_of_ne ?_).mpr hin, ?_⟩
      · intro heq
        obtain ⟨rfl, rfl⟩ := Prod.mk.inj heq
        rw [setEntry_mem_same, hframe] at hframe'
        exact hfold hframe'.symm
      · intro hrw
        have hone := hleaf'.sole hrw
        rw [hframe', hholds, hcount] at hone
        omega)
  refine ⟨_, _, rfl, hg3, ?_, ?_, ?_, ?_⟩
  · have hk := hk1.trans hk2
    exact ⟨hk.kernel, htotal.trans hk1.total, hk.own, hk.tables, hk.data, hk.other⟩
  · rw [setEntry_mem_same]
    exact hpres
  · rw [setEntry_mem_same, hframe, setEntry_mem_other _ _ _ hft]
    show (m1.setFrame f (m1.mem old)).mem f = m.mem old
    rw [setFrame_mem_same, hmem]
  · rw [setEntry_mem_same, he, takeBack_rw]

/-- The page is this space's own to write, and it reads what it read. -/
theorem resolveCow_spec (hg : Inv g m) (hroot : g.own dir = .table dir []) (huser : IsUser virt)
    (h : resolveCow dir virt m = (some (), m')) :
    ∃ g', Inv g' m' ∧ Keeps (But dir (1 :: pathOf virt)) g m g' m' ∧
      page m'.mem dir (1 :: pathOf virt) = page m.mem dir (1 :: pathOf virt) ∧
      writable m'.mem dir (1 :: pathOf virt) = true := by
  unfold resolveCow at h
  split at h
  · cases h
  · obtain ⟨⟨t, i⟩, m1, hentry, h1⟩ := bind_eq_some.mp h
    obtain ⟨rfl, hi, hfollow, hp⟩ := entryFor_spec (by rw [indexOf_pageOf]; exact huser.top) hentry
    clear h
    rw [indexOf_pageOf] at hi
    rw [indexOf_pageOf, indexOf_pageOf] at hfollow
    have ht : g.own t = .table dir [1, indexOf virt 3, indexOf virt 2] :=
      hg.follow_own _ hroot (by simp) (by simp) hfollow
    have hpath : 1 :: pathOf virt = [1, indexOf virt 3, indexOf virt 2] ++ [i] := by rw [hi]; rfl
    have hbelow : ∀ {g' : Labels} {s : Machine}, Keeps (But dir (1 :: pathOf virt)) g m1 g' s →
        follow s.mem dir [1, indexOf virt 3, indexOf virt 2] = some t := by
      intro g' s hk
      rw [hk.follow hg _ hroot (by simp) (by simp), hfollow]
      rintro r - hr ⟨-, heq⟩
      have hle := hr.length_le
      rw [List.nil_append] at heq
      rw [heq] at hle
      simp [pathOf] at hle
    simp only [bind_word] at h1
    split at h1
    · cases h1
    · obtain ⟨n, m2, hn, h2⟩ := bind_eq_some.mp h1
      cases hn
      split at h2
      · next hlast =>
        cases h2
        obtain ⟨hg', hk'⟩ := take_last hg ht rfl hp hlast
        rw [← hpath] at hk'
        refine ⟨g, hg', hk', ?_, ?_⟩
        · have hdata := ((hg.entries t dir _ ht i).leaf hp rfl).data
          rw [hpath, page_append _ (hbelow hk'), page_append _ hfollow, page_leaf hp, page_leaf]
          · rw [setEntry_mem_same, takeBack_frame, setEntry_mem_other _ _ _ (ne_of_own hdata ht (by simp))]
          · rw [setEntry_mem_same, takeBack_present]
            exact hp
        · rw [hpath, writable_of_follow hg' _ hroot (by simp) (by simp) (hbelow hk'), writable_leaf, setEntry_mem_same,
            takeBack_present, takeBack_rw, hp]
          rfl
      · next hmany =>
        obtain ⟨f, m2, halloc, h3⟩ := bind_eq_some.mp h2
        obtain ⟨_, m3, hcopy, h4⟩ := bind_eq_some.mp h3
        obtain ⟨_, m4, hfree, h5⟩ := bind_eq_some.mp h4
        obtain ⟨pm, hfree, hm4⟩ := freeFrame_some hfree
        cases hcopy
        obtain ⟨g', s, hs, hg', hk', hp', hsame, hrw⟩ := split_page hg ht rfl hp hmany halloc hfree
        have hm' : m' = { s with cowCopies := s.cowCopies + 1 } := by
          rw [hs]
          cases hm4
          cases h5
          rfl
        rw [← hpath] at hk'
        have hmem : m'.mem = s.mem := by rw [hm']
        have hg'' : Inv g' m' := by
          rw [hm']
          exact { hg' with }
        have hk'' : Keeps (But dir (1 :: pathOf virt)) g m1 g' m' := by
          rw [hm']
          exact { hk' with }
        refine ⟨g', hg'', hk'', ?_, ?_⟩
        · rw [hmem, hpath, page_append _ (hbelow hk'), page_append _ hfollow, page_leaf hp, page_leaf hp', hsame]
        · rw [hmem, hpath, writable_of_follow hg' _ (hk'.own_eq hroot (by simp)) (by simp) (by simp) (hbelow hk'),
            writable_leaf, hp', hrw]
          rfl

theorem leaf_of_follow (hg : Inv g m) (hroot : g.own d = .table d []) (hr : r.length = 3)
    (h : follow m.mem d (1 :: r) = some f) :
    ∃ t p j, 1 :: r = p ++ [j] ∧ p.length = 3 ∧ g.own t = .table d p ∧ follow m.mem d p = some t ∧
      has (m.mem t j) PTE_PRESENT = true ∧ frameOf (m.mem t j) = f := by
  obtain ⟨a, b, j, rfl⟩ : ∃ a b j, r = [a, b, j] := by
    match r, hr with
    | [a, b, j], _ => exact ⟨a, b, j, rfl⟩
  rw [show 1 :: [a, b, j] = [1, a, b] ++ [j] from rfl, follow_append] at h
  obtain ⟨t, ht, hleaf⟩ := Option.bind_eq_some_iff.mp h
  have hown : g.own t = .table d [1, a, b] := hg.follow_own _ hroot (by simp) (by simp) ht
  unfold follow at hleaf
  split at hleaf
  · next hp => exact ⟨t, [1, a, b], j, rfl, rfl, hown, ht, hp, Option.some.inj hleaf⟩
  · cases hleaf

theorem sole_path (hg : Inv g m) (hroot : g.own dir = .table dir []) (hq : q.length = 3)
    (hfollow : follow m.mem dir (1 :: q) = some f) (hsole : (g.holds f).length = 1) (hd : g.own d = .table d [])
    (hr : r.length = 3) (h : follow m.mem d (1 :: r) = some f) : d = dir ∧ r = q := by
  obtain ⟨t, p, i, hpath, hlen, ht, -, hp, hframe⟩ := leaf_of_follow hg hroot hq hfollow
  obtain ⟨t', p', j, hpath', hlen', ht', -, hp', hframe'⟩ := leaf_of_follow hg hd hr h
  obtain ⟨x, hx⟩ := List.length_eq_one_iff.mp hsole
  have hheld := ((hg.entries t dir p ht i).leaf hp hlen).held
  have hheld' := ((hg.entries t' d p' ht' j).leaf hp' hlen').held
  rw [hframe, hx, List.mem_singleton] at hheld
  rw [hframe', hx, List.mem_singleton, ← hheld] at hheld'
  obtain ⟨rfl, rfl⟩ := Prod.mk.inj hheld'
  rw [ht] at ht'
  cases ht'
  exact ⟨rfl, (List.cons.inj (hpath'.trans hpath.symm)).2⟩

theorem follow_setPage {words : Nat → Word} (hg : Inv g m) (hf : g.own f = .data) :
    ∀ (q : List Nat) {t : Nat} {p : List Nat}, g.own t = .table d p → p.length + q.length = 4 → q ≠ [] →
      (p = [] → q.head? = some 1) →
        follow (m.setFrame f words).mem t q = follow m.mem t q ∧
          writable (m.setFrame f words).mem t q = writable m.mem t q := by
  intro q
  induction q with
  | nil => exact fun _ _ hq => absurd rfl hq
  | cons i q ih =>
    intro t p ht hlen _ htop
    have hsame : (m.setFrame f words).mem t i = m.mem t i := by
      rw [setFrame_mem_other _ _ (ne_of_own ht hf (by simp))]
    rcases Bool.eq_false_or_eq_true (has (m.mem t i) PTE_PRESENT) with hp | hp
    · by_cases hq : q = []
      · subst hq
        simp only [follow, writable, hsame]
        simp
      · have hpos := List.length_pos_iff.mpr hq
        have hlink := (hg.entries t d p ht i).link hp (by simp at hlen; omega) (by simpa using htop)
        obtain ⟨hfollow, hwrite⟩ := ih hlink.below (by simp at hlen ⊢; omega) hq (by simp)
        rw [follow, follow, writable, writable, hsame, hfollow, hwrite]
        exact ⟨rfl, rfl⟩
    · rw [follow, follow, writable, writable, hsame]
      simp [hp]

theorem Inv.setPage {words : Nat → Word} (hg : Inv g m) (hf : g.own f = .data) :
    Inv g (m.setFrame f words) := by
  have hmem : ∀ t, g.own t ≠ .data → (m.setFrame f words).mem t = m.mem t := by
    intro t ht
    apply setFrame_mem_other
    rintro rfl
    exact ht hf
  have hkernel : (m.setFrame f words).mem m.kernelPml4 = m.mem m.kernelPml4 := hmem _ (by rw [hg.kernel]; simp)
  refine { hg with hole := ?_, entries := ?_ }
  · show has ((m.setFrame f words).mem m.kernelPml4 1) PTE_PRESENT = false
    rw [hkernel]
    exact hg.hole
  · intro t d p ht i
    show EntryOk g ((m.setFrame f words).mem m.kernelPml4) t d p i _
    rw [hkernel, hmem t (by rw [ht]; simp)]
    exact hg.entries t d p ht i

theorem setPage_spec (words : Nat → Word) (hg : Inv g m) (hroot : g.own dir = .table dir [])
    (hq : q.length = 3) (hfollow : follow m.mem dir (1 :: q) = some f) (hdata : g.own f = .data)
    (hsole : (g.holds f).length = 1) :
    Inv g (m.setFrame f words) ∧ page (m.setFrame f words).mem dir (1 :: q) = some words ∧
      (∀ d r, g.own d = .table d [] → r.length = 3 → ¬(d = dir ∧ r = q) →
        page (m.setFrame f words).mem d (1 :: r) = page m.mem d (1 :: r)) ∧
      ∀ d r, g.own d = .table d [] → r.length = 3 →
        writable (m.setFrame f words).mem d (1 :: r) = writable m.mem d (1 :: r) := by
  have hsame := fun d r (hd : g.own d = .table d []) (hr : r.length = 3) =>
    @follow_setPage _ _ d f words hg hdata (1 :: r) _ _ hd (by simp; omega) (by simp) (by simp)
  refine ⟨hg.setPage hdata, ?_, ?_, fun d r hd hr => (hsame d r hd hr).2⟩
  · unfold page
    rw [(hsame dir q hroot hq).1, hfollow, Option.map_some, setFrame_mem_same]
  · intro d r hd hr hnot
    unfold page
    rw [(hsame d r hd hr).1]
    rcases hfr : follow m.mem d (1 :: r) with _ | f'
    · rfl
    · have hne : f' ≠ f := by
        rintro rfl
        exact hnot (sole_path hg hroot hq hfollow hsole hd hr hfr)
      simp only [Option.map_some, setFrame_mem_other _ _ hne]

def stored (words : Nat → Word) (w : Nat) (f : Word → Word) : Nat → Word := Pmm.put words w (f (words w))

theorem storeAt_spec {f : Word → Word} (hg : Inv g m) (hroot : g.own dir = .table dir []) (huser : IsUser virt)
    (h : storeAt dir virt f m = (some (), m')) :
    Inv g m' ∧ m'.kernelPml4 = m.kernelPml4 ∧
      (page m'.mem dir (1 :: pathOf virt) =
        (page m.mem dir (1 :: pathOf virt)).map fun words => stored words (wordOf virt) f) ∧
      (∀ d r, g.own d = .table d [] → r.length = 3 → ¬(d = dir ∧ r = pathOf virt) →
        page m'.mem d (1 :: r) = page m.mem d (1 :: r)) ∧
      ∀ d r, g.own d = .table d [] → r.length = 3 → writable m'.mem d (1 :: r) = writable m.mem d (1 :: r) := by
  unfold storeAt at h
  rw [bind_get] at h
  obtain ⟨frame, m1, hfound, hset⟩ := bind_eq_some.mp h
  rw [ofOption_apply] at hfound
  obtain ⟨hwalk, rfl⟩ := Prod.mk.inj hfound
  cases hset
  rw [walk_eq hg true 4 hroot rfl (by decide) fun _ => huser.top, below_four huser] at hwalk
  split at hwalk
  · next hw =>
    have hw : writable m.mem dir (1 :: pathOf virt) = true := by simpa using hw
    obtain ⟨t, p, i, hpath, hlen, ht, hfollow, hp, hframe⟩ := leaf_of_follow hg hroot rfl hwalk
    have hleaf := (hg.entries t dir p ht i).leaf hp hlen
    have hdata : g.own frame = .data := hframe ▸ hleaf.data
    have hrw : has (m.mem t i) PTE_RW = true := by
      rw [hpath, writable_of_follow hg p hroot (by simp [hlen])
        (by
          intro _ _
          rcases p with _ | ⟨a, p⟩
          · cases hlen
          · rw [List.cons_append] at hpath
            rw [← (List.cons.inj hpath).1]
            rfl) hfollow, writable_leaf, Bool.and_eq_true] at hw
      exact hw.2
    have hsole : (g.holds frame).length = 1 := hframe ▸ hleaf.sole hrw
    -- the store is another page in the same frame
    obtain ⟨hinv, hpage, hothers, hwrites⟩ :=
      setPage_spec (stored (m.mem frame) (wordOf virt) f) hg hroot rfl hwalk hdata hsole
    refine ⟨hinv, rfl, ?_, hothers, hwrites⟩
    have hwas : page m.mem dir (1 :: pathOf virt) = some (m.mem frame) := by
      unfold page
      rw [hwalk]
      rfl
    rw [hwas]
    exact hpage
  · cases hwalk

end Access

/-! ## The reference -/

/-- A page as its owner sees it: what is in it and whether it was mapped to be written. -/
structure Page where
  words : Nat → Word
  writable : Bool

abbrev Space := Nat → Option Page

/-- The machine, and beside it every live space with pages of its own. -/
structure World where
  machine : Machine
  spaces : Nat → Option Space

inductive Op where
  | new
  | alloc (dir : Nat) (virt : Word)
  | fill (dir : Nat) (virt : Word) (writable : Bool)
  | clone (src : Nat)
  | store (dir : Nat) (virt : Word) (f : Word → Word)
  | fault (dir : Nat) (virt : Word)
  | free (dir : Nat)

def zeroPage (writable : Bool) : Page := ⟨fun _ => 0, writable⟩

/-- A call that succeeds. In the reference a clone has a copy of every page at once, and a store changes
one word of one page of one space. -/
inductive Step : Op → World → World → Prop
  | new {m m' : Machine} {R : Nat → Option Space} {dir : Nat} (call : newDirectory m = (some dir, m')) :
    Step .new ⟨m, R⟩ ⟨m', Pmm.put R dir (some fun _ => none)⟩
  | alloc {m m' : Machine} {R : Nat → Option Space} {a : Space} {dir frame : Nat} {virt : Word}
    (live : R dir = some a) (user : IsUser virt) (call : allocUserPage dir virt m = (some frame, m')) :
    Step (.alloc dir virt) ⟨m, R⟩ ⟨m', Pmm.put R dir (some (Pmm.put a (pageNumber virt) (some (zeroPage true))))⟩
  | fill {m m' : Machine} {R : Nat → Option Space} {a : Space} {dir frame : Nat} {virt : Word} {writable : Bool}
    (live : R dir = some a) (user : IsUser virt) (call : fillPage dir virt writable m = (some frame, m')) :
    Step (.fill dir virt writable) ⟨m, R⟩
      ⟨m', Pmm.put R dir (some (Pmm.put a (pageNumber virt) (some (zeroPage writable))))⟩
  | clone {m m' : Machine} {R : Nat → Option Space} {a : Space} {src dir : Nat}
    (live : R src = some a) (call : cloneDirectory src m = (some dir, m')) :
    Step (.clone src) ⟨m, R⟩ ⟨m', Pmm.put R dir (some a)⟩
  | store {m m' : Machine} {R : Nat → Option Space} {a : Space} {dir : Nat} {virt : Word} {f : Word → Word}
    (live : R dir = some a) (user : IsUser virt) (call : userStore dir virt f m = (some (), m')) :
    Step (.store dir virt f) ⟨m, R⟩
      ⟨m', Pmm.put R dir (some (Pmm.put a (pageNumber virt)
        ((a (pageNumber virt)).map fun c => { c with words := stored c.words (wordOf virt) f })))⟩
  | fault {m m' : Machine} {R : Nat → Option Space} {a : Space} {dir : Nat} {virt : Word}
    (live : R dir = some a) (user : IsUser virt) (call : resolveCow dir virt m = (some (), m')) :
    Step (.fault dir virt) ⟨m, R⟩ ⟨m', R⟩
  | free {m m' : Machine} {R : Nat → Option Space} {a : Space} {dir : Nat}
    (live : R dir = some a) (call : freeDirectory dir m = (some (), m')) :
    Step (.free dir) ⟨m, R⟩ ⟨m', Pmm.put R dir none⟩

def Run : World → World → Prop := Relation.ReflTransGen fun w w' => ∃ op, Step op w w'

/-- The kernel is up: its own space leaves the program's entry alone, and no frame is shared yet. -/
structure Booted (m : Machine) : Prop where
  total : m.pmm.totalFrames ≤ FRAME_LIMIT
  kernel : m.pmm.isUsed m.kernelPml4 = true
  hole : has (m.mem m.kernelPml4 1) PTE_PRESENT = false
  past : ∀ f, m.pmm.past f = 0

/-! ## What every call keeps -/

section Keep

variable {g : Labels} {m m' : Machine} {R : Nat → Option Space} {a : Space} {dir : Nat} {virt : Word}

/-- The live spaces have tables that lead to the contents of the reference. -/
structure Shows (g : Labels) (m : Machine) (R : Nat → Option Space) : Prop where
  inv : Inv g m
  root : ∀ d a, R d = some a → g.own d = .table d []
  reads : ∀ d a, R d = some a → ∀ virt, IsUser virt →
    page m.mem d (1 :: pathOf virt) = (a (pageNumber virt)).map Page.words

theorem Booted.shows (h : Booted m) :
    Shows ⟨fun f => if m.pmm.isUsed f then .other else .free, fun _ => []⟩ m fun _ => none where
  inv :=
    { total := h.total
      unused := fun f hf => by simp [hf]
      inside := fun f => by
        simp only
        split <;> simp
      kernel := by simp [h.kernel]
      hole := h.hole
      count := fun f => by
        simp only
        split <;> simp
      uncounted := fun f _ => h.past f
      root := fun t d => by
        simp only
        split <;> simp
      entries := fun t d p => by
        simp only
        split <;> simp }
  root := by simp
  reads := by simp

theorem bounded_pathOf (virt : Word) : Bounded (pathOf virt) := by
  intro j hj
  simp only [pathOf, List.mem_cons, List.not_mem_nil, or_false] at hj
  rcases hj with rfl | rfl | rfl
  all_goals exact indexOf_lt _ _

variable {g' : Labels}

theorem Shows.set {now : Option Space} (hs : Shows g m R) (hinv : Inv g' m')
    (hothers : ∀ d, d ≠ dir → g.own d = .table d [] → g'.own d = .table d [] ∧
      ∀ virt, IsUser virt → page m'.mem d (1 :: pathOf virt) = page m.mem d (1 :: pathOf virt))
    (hdir : ∀ a, now = some a → g'.own dir = .table dir [] ∧
      ∀ virt, IsUser virt → page m'.mem dir (1 :: pathOf virt) = (a (pageNumber virt)).map Page.words) :
    Shows g' m' (Pmm.put R dir now) := by
  refine ⟨hinv, ?_, ?_⟩
  · intro d a hd
    by_cases hdd : d = dir
    · subst hdd
      rw [put_same] at hd
      exact (hdir a hd).1
    · rw [put_other _ _ hdd] at hd
      exact (hothers d hdd (hs.root d a hd)).1
  · intro d a hd virt huser
    by_cases hdd : d = dir
    · subst hdd
      rw [put_same] at hd
      exact (hdir a hd).2 virt huser
    · rw [put_other _ _ hdd] at hd
      rw [(hothers d hdd (hs.root d a hd)).2 virt huser]
      exact hs.reads d a hd virt huser

theorem Keeps.others (hg : Inv g m) (hk : Keeps (NotOf dir) g m g' m') (d : Nat) (hd : d ≠ dir)
    (hown : g.own d = .table d []) :
    g'.own d = .table d [] ∧
      ∀ virt, IsUser virt → page m'.mem d (1 :: pathOf virt) = page m.mem d (1 :: pathOf virt) :=
  ⟨hk.own_eq hown (by simp), fun _ _ => (hk.walk hg _ hown rfl (by simp) (by simp) fun _ _ _ => hd).1⟩

theorem Shows.new (hs : Shows g m R) (h : newDirectory m = (some dir, m')) :
    R dir = none ∧ ∃ g', Shows g' m' (Pmm.put R dir (some fun _ => none)) := by
  obtain ⟨hfree, -, g', hsh⟩ := newDirectory_spec hs.inv h
  refine ⟨?_, g', hs.set hsh.inv (hsh.keeps.others hs.inv) ?_⟩
  · rw [Option.eq_none_iff_forall_ne_some]
    intro a ha
    rw [hs.root dir a ha] at hfree
    cases hfree
  · rintro a ⟨⟩
    exact ⟨hsh.root, fun _ _ => page_none hsh.empty⟩

theorem Shows.clone {src : Nat} (hs : Shows g m R) (live : R src = some a)
    (h : cloneDirectory src m = (some dir, m')) :
    R dir = none ∧ ∃ g', Shows g' m' (Pmm.put R dir (some a)) := by
  obtain ⟨hfree, -, g', hg', hk', hroot', hcopied⟩ := cloneDirectory_spec hs.inv (hs.root src a live) h
  refine ⟨?_, g', hs.set hg' (hk'.others hs.inv) ?_⟩
  · rw [Option.eq_none_iff_forall_ne_some]
    intro a' ha
    rw [hs.root dir a' ha] at hfree
    cases hfree
  · rintro a' ⟨⟩
    refine ⟨hroot', ?_⟩
    intro virt huser
    rw [(hcopied _ rfl (bounded_pathOf virt)).page]
    exact hs.reads src a live virt huser

theorem Shows.setPage {page' : Option Page} (hs : Shows g m R) (live : R dir = some a)
    (huser : IsUser virt) (hinv : Inv g' m')
    (hown : ∀ d, g.own d = .table d [] → g'.own d = .table d [])
    (hothers : ∀ d r, g.own d = .table d [] → r.length = 3 → ¬(d = dir ∧ r = pathOf virt) →
      page m'.mem d (1 :: r) = page m.mem d (1 :: r))
    (hpage : page m'.mem dir (1 :: pathOf virt) = page'.map Page.words) :
    Shows g' m' (Pmm.put R dir (some (Pmm.put a (pageNumber virt) page'))) := by
  apply hs.set hinv
  · intro d hd hroot
    exact ⟨hown d hroot, fun virt' _ => hothers d _ hroot rfl fun hb => hd hb.1⟩
  · rintro a' ⟨⟩
    have hroot := hs.root dir a live
    refine ⟨hown dir hroot, ?_⟩
    intro virt' huser'
    by_cases hsame : pathOf virt' = pathOf virt
    · rw [hsame, (pathOf_eq_iff huser' huser).mp hsame, put_same]
      exact hpage
    · rw [put_other _ _ (mt (pathOf_eq_iff huser' huser).mpr hsame), hothers dir _ hroot rfl fun hb => hsame hb.2]
      exact hs.reads dir a live virt' huser'

theorem Shows.map {f : Nat} {flags : Word} {writable : Bool} (hs : Shows g m R) (live : R dir = some a)
    (huser : IsUser virt) (hflags : has flags PTE_USER = true) (hhuge : has flags PTE_HUGE = false)
    (hborrowed : has flags PTE_BORROWED = false) (h : mapFresh dir virt flags m = (some f, m')) :
    ∃ g', Shows g' m' (Pmm.put R dir (some (Pmm.put a (pageNumber virt) (some (zeroPage writable))))) := by
  obtain ⟨g', hm⟩ := mapFresh_spec hs.inv (hs.root dir a live) huser.top hflags hhuge hborrowed h
  exact ⟨g', hs.setPage live huser hm.inv (fun d hd => hm.keeps.own_eq hd (by simp))
    (fun d r hd hr hnot => (hm.others d r hd hr hnot).1) hm.page⟩

theorem But.path {d : Nat} {r' : List Nat} (hr : r.length = p.length) (hnot : ¬(d = dir ∧ r = p))
    (hpre : r' <+: 1 :: r) : But dir (1 :: p) d ([] ++ r') := by
  rintro ⟨hd, heq⟩
  rw [List.nil_append] at heq
  rw [heq] at hpre
  have := hpre.eq_of_length (by simp [hr])
  exact hnot ⟨hd, (List.cons.inj this).2.symm⟩

theorem resolve_pages (hg : Inv g m) (hk : Keeps (But dir (1 :: pathOf virt)) g m g' m')
    (hpage : page m'.mem dir (1 :: pathOf virt) = page m.mem dir (1 :: pathOf virt)) (d : Nat) (r : List Nat)
    (hd : g.own d = .table d []) (hr : r.length = 3) : page m'.mem d (1 :: r) = page m.mem d (1 :: r) := by
  by_cases hsame : d = dir ∧ r = pathOf virt
  · rw [hsame.1, hsame.2]
    exact hpage
  · exact (hk.walk hg (1 :: r) hd (by simp; omega) (by simp) (by simp) fun _ _ => But.path hr hsame).1

theorem Shows.fault (hs : Shows g m R) (live : R dir = some a) (huser : IsUser virt)
    (h : resolveCow dir virt m = (some (), m')) : ∃ g', Shows g' m' R := by
  obtain ⟨g', hg', hk', hpage, -⟩ := resolveCow_spec hs.inv (hs.root dir a live) huser h
  refine ⟨g', hg', fun d a' hd => hk'.own_eq (hs.root d a' hd) (by simp), ?_⟩
  intro d a' hd virt' huser'
  rw [resolve_pages hs.inv hk' hpage d _ (hs.root d a' hd) rfl]
  exact hs.reads d a' hd virt' huser'

theorem Shows.storeAt {f : Word → Word} (hs : Shows g m R) (live : R dir = some a) (huser : IsUser virt)
    (h : storeAt dir virt f m = (some (), m')) :
    Shows g m' (Pmm.put R dir (some (Pmm.put a (pageNumber virt)
      ((a (pageNumber virt)).map fun c => { c with words := stored c.words (wordOf virt) f })))) := by
  obtain ⟨hg', -, hpage, hothers, -⟩ := storeAt_spec hs.inv (hs.root dir a live) huser h
  apply hs.setPage live huser hg' (fun _ hd => hd) hothers
  rw [hpage, hs.reads dir a live virt huser, Option.map_map, Option.map_map]
  rfl

theorem Shows.store {f : Word → Word} (hs : Shows g m R) (live : R dir = some a) (huser : IsUser virt)
    (h : userStore dir virt f m = (some (), m')) :
    ∃ g', Shows g' m' (Pmm.put R dir (some (Pmm.put a (pageNumber virt)
      ((a (pageNumber virt)).map fun c => { c with words := stored c.words (wordOf virt) f })))) := by
  unfold userStore at h
  rw [bind_get] at h
  split at h
  · exact ⟨g, hs.storeAt live huser h⟩
  · obtain ⟨_, m1, hfault, hstore⟩ := bind_eq_some.mp h
    obtain ⟨g1, hs1⟩ := hs.fault live huser hfault
    exact ⟨g1, hs1.storeAt live huser hstore⟩

theorem Shows.free (hs : Shows g m R) (live : R dir = some a) (h : freeDirectory dir m = (some (), m')) :
    ∃ g', Shows g' m' (Pmm.put R dir none) := by
  obtain ⟨g', hg', hmem, -, htables⟩ := freeDirectory_spec hs.inv (hs.root dir a live) h
  refine ⟨g', hs.set hg' ?_ (by simp)⟩
  intro d hd hroot
  exact ⟨htables d d [] hd hroot, fun _ _ => by rw [hmem]⟩

theorem Step.shows {op : Op} (h : Step op w w') (hs : ∃ g, Shows g w.machine w.spaces) :
    ∃ g, Shows g w'.machine w'.spaces := by
  obtain ⟨g, hs⟩ := hs
  cases h with
  | new call => exact (hs.new call).2
  | alloc live user call => exact hs.map live user (by decide) (by decide) (by decide) call
  | @fill m m' R a dir frame virt writable live user call =>
    rcases writable with _ | _
    · exact hs.map live user (by decide) (by decide) (by decide) call
    · exact hs.map live user (by decide) (by decide) (by decide) call
  | clone live call => exact (hs.clone live call).2
  | store live user call => exact hs.store live user call
  | fault live user call => exact hs.fault live user call
  | free live call => exact hs.free live call

theorem Run.shows (h : Run w w') (hs : ∃ g, Shows g w.machine w.spaces) :
    ∃ g, Shows g w'.machine w'.spaces := by
  induction h with
  | refl => exact hs
  | tail _ hstep ih =>
    obtain ⟨op, hstep⟩ := hstep
    exact hstep.shows ih

theorem Shows.load (hs : Shows g m R) (live : R dir = some a) (huser : IsUser virt) :
    userLoad m dir virt = (a (pageNumber virt)).map fun c => c.words (wordOf virt) := by
  rw [userLoad_eq hs.inv (hs.root dir a live) huser, hs.reads dir a live virt huser, Option.map_map]
  rfl

end Keep

/-- After any calls that succeed every live space reads, at every user address, what it reads in the
reference; a store in one space is not seen in another; and a new space is nobody else's. -/
theorem fork_isolates {m : Machine} {w : World} (hboot : Booted m) (hrun : Run ⟨m, fun _ => none⟩ w) :
    (∀ dir a, w.spaces dir = some a → ∀ virt, IsUser virt →
      userLoad w.machine dir virt = (a (pageNumber virt)).map fun c => c.words (wordOf virt)) ∧
    (∀ dir virt f w', Step (.store dir virt f) w w' → ∀ other, other ≠ dir → (w.spaces other).isSome →
      ∀ virt', IsUser virt' → userLoad w'.machine other virt' = userLoad w.machine other virt') ∧
    (∀ src dir m', cloneDirectory src w.machine = (some dir, m') → (w.spaces src).isSome → w.spaces dir = none) := by
  obtain ⟨g, hs⟩ := hrun.shows ⟨_, hboot.shows⟩
  refine ⟨fun dir a live virt huser => hs.load live huser, ?_, ?_⟩
  · intro dir virt f w' hstep other hne hlive virt' huser'
    obtain ⟨g', hs'⟩ := hstep.shows ⟨g, hs⟩
    obtain ⟨a, live⟩ := Option.isSome_iff_exists.mp hlive
    have live' : w'.spaces other = some a := by
      cases hstep with
      | store _ _ _ => exact (put_other _ _ hne).trans live
    rw [hs'.load live' huser', hs.load live huser']
  · intro src dir m' hcall hlive
    obtain ⟨a, live⟩ := Option.isSome_iff_exists.mp hlive
    exact (hs.clone live hcall).1

/-! ## A small machine -/

/-- Sixteen frames; the second holds the kernel's empty table. -/
def sampleBoot : Machine where
  pmm :=
    { bitmap := fun f => f == 0 || f == 1, totalFrames := 16, usedFrames := 2, nextHint := 0
      testAllocsLeft := Pmm.NO_LIMIT, extra := some fun _ => 0, sharedNow := 0 }
  mem := fun _ _ => 0
  kernelPml4 := 1
  cowShared := 0
  cowCopies := 0

theorem sampleBoot_booted : Booted sampleBoot where
  total := by decide
  kernel := by decide
  hole := by decide
  past := fun _ => rfl

def sampleVirt : Word := 0x8000000000

theorem sampleVirt_user : IsUser sampleVirt := ⟨by decide, by decide⟩

def sampleSpace : Machine := (newFew sampleBoot).2
def sampleMapped (writable : Bool) : Machine := (fillPage 2 sampleVirt writable sampleSpace).2
def sampleCloned (writable : Bool) : Machine := (cloneFew 2 (sampleMapped writable)).2

theorem sample_answers : (newFew sampleBoot).1 = some 2 ∧
    (∀ writable, (fillPage 2 sampleVirt writable sampleSpace).1 = some 3 ∧ (cloneFew 2 (sampleMapped writable)).1 = some 7) ∧
    (userStore 7 sampleVirt (fun _ => 5) (sampleCloned true)).1 = some () := by
  decide +kernel

theorem sampleSpace_run : newDirectory sampleBoot = (some 2, sampleSpace) := by
  have hsparse : Sparse sampleBoot := fun _ _ _ => rfl
  rw [(newDirectory_few sampleBoot hsparse).1]
  exact Prod.ext sample_answers.1 rfl

theorem sampleMapped_run (writable : Bool) :
    fillPage 2 sampleVirt writable sampleSpace = (some 3, sampleMapped writable) :=
  Prod.ext (sample_answers.2.1 writable).1 rfl

theorem sampleMapped_plain (writable : Bool) : Plain (sampleMapped writable) := by
  have hplain : Plain sampleSpace := plain_newFew sampleBoot ⟨fun _ _ _ => rfl, fun _ _ => has_zero _⟩
  refine mapFresh_plain hplain ?_ (by decide) (by decide) (by decide) (by decide) (sampleMapped_run writable)
  cases writable <;> decide

theorem sampleCloned_run (writable : Bool) :
    cloneDirectory 2 (sampleMapped writable) = (some 7, sampleCloned writable) :=
  cloneDirectory_few (sampleMapped_plain writable).1 (Prod.ext (sample_answers.2.1 writable).2 rfl)

def sampleWorld (writable : Bool) : World where
  machine := sampleCloned writable
  spaces := Pmm.put (Pmm.put (Pmm.put (fun _ => none) 2 (some fun _ => none)) 2
    (some (Pmm.put (fun _ => none) (pageNumber sampleVirt) (some (zeroPage writable))))) 7
    (some (Pmm.put (fun _ => none) (pageNumber sampleVirt) (some (zeroPage writable))))

theorem sampleWorld_steps (writable : Bool) : Run ⟨sampleBoot, fun _ => none⟩ (sampleWorld writable) := by
  have hnew : Run ⟨sampleBoot, fun _ => none⟩ _ := Relation.ReflTransGen.single ⟨_, Step.new sampleSpace_run⟩
  have hfill := hnew.tail ⟨_, Step.fill (put_same _ _ _) sampleVirt_user (sampleMapped_run writable)⟩
  exact hfill.tail ⟨_, Step.clone (put_same _ _ _) (sampleCloned_run writable)⟩

/-- A store in the clone is read there and not by its parent. -/
theorem fork_isolates_sample : ∃ w, Run ⟨sampleBoot, fun _ => none⟩ w ∧
    userLoad w.machine 7 sampleVirt = some 5 ∧ userLoad w.machine 2 sampleVirt = some 0 := by
  have hstore : userStore 7 sampleVirt (fun _ => 5) (sampleCloned true) =
      (some (), (userStore 7 sampleVirt (fun _ => 5) (sampleCloned true)).2) := Prod.ext sample_answers.2.2 rfl
  have hrun := (sampleWorld_steps true).tail ⟨_, Step.store (put_same _ _ _) sampleVirt_user hstore⟩
  obtain ⟨hreads, -, -⟩ := fork_isolates sampleBoot_booted hrun
  refine ⟨_, hrun, ?_, ?_⟩
  · rw [hreads 7 _ rfl sampleVirt sampleVirt_user]
    decide
  · rw [hreads 2 _ rfl sampleVirt sampleVirt_user]
    decide

end Zelr.Paging
