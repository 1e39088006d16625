import Zelr.User.Ranges

/-!
# A program among others

The program asks for ranges, gives them back and touches its memory. In between the kernel does
anything else to any space, this one too, as long as this one stays.
-/

namespace Zelr.User

open Act Paging
open Pmm (put_same put_other)

variable {g' : Labels} {v : Vma}

/-! ## One page in the reference -/

def touched (a : Space) (n : Nat) (writable : Bool) : Space :=
  if (a n).isSome then a else Pmm.put a n (some (zeroPage writable))

def released (a : Space) (base len : Word) : Space := fun n =>
  if base.toNat ≤ n * 4096 ∧ n * 4096 < base.toNat + len.toNat then none else a n

section Pages

variable {g : Labels} {m m' : Machine} {R : Nat → Option Space} {a : Space} {dir : Nat} {virt flags base : Word}

theorem isUser_pageOf (h : IsUser virt) : IsUser (pageOf virt) := by
  obtain ⟨hlo, hhi⟩ := h
  unfold IsUser USER_SPACE_BASE USER_SPACE_END at *
  rw [pageOf_toNat]
  omega

theorem pageNumber_pageOf (virt : Word) : pageNumber (pageOf virt) = pageNumber virt := by
  unfold pageNumber PAGE_SIZE
  rw [pageOf_toNat]
  omega

theorem put_self (h : R dir = some a) : Pmm.put R dir (some a) = R := by
  funext d
  by_cases hd : d = dir
  · rw [hd, put_same, h]
  · exact put_other _ _ hd

theorem shows_there (hs : Shows g m R) (live : R dir = some a) (huser : IsUser virt) :
    (follow m.mem dir (1 :: pathOf virt)).isSome = (a (pageNumber virt)).isSome := by
  have hreads := hs.reads dir a live virt huser
  unfold page at hreads
  have := congrArg Option.isSome hreads
  simpa using this

theorem fillMissing_some (writable : Bool) (hs : Shows g m R) (live : R dir = some a) (huser : IsUser virt)
    (hflags : has flags PTE_USER = true) (hhuge : has flags PTE_HUGE = false)
    (hborrowed : has flags PTE_BORROWED = false) (h : fillMissing dir (pageOf virt) flags m = (some (), m')) :
    ∃ g', Shows g' m' (Pmm.put R dir (some (touched a (pageNumber virt) writable))) := by
  have hpage := isUser_pageOf huser
  obtain ⟨w, hlook, hnone, hsome⟩ := virtToPhysIn_spec hs.inv (hs.root dir a live) hpage.top
  have hthere := shows_there hs live hpage
  rw [pageNumber_pageOf] at hthere
  unfold fillMissing at h
  rw [bind_of_some hlook] at h
  unfold touched
  rcases hf : Paging.follow m.mem dir (1 :: pathOf (pageOf virt)) with _ | f
  · rw [hf] at hthere
    rw [if_neg (by simp [hnone hf])] at h
    obtain ⟨f, m1, hmap, h⟩ := bind_eq_some.mp h
    cases h
    rw [if_neg (by rw [← hthere]; simp), ← pageNumber_pageOf]
    exact hs.map live hpage hflags hhuge hborrowed hmap
  · rw [hf] at hthere
    rw [if_pos (hsome f hf).1] at h
    cases h
    rw [if_pos (by rw [← hthere]; rfl), put_self live]
    exact ⟨g, hs⟩

theorem fillMissing_none (hs : Shows g m R) (live : R dir = some a) (huser : IsUser virt)
    (hflags : has flags PTE_USER = true) (h : fillMissing dir (pageOf virt) flags m = (none, m')) :
    ∃ g', Shows g' m' R := by
  have hpage := isUser_pageOf huser
  obtain ⟨w, hlook, -, -⟩ := virtToPhysIn_spec hs.inv (hs.root dir a live) hpage.top
  unfold fillMissing at h
  rw [bind_of_some hlook] at h
  split at h
  · cases h
  · rcases hmap : mapFresh dir (pageOf virt) flags m with ⟨_ | f, m1⟩
    · rw [bind_of_none hmap] at h
      cases h
      exact hs.refused live hpage hflags hmap
    · rw [bind_of_some hmap] at h
      cases h

/-! ## The pages of a range taken away -/

structure Dropped (g : Labels) (m : Machine) (dir : Nat) (base : Word) (k : Nat) (g' : Labels) (s : Machine) : Prop where
  inv : Inv g' s
  tables : ∀ x d r, g.own x = .table d r → g'.own x = .table d r
  gone : ∀ i, i < k → page s.mem dir (1 :: pathOf (pagesOn base i)) = none
  pages : ∀ d r, g.own d = .table d [] → r.length = 3 → ¬(d = dir ∧ ∃ i, i < k ∧ r = pathOf (pagesOn base i)) →
    page s.mem d (1 :: r) = page m.mem d (1 :: r)
  entries : ∀ d virt, g.own d = .table d [] → indexOf virt 4 = 1 →
    ¬(d = dir ∧ ∃ i, i < k ∧ pathOf virt = pathOf (pagesOn base i)) → lastEntry s.mem d virt = lastEntry m.mem d virt

theorem Dropped.next {k : Nat} {s : Machine} (h : Dropped g m dir base k g' s)
    (hroot : g.own dir = .table dir []) (huser : IsUser (pagesOn base k)) :
    ∃ s' g'', dropPage dir (pagesOn base k) s = (some (), s') ∧ Dropped g m dir base (k + 1) g'' s' := by
  obtain ⟨s', g'', hrun, hinv, htables, hgone, hpages, hentries⟩ :=
    dropPage_spec h.inv (h.tables dir dir [] hroot) huser.top
  refine ⟨s', g'', hrun, hinv, fun x d r hx => htables x d r (h.tables x d r hx), ?_, ?_, ?_⟩
  · intro i hi
    by_cases hsame : pathOf (pagesOn base i) = pathOf (pagesOn base k)
    · rw [hsame]
      exact hgone
    · rw [hpages dir _ (h.tables dir dir [] hroot) rfl fun hb => hsame hb.2]
      apply h.gone
      rcases Nat.lt_succ_iff_lt_or_eq.mp hi with hi | rfl
      · exact hi
      · exact absurd rfl hsame
  · intro d r hd hr hnot
    rw [hpages d r (h.tables d d [] hd) hr fun hb => hnot ⟨hb.1, k, by omega, hb.2⟩]
    apply h.pages d r hd hr
    rintro ⟨hdir, i, hi, hpath⟩
    exact hnot ⟨hdir, i, by omega, hpath⟩
  · intro d virt hd hvirt hnot
    rw [hentries d virt (h.tables d d [] hd) hvirt fun hb => hnot ⟨hb.1, k, by omega, hb.2⟩]
    apply h.entries d virt hd hvirt
    rintro ⟨hdir, i, hi, hpath⟩
    exact hnot ⟨hdir, i, by omega, hpath⟩

theorem Inside.page {i : Nat} (h : Inside v) (hi : i < v.len.toNat / 4096) :
    IsUser (pagesOn v.base i) ∧ (pagesOn v.base i).toNat = v.base.toNat + i * 4096 := by
  have hlow := h.low
  have hhigh := h.high
  rw [mmap_base_toNat] at hlow
  rw [mmap_max_toNat] at hhigh
  have hplace : (pagesOn v.base i).toNat = v.base.toNat + i * 4096 := pagesOn_toNat (by omega)
  refine ⟨?_, hplace⟩
  unfold IsUser USER_SPACE_BASE USER_SPACE_END
  rw [hplace]
  omega

theorem Inside.pages (h : Inside v) : pagesBetween v.base (v.base + v.len) = v.len.toNat / 4096 := by
  have hwhole := h.whole
  unfold pagesBetween
  rw [h.limit]
  omega

theorem Inside.mem_page (h : Inside v) (huser : IsUser virt) :
    (∃ i, i < v.len.toNat / 4096 ∧ pathOf virt = pathOf (pagesOn v.base i)) ↔
      v.base.toNat ≤ virt.toNat ∧ virt.toNat < v.base.toNat + v.len.toNat := by
  have haligned := h.aligned
  have hwhole := h.whole
  constructor
  · rintro ⟨i, hi, hpath⟩
    obtain ⟨huser', hplace⟩ := h.page hi
    rw [pathOf_eq_iff huser huser'] at hpath
    unfold pageNumber PAGE_SIZE at hpath
    rw [hplace] at hpath
    omega
  · rintro ⟨hlo, hhi⟩
    have hi : (virt.toNat - v.base.toNat) / 4096 < v.len.toNat / 4096 := by omega
    refine ⟨_, hi, ?_⟩
    obtain ⟨huser', hplace⟩ := h.page hi
    rw [pathOf_eq_iff huser huser']
    unfold pageNumber PAGE_SIZE
    rw [hplace]
    omega

theorem dropPages_spec (hg : Inv g m) (hroot : g.own dir = .table dir []) (hin : Inside v) :
    ∃ m' g', forPages (dropPage dir) v.base (v.base + v.len) m = (some (), m') ∧
      Dropped g m dir v.base (v.len.toNat / 4096) g' m' := by
  have hhigh := hin.high
  rw [mmap_max_toNat] at hhigh
  have hloop : Triple (fun s => ∃ g', Dropped g m dir v.base 0 g' s) (forPages (dropPage dir) v.base (v.base + v.len))
      (fun _ s => ∃ g', Dropped g m dir v.base (pagesBetween v.base (v.base + v.len)) g' s) (fun _ => False) := by
    apply forPages_triple _ _ _ (I := fun k s => ∃ g', Dropped g m dir v.base k g' s) (by rw [hin.pages]; omega)
    intro k hk s hs
    obtain ⟨g', hs⟩ := hs
    rw [hin.pages] at hk
    obtain ⟨s', g'', hrun, hs'⟩ := hs.next hroot (hin.page hk).1
    rw [hrun]
    exact ⟨g'', hs'⟩
  have hstart : ∃ g', Dropped g m dir v.base 0 g' m :=
    ⟨g, hg, fun _ _ _ h => h, by simp, fun _ _ _ _ _ => rfl, fun _ _ _ _ _ => rfl⟩
  have hend := hloop m hstart
  rcases hrun : forPages (dropPage dir) v.base (v.base + v.len) m with ⟨_ | ⟨⟩, m'⟩
  · rw [hrun] at hend
    exact hend.elim
  · rw [hrun] at hend
    obtain ⟨g', hend⟩ := hend
    rw [hin.pages] at hend
    exact ⟨m', g', rfl, hend⟩

theorem shows_dropped (hs : Shows g m R) (live : R dir = some a) (hin : Inside v)
    (h : Dropped g m dir v.base (v.len.toNat / 4096) g' m') :
    Shows g' m' (Pmm.put R dir (some (released a v.base v.len))) := by
  apply hs.set h.inv
  · intro d hd hroot
    exact ⟨h.tables d d [] hroot, fun virt _ => h.pages d _ hroot rfl fun hb => hd hb.1⟩
  · rintro a' ⟨⟩
    have hroot := hs.root dir a live
    refine ⟨h.tables dir dir [] hroot, ?_⟩
    intro virt huser
    have haligned := hin.aligned
    have hwhole := hin.whole
    have hmem := hin.mem_page huser
    unfold released pageNumber PAGE_SIZE
    split
    · next hrange =>
      obtain ⟨i, hi, hpath⟩ := hmem.mpr (by omega)
      rw [hpath, h.gone i hi]
      rfl
    · next hrange =>
      rw [h.pages dir _ hroot rfl]
      · exact hs.reads dir a live virt huser
      · rintro ⟨-, hex⟩
        have := hmem.mp hex
        omega

end Pages

end Zelr.User
