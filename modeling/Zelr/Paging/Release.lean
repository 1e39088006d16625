import Zelr.Paging.Space

/-!
# Releasing an address space

Memory is not written while a space is released: the walk reads the tables as they were, and each
frame on the way is given up.
-/

namespace Zelr.Paging

open Act
open Pmm (put_same put_other)

section Release

variable {g : Labels} {m m' : Machine} {dir t f i : Nat} {p : List Nat}

/-- A space on its way out; the entries at the paths in `U` have not been visited. -/
structure Shedding (g : Labels) (m : Machine) (dir : Nat) (U : List Nat → Prop) (h : Labels) (s : Machine) :
    Prop where
  inv : Inv h s
  mem : s.mem = m.mem
  kernel : s.kernelPml4 = m.kernelPml4
  tables : ∀ t d r, d ≠ dir → g.own t = .table d r → h.own t = .table d r
  mine : ∀ t r, g.own t = .table dir r → h.own t = .other ∨ h.own t = .free
  held : ∀ t r i, g.own t = .table dir r → r.length = 3 → has (m.mem t i) PTE_PRESENT = true → U (r ++ [i]) →
    (t, i) ∈ h.holds (frameOf (m.mem t i)) ∧ h.own (frameOf (m.mem t i)) = .data

variable {U : List Nat → Prop} {h : Labels} {s s' : Machine}

theorem Shedding.mono {U' : List Nat → Prop} (hs : Shedding g m dir U h s) (hU : ∀ r, U' r → U r) :
    Shedding g m dir U' h s :=
  { hs with held := fun t r i ht hlen hp hu => hs.held t r i ht hlen hp (hU _ hu) }

theorem Shedding.not_table {d : Nat} {r r' : List Nat} (hs : Shedding g m dir U h s) (ht : g.own t = .table dir r) :
    h.own t ≠ .table d r' := by
  rcases hs.mine t r ht with ho | ho
  · rw [ho]
    simp
  · rw [ho]
    simp

theorem freeFrame_some (h : freeFrame f s = (some (), s')) :
    ∃ pm, Pmm.freeFrame f s.pmm = (some (), pm) ∧ s' = { s with pmm := pm } := onPmm_some h

/-- A frame with no further hold goes back, when no entry still to be visited names it. -/
theorem Shedding.back {pm : Pmm} {U' : List Nat → Prop} (hs : Shedding g m dir U h s) (hU : ∀ r, U' r → U r)
    (hnot : ∀ d r, h.own f ≠ .table d r) (hkernel : f ≠ s.kernelPml4) (hpast : s.pmm.past f = 0)
    (hfree : Pmm.freeFrame f s.pmm = (some (), pm))
    (hnames : ∀ t' d r j, h.own t' = .table d r → r.length = 3 → has (s.mem t' j) PTE_PRESENT = true →
      frameOf (s.mem t' j) ≠ f)
    (hleft : ∀ t' r j, g.own t' = .table dir r → r.length = 3 → has (m.mem t' j) PTE_PRESENT = true → U' (r ++ [j]) →
      frameOf (m.mem t' j) ≠ f) :
    Shedding g m dir U' (h.give f .free []) { s with pmm := pm } := by
  obtain ⟨pm', hfree', htotal, hsame, hused⟩ := Pmm.freeFrame_last hpast
  rw [hfree] at hfree'
  cases hfree'
  have hown : ∀ t', t' ≠ f → (h.give f .free []).own t' = h.own t' := fun t' ht' => put_other _ _ ht'
  refine ⟨hs.inv.takeBack hkernel hnot hpast htotal hsame hused hnames, hs.mem, hs.kernel, ?_, ?_, ?_⟩
  · intro t' d r hd ht'
    have hkeep := hs.tables t' d r hd ht'
    rw [hown t' (by rintro rfl; exact hnot d r hkeep)]
    exact hkeep
  · intro t' r ht'
    by_cases htf : t' = f
    · exact Or.inr (htf ▸ Labels.give_own _ _ _ _)
    · rw [hown t' htf]
      exact hs.mine t' r ht'
  · intro t' r j ht' hr hp' hu
    obtain ⟨hheld, hdata'⟩ := hs.held t' r j ht' hr hp' (hU _ hu)
    have hne := hleft t' r j ht' hr hp' hu
    refine ⟨?_, ?_⟩
    · show _ ∈ Pmm.put h.holds f [] _
      rw [put_other _ _ hne]
      exact hheld
    · rw [hown _ hne]
      exact hdata'

theorem shed_page (hs : Shedding g m dir U h s) (ht : g.own t = .table dir p) (hlen : p.length = 3)
    (hp : has (m.mem t i) PTE_PRESENT = true) (hU : U (p ++ [i]))
    (hcall : freeFrame (frameOf (m.mem t i)) s = (some (), s')) :
    ∃ h', Shedding g m dir (fun r => U r ∧ ¬p ++ [i] <+: r) h' s' := by
  obtain ⟨hin, hdata⟩ := hs.held t p i ht hlen hp hU
  obtain ⟨f, hf⟩ : ∃ f, f = frameOf (m.mem t i) := ⟨_, rfl⟩
  rw [← hf] at hin hdata hcall
  obtain ⟨pm, hfree, rfl⟩ := freeFrame_some hcall
  obtain ⟨hpos, hlt⟩ := hs.inv.inside f (by rw [hdata]; simp) (by rw [hdata]; simp)
  have hcount := hs.inv.count f hdata
  have hnot : ∀ d r, h.own t ≠ .table d r := fun d r => hs.not_table ht
  -- an entry not yet visited is another entry
  have hothers : ∀ t' r j, g.own t' = .table dir r → ¬p ++ [i] <+: r ++ [j] → (t', j) ≠ (t, i) := by
    rintro t' r j ht' hpre heq
    obtain ⟨rfl, rfl⟩ := Prod.mk.inj heq
    rw [ht] at ht'
    cases ht'
    exact hpre (List.prefix_refl _)
  by_cases hpast : s.pmm.past f = 0
  · have hsole : h.holds f = [(t, i)] := by
      obtain ⟨x, hx⟩ := List.length_eq_one_iff.mp (hcount.trans (by omega))
      rw [hx, List.mem_singleton] at hin
      rw [hx, hin]
    refine ⟨_, hs.back (fun r hr => hr.1) (by rw [hdata]; simp) (ne_of_own hdata hs.inv.kernel (by simp)) hpast hfree ?_ ?_⟩
    · intro t' d r j ht' hr hp' hframe
      have hheld := ((hs.inv.entries t' d r ht' j).leaf hp' hr).held
      rw [hframe, hsole, List.mem_singleton] at hheld
      obtain ⟨rfl, -⟩ := Prod.mk.inj hheld
      exact hnot d r ht'
    · rintro t' r j ht' hr hp' ⟨hu, hpre⟩ hframe
      have hheld := (hs.held t' r j ht' hr hp' hu).1
      rw [hframe, hsole, List.mem_singleton] at hheld
      exact hothers t' r j ht' hpre hheld
  · obtain ⟨pm', hfree', htotal, hused, hsame⟩ := Pmm.freeFrame_shared (by omega) hlt hpast
    rw [hfree] at hfree'
    cases hfree'
    have hlen' : ((h.holds f).erase (t, i)).length = 1 + (s.pmm.past f - 1) := by
      rw [List.length_erase_of_mem hin, hcount]
      omega
    have hnames : ∀ t' d r j, h.own t' = .table d r → r.length = 3 → has (s.mem t' j) PTE_PRESENT = true →
        frameOf (s.mem t' j) = f → (t', j) ∈ (h.holds f).erase (t, i) ∧
          (has (s.mem t' j) PTE_RW = true → ((h.holds f).erase (t, i)).length = 1) := by
      intro t' d r j ht' hr hp' hframe
      have hleaf := (hs.inv.entries t' d r ht' j).leaf hp' hr
      rw [← hframe]
      refine ⟨(List.mem_erase_of_ne ?_).mpr hleaf.held, ?_⟩
      · rintro heq
        obtain ⟨rfl, -⟩ := Prod.mk.inj heq
        exact hnot d r ht'
      · intro hrw
        have := hleaf.sole hrw
        rw [hframe, hcount] at this
        omega
    refine ⟨_, hs.inv.setHolds hdata htotal hused hsame hlen' hnames, hs.mem, hs.kernel, hs.tables, hs.mine, ?_⟩
    intro t' r j ht' hr hp' ⟨hu, hpre⟩
    obtain ⟨hheld, hdata'⟩ := hs.held t' r j ht' hr hp' hu
    refine ⟨?_, hdata'⟩
    show _ ∈ Pmm.put h.holds f _ _
    by_cases hframe : frameOf (m.mem t' j) = f
    · rw [hframe, put_same]
      rw [hframe] at hheld
      exact (List.mem_erase_of_ne (hothers t' r j ht' hpre)).mpr hheld
    · rw [put_other _ _ hframe]
      exact hheld

theorem shed_table (hg : Inv g m) (hs : Shedding g m dir U h s) (ht : g.own t = .table dir p)
    (hcall : freeFrame t s = (some (), s')) : ∃ h', Shedding g m dir U h' s' := by
  obtain ⟨pm, hfree, rfl⟩ := freeFrame_some hcall
  have hnot : ∀ d r, h.own t ≠ .table d r := fun d r => hs.not_table ht
  have hdata : h.own t ≠ .data := by
    rcases hs.mine t p ht with ho | ho
    · rw [ho]
      simp
    · rw [ho]
      simp
  have hpast := hs.inv.uncounted t hdata
  have hkernel : t ≠ s.kernelPml4 := by
    rw [hs.kernel]
    exact ne_of_own ht hg.kernel (by simp)
  refine ⟨_, hs.back (fun _ hu => hu) hnot hkernel hpast hfree ?_ ?_⟩
  · intro t' d r j ht' hr hp' hframe
    exact hdata (hframe ▸ ((hs.inv.entries t' d r ht' j).leaf hp' hr).data)
  · intro t' r j ht' hr hp' hu hframe
    exact hdata (hframe ▸ (hs.held t' r j ht' hr hp' hu).2)

/-- Paths not under any of the first `i` entries. -/
def Left (U : List Nat → Prop) (p : List Nat) (i : Nat) : List Nat → Prop := fun r =>
  U r ∧ ∀ j, j < i → ¬p ++ [j] <+: r

theorem Left.under {q : List Nat} (hU : U (p ++ i :: q)) : Left U p i (p ++ i :: q) := by
  refine ⟨hU, ?_⟩
  intro j hj hpre
  rw [List.prefix_append_right_inj, List.cons_prefix_cons] at hpre
  omega

theorem Left.next {r : List Nat} (hr : Left U p (i + 1) r) : Left U p i r ∧ ¬p ++ [i] <+: r :=
  ⟨⟨hr.1, fun j hj => hr.2 j (by omega)⟩, hr.2 i (by omega)⟩

theorem freeLeaf_spec (hg : Inv g m) (hs : Shedding g m dir (Left U p i) h s) (ht : g.own t = .table dir p)
    (hlen : p.length = 3) (hU : ∀ q, q.length = 1 → U (p ++ q)) (hcall : freeLeaf t i s = (some (), s')) :
    ∃ h', Shedding g m dir (Left U p (i + 1)) h' s' := by
  unfold freeLeaf at hcall
  rw [bind_word, hs.mem] at hcall
  rcases Bool.eq_false_or_eq_true (has (m.mem t i) PTE_PRESENT) with hp | hp
  · have hleaf := (hg.entries t dir p ht i).leaf hp hlen
    rw [if_neg (by simp [hp, hleaf.huge]), if_pos (by simp [hleaf.user, hleaf.borrowed])] at hcall
    obtain ⟨h', hs'⟩ := shed_page hs ht hlen hp (Left.under (hU [i] rfl)) hcall
    exact ⟨h', hs'.mono fun r => Left.next⟩
  · rw [if_pos (by simp [hp])] at hcall
    cases hcall
    exact ⟨h, hs.mono fun r hr => (Left.next hr).1⟩

theorem freeTable_spec (hg : Inv g m) : ∀ (n : Nat) {t : Nat} {p : List Nat} {U : List Nat → Prop} {h : Labels}
    {s s' : Machine}, Shedding g m dir U h s → g.own t = .table dir p → p.length + n = 4 → n ≠ 0 → p ≠ [] →
      (∀ q, q.length = n → U (p ++ q)) → freeTable n t s = (some (), s') →
        ∃ h', Shedding g m dir (fun r => U r ∧ ¬p <+: r) h' s'
  | 0, _, _, _, _, _, _, _, _, _, hn, _, _, _ => absurd rfl hn
  | 1, t, p, U, h, s, s', hs, ht, hlen, _, _, hU, hcall => by
    have hstart : ∃ h', Shedding g m dir (Left U p 0) h' s := ⟨h, hs.mono fun r hr => hr.1⟩
    obtain ⟨h', hs'⟩ := loop_spec (I := fun i s => ∃ h', Shedding g m dir (Left U p i) h' s)
      (fun i s s' _ hI hrun => by
        obtain ⟨h1, hs1⟩ := hI
        exact freeLeaf_spec hg hs1 ht (by omega) hU hrun) hstart hcall
    refine ⟨h', hs'.mono ?_⟩
    rintro r ⟨hr, hpre⟩
    exact ⟨hr, fun j _ hj => hpre ((List.prefix_append p [j]).trans hj)⟩
  | n + 2, t, p, U, h, s, s', hs, ht, hlen, _, hpne, hU, hcall => by
    have hstart : ∃ h', Shedding g m dir (Left U p 0) h' s := ⟨h, hs.mono fun r hr => hr.1⟩
    obtain ⟨h', hs'⟩ := loop_spec (I := fun i s => ∃ h', Shedding g m dir (Left U p i) h' s)
      (fun i s s' _ hI hrun => by
        obtain ⟨h1, hs1⟩ := hI
        rw [bind_word, hs1.mem] at hrun
        rcases Bool.eq_false_or_eq_true (has (m.mem t i) PTE_PRESENT) with hp | hp
        · have hlink := (hg.entries t dir p ht i).link hp (by omega) (fun hnil => absurd hnil hpne)
          rw [if_neg (by simp [hp, hlink.huge])] at hrun
          obtain ⟨_, s1, hbelow, hrun⟩ := bind_eq_some.mp hrun
          obtain ⟨h2, hs2⟩ := freeTable_spec hg (n + 1) hs1 hlink.below (by simp; omega) (by omega) (by simp)
            (fun q hq => by
              rw [List.append_assoc]
              exact Left.under (hU (i :: q) (by simp; omega))) hbelow
          obtain ⟨h3, hs3⟩ := shed_table hg hs2 hlink.below hrun
          exact ⟨h3, hs3.mono fun r => Left.next⟩
        · rw [if_pos (by simp [hp])] at hrun
          cases hrun
          exact ⟨h1, hs1.mono fun r hr => (Left.next hr).1⟩) hstart hcall
    refine ⟨h', hs'.mono ?_⟩
    rintro r ⟨hr, hpre⟩
    exact ⟨hr, fun j _ hj => hpre ((List.prefix_append p [j]).trans hj)⟩

theorem freeEntry_spec (hg : Inv g m) (hdir : g.own dir = .table dir [])
    (hs : Shedding g m dir (fun r => ∀ j, j < i → ¬[j] <+: r) h s) (hcall : freeEntry dir i s = (some (), s')) :
    ∃ h', Shedding g m dir (fun r => ∀ j, j < i + 1 → ¬[j] <+: r) h' s' := by
  unfold freeEntry at hcall
  rw [bind_get, bind_word, bind_word, hs.mem, hs.kernel] at hcall
  by_cases hskip : (!has (m.mem dir i) PTE_PRESENT || isKernels (m.mem dir i) (m.mem m.kernelPml4 i)) = true
  · rw [if_pos hskip] at hcall
    cases hcall
    exact ⟨h, hs.mono fun r hr j hj => hr j (by omega)⟩
  · rw [if_neg hskip] at hcall
    rw [Bool.or_eq_true, not_or] at hskip
    have hp : has (m.mem dir i) PTE_PRESENT = true := by simpa using hskip.1
    have hlink : i = 1 ∧ Link g dir [] i (m.mem dir i) := by
      rcases hg.entries dir dir [] hdir i hp with ⟨-, -, hk⟩ | ⟨-, htop, hlink⟩ | ⟨hthree, -⟩
      · exact absurd hk hskip.2
      · exact ⟨htop rfl, hlink⟩
      · cases hthree
    obtain ⟨_, s1, hbelow, hcall⟩ := bind_eq_some.mp hcall
    obtain ⟨h1, hs1⟩ := freeTable_spec hg 3 hs hlink.2.below rfl (by decide) (by simp)
      (fun q _ j hj hpre => by
        simp at hpre
        omega) hbelow
    obtain ⟨h2, hs2⟩ := shed_table hg hs1 hlink.2.below hcall
    exact ⟨h2, hs2.mono fun r hr => ⟨fun j hj => hr j (by omega), hr i (by omega)⟩⟩

theorem freeDirectory_spec (hg : Inv g m) (hdir : g.own dir = .table dir [])
    (hcall : freeDirectory dir m = (some (), m')) :
    ∃ g', Inv g' m' ∧ m'.mem = m.mem ∧ m'.kernelPml4 = m.kernelPml4 ∧
      ∀ t d r, d ≠ dir → g.own t = .table d r → g'.own t = .table d r := by
  unfold freeDirectory at hcall
  obtain ⟨hpos, -⟩ := hg.inside dir (by rw [hdir]; simp) (by rw [hdir]; simp)
  have hkernel : dir ≠ m.kernelPml4 := ne_of_own hdir hg.kernel (by simp)
  rw [bind_get, if_neg (by rintro (h0 | hk); omega; exact hkernel hk)] at hcall
  obtain ⟨_, m1, hloop, hcall⟩ := bind_eq_some.mp hcall
  have hstart : ∃ h', Shedding g m dir (fun r => ∀ j, j < 0 → ¬[j] <+: r) h' m := by
    refine ⟨g.abandon dir, hg.abandon dir, rfl, rfl, ?_, ?_, ?_⟩
    · exact fun t d r hd ht => abandon_table.mpr ⟨ht, hd⟩
    · intro t r ht
      rcases abandon_own g dir t with ho | ⟨ho, -⟩
      · exact absurd rfl (abandon_table.mp (ho.trans ht)).2
      · exact Or.inl ho
    · intro t r j ht hlen hp _
      have hleaf := (hg.entries t dir r ht j).leaf hp hlen
      exact ⟨hleaf.held, abandon_eq hleaf.data (by simp)⟩
  obtain ⟨h1, hs1⟩ := loop_spec (I := fun i s => ∃ h', Shedding g m dir (fun r => ∀ j, j < i → ¬[j] <+: r) h' s)
    (fun i s s' _ hI hrun => by
      obtain ⟨h1, hs1⟩ := hI
      exact freeEntry_spec hg hdir hs1 hrun) hstart hloop
  obtain ⟨h2, hs2⟩ := shed_table hg hs1 hdir hcall
  exact ⟨h2, hs2.inv, hs2.mem, hs2.kernel, hs2.tables⟩

end Release

end Zelr.Paging
