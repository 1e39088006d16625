import Zelr.User.Mmap

/-!
# A program's pointer

The walk looks at 36 bits of an address, and nothing before it looks at the rest or at where user
space ends.
-/

namespace Zelr.User

open Act Paging
open Pmm (put_same put_other)

/-- Every byte is at an address of user space, so a canonical one, and mapped for the program, and the
end of the range does not come round. -/
def Granted (m : Machine) (dir : Nat) (a len : Word) : Prop :=
  a.toNat + len.toNat < 2 ^ 64 ∧
    ∀ x : Word, a.toNat ≤ x.toNat → x.toNat < a.toNat + len.toNat → IsUser x ∧ virtIsUserIn m.mem dir x = true

def RangeSound (m : Machine) (t : Task) (a len : Word) : Prop :=
  ∀ m', userRangeOk t t.dir a len m = (some (), m') → Granted m' t.dir a len

section Look

variable {g : Labels} {m m' : Machine} {t : Task} {R : Nat → Option Space} {b : Space} {dir : Nat} {a len virt x : Word}

theorem edge_not_user : ¬IsUser EDGE := fun h => absurd h.2 (by decide)

theorem virtIsUserIn_pageOf (mem : Nat → Nat → Word) (dir : Nat) (virt : Word) :
    virtIsUserIn mem dir (pageOf virt) = virtIsUserIn mem dir virt := by
  unfold virtIsUserIn
  simp only [userBelow, indexOf_pageOf]

theorem virtIsUserIn_eq (hg : Inv g m) (hroot : g.own dir = .table dir []) (hvirt : indexOf virt 4 = 1) :
    virtIsUserIn m.mem dir virt = (follow m.mem dir (1 :: pathOf virt)).isSome := by
  unfold virtIsUserIn
  rw [if_neg (hg.root_ne hroot)]
  simp only [userBelow, hvirt]
  have hway := hg.way hroot virt
  generalize follow m.mem dir (1 :: pathOf virt) = reached at hway
  cases hway with
  | four h4 => simp [h4]
  | three h4 h3 => simp [h4.present, h4.user, h4.huge, h4.frame, h3]
  | two h4 h3 h2 => simp [h4.present, h4.user, h4.huge, h4.frame, h3.present, h3.user, h3.huge, h3.frame, h2]
  | one h4 h3 h2 h1 =>
    simp [h4.present, h4.user, h4.huge, h4.frame, h3.present, h3.user, h3.huge, h3.frame, h2.present, h2.user, h2.huge,
      h2.frame, h1]
  | page h4 h3 h2 h1 huser _ _ =>
    simp [h4.present, h4.user, h4.huge, h4.frame, h3.present, h3.user, h3.huge, h3.frame, h2.present, h2.user, h2.huge,
      h2.frame, h1, huser]

theorem virtIsUserIn_reads (hs : Shows g m R) (live : R dir = some b) (huser : IsUser virt) :
    virtIsUserIn m.mem dir virt = (b (pageNumber virt)).isSome := by
  rw [virtIsUserIn_eq hs.inv (hs.root dir b live) huser.top, shows_there hs live huser]

theorem virtIsUserIn_edge (hs : Shows g m R) (hE : Edge m R) (live : R dir = some b) :
    virtIsUserIn m.mem dir EDGE = false := by
  have hnone := hE dir b live
  unfold page at hnone
  rw [virtIsUserIn_eq hs.inv (hs.root dir b live) (by decide), Option.map_eq_none_iff.mp hnone]
  rfl

/-! ## One page -/

theorem checkPage_spec {r : Option Unit} (hs : Shows g m R) (hE : Edge m R) (live : R t.dir = some b)
    (hR : Ranges t.vma) (hzeros : ZerosInside t) (huser : IsUser virt)
    (h : checkPage t t.dir virt m = (r, m')) :
    ∃ b' g', Shows g' m' (Pmm.put R t.dir (some b')) ∧ Edge m' (Pmm.put R t.dir (some b')) ∧
      (∀ n, (b n).isSome → (b' n).isSome) ∧ (r = some () → (b' (pageNumber virt)).isSome) := by
  unfold checkPage at h
  rw [bind_get] at h
  split at h
  · next hthere =>
    cases h
    rw [virtIsUserIn_reads hs live huser] at hthere
    rw [← put_self live] at hs hE
    exact ⟨b, g, hs, hE, fun _ hn => hn, fun _ => hthere⟩
  · rcases hfill : userFaultFill t virt 0 m with ⟨_ | ⟨⟩, m1⟩
    · rw [bind_of_none hfill] at h
      cases h
      rcases userFaultFill_cases hR hzeros hfill with ⟨-, rfl⟩ | ⟨flags, -, hflags, hhuge, hborrowed, hrun⟩
      · rw [← put_self live] at hs hE
        exact ⟨b, g, hs, hE, fun _ hn => hn, fun hr => by cases hr⟩
      · obtain ⟨g1, hs1⟩ := fillMissing_none hs live huser hflags hrun
        have hE1 := fillMissing_edge hs hE live huser hflags hhuge hborrowed hrun
        rw [← put_self live] at hs1 hE1
        exact ⟨b, g1, hs1, hE1, fun _ hn => hn, fun hr => by cases hr⟩
    · rw [bind_of_some hfill, bind_get] at h
      rcases userFaultFill_cases hR hzeros hfill with ⟨hr, -⟩ | ⟨flags, -, hflags, hhuge, hborrowed, hrun⟩
      · cases hr
      · obtain ⟨g1, hs1⟩ := fillMissing_some true hs live huser hflags hhuge hborrowed hrun
        have hE1 := fillMissing_edge hs hE live huser hflags hhuge hborrowed hrun
        have hm : m' = m1 := by
          split at h <;> cases h <;> rfl
        subst hm
        refine ⟨touched b (pageNumber virt) true, g1, hs1, hE1.setPage live fun _ _ _ => rfl, ?_, ?_⟩
        · intro n hn
          unfold touched
          split
          · exact hn
          · by_cases hnn : n = pageNumber virt
            · rw [hnn, put_same]
              rfl
            · rw [put_other _ _ hnn]
              exact hn
        · intro _
          unfold touched
          split
          · next hthere => exact hthere
          · rw [put_same]
            rfl

theorem checkPage_outside (hR : Ranges t.vma) (hzeros : ZerosInside t) (hout : ¬IsUser virt) :
    checkPage t dir virt m = (if virtIsUserIn m.mem dir virt then some () else none, m) := by
  unfold checkPage
  rw [bind_get]
  split
  · next hthere => rfl
  · next hthere =>
    rcases hfill : userFaultFill t virt 0 m with ⟨r, m1⟩
    rcases userFaultFill_cases hR hzeros hfill with ⟨rfl, rfl⟩ | ⟨flags, huser, -⟩
    · rw [bind_of_none hfill]
    · exact absurd huser hout

/-! ## The loop -/

theorem pagesLoop_never {σ : Type} (body : Word → Act σ Unit) (limit : Word) (hlimit : 2 ^ 64 - 4096 < limit.toNat) :
    ∀ (fuel : Nat) {a : Word} (s : σ), a.toNat % 4096 = 0 → (pagesLoop body limit fuel a s).1 = none := by
  intro fuel
  induction fuel with
  | zero => exact fun _ _ => rfl
  | succ n ih =>
    intro a s ha
    have hlt := a.isLt
    have hnext : (a + PAGE).toNat % 4096 = 0 := by
      rw [BitVec.toNat_add, show PAGE.toNat = 4096 from rfl]
      omega
    rw [pagesLoop, if_pos (by rw [BitVec.lt_def]; omega), bind_apply]
    split
    · exact ih _ hnext
    · rfl

theorem pagesBetween_range (a len : Word) (hend : a.toNat + len.toNat ≤ 2 ^ 64 - 4096) :
    (pageOf a).toNat + pagesBetween (pageOf a) (a + len) * 4096 < 2 ^ 64 ∧
      ∀ k, k < pagesBetween (pageOf a) (a + len) ↔ a.toNat / 4096 * 4096 + k * 4096 < a.toNat + len.toNat := by
  unfold pagesBetween
  rw [add_toNat (by omega), pageOf_toNat]
  refine ⟨by omega, fun k => ?_⟩
  omega

theorem pagesOn_range {k : Nat} (hend : a.toNat + len.toNat ≤ 2 ^ 64 - 4096)
    (hk : k < pagesBetween (pageOf a) (a + len)) :
    (pagesOn (pageOf a) k).toNat = a.toNat / 4096 * 4096 + k * 4096 := by
  have hlt := ((pagesBetween_range a len hend).2 k).mp hk
  rw [pagesOn_toNat (by rw [pageOf_toNat]; omega), pageOf_toNat]

theorem not_user (h : USER_SPACE_END ≤ x.toNat) : ¬IsUser x := fun hx => absurd hx.2 (not_lt.mpr h)

theorem pageOf_eq {p : Word} (hp : p.toNat % 4096 = 0) (hlo : p.toNat ≤ x.toNat) (hhi : x.toNat < p.toNat + 4096) :
    pageOf x = p := by
  apply BitVec.eq_of_toNat_eq
  rw [pageOf_toNat]
  omega

theorem range_inside (hs : Shows g m R) (hE : Edge m R) (live : R t.dir = some b) (hR : Ranges t.vma)
    (hzeros : ZerosInside t) (hlow : USER_SPACE_BASE ≤ a.toNat) (hhigh : a.toNat + len.toNat ≤ USER_SPACE_END)
    (h : forPages (checkPage t t.dir) (pageOf a) (a + len) m = (some (), m')) : Granted m' t.dir a len := by
  unfold USER_SPACE_BASE at hlow
  unfold USER_SPACE_END at hhigh
  obtain ⟨hwrap, hpages⟩ := pagesBetween_range a len (by omega)
  have hplace : ∀ k, k < pagesBetween (pageOf a) (a + len) →
      IsUser (pagesOn (pageOf a) k) ∧ pageNumber (pagesOn (pageOf a) k) = a.toNat / 4096 + k := by
    intro k hk
    have hlt := (hpages k).mp hk
    unfold IsUser pageNumber PAGE_SIZE USER_SPACE_BASE USER_SPACE_END
    rw [pagesOn_toNat (by rw [pageOf_toNat]; omega), pageOf_toNat]
    omega
  have hloop := forPages_triple (checkPage t t.dir) (pageOf a) (a + len) (E := fun _ => True)
    (I := fun k s => ∃ b' g', Shows g' s (Pmm.put R t.dir (some b')) ∧ Edge s (Pmm.put R t.dir (some b')) ∧
      ∀ i, i < k → (b' (a.toNat / 4096 + i)).isSome) hwrap (by
    intro k hk s hI
    obtain ⟨b', g', hs', hE', hall⟩ := hI
    split
    · next s' hrun =>
      obtain ⟨b'', g'', hs'', hE'', hmono, hthere⟩ :=
        checkPage_spec hs' hE' (put_same _ _ _) hR hzeros (hplace k hk).1 hrun
      rw [Pmm.put_put] at hs'' hE''
      refine ⟨b'', g'', hs'', hE'', ?_⟩
      intro i hi
      rcases Nat.lt_succ_iff_lt_or_eq.mp hi with hi | rfl
      · exact hmono _ (hall i hi)
      · rw [← (hplace i hk).2]
        exact hthere rfl
    · trivial)
  obtain ⟨b', g', hs', -, hall⟩ := hloop.gives ⟨b, g, by rwa [put_self live], by rwa [put_self live], by simp⟩ h
  refine ⟨by omega, ?_⟩
  intro x hlo hhi
  have huser : IsUser x := by
    unfold IsUser USER_SPACE_BASE USER_SPACE_END
    omega
  refine ⟨huser, ?_⟩
  rw [virtIsUserIn_reads hs' (put_same _ _ _) huser]
  have hn : pageNumber x = a.toNat / 4096 + (x.toNat / 4096 - a.toNat / 4096) := by
    unfold pageNumber PAGE_SIZE
    omega
  rw [hn]
  exact hall _ ((hpages _).mpr (by omega))

theorem range_refused (hs : Shows g m R) (hE : Edge m R) (live : R t.dir = some b) (hR : Ranges t.vma)
    (hzeros : ZerosInside t) (hlow : USER_SPACE_BASE ≤ a.toNat) (hend : a.toNat + len.toNat ≤ 2 ^ 64 - 4096)
    (hxlo : a.toNat ≤ x.toNat) (hxhi : x.toNat < a.toNat + len.toNat) (hpast : USER_SPACE_END ≤ x.toNat)
    (hnot : virtIsUserIn m.mem t.dir x = false) (h : forPages (checkPage t t.dir) (pageOf a) (a + len) m = (some (), m')) :
    False := by
  unfold USER_SPACE_BASE at hlow
  unfold USER_SPACE_END at hpast
  obtain ⟨hwrap, hpages⟩ := pagesBetween_range a len hend
  by_cases hstart : a.toNat < USER_SPACE_END
  · -- the range goes over the last page, where nothing is and nothing is put
    unfold USER_SPACE_END at hstart
    obtain ⟨k₀, hk₀⟩ : ∃ k₀, k₀ = (0xFFFFFFF000 - a.toNat / 4096 * 4096) / 4096 := ⟨_, rfl⟩
    have hloop := forPages_triple (checkPage t t.dir) (pageOf a) (a + len) (E := fun _ => True)
      (I := fun k s => k ≤ k₀ ∧ ∃ b' g', Shows g' s (Pmm.put R t.dir (some b')) ∧ Edge s (Pmm.put R t.dir (some b')))
      hwrap (by
      intro k hk s hI
      obtain ⟨hle, b', g', hs', hE'⟩ := hI
      have hat := pagesOn_range hend hk
      rcases Nat.lt_or_eq_of_le hle with hlt | rfl
      · have huser : IsUser (pagesOn (pageOf a) k) := by
          unfold IsUser USER_SPACE_BASE USER_SPACE_END
          omega
        split
        · next s' hrun =>
          obtain ⟨b'', g'', hs'', hE'', -, -⟩ := checkPage_spec hs' hE' (put_same _ _ _) hR hzeros huser hrun
          rw [Pmm.put_put] at hs'' hE''
          exact ⟨by omega, b'', g'', hs'', hE''⟩
        · trivial
      · have hedge : pagesOn (pageOf a) k = EDGE := by
          apply BitVec.eq_of_toNat_eq
          rw [hat, show EDGE.toNat = 0xFFFFFFF000 from rfl]
          omega
        rw [hedge, checkPage_outside hR hzeros edge_not_user, virtIsUserIn_edge hs' hE' (put_same _ _ _)]
        trivial)
    obtain ⟨hle, -⟩ := hloop.gives ⟨by omega, b, g, by rwa [put_self live], by rwa [put_self live]⟩ h
    have := (hpages k₀).mpr (by omega)
    omega
  · -- nothing is put anywhere before the loop comes to the page
    unfold USER_SPACE_END at hstart
    obtain ⟨k₀, hk₀⟩ : ∃ k₀, k₀ = x.toNat / 4096 - a.toNat / 4096 := ⟨_, rfl⟩
    have hloop := forPages_triple (checkPage t t.dir) (pageOf a) (a + len) (E := fun _ => True)
      (I := fun k s => k ≤ k₀ ∧ s = m) hwrap (by
      intro k hk s hI
      obtain ⟨hle, rfl⟩ := hI
      have hat := pagesOn_range hend hk
      have hout : ¬IsUser (pagesOn (pageOf a) k) := not_user (by unfold USER_SPACE_END; omega)
      rw [checkPage_outside hR hzeros hout]
      rcases Nat.lt_or_eq_of_le hle with hlt | rfl
      · split
        · next hrun =>
          split at hrun
          · cases hrun
            exact ⟨by omega, rfl⟩
          · cases hrun
        · trivial
      · rw [← pageOf_eq (x := x) (p := pagesOn (pageOf a) k) (by omega) (by omega) (by omega), virtIsUserIn_pageOf, hnot]
        trivial)
    obtain ⟨hle, -⟩ := hloop.gives ⟨by omega, rfl⟩ h
    have := (hpages k₀).mpr (by omega)
    omega

theorem range_past (hR : Ranges t.vma) (hzeros : ZerosInside t) (hpos : 0 < len.toNat)
    (hstart : USER_SPACE_END ≤ a.toNat) (hend : a.toNat + len.toNat ≤ 2 ^ 64 - 4096)
    (hall : ∀ x : Word, a.toNat ≤ x.toNat → x.toNat < a.toNat + len.toNat → virtIsUserIn m.mem t.dir x = true) :
    forPages (checkPage t t.dir) (pageOf a) (a + len) m = (some (), m) := by
  unfold USER_SPACE_END at hstart
  obtain ⟨hwrap, hpages⟩ := pagesBetween_range a len hend
  have hloop := forPages_triple (checkPage t t.dir) (pageOf a) (a + len) (E := fun _ => False) (I := fun _ s => s = m) hwrap (by
    rintro k hk s rfl
    have hlt := (hpages k).mp hk
    have hat := pagesOn_range hend hk
    have hout : ¬IsUser (pagesOn (pageOf a) k) := not_user (by unfold USER_SPACE_END; omega)
    -- some byte of the page is in the range
    obtain ⟨x, hx⟩ : ∃ x : Word, x.toNat = max a.toNat (a.toNat / 4096 * 4096 + k * 4096) :=
      ⟨BitVec.ofNat 64 (max a.toNat (a.toNat / 4096 * 4096 + k * 4096)), by
        rw [BitVec.toNat_ofNat]
        exact Nat.mod_eq_of_lt (by omega)⟩
    have hthere := hall x (by omega) (by omega)
    rw [← virtIsUserIn_pageOf, pageOf_eq (x := x) (p := pagesOn (pageOf a) k) (by omega) (by omega) (by omega)] at hthere
    rw [checkPage_outside hR hzeros hout, if_pos hthere])
  have hdone := hloop m rfl
  rcases hrun : forPages (checkPage t t.dir) (pageOf a) (a + len) m with ⟨_ | ⟨⟩, m'⟩
  · rw [hrun] at hdone
    exact hdone.elim
  · rw [hrun] at hdone
    rw [hdone]

end Look

/-- What is let through is granted exactly when the range is empty, starts below user space, comes round, ends in user
space, or has a byte past the end whose page is not mapped. -/
theorem range_sound {s₀ s : Life} (hstart : Started s₀) (hrun : Run s₀ s) (a len : Word) :
    RangeSound s.machine s.task a len ↔
      len = 0 ∨ a.toNat < USER_SPACE_BASE ∨ 2 ^ 64 - 4096 < a.toNat + len.toNat ∨
      a.toNat + len.toNat ≤ USER_SPACE_END ∨
      ∃ x : Word, a.toNat ≤ x.toNat ∧ x.toNat < a.toNat + len.toNat ∧ USER_SPACE_END ≤ x.toNat ∧
        virtIsUserIn s.machine.mem s.task.dir x = false := by
  have hs := hrun.sane hstart.sane
  have hE := hrun.edge hstart.sane hstart.edge
  obtain ⟨⟨g, hg⟩, hlive, hzeros, hranges⟩ := hs
  obtain ⟨b, live⟩ := Option.isSome_iff_exists.mp hlive
  have hmin : USER_MIN.toNat = USER_SPACE_BASE := rfl
  constructor
  · intro hsound
    by_contra hnot
    simp only [not_or, not_exists, not_and, not_lt, not_le, Bool.not_eq_false] at hnot
    obtain ⟨hlen, hlow, hend, hhigh, hall⟩ := hnot
    have hedge : USER_SPACE_END ≤ a.toNat := by
      by_contra hlt
      have hthere := hall EDGE (by
        rw [show EDGE.toNat = USER_SPACE_END from rfl]
        omega) (by
        rw [show EDGE.toNat = USER_SPACE_END from rfl]
        exact hhigh) (le_refl _)
      rw [virtIsUserIn_edge hg hE live] at hthere
      cases hthere
    have hpos : 0 < len.toNat := Nat.pos_of_ne_zero fun h => hlen (BitVec.eq_of_toNat_eq h)
    have hloop := range_past (m := s.machine) hranges hzeros hpos hedge hend fun x hlo hhi => hall x hlo hhi (by omega)
    have hpass : userRangeOk s.task s.task.dir a len s.machine = (some (), s.machine) := by
      unfold userRangeOk
      rw [if_neg hlen, if_neg (by rw [BitVec.lt_def, hmin]; omega), if_neg (by rw [BitVec.lt_def, add_toNat (by omega)]; omega)]
      exact hloop
    obtain ⟨-, hbytes⟩ := hsound _ hpass
    have huser := (hbytes a (le_refl _) (by omega)).1.2
    omega
  · intro hcond m' hpass
    unfold userRangeOk at hpass
    split at hpass
    · next hlen =>
      subst hlen
      have hzero : (0 : Word).toNat = 0 := rfl
      have hlt := a.isLt
      refine ⟨by omega, ?_⟩
      intro x hlo hhi
      omega
    · next hlen =>
      split at hpass
      · cases hpass
      · next hlow =>
        rw [BitVec.lt_def, hmin, not_lt] at hlow
        split at hpass
        · cases hpass
        · next hround =>
          rw [BitVec.lt_def, BitVec.toNat_add, not_lt] at hround
          have hlt := a.isLt
          have hlt' := len.isLt
          have hpos : 0 < len.toNat := Nat.pos_of_ne_zero fun h => hlen (BitVec.eq_of_toNat_eq h)
          have hno : a.toNat + len.toNat < 2 ^ 64 := by omega
          by_cases hend : 2 ^ 64 - 4096 < a.toNat + len.toNat
          · -- the loop does not come to an end
            have hnever := pagesLoop_never (checkPage s.task s.task.dir) (a + len)
              (by rw [add_toNat hno]; exact hend) (2 ^ 52 + 1) (a := pageOf a) s.machine (by rw [pageOf_toNat]; omega)
            unfold forPages at hpass
            rw [hpass] at hnever
            cases hnever
          · rcases hcond with h | h | h | hhigh | ⟨x, hxlo, hxhi, hpast, hnot⟩
            · exact absurd h hlen
            · omega
            · omega
            · exact range_inside hg hE live hranges hzeros hlow hhigh hpass
            · exact (range_refused hg hE live hranges hzeros hlow (by omega) hxlo hxhi hpast hnot hpass).elim

/-! ## A page under another address -/

def sampleOwner : Life where
  machine := sampleMapped true
  spaces := Pmm.put (Pmm.put (fun _ => none) 2 (some fun _ => none)) 2
    (some (Pmm.put (fun _ => none) (pageNumber sampleVirt) (some (zeroPage true))))
  task := sampleTask

theorem sampleOwner_started : Started sampleOwner where
  machine := ⟨sampleBoot, sampleBoot_booted, (Relation.ReflTransGen.single ⟨_, Paging.Step.new sampleSpace_run⟩).tail
    ⟨_, Paging.Step.fill (put_same _ _ _) sampleVirt_user (sampleMapped_run true)⟩⟩
  live := rfl
  zeros := sampleLife_started.zeros
  ranges := rfl

/-- A word of the page is let through, and is granted. -/
theorem range_sound_sample : RangeSound sampleOwner.machine sampleOwner.task sampleVirt 8 :=
  (range_sound sampleOwner_started Relation.ReflTransGen.refl sampleVirt 8).mpr
    (Or.inr (Or.inr (Or.inr (Or.inl (by decide)))))

/-- The page's address with a bit more set is no canonical address, and is let through. -/
def sampleAlias : Word := 0x1008000000000

theorem alias_passed : virtIsUserIn (sampleMapped true).mem 2 sampleAlias = true := by decide +kernel

theorem range_let_through : ∃ s₀ s, Started s₀ ∧ Run s₀ s ∧ ¬IsUser sampleAlias ∧
    ¬RangeSound s.machine s.task sampleAlias 1 := by
  refine ⟨sampleOwner, sampleOwner, sampleOwner_started, Relation.ReflTransGen.refl, fun h => absurd h.2 (by decide), ?_⟩
  intro hsound
  have hrun : userRangeOk sampleTask 2 sampleAlias 1 (sampleMapped true) = (some (), sampleMapped true) := by
    unfold userRangeOk
    rw [if_neg (by decide), if_neg (by decide), if_neg (by decide)]
    apply range_past Ranges.nil sampleLife_started.zeros (by decide) (by decide) (by decide)
    intro x hlo hhi
    have hx : x = sampleAlias := by
      apply BitVec.eq_of_toNat_eq
      have : (1 : Word).toNat = 1 := rfl
      omega
    rw [hx]
    exact alias_passed
  obtain ⟨-, hbytes⟩ := hsound _ hrun
  exact absurd (hbytes sampleAlias (le_refl _) (by decide)).1.2 (by decide)

end Zelr.User
