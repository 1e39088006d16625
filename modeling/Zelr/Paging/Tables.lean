import Zelr.Paging.Model

/-!
# Whose tables they are

A label for each frame says what it is used for: a table of one address space at one path of
indices, a page, or nothing.
-/

namespace Zelr.Paging

open Act
open Pmm (put_same put_other)

variable {t i d : Nat} {o : Owner} {H : List (Nat × Nat)} {pm : Pmm}

inductive Owner where
  | free
  /-- the kernel's, or lost -/
  | other
  | table (dir : Nat) (path : List Nat)
  | data
deriving DecidableEq

structure Labels where
  own : Nat → Owner
  /-- the entries, each a table and an index, that may name a page -/
  holds : Nat → List (Nat × Nat)

namespace Labels

variable (g : Labels)

def give (f : Nat) (o : Owner) (hs : List (Nat × Nat)) : Labels where
  own := Pmm.put g.own f o
  holds := Pmm.put g.holds f hs

@[simp] theorem give_own (f : Nat) (o : Owner) (hs : List (Nat × Nat)) : (g.give f o hs).own f = o := put_same _ _ _

@[simp] theorem give_holds (f : Nat) (o : Owner) (hs : List (Nat × Nat)) : (g.give f o hs).holds f = hs :=
  put_same _ _ _

def setHolds (f : Nat) (hs : List (Nat × Nat)) : Labels := { g with holds := Pmm.put g.holds f hs }

end Labels

/-! ## What a walk finds -/

def follow (mem : Nat → Nat → Word) : Nat → List Nat → Option Nat
  | t, [] => some t
  | t, i :: q => if has (mem t i) PTE_PRESENT then follow mem (frameOf (mem t i)) q else none

def page (mem : Nat → Nat → Word) (t : Nat) (q : List Nat) : Option (Nat → Word) := (follow mem t q).map mem

/-- Every entry on the path has the write bit. -/
def writable (mem : Nat → Nat → Word) : Nat → List Nat → Bool
  | _, [] => true
  | t, i :: q => has (mem t i) PTE_PRESENT && has (mem t i) PTE_RW && writable mem (frameOf (mem t i)) q

variable {mem : Nat → Nat → Word} {q : List Nat}

theorem follow_cons
    (h : has (mem t i) PTE_PRESENT = true) : follow mem t (i :: q) = follow mem (frameOf (mem t i)) q := if_pos h

theorem page_cons
    (h : has (mem t i) PTE_PRESENT = true) : page mem t (i :: q) = page mem (frameOf (mem t i)) q := by
  unfold page
  rw [follow_cons h]

theorem page_none
    (h : has (mem t i) PTE_PRESENT = false) : page mem t (i :: q) = none := by
  unfold page follow
  rw [if_neg (by simp [h])]
  rfl

/-! ## Entries -/

structure Link (g : Labels) (d : Nat) (p : List Nat) (i : Nat) (e : Word) : Prop where
  user : has e PTE_USER = true
  rw : has e PTE_RW = true
  huge : has e PTE_HUGE = false
  below : g.own (frameOf e) = .table d (p ++ [i])

/-- An entry that points at a page. The write bit is there only while nobody else has the page. -/
structure Leaf (g : Labels) (t i : Nat) (e : Word) : Prop where
  user : has e PTE_USER = true
  huge : has e PTE_HUGE = false
  borrowed : has e PTE_BORROWED = false
  data : g.own (frameOf e) = .data
  held : (t, i) ∈ g.holds (frameOf e)
  sole : has e PTE_RW = true → (g.holds (frameOf e)).length = 1

def EntryOk (g : Labels) (kernel : Nat → Word) (t d : Nat) (p : List Nat) (i : Nat) (e : Word) : Prop :=
  has e PTE_PRESENT = true →
    (p = [] ∧ i ≠ 1 ∧ isKernels e (kernel i) = true) ∨
    (p.length < 3 ∧ (p = [] → i = 1) ∧ Link g d p i e) ∨
    (p.length = 3 ∧ Leaf g t i e)

structure Inv (g : Labels) (m : Machine) : Prop where
  total : m.pmm.totalFrames ≤ FRAME_LIMIT
  unused : ∀ f, m.pmm.isUsed f = false → g.own f = .free
  inside : ∀ f, g.own f ≠ .free → g.own f ≠ .other → 0 < f ∧ f < m.pmm.totalFrames
  kernel : g.own m.kernelPml4 = .other
  hole : has (m.mem m.kernelPml4 1) PTE_PRESENT = false
  count : ∀ f, g.own f = .data → (g.holds f).length = 1 + m.pmm.past f
  uncounted : ∀ f, g.own f ≠ .data → m.pmm.past f = 0
  root : ∀ t d, g.own t = .table d [] → t = d
  entries : ∀ t d p, g.own t = .table d p → ∀ i,
    EntryOk g (m.mem m.kernelPml4) t d p i (m.mem t i)

section Entries

variable {g : Labels} {m : Machine} {kernel : Nat → Word} {t d i : Nat} {p : List Nat} {e : Word}

theorem EntryOk.absent (h : has e PTE_PRESENT = false) : EntryOk g kernel t d p i e := by
  intro hp
  rw [h] at hp
  cases hp

theorem EntryOk.link (h : EntryOk g kernel t d p i e) (hp : has e PTE_PRESENT = true) (hlen : p.length < 3)
    (htop : p = [] → i = 1) : Link g d p i e := by
  rcases h hp with ⟨hnil, hne, -⟩ | ⟨-, -, hlink⟩ | ⟨hthree, -⟩
  · exact absurd (htop hnil) hne
  · exact hlink
  · omega

theorem EntryOk.leaf (h : EntryOk g kernel t d p i e) (hp : has e PTE_PRESENT = true) (hlen : p.length = 3) :
    Leaf g t i e := by
  rcases h hp with ⟨hnil, -⟩ | ⟨hlt, -⟩ | ⟨-, hleaf⟩
  · rw [hnil] at hlen
    cases hlen
  · omega
  · exact hleaf

theorem has_zero (flag : Word) : has 0 flag = false := by
  unfold has
  rw [show (0 : Word) = 0#64 from rfl, BitVec.zero_and]
  rfl

end Entries

/-! ## What a call leaves alone -/

/-- The same page, with no right that was not there. -/
structure Kin (e e' : Word) : Prop where
  present : has e' PTE_PRESENT = has e PTE_PRESENT
  frame : has e PTE_PRESENT = true → frameOf e' = frameOf e
  rw : has e' PTE_RW = true → has e PTE_RW = true

theorem Kin.refl (e : Word) : Kin e e := ⟨rfl, fun _ => rfl, id⟩

theorem Kin.trans {e e' e'' : Word} (h : Kin e e') (h' : Kin e' e'') : Kin e e'' := by
  refine ⟨h'.present.trans h.present, ?_, fun hrw => h.rw (h'.rw hrw)⟩
  intro hp
  rw [h'.frame (h.present.trans hp), h.frame hp]

/-- Labels are only given, never changed; the entries at the paths in `O` map what they did, and pages
and the kernel's frames are not written. -/
structure Keeps (O : Nat → List Nat → Prop) (g : Labels) (m : Machine) (g' : Labels) (m' : Machine) : Prop where
  kernel : m'.kernelPml4 = m.kernelPml4
  total : m'.pmm.totalFrames = m.pmm.totalFrames
  own : ∀ t, g.own t ≠ .free → g'.own t = g.own t
  tables : ∀ t d r i, g.own t = .table d r → O d (r ++ [i]) → Kin (m.mem t i) (m'.mem t i)
  data : ∀ f, g.own f = .data → m'.mem f = m.mem f
  other : ∀ f, g.own f = .other → m'.mem f = m.mem f

namespace Keeps

variable {O O' : Nat → List Nat → Prop} {g g' g'' : Labels} {m m' m'' : Machine}

theorem refl (g : Labels) (m : Machine) : Keeps O g m g m :=
  ⟨rfl, rfl, fun _ _ => rfl, fun _ _ _ _ _ _ => Kin.refl _, fun _ _ => rfl, fun _ _ => rfl⟩

theorem own_eq (h : Keeps O g m g' m') (ho : g.own t = o) (hne : o ≠ .free) :
    g'.own t = o := by
  rw [h.own t (by rw [ho]; exact hne), ho]

theorem trans (h : Keeps O g m g' m') (h' : Keeps O g' m' g'' m'') : Keeps O g m g'' m'' where
  kernel := h'.kernel.trans h.kernel
  total := h'.total.trans h.total
  own t ht := by
    rw [h'.own t (by rw [h.own t ht]; exact ht), h.own t ht]
  tables t d r i ht hout := (h.tables t d r i ht hout).trans (h'.tables t d r i (h.own_eq ht (by simp)) hout)
  data f hf := by rw [h'.data f (h.own_eq hf (by simp)), h.data f hf]
  other f hf := by rw [h'.other f (h.own_eq hf (by simp)), h.other f hf]

theorem mono (h : Keeps O g m g' m') (hout : ∀ d r, O' d r → O d r) : Keeps O' g m g' m' :=
  { h with tables := fun t d r i ht ho => h.tables t d r i ht (hout d _ ho) }

theorem walk (hg : Inv g m) (h : Keeps O g m g' m') : ∀ (q : List Nat) {t : Nat} {p : List Nat},
    g.own t = .table d p → p.length + q.length = 4 → q ≠ [] → (p = [] → q.head? = some 1) →
      (∀ r, r ≠ [] → r <+: q → O d (p ++ r)) →
      page m'.mem t q = page m.mem t q ∧ (writable m'.mem t q = true → writable m.mem t q = true) := by
  intro q
  induction q with
  | nil => exact fun _ _ hq => absurd rfl hq
  | cons i q ih =>
    intro t p ht hlen _ htop hout
    have hkin := h.tables t d p i ht (hout [i] (by simp) (by simp))
    have hok := hg.entries t d p ht i
    rcases Bool.eq_false_or_eq_true (has (m.mem t i) PTE_PRESENT) with hp | hp
    · have hp' := hkin.present.trans hp
      have hframe := hkin.frame hp
      rw [page_cons hp, page_cons hp', hframe]
      simp only [writable, hp, hp', hframe, Bool.true_and, Bool.and_eq_true]
      rcases q with _ | ⟨j, q⟩
      · -- the page itself
        have hleaf := hok.leaf hp (by simpa using hlen)
        have hdata := h.data _ hleaf.data
        refine ⟨?_, fun hw => ⟨hkin.rw hw.1, rfl⟩⟩
        simp only [page, follow, Option.map_some, hdata]
      · have hlink := hok.link hp (by simp at hlen; omega) (by simpa using htop)
        obtain ⟨hpage, hwrite⟩ := ih hlink.below (by simp at hlen ⊢; omega) (by simp) (by simp)
          (by simpa using fun r _ hr => hout (i :: r) (by simp) (by simpa using hr))
        exact ⟨hpage, fun hw => ⟨hkin.rw hw.1, hwrite hw.2⟩⟩
    · have hp' := hkin.present.trans hp
      rw [page_none hp, page_none hp']
      simp [writable, hp']

theorem follow (hg : Inv g m) (h : Keeps O g m g' m') : ∀ (q : List Nat) {t : Nat} {p : List Nat},
    g.own t = .table d p → p.length + q.length ≤ 4 → (p = [] → q ≠ [] → q.head? = some 1) →
      (∀ r, r ≠ [] → r <+: q → O d (p ++ r)) → Paging.follow m'.mem t q = Paging.follow m.mem t q := by
  intro q
  induction q with
  | nil => exact fun _ _ _ _ => rfl
  | cons i q ih =>
    intro t p ht hlen htop hout
    have hkin := h.tables t d p i ht (hout [i] (by simp) (by simp))
    unfold Paging.follow
    rw [hkin.present]
    split
    · next hp =>
      rw [hkin.frame hp]
      rcases q with _ | ⟨j, q⟩
      · rfl
      · have hlink := (hg.entries t d p ht i).link hp (by simp at hlen; omega) (by simpa using htop)
        exact ih hlink.below (by simp at hlen ⊢; omega) (by simp)
          (by simpa using fun r _ hr => hout (i :: r) (by simp) (by simpa using hr))
    · rfl

end Keeps

/-! ## Giving O a frame -/

section Give

variable {g g' : Labels} {m m' : Machine} {f t d i : Nat} {p : List Nat} {e : Word}
  {O : Nat → List Nat → Prop} {kernel : Nat → Word}

/-- Handed O by the allocator and not yet used for anything. -/
structure Fresh (g : Labels) (m : Machine) (f : Nat) : Prop where
  free : g.own f = .free
  used : m.pmm.isUsed f = true
  ne : f ≠ 0
  lt : f < m.pmm.totalFrames

theorem EntryOk.relabel (hown : ∀ f, g.own f ≠ .free → g.own f ≠ .other → g'.own f = g.own f)
    (hholds : ∀ f, g.own f = .data → g'.holds f = g.holds f) (h : EntryOk g kernel t d p i e) :
    EntryOk g' kernel t d p i e := by
  intro hp
  rcases h hp with hk | ⟨hlen, htop, hlink⟩ | ⟨hlen, hleaf⟩
  · exact Or.inl hk
  · refine Or.inr (Or.inl ⟨hlen, htop, hlink.user, hlink.rw, hlink.huge, ?_⟩)
    rw [hown _ (by rw [hlink.below]; simp) (by rw [hlink.below]; simp), hlink.below]
  · have hsame := hholds _ hleaf.data
    refine Or.inr (Or.inr ⟨hlen, hleaf.user, hleaf.huge, hleaf.borrowed, ?_, ?_, ?_⟩)
    · rw [hown _ (by rw [hleaf.data]; simp) (by rw [hleaf.data]; simp), hleaf.data]
    · rw [hsame]
      exact hleaf.held
    · rw [hsame]
      exact hleaf.sole

theorem allocFrame_inv (hg : Inv g m) (h : allocFrame m = (some f, m')) :
    Fresh g m' f ∧ Inv g m' ∧ m'.mem = m.mem ∧ Keeps O g m g m' := by
  unfold allocFrame at h
  obtain ⟨frame, m1, hcall, h⟩ := bind_eq_some.mp h
  split at h
  · cases h
  · next hne =>
    cases h
    unfold onPmm zoom at hcall
    obtain ⟨hf, hm⟩ := Prod.mk.inj hcall
    have halloc : Pmm.allocFrame m.pmm = (some f, (Pmm.allocFrame m.pmm).2) := by rw [← hf]
    obtain ⟨hunused, htotal, hpast, hothers⟩ := Pmm.allocFrame_spec halloc hne
    subst hm
    have hlt := (Pmm.isUsed_eq_false.mp hunused).1
    refine ⟨⟨hg.unused f hunused, ?_, hne, ?_⟩, ?_, rfl,
      ⟨rfl, htotal, fun _ _ => rfl, fun _ _ _ _ _ _ => Kin.refl _, fun _ _ => rfl, fun _ _ => rfl⟩⟩
    · rw [← Bool.not_eq_false]
      exact fun hnot => (hothers f hnot).2 rfl
    · simpa only [htotal] using hlt
    · exact { hg with
        total := by simpa only [htotal] using hg.total
        unused := fun f' hf' => hg.unused f' (hothers f' hf').1
        inside := by simpa only [htotal] using hg.inside
        count := by simpa only [hpast] using hg.count
        uncounted := by simpa only [hpast] using hg.uncounted }

theorem Inv.scratch (hg : Inv g m) (hf : g.own f = .free) (words : Nat → Word) :
    Inv g (m.setFrame f words) ∧ Keeps O g m g (m.setFrame f words) := by
  have hmem : ∀ t, g.own t ≠ .free → (m.setFrame f words).mem t = m.mem t := by
    intro t ht
    apply put_other
    rintro rfl
    exact ht hf
  have hkernel : (m.setFrame f words).mem m.kernelPml4 = m.mem m.kernelPml4 := hmem _ (by rw [hg.kernel]; simp)
  refine ⟨{ hg with hole := ?_, entries := ?_ }, rfl, rfl, fun _ _ => rfl, ?_, ?_, ?_⟩
  · show has ((m.setFrame f words).mem m.kernelPml4 1) PTE_PRESENT = false
    rw [hkernel]
    exact hg.hole
  · intro t d p ht i
    show EntryOk g ((m.setFrame f words).mem m.kernelPml4) t d p i _
    rw [hkernel, hmem t (by rw [ht]; simp)]
    exact hg.entries t d p ht i
  · intro t d r i ht _
    rw [hmem t (by rw [ht]; simp)]
    exact Kin.refl _
  · exact fun t ht => hmem t (by rw [ht]; simp)
  · exact fun t ht => hmem t (by rw [ht]; simp)

theorem Fresh.setFrame (h : Fresh g m f) (words : Nat → Word) : Fresh g (m.setFrame f words) f :=
  ⟨h.free, h.used, h.ne, h.lt⟩

/-- A frame no entry names becomes a table, empty as yet, or the page of one entry that is to be. -/
theorem Inv.relabel (hg : Inv g m) {hs : List (Nat × Nat)}
    (hfrom : g.own f = .free ∨ g.own f = .other) (hkernel : f ≠ m.kernelPml4)
    (hused : m.pmm.isUsed f = true) (hpos : f ≠ 0) (hlt : f < m.pmm.totalFrames)
    (hdata : o = .data → hs.length = 1)
    (htable : ∀ d p, o = .table d p → (p = [] → f = d) ∧ ∀ i, has (m.mem f i) PTE_PRESENT = false) :
    Inv (g.give f o hs) m := by
  have hown : ∀ t, g.own t ≠ .free → g.own t ≠ .other → (g.give f o hs).own t = g.own t := by
    intro t hfree hother
    apply put_other
    rintro rfl
    exact hfrom.elim hfree hother
  have hcase : ∀ t, (g.give f o hs).own t = if t = f then o else g.own t := fun t => rfl
  have hnot : g.own f ≠ .data := by
    rcases hfrom with ho | ho
    · rw [ho]
      simp
    · rw [ho]
      simp
  have hpast := hg.uncounted f hnot
  refine { hg with unused := ?_, inside := ?_, kernel := ?_, count := ?_, uncounted := ?_, root := ?_, entries := ?_ }
  · intro t ht
    rw [hcase, if_neg]
    · exact hg.unused t ht
    · rintro rfl
      rw [hused] at ht
      cases ht
  · intro t
    rw [hcase]
    split
    · next htf => exact fun _ _ => htf ▸ ⟨Nat.pos_of_ne_zero hpos, hlt⟩
    · exact hg.inside t
  · rw [hcase, if_neg (Ne.symm hkernel), hg.kernel]
  · intro t
    rw [hcase]
    show _ → (Pmm.put g.holds f hs t).length = _
    split
    · next htf =>
      intro hod
      rw [htf, put_same, hpast, hdata hod]
    · next htf =>
      rw [put_other _ _ htf]
      exact hg.count t
  · intro t
    rw [hcase]
    split
    · next htf => exact fun _ => htf ▸ hpast
    · exact hg.uncounted t
  · intro t d
    rw [hcase]
    split
    · next htf => exact fun hot => htf.trans ((htable d [] hot).1 rfl)
    · exact hg.root t d
  · intro t d p
    rw [hcase]
    split
    · next htf => exact fun hot i => EntryOk.absent (htf ▸ (htable d p hot).2 i)
    · intro ht i
      apply (hg.entries t d p ht i).relabel hown
      intro f' hf'
      apply put_other
      rintro rfl
      exact hnot hf'

theorem Inv.give (hg : Inv g m) (hf : Fresh g m f)
    (hdata : o = .data → H.length = 1)
    (htable : ∀ d p, o = .table d p → (p = [] → f = d) ∧ ∀ i, has (m.mem f i) PTE_PRESENT = false) :
    Inv (g.give f o H) m ∧ Keeps O g m (g.give f o H) m := by
  have hne : ∀ t, g.own t ≠ .free → t ≠ f := by
    rintro t ht rfl
    exact ht hf.free
  refine ⟨hg.relabel (Or.inl hf.free) (Ne.symm (hne _ (by rw [hg.kernel]; simp))) hf.used hf.ne hf.lt hdata htable, ?_⟩
  exact ⟨rfl, rfl, fun t ht => put_other _ _ (hne t ht), fun _ _ _ _ _ _ => Kin.refl _, fun _ _ => rfl, fun _ _ => rfl⟩

theorem Inv.giveTable (hg : Inv g m) (hf : Fresh g m f) (hempty : ∀ i, has (m.mem f i) PTE_PRESENT = false)
    (hroot : p = [] → f = d) :
    Inv (g.give f (.table d p) []) m ∧ Keeps O g m (g.give f (.table d p) []) m := by
  apply hg.give hf (by simp)
  rintro d' p' ⟨⟩
  exact ⟨hroot, hempty⟩

theorem Inv.givePage (hg : Inv g m) (hf : Fresh g m f) (x : Nat × Nat) :
    Inv (g.give f .data [x]) m ∧ Keeps O g m (g.give f .data [x]) m :=
  hg.give hf (fun _ => rfl) (by simp)

end Give

/-! ## Changing an entry -/

section Change

variable {g : Labels} {m : Machine} {f t d i : Nat} {p : List Nat} {e : Word}
  {O : Nat → List Nat → Prop}

theorem setEntry_mem (m : Machine) (t i : Nat) (e : Word) (t' j : Nat) :
    (m.setEntry t i e).mem t' j = if t' = t ∧ j = i then e else m.mem t' j := by
  unfold Machine.setEntry
  by_cases ht : t' = t
  · subst ht
    by_cases hj : j = i
    · subst hj
      simp
    · rw [if_neg (by tauto)]
      simp only [put_same]
      exact put_other _ _ hj
  · rw [if_neg (by tauto)]
    simp only [put_other _ _ ht]

theorem setEntry_mem_other {t' : Nat} (m : Machine) (i : Nat) (e : Word) (h : t' ≠ t) :
    (m.setEntry t i e).mem t' = m.mem t' := put_other _ _ h

theorem setEntry_mem_same (m : Machine) (t i : Nat) (e : Word) : (m.setEntry t i e).mem t i = e := by
  rw [setEntry_mem, if_pos ⟨rfl, rfl⟩]

theorem setEntry_mem_index {j : Nat} (m : Machine) (t : Nat) (e : Word) (h : j ≠ i) :
    (m.setEntry t i e).mem t j = m.mem t j := by
  rw [setEntry_mem, if_neg fun hj => h hj.2]

theorem Inv.setEntry (hg : Inv g m) (ht : g.own t = .table d p)
    (he : EntryOk g (m.mem m.kernelPml4) t d p i e) (hkin : O d (p ++ [i]) → Kin (m.mem t i) e) :
    Inv g (m.setEntry t i e) ∧ Keeps O g m g (m.setEntry t i e) := by
  have hmem : ∀ t', g.own t' ≠ .table d p → (m.setEntry t i e).mem t' = m.mem t' := by
    intro t' ht'
    apply setEntry_mem_other
    rintro rfl
    exact ht' ht
  have hkernel : (m.setEntry t i e).mem m.kernelPml4 = m.mem m.kernelPml4 := hmem _ (by rw [hg.kernel]; simp)
  refine ⟨{ hg with hole := ?_, entries := ?_ }, rfl, rfl, fun _ _ => rfl, ?_, ?_, ?_⟩
  · show has ((m.setEntry t i e).mem m.kernelPml4 1) PTE_PRESENT = false
    rw [hkernel]
    exact hg.hole
  · intro t' d' p' ht' j
    show EntryOk g ((m.setEntry t i e).mem m.kernelPml4) t' d' p' j _
    rw [hkernel, setEntry_mem]
    split
    · next heq =>
      obtain ⟨rfl, rfl⟩ := heq
      rw [ht] at ht'
      cases ht'
      exact he
    · exact hg.entries t' d' p' ht' j
  · intro t' d' r j ht' hout
    rw [setEntry_mem]
    split
    · next heq =>
      obtain ⟨rfl, rfl⟩ := heq
      rw [ht] at ht'
      cases ht'
      exact hkin hout
    · exact Kin.refl _
  · exact fun f hf => hmem f (by rw [hf]; simp)
  · exact fun f hf => hmem f (by rw [hf]; simp)

def But (d : Nat) (p : List Nat) : Nat → List Nat → Prop := fun d' r => ¬(d' = d ∧ r = p)

theorem Inv.setEntry_but (hg : Inv g m) (ht : g.own t = .table d p)
    (he : EntryOk g (m.mem m.kernelPml4) t d p i e) :
    Inv g (m.setEntry t i e) ∧ Keeps (But d (p ++ [i])) g m g (m.setEntry t i e) :=
  hg.setEntry ht he fun hb => absurd ⟨rfl, rfl⟩ hb

theorem Inv.setHolds (hg : Inv g m) {n : Nat}
    (hf : g.own f = .data) (htotal : pm.totalFrames = m.pmm.totalFrames) (hused : pm.isUsed = m.pmm.isUsed)
    (hpast : pm.past = Pmm.put m.pmm.past f n) (hlen : H.length = 1 + n)
    (hnames : ∀ t d p i, g.own t = .table d p → p.length = 3 → has (m.mem t i) PTE_PRESENT = true →
      frameOf (m.mem t i) = f → (t, i) ∈ H ∧ (has (m.mem t i) PTE_RW = true → H.length = 1)) :
    Inv (g.setHolds f H) { m with pmm := pm } where
  total := by simpa only [htotal] using hg.total
  unused := fun f' hf' => hg.unused f' (by simpa only [hused] using hf')
  inside := fun f' hfree hother => by simpa only [htotal] using hg.inside f' hfree hother
  kernel := hg.kernel
  hole := hg.hole
  root := hg.root
  count := by
    intro f' hf'
    show (Pmm.put g.holds f H f').length = 1 + pm.past f'
    rw [hpast]
    by_cases hff : f' = f
    · rw [hff, put_same, put_same, hlen]
    · rw [put_other _ _ hff, put_other _ _ hff]
      exact hg.count f' hf'
  uncounted := by
    intro f' hf'
    show pm.past f' = 0
    rw [hpast, put_other]
    · exact hg.uncounted f' hf'
    · rintro rfl
      exact hf' hf
  entries := by
    intro t d p ht i hp
    rcases hg.entries t d p ht i hp with hk | hlink | ⟨hthree, hleaf⟩
    · exact Or.inl hk
    · exact Or.inr (Or.inl ⟨hlink.1, hlink.2.1, hlink.2.2.user, hlink.2.2.rw, hlink.2.2.huge, hlink.2.2.below⟩)
    · have hnow : (t, i) ∈ Pmm.put g.holds f H (frameOf (m.mem t i)) ∧
          (has (m.mem t i) PTE_RW = true → (Pmm.put g.holds f H (frameOf (m.mem t i))).length = 1) := by
        by_cases hff : frameOf (m.mem t i) = f
        · rw [hff, put_same]
          exact hnames t d p i ht hthree hp hff
        · rw [put_other _ _ hff]
          exact ⟨hleaf.held, hleaf.sole⟩
      exact Or.inr (Or.inr ⟨hthree, hleaf.user, hleaf.huge, hleaf.borrowed, hleaf.data, hnow.1, hnow.2⟩)

theorem Inv.takeBack (hg : Inv g m) (hkernel : f ≠ m.kernelPml4)
    (hown : ∀ d p, g.own f ≠ .table d p) (hpage : m.pmm.past f = 0)
    (htotal : pm.totalFrames = m.pmm.totalFrames) (hpast : pm.past = m.pmm.past)
    (hused : ∀ f', pm.isUsed f' = false → m.pmm.isUsed f' = false ∨ f' = f)
    (hnames : ∀ t d p i, g.own t = .table d p → p.length = 3 → has (m.mem t i) PTE_PRESENT = true →
      frameOf (m.mem t i) ≠ f) :
    Inv (g.give f .free []) { m with pmm := pm } := by
  have hcase : ∀ t, (g.give f .free []).own t = if t = f then .free else g.own t := fun t => rfl
  refine { hg with total := ?_, unused := ?_, inside := ?_, kernel := ?_, count := ?_, uncounted := ?_, root := ?_, entries := ?_ }
  · simpa only [htotal] using hg.total
  · intro t ht
    rw [hcase]
    split
    · rfl
    · next htf =>
      rcases hused t ht with hnot | hnot
      · exact hg.unused t hnot
      · exact absurd hnot htf
  · intro t
    rw [hcase]
    split
    · exact fun h => absurd rfl h
    · intro hfree hother
      simpa only [htotal] using hg.inside t hfree hother
  · rw [hcase, if_neg (Ne.symm hkernel)]
    exact hg.kernel
  · intro t
    rw [hcase]
    show _ → (Pmm.put g.holds f [] t).length = 1 + pm.past t
    split
    · simp
    · next htf =>
      rw [put_other _ _ htf, hpast]
      exact hg.count t
  · intro t
    rw [hcase]
    show _ → pm.past t = 0
    rw [hpast]
    split
    · next htf => exact fun _ => htf ▸ hpage
    · exact hg.uncounted t
  · intro t d
    rw [hcase]
    split
    · simp
    · exact hg.root t d
  · intro t d p
    rw [hcase]
    split
    · simp
    · intro ht i hp
      have hne : ∀ f', g.own f' ≠ g.own f → (g.give f .free []).own f' = g.own f' := by
        intro f' hf'
        apply put_other
        rintro rfl
        exact hf' rfl
      rcases hg.entries t d p ht i hp with hk | ⟨hlt, htop, hlink⟩ | ⟨hthree, hleaf⟩
      · exact Or.inl hk
      · refine Or.inr (Or.inl ⟨hlt, htop, hlink.user, hlink.rw, hlink.huge, ?_⟩)
        rw [hne _ (by rw [hlink.below]; exact (hown _ _).symm)]
        exact hlink.below
      · have hff := hnames t d p i ht hthree hp
        have hholds : (g.give f .free []).holds (frameOf (m.mem t i)) = g.holds (frameOf (m.mem t i)) :=
          put_other _ _ hff
        refine Or.inr (Or.inr ⟨hthree, hleaf.user, hleaf.huge, hleaf.borrowed, ?_, ?_, ?_⟩)
        · exact (put_other _ _ hff).trans hleaf.data
        · rw [hholds]
          exact hleaf.held
        · rw [hholds]
          exact hleaf.sole

def Labels.abandon (g : Labels) (d : Nat) : Labels where
  own t := match g.own t with
    | .table d' p => if d' = d then .other else .table d' p
    | o => o
  holds := g.holds

theorem abandon_table {d' : Nat} :
    (g.abandon d).own t = .table d' p ↔ g.own t = .table d' p ∧ d' ≠ d := by
  unfold Labels.abandon
  constructor
  · intro h
    simp only at h
    split at h
    · split at h
      · cases h
      · next hne =>
        cases h
        exact ⟨by assumption, hne⟩
    · next hno => exact absurd h (hno _ _)
  · rintro ⟨h, hne⟩
    simp only [h, if_neg hne]

theorem abandon_eq (h : g.own t = o) (ho : ∀ d' p, o ≠ .table d' p) : (g.abandon d).own t = o := by
  unfold Labels.abandon
  simp only [h]

theorem abandon_own (g : Labels) (d t : Nat) :
    (g.abandon d).own t = g.own t ∨ ((g.abandon d).own t = .other ∧ ∃ p, g.own t = .table d p) := by
  unfold Labels.abandon
  simp only
  split
  · next d' p h =>
    split
    · next hd => exact Or.inr ⟨rfl, p, hd ▸ h⟩
    · exact Or.inl h.symm
  · exact Or.inl rfl

theorem Inv.abandon (hg : Inv g m) (d : Nat) : Inv (g.abandon d) m := by
  have hdata : ∀ f, (g.abandon d).own f = .data ↔ g.own f = .data := by
    intro f
    rcases abandon_own g d f with h | ⟨h, p, h'⟩
    · rw [h]
    · rw [h, h']
      simp
  refine { hg with unused := ?_, inside := ?_, kernel := ?_, count := ?_, uncounted := ?_, root := ?_, entries := ?_ }
  · exact fun f hf => abandon_eq (hg.unused f hf) (by simp)
  · intro f hfree hother
    rcases abandon_own g d f with h | ⟨h, -⟩
    · rw [h] at hfree hother
      exact hg.inside f hfree hother
    · exact absurd h hother
  · exact abandon_eq hg.kernel (by simp)
  · exact fun f hf => hg.count f ((hdata f).mp hf)
  · exact fun f hf => hg.uncounted f (mt (hdata f).mpr hf)
  · exact fun t d' h => hg.root t d' (abandon_table.mp h).1
  · intro t d' p ht i hp
    obtain ⟨ht, hne⟩ := abandon_table.mp ht
    rcases hg.entries t d' p ht i hp with hk | ⟨hlt, htop, hlink⟩ | ⟨hthree, hleaf⟩
    · exact Or.inl hk
    · exact Or.inr (Or.inl ⟨hlt, htop, hlink.user, hlink.rw, hlink.huge, abandon_table.mpr ⟨hlink.below, hne⟩⟩)
    · exact Or.inr (Or.inr ⟨hthree, hleaf.user, hleaf.huge, hleaf.borrowed, (hdata _).mpr hleaf.data, hleaf.held,
        hleaf.sole⟩)

end Change

end Zelr.Paging
