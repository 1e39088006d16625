import Mathlib.Data.List.Nodup
import Mathlib.Algebra.Order.Group.Nat

/-!
# Keys that are derived, put in, and counted under

One end of a link whose keys come and go.
-/

namespace Zelr.Session

inductive Phase where
  | idle | joining | joined
  deriving DecidableEq, Repr

/-- The keys and counters of one end, and what was ever done with them. -/
structure Link (K T F : Type) where
  phase : Phase
  pending : Option K
  tk : Option K
  gk : Option K
  tx : Nat
  rx : T → Nat
  rxg : Nat
  made : List K
  sealed : List (K × Nat)
  taken : List (K × F)

/-- How a received frame is counted: under the group key or in a class of the pairwise key, and its number. -/
structure Counting (T F : Type) where
  cls : F → Option T
  num : F → Nat

variable {K T F : Type} [DecidableEq T]

/-- What one end can do. The counter it sends with has `size` values, and `ok` says which group keys
may be put in. -/
inductive Step (c : Counting T F) (size : Nat) (ok : Link K T F → K → Prop) :
    Link K T F → Link K T F → Prop
  | move {s : Link K T F} (p : Phase) (hp : p = .joining → s.phase = .joining) :
    Step c size ok s { s with phase := p }
  | clear {s : Link K T F} (p : Phase) (hp : p ≠ .joining) :
    Step c size ok s { s with phase := p, tk := none, gk := none }
  | join {s : Link K T F} :
    Step c size ok s
      { s with phase := .joining, pending := none, tk := none, gk := none, tx := 0, rx := fun _ => 0, rxg := 0 }
  | derive {s : Link K T F} (k : K) :
    Step c size ok s { s with pending := some k, made := s.made ++ [k] }
  | install {s : Link K T F} {k : K} (g : K) (hp : s.phase = .joining) (hk : s.pending = some k) (hg : ok s g) :
    Step c size ok s { s with phase := .joined, tk := some k, gk := some g }
  | regroup {s : Link K T F} (g : K) (hg : s.gk ≠ none → ok s g) :
    Step c size ok s { s with gk := s.gk.map fun _ => g, rxg := 0 }
  | send {s : Link K T F} {k : K} (hk : s.tk = some k) :
    Step c size ok s { s with tx := (s.tx + 1) % size, sealed := s.sealed ++ [(k, (s.tx + 1) % size)] }
  | pairwise {s : Link K T F} {k : K} {f : F} {t : T} (hk : s.tk = some k) (ht : c.cls f = some t)
      (hn : s.rx t < c.num f) :
    Step c size ok s { s with rx := Function.update s.rx t (c.num f), taken := s.taken ++ [(k, f)] }
  | group {s : Link K T F} {g : K} {f : F} (hg : s.gk = some g) (ht : c.cls f = none) (hn : s.rxg < c.num f) :
    Step c size ok s { s with rxg := c.num f, taken := s.taken ++ [(g, f)] }

abbrev Steps (c : Counting T F) (size : Nat) (ok : Link K T F → K → Prop) :=
  Relation.ReflTransGen (Step c size ok)

variable {c : Counting T F} {size : Nat} {ok : Link K T F → K → Prop} {s s' : Link K T F}

theorem Step.made_prefix (h : Step c size ok s s') : s.made <+: s'.made := by
  cases h with
  | derive k => exact List.prefix_append ..
  | _ => exact List.prefix_rfl

theorem Step.sealed_prefix (h : Step c size ok s s') : s.sealed <+: s'.sealed := by
  cases h with
  | send hk => exact List.prefix_append ..
  | _ => exact List.prefix_rfl

/-! ## Numbers of one key -/

section Numbers

variable [DecidableEq K]

def sentUnder (l : List (K × Nat)) (k : K) : Nat := l.countP fun e => e.1 = k

theorem sentUnder_append (l : List (K × Nat)) (k k' : K) (n : Nat) :
    sentUnder (l ++ [(k', n)]) k = sentUnder l k + if k' = k then 1 else 0 := by
  simp [sentUnder, List.countP_append, List.countP_cons]

theorem sentUnder_eq_zero {l : List (K × Nat)} {k : K} (h : ∀ n, (k, n) ∉ l) : sentUnder l k = 0 := by
  rw [sentUnder, List.countP_eq_zero]
  rintro ⟨k', n⟩ he hk
  obtain rfl : k' = k := by simpa using hk
  exact h n he

theorem sentUnder_mono {l l' : List (K × Nat)} (h : l <+: l') (k : K) : sentUnder l k ≤ sentUnder l' k :=
  h.sublist.countP_le

/-- Every number sent under a key is one of the first ones, and the key in use has sent them all. -/
structure Numbered (s : Link K T F) : Prop where
  joining : s.phase = .joining → s.tk = none ∧ s.tx = 0
  tk_made : ∀ k, s.tk = some k → k ∈ s.made
  pending_made : ∀ k, s.pending = some k → k ∈ s.made
  sealed_made : ∀ k n, (k, n) ∈ s.sealed → k ∈ s.made
  pending_unused : s.phase = .joining → ∀ k, s.pending = some k → ∀ n, (k, n) ∉ s.sealed
  tx_eq : ∀ k, s.tk = some k → s.tx = sentUnder s.sealed k
  within : ∀ k n, (k, n) ∈ s.sealed → n ≤ sentUnder s.sealed k
  nodup : s.sealed.Nodup

theorem Numbered.step (hs : Numbered s) (h : Step c size ok s s') (hmade : s'.made.Nodup)
    (hsize : ∀ k, sentUnder s'.sealed k < size) : Numbered s' := by
  cases h with
  | move p hp =>
    exact { hs with
      joining := fun he => hs.joining (hp he)
      pending_unused := fun he => hs.pending_unused (hp he) }
  | clear p hp =>
    exact { hs with
      joining := fun he => absurd he hp
      tk_made := fun _ he => nomatch he
      pending_unused := fun he => absurd he hp
      tx_eq := fun _ he => nomatch he }
  | join =>
    exact { hs with
      joining := fun _ => ⟨rfl, rfl⟩
      tk_made := fun _ he => nomatch he
      pending_made := fun _ he => nomatch he
      pending_unused := fun _ _ he => nomatch he
      tx_eq := fun _ he => nomatch he }
  | derive k =>
    have hnew : k ∉ s.made := by
      intro hk
      exact List.disjoint_of_nodup_append hmade hk (List.mem_singleton_self k)
    refine { hs with
      tk_made := fun k' he => List.mem_append_left _ (hs.tk_made k' he)
      pending_made := ?_
      sealed_made := fun k' n he => List.mem_append_left _ (hs.sealed_made k' n he)
      pending_unused := ?_ }
    · rintro _ ⟨⟩
      exact List.mem_append_right _ (List.mem_singleton_self k)
    · rintro - _ ⟨⟩ n he
      exact hnew (hs.sealed_made k n he)
  | @install k g hp hk hg =>
    have hunused := hs.pending_unused hp k hk
    refine { hs with joining := nofun, tk_made := ?_, pending_unused := nofun, tx_eq := ?_ }
    · rintro _ ⟨⟩
      exact hs.pending_made k hk
    · rintro _ ⟨⟩
      rw [sentUnder_eq_zero hunused]
      exact (hs.joining hp).2
  | regroup g hg => exact { hs with }
  | @send k hk =>
    have hcount := hsize k
    simp only [sentUnder_append, if_true] at hcount
    have htx := hs.tx_eq k hk
    have hwrap : (s.tx + 1) % size = s.tx + 1 := Nat.mod_eq_of_lt (by omega)
    rw [hwrap]
    have hidle : s.phase ≠ .joining := by
      intro hp
      rw [(hs.joining hp).1] at hk
      cases hk
    refine { hs with
      joining := fun he => absurd he hidle
      sealed_made := ?_
      pending_unused := fun he => absurd he hidle
      tx_eq := ?_
      within := ?_
      nodup := ?_ }
    · intro k' n he
      rcases List.mem_append.mp he with he | he
      · exact hs.sealed_made k' n he
      · cases List.mem_singleton.mp he
        exact hs.tk_made k hk
    · intro k' hk'
      cases hk.symm.trans hk'
      rw [sentUnder_append, if_pos rfl, htx]
    · intro k' n he
      rw [sentUnder_append]
      rcases List.mem_append.mp he with he | he
      · exact Nat.le_add_right_of_le (hs.within k' n he)
      · cases List.mem_singleton.mp he
        rw [if_pos rfl, htx]
    · refine List.nodup_append.mpr ⟨hs.nodup, List.nodup_singleton _, ?_⟩
      -- The number is past every one sent under this key.
      rintro ⟨k', n⟩ he e hmem rfl
      cases List.mem_singleton.mp hmem
      have hle := hs.within k _ he
      omega
  | pairwise hk ht hn => exact { hs with }
  | group hg ht hn => exact { hs with }

theorem Numbered.steps (hs : Numbered s) (h : Steps c size ok s s') (hmade : s'.made.Nodup)
    (hsize : ∀ k, sentUnder s'.sealed k < size) : Numbered s' := by
  induction h with
  | refl => exact hs
  | tail _ hstep ih =>
    refine Numbered.step (ih ?_ ?_) hstep hmade hsize
    · exact hmade.sublist hstep.made_prefix.sublist
    · intro k
      exact lt_of_le_of_lt (sentUnder_mono hstep.sealed_prefix k) (hsize k)

omit [DecidableEq T] in
theorem Numbered.told_apart (hs : Numbered s) {n : Nat} (hn : ∀ k, sentUnder s.sealed k < n) :
    (s.sealed.map fun e => (e.1, e.2 % n)).Nodup := by
  refine List.Nodup.map_on ?_ hs.nodup
  rintro ⟨k, i⟩ hi ⟨k', j⟩ hj heq
  simp only [Prod.mk.injEq] at heq
  obtain ⟨rfl, hmod⟩ := heq
  have hin := (hs.within k i hi).trans_lt (hn k)
  have hjn := (hs.within k j hj).trans_lt (hn k)
  rw [Nat.mod_eq_of_lt hin, Nat.mod_eq_of_lt hjn] at hmod
  rw [hmod]

end Numbers

/-! ## Nothing taken twice -/

/-- What tells two frames taken under one key apart. -/
def Counting.mark (c : Counting T F) (e : K × F) : K × Option T × Nat := (e.1, c.cls e.2, c.num e.2)

/-- Under the keys in use nothing was taken past the last number of its class. -/
structure Once (c : Counting T F) (s : Link K T F) : Prop where
  joining : s.phase = .joining → s.tk = none
  tk_made : ∀ k, s.tk = some k → k ∈ s.made
  pending_made : ∀ k, s.pending = some k → k ∈ s.made
  taken_made : ∀ k f t, (k, f) ∈ s.taken → c.cls f = some t → k ∈ s.made
  pending_unused : s.phase = .joining → ∀ k, s.pending = some k → ∀ f t, (k, f) ∈ s.taken → c.cls f ≠ some t
  below_rx : ∀ k, s.tk = some k → ∀ f t, (k, f) ∈ s.taken → c.cls f = some t → c.num f ≤ s.rx t
  below_rxg : ∀ g, s.gk = some g → ∀ f, (g, f) ∈ s.taken → c.cls f = none → c.num f ≤ s.rxg
  nodup : (s.taken.map c.mark).Nodup

def Untaken (c : Counting T F) (s : Link K T F) (g : K) : Prop := ∀ e ∈ s.taken, e.1 = g → c.cls e.2 ≠ none

instance [DecidableEq K] (c : Counting T F) (s : Link K T F) (g : K) : Decidable (Untaken c s g) :=
  inferInstanceAs (Decidable (∀ e ∈ s.taken, e.1 = g → c.cls e.2 ≠ none))

omit [DecidableEq T] in
theorem nodup_mark_append {l : List (K × F)} {k : K} {f : F} (hl : (l.map c.mark).Nodup)
    (hnew : ∀ f', (k, f') ∈ l → c.cls f' = c.cls f → c.num f' < c.num f) : ((l ++ [(k, f)]).map c.mark).Nodup := by
  rw [List.map_append]
  refine List.nodup_append.mpr ⟨hl, List.nodup_singleton _, ?_⟩
  intro m hm m' hm' heq
  obtain ⟨⟨k', f'⟩, hmem, rfl⟩ := List.mem_map.mp hm
  obtain rfl := List.mem_singleton.mp hm'
  simp only [Counting.mark, Prod.mk.injEq] at heq
  obtain ⟨rfl, hcls, hnum⟩ := heq
  exact absurd hnum (hnew f' hmem hcls).ne

theorem Once.step (hs : Once c s) (h : Step c size (Untaken c) s s') (hmade : s'.made.Nodup) : Once c s' := by
  cases h with
  | move p hp =>
    exact { hs with
      joining := fun he => hs.joining (hp he)
      pending_unused := fun he => hs.pending_unused (hp he) }
  | clear p hp =>
    exact { hs with
      joining := fun he => absurd he hp
      tk_made := fun _ he => nomatch he
      pending_unused := fun he => absurd he hp
      below_rx := fun _ he => nomatch he
      below_rxg := fun _ he => nomatch he }
  | join =>
    exact { hs with
      joining := fun _ => rfl
      tk_made := fun _ he => nomatch he
      pending_made := fun _ he => nomatch he
      pending_unused := fun _ _ he => nomatch he
      below_rx := fun _ he => nomatch he
      below_rxg := fun _ he => nomatch he }
  | derive k =>
    have hnew : k ∉ s.made := by
      intro hk
      exact List.disjoint_of_nodup_append hmade hk (List.mem_singleton_self k)
    refine { hs with
      tk_made := fun k' he => List.mem_append_left _ (hs.tk_made k' he)
      pending_made := ?_
      taken_made := fun k' f t he ht => List.mem_append_left _ (hs.taken_made k' f t he ht)
      pending_unused := ?_ }
    · rintro _ ⟨⟩
      exact List.mem_append_right _ (List.mem_singleton_self k)
    · rintro - _ ⟨⟩ f t he ht
      exact hnew (hs.taken_made k f t he ht)
  | @install k g hp hk hg =>
    refine { hs with
      joining := nofun
      tk_made := ?_
      pending_unused := nofun
      below_rx := ?_
      below_rxg := ?_ }
    · rintro _ ⟨⟩
      exact hs.pending_made k hk
    · rintro _ ⟨⟩ f t he ht
      exact absurd ht (hs.pending_unused hp k hk f t he)
    · rintro _ ⟨⟩ f he ht
      exact absurd ht (hg (g, f) he rfl)
  | regroup g hg =>
    refine { hs with below_rxg := ?_ }
    rintro g' hg' f he ht
    obtain ⟨old, hold, rfl⟩ := Option.map_eq_some_iff.mp hg'
    exact absurd ht (hg (by rw [hold]; exact nofun) (g, f) he rfl)
  | send hk => exact { hs with }
  | @pairwise k f t hk ht hn =>
    have hidle : s.phase ≠ .joining := by
      intro hp
      rw [hs.joining hp] at hk
      cases hk
    refine { hs with
      taken_made := ?_
      pending_unused := fun he => absurd he hidle
      below_rx := ?_
      below_rxg := ?_
      nodup := nodup_mark_append hs.nodup ?_ }
    · intro k' f' t' he ht'
      rcases List.mem_append.mp he with he | he
      · exact hs.taken_made k' f' t' he ht'
      · cases List.mem_singleton.mp he
        exact hs.tk_made k hk
    · intro k' hk' f' t' he ht'
      cases hk.symm.trans hk'
      rcases List.mem_append.mp he with he | he
      · have hle := hs.below_rx k hk f' t' he ht'
        simp only [Function.update_apply]
        split
        · subst t'
          omega
        · exact hle
      · cases List.mem_singleton.mp he
        cases ht.symm.trans ht'
        simp
    · intro g hg f' he ht'
      rcases List.mem_append.mp he with he | he
      · exact hs.below_rxg g hg f' he ht'
      · cases List.mem_singleton.mp he
        cases ht.symm.trans ht'
    · intro f' he hcls
      exact (hs.below_rx k hk f' t he (hcls.trans ht)).trans_lt hn
  | @group g f hg ht hn =>
    refine { hs with
      taken_made := ?_
      pending_unused := ?_
      below_rx := ?_
      below_rxg := ?_
      nodup := nodup_mark_append hs.nodup ?_ }
    · intro k' f' t' he ht'
      rcases List.mem_append.mp he with he | he
      · exact hs.taken_made k' f' t' he ht'
      · cases List.mem_singleton.mp he
        cases ht.symm.trans ht'
    · intro hp k' hk' f' t' he ht'
      rcases List.mem_append.mp he with he | he
      · exact hs.pending_unused hp k' hk' f' t' he ht'
      · cases List.mem_singleton.mp he
        cases ht.symm.trans ht'
    · intro k' hk' f' t' he ht'
      rcases List.mem_append.mp he with he | he
      · exact hs.below_rx k' hk' f' t' he ht'
      · cases List.mem_singleton.mp he
        cases ht.symm.trans ht'
    · intro g' hg' f' he ht'
      cases hg.symm.trans hg'
      rcases List.mem_append.mp he with he | he
      · exact (hs.below_rxg g hg f' he ht').trans hn.le
      · cases List.mem_singleton.mp he
        exact le_rfl
    · intro f' he hcls
      exact (hs.below_rxg g hg f' he (hcls.trans ht)).trans_lt hn

theorem Once.steps (hs : Once c s) (h : Steps c size (Untaken c) s s') (hmade : s'.made.Nodup) : Once c s' := by
  induction h with
  | refl => exact hs
  | tail _ hstep ih => exact Once.step (ih (hmade.sublist hstep.made_prefix.sublist)) hstep hmade

end Zelr.Session
