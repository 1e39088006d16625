import Mathlib.Data.List.Induction

/-!
# Runs of a partial step

A system that takes actions one after another, where an action may not be possible in a state.
-/

namespace Zelr.Runs

variable {σ α : Type} {step : σ → α → Option σ}

def run (step : σ → α → Option σ) (s : σ) : List α → Option σ
  | [] => some s
  | a :: as => do run step (← step s a) as

theorem run_cons {s s' : σ} {a : α} {as : List α} :
    run step s (a :: as) = some s' ↔ ∃ t, step s a = some t ∧ run step t as = some s' :=
  Option.bind_eq_some_iff

theorem run_snoc {s s' : σ} {as : List α} {a : α} :
    run step s (as ++ [a]) = some s' ↔ ∃ t, run step s as = some t ∧ step t a = some s' := by
  induction as generalizing s with
  | nil =>
    rw [List.nil_append, run_cons]
    constructor
    · rintro ⟨t, ht, hs'⟩
      obtain rfl := Option.some.inj hs'
      exact ⟨s, rfl, ht⟩
    · rintro ⟨t, ht, hs'⟩
      obtain rfl := Option.some.inj ht
      exact ⟨s', hs', rfl⟩
  | cons b as ih =>
    rw [List.cons_append, run_cons]
    constructor
    · rintro ⟨u, hu, hrun⟩
      obtain ⟨t, ht, hs'⟩ := ih.mp hrun
      exact ⟨t, run_cons.mpr ⟨u, hu, ht⟩, hs'⟩
    · rintro ⟨t, ht, hs'⟩
      obtain ⟨u, hu, hrun⟩ := run_cons.mp ht
      exact ⟨u, hu, ih.mpr ⟨t, hrun, hs'⟩⟩

theorem inv_of_step {Inv : σ → Prop} (hstep : ∀ s a s', Inv s → step s a = some s' → Inv s')
    {s s' : σ} {as : List α} (hs : Inv s) (h : run step s as = some s') : Inv s' := by
  induction as generalizing s with
  | nil =>
    obtain rfl := Option.some.inj h
    exact hs
  | cons a as ih =>
    obtain ⟨t, ht, hrun⟩ := run_cons.mp h
    exact ih (hstep s a t hs ht) hrun

/-- Every action of a run is right where it is taken. -/
def Each (step : σ → α → Option σ) (Ok : σ → α → Prop) (s : σ) : List α → Prop
  | [] => True
  | a :: as => Ok s a ∧ ∀ s' ∈ step s a, Each step Ok s' as

instance Each.decidable (Ok : σ → α → Prop) [∀ s a, Decidable (Ok s a)] :
    ∀ (s : σ) (as : List α), Decidable (Each step Ok s as)
  | _, [] => inferInstanceAs (Decidable True)
  | s, a :: as =>
    have := fun s' => Each.decidable Ok s' as
    inferInstanceAs (Decidable (Ok s a ∧ ∀ s' ∈ step s a, Each step Ok s' as))

theorem inv_of_each {Inv : σ → Prop} {Ok : σ → α → Prop}
    (hstep : ∀ s a s', Inv s → Ok s a → step s a = some s' → Inv s') {s s' : σ} {as : List α}
    (hs : Inv s) (hok : Each step Ok s as) (h : run step s as = some s') : Inv s' := by
  induction as generalizing s with
  | nil =>
    obtain rfl := Option.some.inj h
    exact hs
  | cons a as ih =>
    obtain ⟨t, ht, hrun⟩ := run_cons.mp h
    obtain ⟨hright, hrest⟩ := hok
    exact ih (hstep s a t hs hright ht) (hrest t ht) hrun

section Throughout

variable {Inv Good : σ → Prop} {Ok : σ → α → Prop}

theorem throughout (hinv : ∀ s a s', Inv s → step s a = some s' → Inv s')
    (hgood : ∀ s a s', Inv s → Good s → step s a = some s' → Ok s a → Good s')
    {s : σ} (hs : Inv s) (hs' : Good s) {as : List α}
    (hok : ∀ bs b t t', bs ++ [b] <+: as → run step s bs = some t → step t b = some t' → Ok t b) :
    ∀ bs t, bs <+: as → run step s bs = some t → Good t := by
  intro bs
  induction bs using List.reverseRecOn with
  | nil =>
    intro t _ ht
    obtain rfl := Option.some.inj ht
    exact hs'
  | append_singleton bs b ih =>
    intro t hpre ht
    obtain ⟨u, hu, hub⟩ := run_snoc.mp ht
    have hbs : bs <+: as := (List.prefix_append bs [b]).trans hpre
    exact hgood u b t (inv_of_step hinv hs hu) (ih u hbs hu) hub (hok bs b u t hpre hu hub)

theorem throughout_iff (hinv : ∀ s a s', Inv s → step s a = some s' → Inv s')
    (hgood : ∀ s a s', Inv s → Good s → step s a = some s' → (Good s' ↔ Ok s a))
    {s : σ} (hs : Inv s) (hs' : Good s) {as : List α} :
    (∀ bs t, bs <+: as → run step s bs = some t → Good t) ↔
      ∀ bs b t t', bs ++ [b] <+: as → run step s bs = some t → step t b = some t' → Ok t b := by
  constructor
  · intro h bs b t t' hpre ht htb
    have hbs : bs <+: as := (List.prefix_append bs [b]).trans hpre
    have ht' : Good t' := h (bs ++ [b]) t' hpre (run_snoc.mpr ⟨t, ht, htb⟩)
    exact (hgood t b t' (inv_of_step hinv hs ht) (h bs t hbs ht) htb).mp ht'
  · exact throughout hinv (fun t b t' ht hgt htb => (hgood t b t' ht hgt htb).mpr) hs hs'

end Throughout

/-! ## Steps taken back -/

theorem foldl_undone {σ κ : Type} {E D : σ → κ → σ} {U : σ → σ} {P : σ → Prop} {l : List κ}
    (hkept : ∀ s, P s → ∀ k ∈ l, P (E s k)) (hundo : ∀ s, P s → ∀ k ∈ l, D (U (E s k)) k = U s)
    {s : σ} (hs : P s) : l.reverse.foldl D (U (l.foldl E s)) = U s := by
  induction l generalizing s with
  | nil => rfl
  | cons k l ih =>
    have hk : k ∈ k :: l := List.mem_cons_self
    have hrest := ih (fun s hs j hj => hkept s hs j (List.mem_cons_of_mem k hj))
      (fun s hs j hj => hundo s hs j (List.mem_cons_of_mem k hj)) (hkept s hs k hk)
    rw [List.reverse_cons, List.foldl_append]
    change D (l.reverse.foldl D (U (l.foldl E (E s k)))) k = U s
    rw [hrest]
    exact hundo s hs k hk

theorem foldl_kept {σ κ : Type} {E : σ → κ → σ} {P : σ → Prop} {l : List κ}
    (hkept : ∀ s, P s → ∀ k ∈ l, P (E s k)) {s : σ} (hs : P s) : P (l.foldl E s) := by
  induction l generalizing s with
  | nil => exact hs
  | cons k l ih =>
    exact ih (fun s hs j hj => hkept s hs j (List.mem_cons_of_mem k hj)) (hkept s hs k List.mem_cons_self)

end Zelr.Runs
