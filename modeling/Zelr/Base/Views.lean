import Mathlib.Data.List.Forall2

/-!
# What is seen of a state

A view keeps some of a state and hides the rest. Where steps and outputs depend on the view alone, what is hidden
never shows.
-/

namespace Zelr.Views

section Slots

variable {α β : Type} {view : α → β} {l l' : List α} {i : Nat} {f : α → α} {c : α}

theorem map_modify (h : ∀ a ∈ l[i]?, view (f a) = view a) : (l.modify i f).map view = l.map view := by
  apply List.ext_getElem?
  intro j
  rw [List.getElem?_map, List.getElem?_map]
  by_cases hij : i = j
  · subst hij
    rw [List.getElem?_modify_eq]
    cases hget : l[i]? with
    | none => rfl
    | some a => exact congrArg some (h a hget)
  · rw [List.getElem?_modify_ne f l hij]

theorem map_modify_congr (h : l.map view = l'.map view) (hf : ∀ a a', view a = view a' → view (f a) = view (f a')) :
    (l.modify i f).map view = (l'.modify i f).map view := by
  apply List.ext_getElem?
  intro j
  have hj := congrArg (·[j]?) h
  simp only [List.getElem?_map] at hj ⊢
  by_cases hij : i = j
  · subst hij
    rw [List.getElem?_modify_eq, List.getElem?_modify_eq]
    cases hget : l[i]? with
    | none =>
      rw [hget] at hj
      rw [Option.map_eq_none_iff.mp hj.symm]
    | some a =>
      rw [hget] at hj
      obtain ⟨a', ha', hview⟩ := Option.map_eq_some_iff.mp hj.symm
      rw [ha']
      exact congrArg some (hf a a' hview.symm)
  · rw [List.getElem?_modify_ne f l hij, List.getElem?_modify_ne f l' hij, hj]

theorem map_set (h : ∀ a ∈ l[i]?, view c = view a) : (l.set i c).map view = l.map view := by
  apply List.ext_getElem?
  intro j
  rw [List.getElem?_map, List.getElem?_map, List.getElem?_set']
  by_cases hij : i = j
  · subst hij
    rw [if_pos rfl]
    cases hget : l[i]? with
    | none => rfl
    | some a => exact congrArg some (h a hget)
  · rw [if_neg hij]

theorem map_set_congr (h : l.map view = l'.map view) : (l.set i c).map view = (l'.set i c).map view := by
  rw [List.map_set, List.map_set, h]

theorem findIdx?_congr {p : α → Bool} (h : l.map view = l'.map view) (hp : ∀ a a', view a = view a' → p a = p a') :
    l.findIdx? p = l'.findIdx? p := by
  induction l generalizing l' with
  | nil => rw [List.map_eq_nil_iff.mp h.symm]
  | cons a l ih =>
    obtain ⟨a', l', rfl, ha, hl⟩ := List.map_eq_cons_iff.mp h.symm
    rw [List.findIdx?_cons, List.findIdx?_cons, hp a a' ha.symm, ih hl.symm]

end Slots

section Outputs

variable {σ ε ο ν : Type}

def outputs (step : σ → ε → σ) (out : σ → ε → Option ο) : σ → List ε → List ο
  | _, [] => []
  | s, e :: es => (out s e).toList ++ outputs step out (step s e) es

variable {step : σ → ε → σ} {out : σ → ε → Option ο} {view : σ → ν}

theorem outputs_eq (hstep : ∀ s s' e, view s = view s' → view (step s e) = view (step s' e))
    (hout : ∀ s s' e, view s = view s' → out s e = out s' e) {s s' : σ} (h : view s = view s') (es : List ε) :
    outputs step out s es = outputs step out s' es := by
  induction es generalizing s s' with
  | nil => rfl
  | cons e es ih => rw [outputs, outputs, hout s s' e h, ih (hstep s s' e h)]

end Outputs

end Zelr.Views
