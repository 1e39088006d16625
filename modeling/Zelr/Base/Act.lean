import Mathlib.Tactic.Common

/-!
# Actions on an object that may give up

A C function that works on one object and answers false half way through leaves the object as it
had become by then. An `Act` is that: the object is handed on whether or not there is an answer.
-/

namespace Zelr

variable {n : Nat}

def Act (σ α : Type) : Type := σ → Option α × σ

namespace Act

variable {σ α β : Type}

instance : Monad (Act σ) where
  pure a := fun s => (some a, s)
  bind m f := fun s =>
    match m s with
    | (some a, s') => f a s'
    | (none, s') => (none, s')

def get : Act σ σ := fun s => (some s, s)

def gets (f : σ → α) : Act σ α := fun s => (some (f s), s)

def modify (f : σ → σ) : Act σ Unit := fun s => (some (), f s)

def stop : Act σ α := fun s => (none, s)

def ofOption (a : Option α) : Act σ α := fun s => (a, s)

def attempt (m : Act σ α) : Act σ (Option α) := fun s => (some (m s).1, (m s).2)

def zoom {τ : Type} (part : σ → τ) (back : τ → σ → σ) (m : Act τ α) : Act σ α := fun s =>
  ((m (part s)).1, back (m (part s)).2 s)

/-- `for (i = 0; i < n; i++)`, left early when the body gives up. -/
def upto (body : Nat → Act σ Unit) : Nat → Act σ Unit
  | 0 => pure ()
  | n + 1 => do
    upto body n
    body n

@[simp] theorem gets_apply (f : σ → α) (s : σ) : (gets f : Act σ α) s = (some (f s), s) := rfl
@[simp] theorem pure_apply (a : α) (s : σ) : (pure a : Act σ α) s = (some a, s) := rfl
@[simp] theorem get_apply (s : σ) : (get : Act σ σ) s = (some s, s) := rfl
@[simp] theorem modify_apply (f : σ → σ) (s : σ) : modify f s = (some (), f s) := rfl
@[simp] theorem stop_apply (s : σ) : (stop : Act σ α) s = (none, s) := rfl
@[simp] theorem ofOption_apply (a : Option α) (s : σ) : (ofOption a : Act σ α) s = (a, s) := rfl
@[simp] theorem attempt_apply (m : Act σ α) (s : σ) : attempt m s = (some (m s).1, (m s).2) := rfl

theorem bind_apply (m : Act σ α) (f : α → Act σ β) (s : σ) :
    (m >>= f) s = match m s with
      | (some a, s') => f a s'
      | (none, s') => (none, s') := rfl

theorem bind_get (f : σ → Act σ β) (s : σ) : ((get : Act σ σ) >>= f) s = f s s := rfl

theorem bind_modify (g : σ → σ) (f : Unit → Act σ β) (s : σ) : (modify g >>= f) s = f () (g s) := rfl

variable {f : α → Act σ β} {m : Act σ α} {s : σ}

theorem bind_of_some {s' : σ} {a : α} (h : m s = (some a, s')) :
    (m >>= f) s = f a s' := by rw [bind_apply, h]

theorem bind_of_none {s' : σ} (h : m s = (none, s')) :
    (m >>= f) s = (none, s') := by rw [bind_apply, h]

theorem bind_eq_some {s'' : σ} {b : β} :
    (m >>= f) s = (some b, s'') ↔ ∃ a s', m s = (some a, s') ∧ f a s' = (some b, s'') := by
  rw [bind_apply]
  constructor
  · intro h
    split at h
    · next a s' hm => exact ⟨a, s', hm, h⟩
    · cases h
  · rintro ⟨a, s', hm, hf⟩
    rw [hm]
    exact hf

/-! ## What an action keeps, whether or not it answers -/

def Preserves (I : σ → Prop) (m : Act σ α) : Prop := ∀ s, I s → I (m s).2

section Rules

variable {I : σ → Prop}

theorem Preserves.pure (a : α) : Preserves I (pure a : Act σ α) := fun _ h => h

theorem Preserves.get : Preserves I (Act.get : Act σ σ) := fun _ h => h

theorem Preserves.stop : Preserves I (Act.stop : Act σ α) := fun _ h => h

theorem Preserves.ofOption (a : Option α) : Preserves I (Act.ofOption a : Act σ α) := fun _ h => h

theorem Preserves.modify {f : σ → σ} (h : ∀ s, I s → I (f s)) : Preserves I (Act.modify f) := h

variable {m : Act σ α}

theorem Preserves.attempt (h : Preserves I m) : Preserves I (Act.attempt m) := h

theorem Preserves.bind (hm : Preserves I m)
    (hf : ∀ a, Preserves I (f a)) : Preserves I (m >>= f) := by
  intro s hs
  have hmid := hm s hs
  rw [bind_apply]
  split
  · next a s' h =>
    rw [h] at hmid
    exact hf a s' hmid
  · next s' h =>
    rw [h] at hmid
    exact hmid

theorem Preserves.ite {c : Prop} [Decidable c] {m' : Act σ α} (hm : Preserves I m)
    (hm' : Preserves I m') : Preserves I (if c then m else m') := by
  split
  · exact hm
  · exact hm'

theorem Preserves.upto {body : Nat → Act σ Unit} (h : ∀ i, i < n → Preserves I (body i)) :
    Preserves I (upto body n) := by
  induction n with
  | zero => exact Preserves.pure ()
  | succ n ih =>
    apply Preserves.bind (ih fun i hi => h i (by omega))
    exact fun _ => h n (by omega)

theorem Preserves.of_eq (h : Preserves I m) {s' : σ} {r : Option α}
    (hm : m s = (r, s')) (hs : I s) : I s' := by
  have := h s hs
  rwa [hm] at this

end Rules

/-! ## Before and after

`Triple P m Q E`: from a state with `P`, an answer leaves `Q` and giving up leaves `E`. -/

def Triple (P : σ → Prop) (m : Act σ α) (Q : α → σ → Prop) (E : σ → Prop) : Prop :=
  ∀ s, P s → match m s with
    | (some a, s') => Q a s'
    | (none, s') => E s'

section Triples

variable {P P' E : σ → Prop} {Q : α → σ → Prop}

variable {m : Act σ α}

theorem Triple.bind {R : β → σ → Prop} (hm : Triple P m Q E)
    (hf : ∀ a, Triple (Q a) (f a) R E) : Triple P (m >>= f) R E := by
  intro s hs
  have hmid := hm s hs
  rw [bind_apply]
  split at hmid
  · next a s' h => exact hf a s' hmid
  · exact hmid

theorem Preserves.triple {I : σ → Prop} (h : Preserves I m) (hIE : ∀ s, I s → E s) :
    Triple I m (fun _ => I) E := by
  intro s hs
  have hmid := h s hs
  split
  · next hm =>
    rw [hm] at hmid
    exact hmid
  · next hm =>
    rw [hm] at hmid
    exact hIE _ hmid

theorem Preserves.bind_triple {I : σ → Prop} {R : β → σ → Prop}
    (hm : Preserves I m) (hIE : ∀ s, I s → E s) (hf : ∀ a, Triple I (f a) R E) :
    Triple I (m >>= f) R E := Triple.bind (hm.triple hIE) hf

theorem Triple.modify {f : σ → σ} (h : ∀ s, P s → P' (f s)) :
    Triple P (Act.modify f) (fun _ => P') E := h

theorem Triple.upto {I : Nat → σ → Prop} {body : Nat → Act σ Unit}
    (h : ∀ i, i < n → Triple (I i) (body i) (fun _ => I (i + 1)) E) :
    Triple (I 0) (upto body n) (fun _ => I n) E := by
  induction n with
  | zero => exact fun _ hs => hs
  | succ n ih =>
    apply Triple.bind (ih fun i hi => h i (by omega))
    intro _
    exact h n (by omega)

theorem Triple.gives (h : Triple P m Q E) {s' : σ} {a : α} (hs : P s)
    (hm : m s = (some a, s')) : Q a s' := by
  have := h s hs
  rwa [hm] at this

end Triples

end Act

end Zelr
