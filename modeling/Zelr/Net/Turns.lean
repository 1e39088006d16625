import Zelr.Net.Held

/-!
# Whose turn it is

At most one task is inside the drain. Only out of its handlers is the queue walked for ARP frames, and
the tail stands still meanwhile.
-/

namespace Zelr.Net

variable {l rest : List Place} {p p' : Place}

def Place.drains : Place → Bool
  | .drain _ | .drainTail _ _ | .drainLen _ _ | .drainCopy _ _ _ | .drainRelease _ _ _ _ | .drainSkip _ _
  | .drainDeliver _ | .giveBack => true
  | _ => false

def Place.walks : Place → Bool
  | .walkStart | .walk _ _ | .walkLen _ _ | .walkType _ _ | .walkRead _ _ | .walkEmpty _ _ _ | .walkArp _ _ _ => true
  | _ => false

/-- Calls around a call out of a handler: ARP handlers, and the drain's handler around them all. -/
inductive Nest : List Place → Prop
  | drain (n : Nat) : Nest [.drainDeliver n]
  | walk (i n : Nat) (frame : Bytes) {l : List Place} (h : Nest l) : Nest (.walkArp i n frame :: l)

/-- How a task can stand: nowhere, at one place that is no walk, or inside a handler of the drain. -/
inductive Shape : List Place → Prop
  | nil : Shape []
  | alone {p : Place} (h : p.walks = false) : Shape [p]
  | inside {p : Place} {rest : List Place} (hp : p.drains = false) (hf : p ≠ .forget) (h : Nest rest) : Shape (p :: rest)

def Drains (l : List Place) : Prop := ∃ p ∈ l, p.drains = true

theorem Nest.shape (h : Nest l) : Shape l := by
  cases h with
  | drain n => exact .alone rfl
  | walk i n frame h => exact .inside rfl nofun h

theorem Nest.drains (h : Nest l) : Drains l := by
  induction h with
  | drain n => exact ⟨_, List.mem_singleton_self _, rfl⟩
  | walk i n frame h ih =>
    obtain ⟨p, hp, hd⟩ := ih
    exact ⟨p, List.mem_cons_of_mem _ hp, hd⟩

theorem Drains.of_rest (h : Drains rest) : Drains (p :: rest) := by
  obtain ⟨d, hd, hdrains⟩ := h
  exact ⟨d, List.mem_cons_of_mem _ hd, hdrains⟩

theorem Shape.alone_of_drains (h : Shape (p :: rest)) (hp : p.drains = true) :
    rest = [] := by
  cases h with
  | alone => rfl
  | inside hp' => rw [hp'] at hp; cases hp

theorem Shape.nest_of_walks (h : Shape (p :: rest)) (hp : p.walks = true) :
    Nest rest := by
  cases h with
  | alone hp' => rw [hp'] at hp; cases hp
  | inside _ _ hn => exact hn

theorem Shape.not_walks (h : Shape l) (hd : ¬ Drains l) (hp : p ∈ l) :
    p.drains = false ∧ p.walks = false := by
  cases h with
  | nil => cases hp
  | alone hw =>
    cases List.mem_singleton.mp hp
    refine ⟨?_, hw⟩
    by_contra hdr
    exact hd ⟨p, hp, by simpa using hdr⟩
  | inside _ _ hn => exact absurd hn.drains.of_rest hd

structure Turns (q : Queue) : Prop where
  shape : ∀ t, Shape (q.calls t)
  one : ∀ t t', Drains (q.calls t) → Drains (q.calls t') → t = t'
  depth : ∀ t, Drains (q.calls t) → q.deliverDepth ≠ 0
  owner : ∀ t, q.deliverOwner = some t → ∃ p ∈ q.calls t, p.drains = true ∨ p = .forget

theorem turns_empty : Turns .empty where
  shape := fun _ => .nil
  one := fun _ _ h => absurd h (by simp [Drains, Queue.empty])
  depth := fun _ h => absurd h (by simp [Drains, Queue.empty])
  owner := fun _ h => nomatch h

variable {q : Queue} {t : Nat} {p : Place} {rest : List Place}

@[simp] theorem goOn_calls_self (q : Queue) (t : Nat) (l : List Place) : (q.goOn t l).calls t = l := by
  simp [Queue.goOn]

theorem goOn_calls_of_ne (q : Queue) {t' : Nat} (h : t' ≠ t) (l : List Place) : (q.goOn t l).calls t' = q.calls t' := by
  simp [Queue.goOn, h]

section
variable (h : Turns q)
include h

theorem Turns.goOn (hs : Shape l) (hd : Drains l → Drains (q.calls t))
    (ho : q.deliverOwner = some t → ∃ p ∈ l, p.drains = true ∨ p = .forget) : Turns (q.goOn t l) := by
  have hdr : ∀ t', Drains ((q.goOn t l).calls t') → Drains (q.calls t') := by
    intro t' ht'
    by_cases he : t' = t
    · subst he
      rw [goOn_calls_self] at ht'
      exact hd ht'
    · rwa [goOn_calls_of_ne q he] at ht'
  refine { shape := ?_, one := ?_, depth := fun t' ht' => h.depth t' (hdr t' ht'), owner := ?_ }
  · intro t'
    by_cases he : t' = t
    · subst he
      rwa [goOn_calls_self]
    · rw [goOn_calls_of_ne q he]
      exact h.shape t'
  · intro t₁ t₂ h₁ h₂
    exact h.one t₁ t₂ (hdr t₁ h₁) (hdr t₂ h₂)
  · intro t' ht'
    by_cases he : t' = t
    · subst he
      rw [goOn_calls_self]
      exact ho ht'
    · rw [goOn_calls_of_ne q he]
      exact h.owner t' ht'

theorem Turns.drain (hc : q.calls t = p :: rest) (hp : p.drains = true)
    (hp' : p'.drains = true) : Turns (q.goOn t (p' :: rest)) := by
  have hshape := h.shape t
  rw [hc] at hshape
  obtain rfl := hshape.alone_of_drains hp
  refine h.goOn (.alone ?_) ?_ ?_
  · cases p' <;> first | rfl | cases hp'
  · intro _
    rw [hc]
    exact ⟨p, List.mem_singleton_self p, hp⟩
  · intro _
    exact ⟨p', List.mem_singleton_self p', .inl hp'⟩

theorem Turns.inside (hc : q.calls t = p :: rest) (hn : Nest rest)
    (hp' : p'.drains = false) (hf : p' ≠ .forget) : Turns (q.goOn t (p' :: rest)) := by
  refine h.goOn (.inside hp' hf hn) ?_ ?_
  · intro _
    rw [hc]
    exact hn.drains.of_rest
  · intro _
    obtain ⟨d, hd, hdrains⟩ := hn.drains
    exact ⟨d, List.mem_cons_of_mem _ hd, .inl hdrains⟩

theorem Turns.ret (hc : q.calls t = p :: rest) (hp : p.drains = false) (hf : p ≠ .forget) :
    Turns (q.goOn t rest) := by
  have hshape := h.shape t
  have howner := h.owner t
  rw [hc] at hshape howner
  refine h.goOn ?_ ?_ ?_
  · cases hshape with
    | alone => exact .nil
    | inside _ _ hn => exact hn.shape
  · intro hd
    rw [hc]
    exact hd.of_rest
  · intro ho
    obtain ⟨d, hd, hkind⟩ := howner ho
    rcases List.mem_cons.mp hd with rfl | hd
    · rcases hkind with hkind | hkind
      · rw [hp] at hkind
        cases hkind
      · exact absurd hkind hf
    · exact ⟨d, hd, hkind⟩

theorem Turns.call (hm : mayCall (q.calls t)) : Turns (q.goOn t (.start :: q.calls t)) := by
  have hshape := h.shape t
  have howner := h.owner t
  refine h.goOn ?_ ?_ ?_
  · cases hc : q.calls t with
    | nil => exact .alone rfl
    | cons p rest =>
      rw [hc] at hshape hm
      refine .inside rfl nofun ?_
      cases hshape with
      | alone hw =>
        cases p with
        | drainDeliver n => exact .drain n
        | walkArp => cases hw
        | _ => cases hm
      | inside hd _ hn =>
        cases p with
        | walkArp i n frame => exact .walk i n frame hn
        | drainDeliver => cases hd
        | _ => cases hm
  · rintro ⟨d, hd, hdrains⟩
    rcases List.mem_cons.mp hd with rfl | hd
    · cases hdrains
    · exact ⟨d, hd, hdrains⟩
  · intro ho
    obtain ⟨d, hd, hkind⟩ := howner ho
    exact ⟨d, List.mem_cons_of_mem _ hd, hkind⟩

theorem Turns.take (hc : q.calls t = .start :: rest) (hd : q.deliverDepth = 0) (n : Nat) :
    Turns ((q.takeTurn t).goOn t (.drain n :: rest)) := by
  have hnone : ∀ t', ¬ Drains (q.calls t') := fun t' hd' => h.depth t' hd' hd
  have hshape := h.shape t
  have hself := hnone t
  rw [hc] at hshape hself
  obtain rfl : rest = [] := by
    cases hshape with
    | alone => rfl
    | inside _ _ hn => exact absurd hn.drains.of_rest hself
  have honly : ∀ t', Drains (((q.takeTurn t).goOn t [.drain n]).calls t') → t' = t := by
    intro t' ht'
    by_contra he
    rw [goOn_calls_of_ne _ he] at ht'
    exact hnone t' ht'
  refine { shape := ?_, one := ?_, depth := fun _ _ => Nat.one_ne_zero, owner := ?_ }
  · intro t'
    by_cases he : t' = t
    · subst he
      rw [goOn_calls_self]
      exact .alone rfl
    · rw [goOn_calls_of_ne _ he]
      exact h.shape t'
  · intro t₁ t₂ h₁ h₂
    rw [honly t₁ h₁, honly t₂ h₂]
  · rintro t' ⟨⟩
    rw [goOn_calls_self]
    exact ⟨_, List.mem_singleton_self _, .inl rfl⟩

theorem Turns.give (hc : q.calls t = .giveBack :: rest) : Turns (q.giveTurn.goOn t (.forget :: rest)) := by
  have hshape := h.shape t
  rw [hc] at hshape
  obtain rfl := hshape.alone_of_drains rfl
  have hdr : Drains (q.calls t) := by
    rw [hc]
    exact ⟨_, List.mem_singleton_self _, rfl⟩
  have hnone : ∀ t', ¬ Drains ((q.giveTurn.goOn t [.forget]).calls t') := by
    intro t' ht'
    by_cases he : t' = t
    · subst he
      rw [goOn_calls_self] at ht'
      obtain ⟨d, hd, hdrains⟩ := ht'
      cases List.mem_singleton.mp hd
      cases hdrains
    · rw [goOn_calls_of_ne _ he] at ht'
      exact he (h.one t' t ht' hdr)
  refine { shape := ?_, one := ?_, depth := fun t' ht' => absurd ht' (hnone t'), owner := ?_ }
  · intro t'
    by_cases he : t' = t
    · subst he
      rw [goOn_calls_self]
      exact .alone rfl
    · rw [goOn_calls_of_ne _ he]
      exact h.shape t'
  · intro t₁ _ h₁
    exact absurd h₁ (hnone t₁)
  · intro t' ht'
    by_cases he : t' = t
    · subst he
      rw [goOn_calls_self]
      exact ⟨_, List.mem_singleton_self _, .inr rfl⟩
    · rw [goOn_calls_of_ne _ he]
      exact h.owner t' ht'

theorem Turns.forget (hc : q.calls t = .forget :: rest) : Turns (q.forgetOwner.goOn t rest) := by
  have hshape := h.shape t
  rw [hc] at hshape
  have hfree : Turns q.forgetOwner := { h with owner := fun _ he => nomatch he }
  refine hfree.goOn ?_ ?_ nofun
  · cases hshape with
    | alone => exact .nil
    | inside _ hf => exact absurd rfl hf
  · intro hd
    rw [show q.forgetOwner.calls t = _ from hc]
    exact hd.of_rest

theorem Turns.nest_of_owner (hc : q.calls t = .turnedAway :: rest) (ho : q.deliverOwner = some t) :
    Nest rest := by
  obtain ⟨d, hd, hkind⟩ := h.owner t ho
  have hshape := h.shape t
  rw [hc] at hd hshape
  cases hshape with
  | alone =>
    cases List.mem_singleton.mp hd
    rcases hkind with hkind | hkind <;> cases hkind
  | inside _ _ hn => exact hn

end

end Zelr.Net
