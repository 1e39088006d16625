import Zelr.Paging.Holds
import Zelr.User.Range

/-!
# The break

What lies below the break stays, whether a call grows, shrinks or fails on the way.
-/

namespace Zelr.User

open Act Paging
open Pmm (put_same put_other)

@[simp] theorem heap_base_toNat : USER_HEAP_BASE.toNat = 0x8010000000 := rfl
@[simp] theorem heap_max_toNat : USER_HEAP_MAX.toNat = 0x8038000000 := rfl

/-! ## The frames a call takes -/

def logged (act : Act Machine Nat) : Act (Machine × List Nat) Unit := fun s =>
  match act s.1 with
  | (some f, m) => (some (), (m, f :: s.2))
  | (none, m) => (none, (m, s.2))

/-- `user_sbrk`, with the frames it takes written down. -/
def sbrkLogged (delta : Word) : Act (CallerOf (Machine × List Nat)) Word :=
  sbrkWith (fun dir va => logged (allocUserPage dir va)) delta

def begun (t : Task) : Task :=
  if t.brkBase = 0 then { t with brkBase := USER_HEAP_BASE, brk := USER_HEAP_BASE } else t

def breakOf (t : Task) : Word := (begun t).brk

def lowered (t : Task) (delta : Word) : Word :=
  if -delta > t.brk - t.brkBase then t.brkBase else t.brk - -delta

def HeapTask (t : Task) : Prop :=
  t.brkBase = 0 ∨ (t.brkBase = USER_HEAP_BASE ∧ USER_HEAP_BASE.toNat ≤ t.brk.toNat ∧ t.brk.toNat ≤ USER_HEAP_MAX.toNat)

section Calls

variable {σ τ : Type} {page : Nat → Word → Act σ Unit} {m m' : σ} {t t' : Task} {delta : Word} {r : Option Word}

theorem begun_dir (t : Task) : (begun t).dir = t.dir := by
  unfold begun
  split <;> rfl

theorem HeapTask.begun (h : HeapTask t) : (begun t).brkBase = USER_HEAP_BASE ∧
    USER_HEAP_BASE.toNat ≤ (breakOf t).toNat ∧ (breakOf t).toNat ≤ USER_HEAP_MAX.toNat := by
  unfold breakOf User.begun
  split
  · exact ⟨rfl, le_refl _, (by decide : USER_HEAP_BASE.toNat ≤ USER_HEAP_MAX.toNat)⟩
  · next hne =>
    rcases h with h | h
    · exact absurd h hne
    · exact h

theorem HeapTask.of_begun (h : HeapTask t) : HeapTask (User.begun t) := Or.inr h.begun

theorem HeapTask.lowered (h : HeapTask t) : USER_HEAP_BASE.toNat ≤ (User.lowered (User.begun t) delta).toNat ∧
    (User.lowered (User.begun t) delta).toNat ≤ (breakOf t).toNat := by
  obtain ⟨hbase, hlow, -⟩ := h.begun
  unfold User.lowered
  rw [hbase]
  change USER_HEAP_BASE.toNat ≤ (User.begun t).brk.toNat at hlow
  show _ ∧ _ ≤ (User.begun t).brk.toNat
  split
  · exact ⟨le_refl _, hlow⟩
  · next hback =>
    rw [gt_iff_lt, BitVec.lt_def, BitVec.toNat_sub_of_le (BitVec.le_def.mpr hlow)] at hback
    rw [BitVec.toNat_sub_of_le (BitVec.le_def.mpr (by omega))]
    omega

theorem sbrkWith_eq (hdir : t.dir ≠ 0) :
    sbrkWith page delta ⟨m, t⟩ =
      if delta = 0 then (some (breakOf t), ⟨m, begun t⟩)
      else if delta.msb then
        (some (breakOf t), ⟨m, { begun t with brk := lowered (begun t) delta }⟩)
      else if breakOf t + delta < breakOf t then (none, ⟨m, begun t⟩)
      else if breakOf t + delta > USER_HEAP_MAX then (none, ⟨m, begun t⟩)
      else match forPages (page t.dir) (roundUp (breakOf t)) (roundUp (breakOf t + delta)) m with
        | (some (), m') => (some (breakOf t), ⟨m', { begun t with brk := breakOf t + delta }⟩)
        | (none, m') => (none, ⟨m', begun t⟩) := by
  have hstart : ∀ t₁ : Task, begun t = t₁ → sbrkWith page delta ⟨m, t⟩ =
      (if delta = 0 then (some t₁.brk, ⟨m, t₁⟩)
      else if delta.msb then
        (some t₁.brk, ⟨m, { t₁ with brk := lowered t₁ delta }⟩)
      else if t₁.brk + delta < t₁.brk then (none, ⟨m, t₁⟩)
      else if t₁.brk + delta > USER_HEAP_MAX then (none, ⟨m, t₁⟩)
      else match forPages (page t.dir) (roundUp t₁.brk) (roundUp (t₁.brk + delta)) m with
        | (some (), m') => (some t₁.brk, ⟨m', { t₁ with brk := t₁.brk + delta }⟩)
        | (none, m') => (none, ⟨m', t₁⟩)) := by
    rintro t₁ rfl
    unfold sbrkWith begun
    rw [bind_apply, get_apply]
    simp only
    rw [if_neg hdir]
    split
    · simp only [bind_apply, modify_apply, gets_apply]
      split
      · rfl
      · split
        · rfl
        · split
          · rfl
          · split
            · rfl
            · rw [bind_apply, onMachine_apply]
              rcases forPages (page t.dir) (roundUp USER_HEAP_BASE) (roundUp (USER_HEAP_BASE + delta)) m with
                ⟨_ | ⟨⟩, m'⟩ <;> rfl
    · simp only [bind_apply, gets_apply]
      split
      · rfl
      · split
        · rfl
        · split
          · rfl
          · split
            · rfl
            · rw [bind_apply, onMachine_apply]
              rcases forPages (page t.dir) (roundUp t.brk) (roundUp (t.brk + delta)) m with ⟨_ | ⟨⟩, m'⟩ <;> rfl
  exact hstart _ rfl

theorem sbrkWith_cases (hdir : t.dir ≠ 0) (ht : HeapTask t) (h : sbrkWith page delta ⟨m, t⟩ = (r, ⟨m', t'⟩)) :
    (m' = m ∧ t' = begun t ∧ (r = none ∨ r = some (breakOf t))) ∨
    (m' = m ∧ r = some (breakOf t) ∧ ∃ brk : Word, USER_HEAP_BASE.toNat ≤ brk.toNat ∧
      brk.toNat ≤ (breakOf t).toNat ∧ t' = { begun t with brk := brk }) ∨
    ((breakOf t).toNat ≤ (breakOf t + delta).toNat ∧ (breakOf t + delta).toNat ≤ USER_HEAP_MAX.toNat ∧
      ((forPages (page t.dir) (roundUp (breakOf t)) (roundUp (breakOf t + delta)) m = (none, m') ∧ r = none ∧
          t' = begun t) ∨
        (forPages (page t.dir) (roundUp (breakOf t)) (roundUp (breakOf t + delta)) m = (some (), m') ∧
          r = some (breakOf t) ∧ t' = { begun t with brk := breakOf t + delta }))) := by
  rw [sbrkWith_eq hdir] at h
  split at h
  · cases h
    exact Or.inl ⟨rfl, rfl, Or.inr rfl⟩
  · split at h
    · cases h
      exact Or.inr (Or.inl ⟨rfl, rfl, _, ht.lowered.1, ht.lowered.2, rfl⟩)
    · split at h
      · cases h
        exact Or.inl ⟨rfl, rfl, Or.inl rfl⟩
      · next hwrap =>
        split at h
        · cases h
          exact Or.inl ⟨rfl, rfl, Or.inl rfl⟩
        · next hmax =>
          rw [BitVec.lt_def, not_lt] at hwrap
          rw [gt_iff_lt, BitVec.lt_def, not_lt] at hmax
          refine Or.inr (Or.inr ⟨hwrap, hmax, ?_⟩)
          rcases hloop : forPages (page t.dir) (roundUp (breakOf t)) (roundUp (breakOf t + delta)) m with ⟨_ | ⟨⟩, m1⟩
          · rw [hloop] at h
            cases h
            exact Or.inl ⟨rfl, rfl, rfl⟩
          · rw [hloop] at h
            cases h
            exact Or.inr ⟨rfl, rfl, rfl⟩

theorem pagesLoop_part {page' : Word → Act τ Unit} {page : Word → Act σ Unit} {part : σ → τ} (limit : Word)
    (hpage : ∀ va s, page' va (part s) = ((page va s).1, part (page va s).2)) :
    ∀ (fuel : Nat) (va : Word) (s : σ),
      pagesLoop page' limit fuel va (part s) = ((pagesLoop page limit fuel va s).1, part (pagesLoop page limit fuel va s).2) := by
  intro fuel
  induction fuel with
  | zero => exact fun _ _ => rfl
  | succ n ih =>
    intro va s
    rw [pagesLoop, pagesLoop]
    split
    · rw [bind_apply, bind_apply, hpage]
      rcases page va s with ⟨_ | ⟨⟩, s'⟩
      · rfl
      · exact ih _ s'
    · rfl

theorem sbrkWith_part {page' : Nat → Word → Act τ Unit} (part : σ → τ) (hdir : t.dir ≠ 0)
    (hpage : ∀ dir va s, page' dir va (part s) = ((page dir va s).1, part (page dir va s).2)) :
    sbrkWith page' delta ⟨part m, t⟩ =
      ((sbrkWith page delta ⟨m, t⟩).1,
        ⟨part (sbrkWith page delta ⟨m, t⟩).2.machine, (sbrkWith page delta ⟨m, t⟩).2.task⟩) := by
  have hloop := pagesLoop_part (roundUp (breakOf t + delta)) (hpage t.dir) (2 ^ 52 + 1) (roundUp (breakOf t)) m
  rw [sbrkWith_eq hdir, sbrkWith_eq hdir]
  split
  · rfl
  · split
    · rfl
    · split
      · rfl
      · split
        · rfl
        · unfold forPages
          rw [hloop]
          rcases pagesLoop (page t.dir) (roundUp (breakOf t + delta)) (2 ^ 52 + 1) (roundUp (breakOf t)) m with
            ⟨_ | ⟨⟩, m'⟩ <;> rfl

end Calls

theorem userSbrk_logged {t : Task} (hdir : t.dir ≠ 0) (delta : Word) (m : Machine) (held : List Nat) :
    userSbrk delta ⟨m, t⟩ =
      ((sbrkLogged delta ⟨(m, held), t⟩).1,
        ⟨(sbrkLogged delta ⟨(m, held), t⟩).2.machine.1, (sbrkLogged delta ⟨(m, held), t⟩).2.task⟩) := by
  apply sbrkWith_part Prod.fst (m := (m, held)) hdir
  intro dir va s
  unfold logged
  rw [bind_apply]
  rcases allocUserPage dir va s.1 with ⟨_ | f, m'⟩ <;> rfl

end Zelr.User
