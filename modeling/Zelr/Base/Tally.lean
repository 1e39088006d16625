import Mathlib.Algebra.Order.BigOperators.Group.List
import Mathlib.Algebra.Order.Group.Nat
import Mathlib.Algebra.Ring.Nat

/-!
# Counting references

How often something is pointed at from several tables together, and how that number moves when one
entry of one table is written.
-/

namespace Zelr

variable {α : Type}

theorem countP_set_add (f : α → Bool) {l : List α} {i : Nat} {old : α} (hold : l[i]? = some old) (new : α) :
    (l.set i new).countP f + (if f old then 1 else 0) = l.countP f + if f new then 1 else 0 := by
  induction l generalizing i with
  | nil => cases hold
  | cons a l ih =>
    cases i with
    | zero =>
      cases hold
      simp only [List.set_cons_zero, List.countP_cons]
      omega
    | succ i =>
      simp only [List.set_cons_succ, List.countP_cons]
      have hrest := ih (i := i) hold
      omega

theorem sum_map_set_add (f : α → Nat) {l : List α} {i : Nat} {old : α} (hold : l[i]? = some old) (new : α) :
    ((l.set i new).map f).sum + f old = (l.map f).sum + f new := by
  induction l generalizing i with
  | nil => cases hold
  | cons a l ih =>
    cases i with
    | zero =>
      cases hold
      simp only [List.set_cons_zero, List.map_cons, List.sum_cons]
      omega
    | succ i =>
      simp only [List.set_cons_succ, List.map_cons, List.sum_cons]
      have hrest := ih (i := i) hold
      omega

variable [DecidableEq α]

/-- How often `x` stands in some tables together. -/
def tally (x : α) (ls : List (List α)) : Nat := (ls.map (List.count x)).sum

theorem tally_append (x : α) (ls ms : List (List α)) : tally x (ls ++ ms) = tally x ls + tally x ms := by
  rw [tally, List.map_append, List.sum_append]
  rfl

theorem tally_singleton (x : α) (l : List α) : tally x [l] = l.count x := by
  simp [tally]

theorem tally_pos_of_mem {x : α} {ls : List (List α)} {l : List α} (hl : l ∈ ls) (hx : x ∈ l) : 0 < tally x ls := by
  have hcount : l.count x ≤ tally x ls := List.le_sum_of_mem (List.mem_map_of_mem hl)
  have hpos := List.count_pos_iff.mpr hx
  omega

theorem tally_le (x : α) (ls : List (List α)) : tally x ls ≤ (ls.map List.length).sum := by
  induction ls with
  | nil => exact le_rfl
  | cons l ls ih =>
    have hcount : l.count x ≤ l.length := List.count_le_length
    simp only [tally, List.map_cons, List.sum_cons] at ih ⊢
    omega

theorem tally_set (x : α) {ls : List (List α)} {t i : Nat} {l : List α} {old : α} (hl : ls[t]? = some l)
    (hold : l[i]? = some old) (new : α) :
    tally x (ls.set t (l.set i new)) + (if old = x then 1 else 0) = tally x ls + if new = x then 1 else 0 := by
  have houter := sum_map_set_add (List.count x) hl (l.set i new)
  have hinner := countP_set_add (· == x) hold new
  simp only [beq_iff_eq] at hinner
  rw [show (l.set i new).count x = (l.set i new).countP (· == x) from rfl,
    show l.count x = l.countP (· == x) from rfl] at houter
  unfold tally
  omega

end Zelr
