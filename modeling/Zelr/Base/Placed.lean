import Mathlib.Data.List.Basic

/-!
# What lies at an offset

A run of elements of a list from an offset on, and runs end to end.
-/

namespace Zelr

variable {α : Type} {p xs ys : List α} {off : Nat}

def LiesAt (p : List α) (off : Nat) (xs : List α) : Prop := xs <+: p.drop off

theorem liesAt_zero : LiesAt p 0 xs ↔ xs <+: p := by
  rw [LiesAt, List.drop_zero]

theorem liesAt_append : LiesAt p off (xs ++ ys) ↔ LiesAt p off xs ∧ LiesAt p (off + xs.length) ys := by
  unfold LiesAt
  rw [← List.drop_drop]
  constructor
  · rintro ⟨zs, h⟩
    rw [← h, List.append_assoc, List.drop_left]
    exact ⟨List.prefix_append _ _, List.prefix_append _ _⟩
  · rintro ⟨⟨zs, h⟩, hys⟩
    rw [← h, List.drop_left] at hys
    rw [← h]
    exact (List.prefix_append_right_inj xs).mpr hys

theorem LiesAt.length_le (h : LiesAt p off xs) (hne : 0 < xs.length) : off + xs.length ≤ p.length := by
  have := List.IsPrefix.length_le h
  rw [List.length_drop] at this
  omega

theorem LiesAt.get (h : LiesAt p off xs) {i : Nat} (hi : i < xs.length) : p[off + i]? = some xs[i] := by
  obtain ⟨ys, hys⟩ := h
  rw [← List.getElem?_drop, ← hys, List.getElem?_append_left hi, List.getElem?_eq_getElem hi]

theorem LiesAt.head {x : α} (h : LiesAt p off (x :: xs)) : p[off]? = some x := h.get (i := 0) (Nat.succ_pos _)

end Zelr
