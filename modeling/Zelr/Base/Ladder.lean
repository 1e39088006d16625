import Mathlib.Algebra.Order.Field.Basic
import Mathlib.Tactic.Linarith

/-!
# The nearest rung of a ladder

Rungs numbered from nought, each higher than the one before, and a value between them: the rung
nearest to it, the even one of two as near.
-/

namespace Zelr.Ladder

variable {α : Type*} [Field α] [LinearOrder α] [IsStrictOrderedRing α]
variable {height : ℕ → α} {last b c : ℕ} {x y : α}

/-- `b` is the rung nearest to `x` of those up to `last`, the even one of two that are as near. -/
def Nearest (height : ℕ → α) (last : ℕ) (x : α) (b : ℕ) : Prop :=
  b ≤ last ∧ ∀ c ≤ last, c ≠ b →
    |x - height b| < |x - height c| ∨ |x - height b| = |x - height c| ∧ Even b

def cut (height : ℕ → α) (b : ℕ) : α := (height b + height (b + 1)) / 2

/-- `x` is not below what rounds to `b`. -/
def FromBelow (height : ℕ → α) (x : α) (b : ℕ) : Prop :=
  ∀ a, b = a + 1 → cut height a < x ∨ cut height a = x ∧ Even b

/-- `x` is not above what rounds to `b`. -/
def FromAbove (height : ℕ → α) (last : ℕ) (x : α) (b : ℕ) : Prop :=
  b < last → x < cut height b ∨ x = cut height b ∧ Even b

/-! ## Cuts -/

section
variable (hmono : StrictMono height)
include hmono

theorem height_lt_cut (b : ℕ) : height b < cut height b := by
  have := hmono (Nat.lt_succ_self b)
  unfold cut
  linarith

theorem cut_lt_height (b : ℕ) : cut height b < height (b + 1) := by
  have := hmono (Nat.lt_succ_self b)
  unfold cut
  linarith

theorem cut_strictMono : StrictMono (cut height) := by
  apply strictMono_nat_of_lt_succ
  intro b
  exact (cut_lt_height hmono b).trans (height_lt_cut hmono (b + 1))

omit hmono in
theorem nearer_below (h : height b < height c) :
    (|x - height b| < |x - height c| ↔ x < (height b + height c) / 2) ∧
    (|x - height b| = |x - height c| ↔ x = (height b + height c) / 2) := by
  rcases abs_cases (x - height b) with hb | hb <;> rcases abs_cases (x - height c) with hc | hc <;>
    rw [hb.1, hc.1] <;> constructor <;> constructor <;> intro h' <;> linarith

omit hmono in
theorem nearer_above (h : height c < height b) :
    (|x - height b| < |x - height c| ↔ (height c + height b) / 2 < x) ∧
    (|x - height b| = |x - height c| ↔ (height c + height b) / 2 = x) := by
  rcases abs_cases (x - height b) with hb | hb <;> rcases abs_cases (x - height c) with hc | hc <;>
    rw [hb.1, hc.1] <;> constructor <;> constructor <;> intro h' <;> linarith

/-! ## The nearest rung by its cuts -/

theorem nearest_iff :
    Nearest height last x b ↔ b ≤ last ∧ FromBelow height x b ∧ FromAbove height last x b := by
  constructor
  · rintro ⟨hle, hnear⟩
    refine ⟨hle, ?_, ?_⟩
    · rintro a rfl
      have hlt := hmono (Nat.lt_succ_self a)
      have hcmp := hnear a (by omega) (by omega)
      rwa [(nearer_above hlt).1, (nearer_above hlt).2] at hcmp
    · intro hlast
      have hlt := hmono (Nat.lt_succ_self b)
      have hcmp := hnear (b + 1) hlast (by omega)
      rwa [(nearer_below hlt).1, (nearer_below hlt).2] at hcmp
  · rintro ⟨hle, hbelow, habove⟩
    refine ⟨hle, ?_⟩
    intro c hc hne
    rcases lt_or_gt_of_ne hne with hlt | hgt
    · -- a lower rung is no higher than the one just below
      obtain ⟨a, rfl⟩ : ∃ a, b = a + 1 := ⟨b - 1, by omega⟩
      have hca : height c ≤ height a := hmono.monotone (by omega)
      have hmid : (height c + height (a + 1)) / 2 ≤ cut height a := by
        unfold cut
        linarith
      rw [(nearer_above (hmono hlt)).1, (nearer_above (hmono hlt)).2]
      rcases hbelow a rfl with hx | ⟨hx, heven⟩
      · exact Or.inl (hmid.trans_lt hx)
      · rcases (hmid.trans_eq hx).lt_or_eq with hx | hx
        · exact Or.inl hx
        · exact Or.inr ⟨hx, heven⟩
    · have hbc : height (b + 1) ≤ height c := hmono.monotone hgt
      have hmid : cut height b ≤ (height b + height c) / 2 := by
        unfold cut
        linarith
      rw [(nearer_below (hmono hgt)).1, (nearer_below (hmono hgt)).2]
      rcases habove (by omega) with hx | ⟨hx, heven⟩
      · exact Or.inl (hx.trans_le hmid)
      · rcases (hx.trans_le hmid).lt_or_eq with hx | hx
        · exact Or.inl hx
        · exact Or.inr ⟨hx, heven⟩

theorem Nearest.cut_le {a : ℕ} (h : Nearest height last x (a + 1)) :
    cut height a ≤ x := by
  rcases ((nearest_iff hmono).mp h).2.1 a rfl with hx | hx
  · exact hx.le
  · exact hx.1.le

theorem Nearest.le_cut (h : Nearest height last x b) (hb : b < last) :
    x ≤ cut height b := by
  rcases ((nearest_iff hmono).mp h).2.2 hb with hx | hx
  · exact hx.le
  · exact hx.1.le

theorem Nearest.mono (hb : Nearest height last x b)
    (hc : Nearest height last y c) (h : x ≤ y) : b ≤ c := by
  by_contra hlt
  obtain ⟨a, rfl⟩ : ∃ a, b = a + 1 := ⟨b - 1, by omega⟩
  have hlast := hb.1
  have hx := hb.cut_le hmono
  have hy := hc.le_cut hmono (by omega)
  have hcut : cut height c ≤ cut height a := (cut_strictMono hmono).monotone (by omega)
  have heq : cut height c = cut height a := le_antisymm hcut ((hx.trans h).trans hy)
  obtain rfl := (cut_strictMono hmono).injective heq
  -- the value is the cut itself, and of the two rungs beside it only one is even
  rcases ((nearest_iff hmono).mp hb).2.1 c rfl with hlow | ⟨-, heven⟩
  · exact absurd (h.trans hy) (not_le.mpr hlow)
  · rcases ((nearest_iff hmono).mp hc).2.2 (by omega) with hhigh | ⟨-, heven'⟩
    · exact absurd (hx.trans h) (not_le.mpr hhigh)
    · exact absurd heven (by simp [Nat.even_add_one, heven'])

theorem Nearest.unique (hb : Nearest height last x b)
    (hc : Nearest height last x c) : b = c :=
  le_antisymm (hb.mono hmono hc le_rfl) (hc.mono hmono hb le_rfl)

theorem Nearest.congr (h : Nearest height last x b)
    (hcut : ∀ a, a < last → (cut height a < x ↔ cut height a < y) ∧ (x < cut height a ↔ y < cut height a)) :
    Nearest height last y b := by
  have heq : ∀ a, a < last → (cut height a = x ↔ cut height a = y) := by
    intro a ha
    have hsides := hcut a ha
    constructor <;> intro h'
    · apply le_antisymm
      · rw [← not_lt, ← hsides.2]
        exact h'.not_gt
      · rw [← not_lt, ← hsides.1]
        exact h'.not_lt
    · apply le_antisymm
      · rw [← not_lt, hsides.2]
        exact h'.not_gt
      · rw [← not_lt, hsides.1]
        exact h'.not_lt
  obtain ⟨hle, hbelow, habove⟩ := (nearest_iff hmono).mp h
  refine (nearest_iff hmono).mpr ⟨hle, ?_, ?_⟩
  · rintro a rfl
    rw [← (hcut a hle).1, ← heq a hle]
    exact hbelow a rfl
  · intro hlt
    rw [← (hcut b hlt).2, eq_comm, ← heq b hlt, eq_comm]
    exact habove hlt

/-! ## Rounding -/

theorem nearest_of_rest (hlast : b < last) {rest : α}
    (hx : x = height b + rest) (hnonneg : 0 ≤ rest) (hrest : height b + rest < height (b + 1))
    (up : Prop) [Decidable up]
    (hup : up ↔ height (b + 1) - height b < 2 * rest ∨
      2 * rest = height (b + 1) - height b ∧ ¬ Even b) :
    Nearest height last x (if up then b + 1 else b) := by
  have hcut : cut height b = height b + (height (b + 1) - height b) / 2 := by
    unfold cut
    linarith
  split
  · next h =>
    refine (nearest_iff hmono).mpr ⟨hlast, ?_, ?_⟩
    · intro a ha
      obtain rfl : a = b := by omega
      rcases hup.mp h with hlt | ⟨heq, hodd⟩
      · left
        linarith
      · right
        refine ⟨by linarith, ?_⟩
        rwa [Nat.even_add_one]
    · intro _
      left
      have := height_lt_cut hmono (b + 1)
      linarith
  · next h =>
    rw [hup, not_or] at h
    refine (nearest_iff hmono).mpr ⟨hlast.le, ?_, ?_⟩
    · rintro a rfl
      left
      have := cut_lt_height hmono a
      linarith
    · intro _
      rcases lt_or_eq_of_le (not_lt.mp h.1) with hlt | heq
      · left
        linarith
      · right
        refine ⟨by linarith, ?_⟩
        by_contra hodd
        exact h.2 ⟨heq, hodd⟩

theorem nearest_last (h : height last ≤ x) :
    Nearest height last x last := by
  refine (nearest_iff hmono).mpr ⟨le_rfl, ?_, ?_⟩
  · rintro a rfl
    left
    exact (cut_lt_height hmono a).trans_le h
  · intro hlt
    exact absurd hlt (lt_irrefl _)

theorem nearest_height (hb : b ≤ last) :
    Nearest height last (height b) b := by
  refine (nearest_iff hmono).mpr ⟨hb, ?_, ?_⟩
  · rintro a rfl
    left
    exact cut_lt_height hmono a
  · intro _
    left
    exact height_lt_cut hmono b

/-! ## There is one -/

def rung (height : ℕ → α) (last : ℕ) (x : α) : ℕ :=
  Nat.findGreatest (fun b => b = 0 ∨ cut height (b - 1) < x ∨ cut height (b - 1) = x ∧ Even b) last

theorem nearest_rung (x : α) : Nearest height last x (rung height last x) := by
  have hspec : rung height last x = 0 ∨ cut height (rung height last x - 1) < x ∨
      cut height (rung height last x - 1) = x ∧ Even (rung height last x) :=
    Nat.findGreatest_spec (P := fun b => b = 0 ∨ cut height (b - 1) < x ∨ cut height (b - 1) = x ∧ Even b)
      (Nat.zero_le last) (Or.inl rfl)
  refine (nearest_iff hmono).mpr ⟨Nat.findGreatest_le last, ?_, ?_⟩
  · intro a ha
    rw [ha, Nat.add_sub_cancel] at hspec
    rw [ha]
    exact hspec.resolve_left (Nat.succ_ne_zero a)
  · intro hlt
    have hnext := Nat.findGreatest_is_greatest (Nat.lt_succ_self (rung height last x)) hlt
    rw [Nat.succ_eq_add_one, Nat.add_sub_cancel, not_or, not_or] at hnext
    rcases lt_or_eq_of_le (not_lt.mp hnext.2.1) with h | h
    · exact Or.inl h
    · right
      refine ⟨h, ?_⟩
      by_contra hodd
      exact hnext.2.2 ⟨h.symm, Nat.even_add_one.mpr hodd⟩

theorem Nearest.between {z : α} (hx : Nearest height last x b)
    (hz : Nearest height last z b) (hxy : x ≤ y) (hyz : y ≤ z) : Nearest height last y b := by
  have hy : Nearest height last y (rung height last y) := nearest_rung hmono y
  have hlow := hx.mono hmono hy hxy
  have hhigh := hy.mono hmono hz hyz
  rwa [le_antisymm hlow hhigh]

end

end Zelr.Ladder
