import Mathlib.Data.List.DropRight
import Mathlib.Data.Nat.Bitwise
import Mathlib.Data.Nat.Digits.Lemmas
import Mathlib.Data.UInt

/-!
# Limbs

Numbers in limbs of thirty-two bits, little end first, and what is true of them whatever the
arithmetic: the pieces of a list, the limbs of a number, and the limb a bit is in.
-/

namespace Zelr

variable {a b : Limbs}

abbrev Limbs := List UInt32

def limbsVal (a : Limbs) : Nat := Nat.ofDigits (2 ^ 32) (a.map UInt32.toNat)

def stripLimbs (a : Limbs) : Limbs := a.rdropWhile (· == 0)

def TopNonzero (a : Limbs) : Prop := a.getLast? ≠ some 0

instance (a : Limbs) : Decidable (TopNonzero a) := inferInstanceAs (Decidable (_ ≠ _))

/-! ## The value of the pieces -/

@[simp] theorem limbsVal_nil : limbsVal [] = 0 := rfl

theorem limbsVal_cons (x : UInt32) (a : Limbs) :
    limbsVal (x :: a) = x.toNat + 2 ^ 32 * limbsVal a := by
  simp [limbsVal, Nat.ofDigits_cons]

@[simp] theorem limbsVal_singleton (x : UInt32) : limbsVal [x] = x.toNat := by
  simp [limbsVal_cons]

theorem limbsVal_append (a b : Limbs) :
    limbsVal (a ++ b) = limbsVal a + (2 ^ 32) ^ a.length * limbsVal b := by
  simp [limbsVal, Nat.ofDigits_append]

@[simp] theorem limbsVal_zeros (k : Nat) : limbsVal (List.replicate k 0) = 0 := by
  induction k with
  | zero => rfl
  | succ k ih => simp [List.replicate_succ, limbsVal_cons, ih]

theorem limbsVal_lt (a : Limbs) : limbsVal a < (2 ^ 32) ^ a.length := by
  induction a with
  | nil => simp
  | cons x a ih =>
    have hx := x.toNat_lt
    rw [limbsVal_cons, List.length_cons, pow_succ (2 ^ 32)]
    omega

theorem limbsVal_take_drop (a : Limbs) (k : Nat) (h : k ≤ a.length) :
    limbsVal a = limbsVal (a.take k) + (2 ^ 32) ^ k * limbsVal (a.drop k) := by
  conv_lhs => rw [← List.take_append_drop k a, limbsVal_append, List.length_take, min_eq_left h]

theorem limbsVal_take (a : Limbs) (k : Nat) : limbsVal (a.take k) = limbsVal a % (2 ^ 32) ^ k := by
  by_cases h : k ≤ a.length
  · have hlt := limbsVal_lt (a.take k)
    rw [List.length_take, min_eq_left h] at hlt
    rw [limbsVal_take_drop a k h, Nat.add_mul_mod_self_left, Nat.mod_eq_of_lt hlt]
  · have hle : a.length ≤ k := by omega
    rw [List.take_of_length_le hle, Nat.mod_eq_of_lt]
    exact (limbsVal_lt a).trans_le (Nat.pow_le_pow_right (by norm_num) hle)

theorem limbsVal_drop (a : Limbs) (k : Nat) : limbsVal (a.drop k) = limbsVal a / (2 ^ 32) ^ k := by
  by_cases h : k ≤ a.length
  · have hlt := limbsVal_lt (a.take k)
    rw [List.length_take, min_eq_left h] at hlt
    rw [limbsVal_take_drop a k h, Nat.add_mul_div_left _ _ (by positivity), Nat.div_eq_of_lt hlt,
      zero_add]
  · have hle : a.length ≤ k := by omega
    rw [List.drop_of_length_le hle, limbsVal_nil, Nat.div_eq_of_lt]
    exact (limbsVal_lt a).trans_le (Nat.pow_le_pow_right (by norm_num) hle)

theorem getD_limbsVal (a : Limbs) (i : Nat) :
    (a.getD i 0).toNat = limbsVal a / (2 ^ 32) ^ i % 2 ^ 32 := by
  rw [← limbsVal_drop, List.getD_eq_getElem?_getD, ← List.head?_drop]
  cases a.drop i with
  | nil => rfl
  | cons x a =>
    have hx := x.toNat_lt
    rw [limbsVal_cons, Nat.add_mul_mod_self_left, Nat.mod_eq_of_lt hx]
    rfl

theorem testBit_limbsVal (a : Limbs) (i : Nat) :
    (limbsVal a).testBit i = (a.getD (i / 32) 0).toNat.testBit (i % 32) := by
  have hi : 32 * (i / 32) + i % 32 = i := Nat.div_add_mod i 32
  have hlt : i % 32 < 32 := Nat.mod_lt _ (by norm_num)
  rw [getD_limbsVal, Nat.testBit_mod_two_pow, ← pow_mul, ← Nat.shiftRight_eq_div_pow,
    Nat.testBit_shiftRight, hi]
  simp [hlt]

theorem limbsVal_inj (hlen : a.length = b.length) (h : limbsVal a = limbsVal b) :
    a = b := by
  induction a generalizing b with
  | nil => exact (List.length_eq_zero_iff.mp hlen.symm).symm
  | cons x a ih =>
    cases b with
    | nil => cases hlen
    | cons y b =>
      have hx := x.toNat_lt
      have hy := y.toNat_lt
      rw [limbsVal_cons, limbsVal_cons] at h
      have hxy : x = y := UInt32.toNat.inj (by omega)
      have hab : a = b := ih (Nat.succ.inj hlen) (by omega)
      rw [hxy, hab]

/-! ## Without the zeros at the top -/

theorem stripLimbs_append (a : Limbs) :
    ∃ k, a = stripLimbs a ++ List.replicate k 0 := by
  induction a using List.reverseRecOn with
  | nil => exact ⟨0, rfl⟩
  | append_singleton a x ih =>
    by_cases hx : x = 0
    · obtain ⟨k, hk⟩ := ih
      refine ⟨k + 1, ?_⟩
      have hstrip : stripLimbs (a ++ [x]) = stripLimbs a := by
        simp [stripLimbs, hx]
      rw [hstrip, List.replicate_succ', ← List.append_assoc, ← hk, hx]
    · exact ⟨0, by simp [stripLimbs, hx]⟩

@[simp] theorem limbsVal_strip (a : Limbs) : limbsVal (stripLimbs a) = limbsVal a := by
  obtain ⟨k, hk⟩ := stripLimbs_append a
  conv_rhs => rw [hk, limbsVal_append, limbsVal_zeros, mul_zero, add_zero]

theorem stripLimbs_top (a : Limbs) : TopNonzero (stripLimbs a) := by
  induction a using List.reverseRecOn with
  | nil => simp [stripLimbs, TopNonzero]
  | append_singleton a x ih =>
    by_cases hx : x = 0
    · simpa [stripLimbs, hx] using ih
    · simp [stripLimbs, TopNonzero, hx]

theorem top_of_le (h : (2 ^ 32) ^ (a.length - 1) ≤ limbsVal a) : TopNonzero a := by
  cases a using List.reverseRecOn with
  | nil => simp [TopNonzero]
  | append_singleton a x =>
    have hlt := limbsVal_lt a
    have hx : x ≠ 0 := by
      rintro rfl
      rw [limbsVal_append, limbsVal_singleton, List.length_append, List.length_singleton,
        Nat.add_sub_cancel, UInt32.toNat_zero, mul_zero, add_zero] at h
      omega
    simp [TopNonzero, hx]

/-! ## With a limb that is not zero at the top -/

theorem le_limbsVal (h : TopNonzero a) (hne : a ≠ []) :
    (2 ^ 32) ^ (a.length - 1) ≤ limbsVal a := by
  cases a using List.reverseRecOn with
  | nil => exact absurd rfl hne
  | append_singleton a x =>
    have hx : x ≠ 0 := by simpa [TopNonzero] using h
    have hpos : 1 ≤ x.toNat := by
      apply Nat.one_le_iff_ne_zero.mpr
      intro hzero
      exact hx (UInt32.toNat.inj hzero)
    rw [limbsVal_append, limbsVal_singleton]
    calc (2 ^ 32) ^ ((a ++ [x]).length - 1)
        = (2 ^ 32) ^ a.length * 1 := by simp
      _ ≤ (2 ^ 32) ^ a.length * x.toNat := Nat.mul_le_mul_left _ hpos
      _ ≤ limbsVal a + (2 ^ 32) ^ a.length * x.toNat := Nat.le_add_left _ _

theorem limbsVal_eq_zero (h : TopNonzero a) : limbsVal a = 0 ↔ a = [] := by
  constructor
  · intro hzero
    by_contra hne
    have hle := le_limbsVal h hne
    have hpos : 0 < (2 ^ 32) ^ (a.length - 1) := by positivity
    omega
  · rintro rfl
    rfl

theorem length_le_iff (h : TopNonzero a) (k : Nat) :
    a.length ≤ k ↔ limbsVal a < (2 ^ 32) ^ k := by
  constructor
  · intro hle
    exact (limbsVal_lt a).trans_le (Nat.pow_le_pow_right (by norm_num) hle)
  · intro hlt
    by_contra hgt
    have hne : a ≠ [] := by
      rintro rfl
      simp at hgt
    have hle := le_limbsVal h hne
    have hpow : (2 ^ 32) ^ k ≤ (2 ^ 32) ^ (a.length - 1) :=
      Nat.pow_le_pow_right (by norm_num) (by omega)
    omega

theorem length_eq_of_limbsVal (ha : TopNonzero a) (hb : TopNonzero b)
    (h : limbsVal a = limbsVal b) : a.length = b.length := by
  apply le_antisymm
  · rw [length_le_iff ha, h]
    exact limbsVal_lt b
  · rw [length_le_iff hb, ← h]
    exact limbsVal_lt a

theorem eq_of_limbsVal (ha : TopNonzero a) (hb : TopNonzero b)
    (h : limbsVal a = limbsVal b) : a = b :=
  limbsVal_inj (length_eq_of_limbsVal ha hb h) h

theorem limbsVal_lt_of_length (hb : TopNonzero b) (h : a.length < b.length) :
    limbsVal a < limbsVal b := by
  by_contra hle
  have hlen : b.length ≤ a.length := by
    rw [length_le_iff hb]
    have := limbsVal_lt a
    omega
  omega

end Zelr
