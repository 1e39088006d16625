import Zelr.Gf.Coded

/-!
# The field of 2^128 elements

The polynomial over two elements that makes it, and its elements as strings of sixteen bytes, the first
byte's high bit the constant term.
-/

open Polynomial

namespace Zelr.Gf

section Size

theorem mulX_lt {n p a : Nat} (hn : 0 < n) (hp : p.testBit n = true) (hp' : p < 2 ^ (n + 1)) (ha : a < 2 ^ n) :
    mulX n p a < 2 ^ n := by
  have htop : ∀ i, n ≤ i → (2 * a).testBit i = a.testBit (i - 1) := by
    intro i hi
    obtain ⟨j, rfl⟩ : ∃ j, i = j + 1 := ⟨i - 1, by omega⟩
    rw [Nat.testBit_succ, Nat.mul_div_cancel_left a (by decide), Nat.add_sub_cancel]
  have hhigh : ∀ i, n ≤ i → a.testBit i = false := fun i hi =>
    Nat.testBit_lt_two_pow (ha.trans_le (Nat.pow_le_pow_right (by decide) hi))
  refine Nat.lt_pow_two_of_testBit _ fun i hi => ?_
  unfold mulX
  split
  next hbit =>
    rw [Nat.testBit_xor, htop i hi]
    obtain rfl | hlt := hi.eq_or_lt
    · rw [hbit, hp]
      rfl
    · rw [hhigh _ (by omega), Nat.testBit_lt_two_pow (hp'.trans_le (Nat.pow_le_pow_right (by decide) hlt))]
      rfl
  next hbit =>
    rw [htop i hi]
    obtain rfl | hlt := hi.eq_or_lt
    · exact Bool.eq_false_iff.mpr hbit
    · exact hhigh _ (by omega)

theorem mul_lt {n p a b : Nat} (hn : 0 < n) (hp : p.testBit n = true) (hp' : p < 2 ^ (n + 1)) (ha : a < 2 ^ n) :
    mul n p a b < 2 ^ n := by
  have hloop : ∀ k b, mulFrom n p k a b < 2 ^ n := by
    intro k
    induction k with
    | zero => intro b; exact Nat.two_pow_pos n
    | succ k ih =>
      intro b
      refine Nat.xor_lt_two_pow ?_ (mulX_lt hn hp hp' (ih _))
      split
      · exact ha
      · exact Nat.two_pow_pos n
  exact hloop n b

theorem squares_lt {n p a : Nat} (hn : 0 < n) (hp : p.testBit n = true) (hp' : p < 2 ^ (n + 1)) (ha : a < 2 ^ n)
    (k : Nat) : squares n p k a < 2 ^ n := by
  induction k generalizing a with
  | zero => exact ha
  | succ k ih => exact ih (mul_lt hn hp hp' ha)

end Size

/-! ## The polynomial -/

def modulus : Nat := 2 ^ 128 + 0x87

noncomputable section

@[irreducible] def P : (ZMod 2)[X] := X ^ 128 + X ^ 7 + X ^ 2 + X + 1

theorem toPoly_modulus : toPoly modulus = P := by
  have hbits : modulus = 2 ^ 128 ^^^ 2 ^ 7 ^^^ 2 ^ 2 ^^^ 2 ^ 1 ^^^ 2 ^ 0 := by decide
  rw [hbits, toPoly_xor, toPoly_xor, toPoly_xor, toPoly_xor, toPoly_pow, toPoly_pow, toPoly_pow, toPoly_pow,
    toPoly_pow]
  unfold P
  ring

theorem P_eq : P = X ^ 128 + (X ^ 7 + X ^ 2 + X + 1) := by
  unfold P
  ring

theorem natDegree_P : P.natDegree = 128 := by
  have hsmall : (X ^ 7 + X ^ 2 + X + 1 : (ZMod 2)[X]).natDegree ≤ 7 := by compute_degree
  rw [P_eq, natDegree_add_eq_left_of_natDegree_lt, natDegree_X_pow]
  rw [natDegree_X_pow]
  omega

theorem val_two : val modulus 2 = AdjoinRoot.root (toPoly modulus) := by
  have htwo : toPoly 2 = X := by
    have hpow := toPoly_pow 1
    rwa [pow_one, pow_one] at hpow
  rw [val, htwo]
  rfl

theorem val_one : val modulus 1 = 1 := by
  have hone : toPoly 1 = 1 := by
    have hpow := toPoly_pow 0
    rwa [pow_zero, pow_zero] at hpow
  rw [val, hone, map_one]

def awayInverse : Nat := 0x9e4af928ddbc838a41a8cafd2c95b018

theorem irreducible_P : Irreducible P := by
  have hsquares : ∀ k, val modulus (squares 128 modulus k 2) = AdjoinRoot.root (toPoly modulus) ^ 2 ^ k := by
    intro k
    rw [← val_two]
    exact val_squares 128 modulus fun i _ => squares_lt (by decide) (by decide) (by decide) (by decide) i
  rw [← toPoly_modulus]
  refine irreducible_of_frobenius (k := 6) ?_ ?_ ?_
  · rw [toPoly_modulus, natDegree_P]
    rfl
  · have hback : squares 128 modulus (2 ^ 7) 2 = 2 := by decide +kernel
    rw [← hsquares, hback, val_two]
  · have haway : mul 128 modulus (squares 128 modulus (2 ^ 6) 2 ^^^ 2) awayInverse = 1 := by decide +kernel
    have hval := val_mul 128 modulus (a := squares 128 modulus (2 ^ 6) 2 ^^^ 2) (b := awayInverse) (by decide)
    rw [haway, val_one, val_xor, hsquares, val_two] at hval
    rw [sub_eq_add]
    exact IsUnit.of_mul_eq_one _ hval.symm

end

end Zelr.Gf
