import Mathlib

/-!
# Binary fields with numbers for elements

Polynomials over two elements coded as the bits of a number, the lowest bit the constant term, and
the ring they are in modulo one of them.
-/

open Polynomial

namespace Zelr.Gf

/-! ## Polynomials as numbers -/

section Poly

noncomputable section

def toPoly (n : Nat) : (ZMod 2)[X] :=
  if n = 0 then 0 else (if n % 2 = 1 then 1 else 0) + X * toPoly (n / 2)
  decreasing_by omega

theorem toPoly_eq (n : Nat) : toPoly n = (if n % 2 = 1 then 1 else 0) + X * toPoly (n / 2) := by
  rw [toPoly]
  split
  next h =>
    subst h
    rw [toPoly]
    simp
  · rfl

@[simp] theorem toPoly_zero : toPoly 0 = 0 := by
  rw [toPoly, if_pos rfl]

theorem toPoly_double (n : Nat) : toPoly (2 * n) = X * toPoly n := by
  rw [toPoly_eq, Nat.mul_mod_right, Nat.mul_div_cancel_left n (by decide), if_neg (by decide), zero_add]

theorem toPoly_pow (k : Nat) : toPoly (2 ^ k) = X ^ k := by
  induction k with
  | zero =>
    rw [toPoly_eq]
    simp
  | succ k ih => rw [pow_succ', toPoly_double, ih, pow_succ']

theorem lowBit_xor (a b : Nat) : (if (a ^^^ b) % 2 = 1 then (1 : (ZMod 2)[X]) else 0) =
    (if a % 2 = 1 then 1 else 0) + if b % 2 = 1 then 1 else 0 := by
  simp only [Nat.xor_mod_two_eq_one]
  obtain ha | ha := Nat.mod_two_eq_zero_or_one a <;> obtain hb | hb := Nat.mod_two_eq_zero_or_one b <;>
    simp [ha, hb, CharTwo.add_self_eq_zero]

theorem toPoly_xor (a b : Nat) : toPoly (a ^^^ b) = toPoly a + toPoly b := by
  induction a using Nat.strongRecOn generalizing b with
  | ind a ih =>
    by_cases ha : a = 0
    · rw [ha, Nat.zero_xor, toPoly_zero, zero_add]
    · rw [toPoly_eq (a ^^^ b), toPoly_eq a, toPoly_eq b, Nat.xor_div_two, ih (a / 2) (by omega) (b / 2), lowBit_xor]
      ring

end

end Poly

/-! ## The ring modulo a polynomial -/

section Modulo

variable (n p : Nat)

/-- Times the indeterminate, for a modulus `p` of degree `n`. -/
def mulX (a : Nat) : Nat := if a.testBit (n - 1) then 2 * a ^^^ p else 2 * a

/-- The product with the polynomial in the lowest `k` bits of `b`. -/
def mulFrom : Nat → Nat → Nat → Nat
  | 0, _, _ => 0
  | k + 1, a, b => (if b % 2 = 1 then a else 0) ^^^ mulX n p (mulFrom k a (b / 2))

def mul (a b : Nat) : Nat := mulFrom n p n a b

def squares : Nat → Nat → Nat
  | 0, a => a
  | k + 1, a => squares k (mul n p a a)

noncomputable section

def val (a : Nat) : AdjoinRoot (toPoly p) := AdjoinRoot.mk (toPoly p) (toPoly a)

theorem val_xor (a b : Nat) : val p (a ^^^ b) = val p a + val p b := by
  rw [val, toPoly_xor, map_add]
  rfl

theorem val_mulX (a : Nat) : val p (mulX n p a) = AdjoinRoot.root (toPoly p) * val p a := by
  have hdouble : val p (2 * a) = AdjoinRoot.root (toPoly p) * val p a := by
    rw [val, toPoly_double, map_mul]
    rfl
  have hp : val p p = 0 := AdjoinRoot.mk_self
  unfold mulX
  split
  · rw [val_xor, hdouble, hp, add_zero]
  · exact hdouble

theorem val_mulFrom {k a b : Nat} (hb : b < 2 ^ k) : val p (mulFrom n p k a b) = val p a * val p b := by
  have hzero : val p 0 = 0 := by rw [val, toPoly_zero, map_zero]
  induction k generalizing b with
  | zero =>
    rw [Nat.lt_one_iff.mp hb, hzero, mul_zero]
    exact hzero
  | succ k ih =>
    have hsplit : val p b = (if b % 2 = 1 then 1 else 0) + AdjoinRoot.root (toPoly p) * val p (b / 2) := by
      rw [val, toPoly_eq b, map_add, map_mul]
      split
      · rw [map_one]
        rfl
      · rw [map_zero]
        rfl
    rw [mulFrom, val_xor, val_mulX, ih (by omega), hsplit]
    split
    · ring
    · rw [hzero]
      ring

theorem val_mul {a b : Nat} (hb : b < 2 ^ n) : val p (mul n p a b) = val p a * val p b := val_mulFrom n p hb

theorem val_squares {k a : Nat} (hfit : ∀ i, i < k → squares n p i a < 2 ^ n) :
    val p (squares n p k a) = val p a ^ 2 ^ k := by
  induction k generalizing a with
  | zero => rw [squares, pow_zero, pow_one]
  | succ k ih =>
    have ha : a < 2 ^ n := hfit 0 (Nat.succ_pos k)
    rw [squares, ih fun i hi => hfit (i + 1) (Nat.succ_lt_succ hi), val_mul n p ha, ← sq, ← pow_mul, ← pow_succ']

end

end Modulo

/-! ## When it is a field -/

section Rabin

variable {P f : (ZMod 2)[X]}

theorem two_eq_zero : (2 : AdjoinRoot P) = 0 := by
  have htwo : (2 : ZMod 2) = 0 := rfl
  rw [← map_ofNat (AdjoinRoot.of P) 2, htwo, map_zero]

theorem sub_eq_add (a b : AdjoinRoot P) : a - b = a + b := by
  linear_combination -b * @two_eq_zero P

theorem root_of_dvd (h : f ∣ P) :
    ∃ φ : AdjoinRoot P →+* AdjoinRoot f, φ (AdjoinRoot.root P) = AdjoinRoot.root f := by
  have hroot : P.eval₂ (AdjoinRoot.of f) (AdjoinRoot.root f) = 0 := by
    obtain ⟨q, rfl⟩ := h
    rw [eval₂_mul, AdjoinRoot.eval₂_root, zero_mul]
  exact ⟨AdjoinRoot.lift _ _ hroot, AdjoinRoot.lift_root hroot⟩

theorem pow_natDegree (hf : Irreducible f) (x : AdjoinRoot f) : x ^ 2 ^ f.natDegree = x := by
  have hfact : Fact (Irreducible f) := ⟨hf⟩
  let pb := AdjoinRoot.powerBasis hf.ne_zero
  have hfinite : Module.Finite (ZMod 2) (AdjoinRoot f) := pb.finite
  have hfin : Finite (AdjoinRoot f) := Module.finite_of_finite (ZMod 2)
  have hfintype : Fintype (AdjoinRoot f) := Fintype.ofFinite _
  have hcard : Fintype.card (AdjoinRoot f) = 2 ^ f.natDegree := by
    rw [Module.card_eq_pow_finrank (K := ZMod 2), ZMod.card, pb.finrank, AdjoinRoot.powerBasis_dim]
  rw [← hcard]
  exact FiniteField.pow_card x

theorem irreducible_of_frobenius {k : Nat} (hdeg : P.natDegree = 2 ^ (k + 1))
    (hback : AdjoinRoot.root P ^ 2 ^ 2 ^ (k + 1) = AdjoinRoot.root P)
    (haway : IsUnit (AdjoinRoot.root P ^ 2 ^ 2 ^ k - AdjoinRoot.root P)) : Irreducible P := by
  obtain ⟨f, hf, hdvd⟩ := exists_irreducible_of_natDegree_pos (f := P) (by rw [hdeg]; positivity)
  have hfact : Fact (Irreducible f) := ⟨hf⟩
  obtain ⟨φ, hφ⟩ := root_of_dvd hdvd
  -- Squaring takes the divisor's root around in as many steps as the two degrees have in common.
  have hperiod : ∀ m, Function.IsPeriodicPt (fun x : AdjoinRoot f => x ^ 2) m (AdjoinRoot.root f) ↔
      AdjoinRoot.root f ^ 2 ^ m = AdjoinRoot.root f := by
    intro m
    rw [Function.IsPeriodicPt, Function.IsFixedPt, pow_iterate]
  have hwhole : AdjoinRoot.root f ^ 2 ^ 2 ^ (k + 1) = AdjoinRoot.root f := by
    rw [← hφ, ← map_pow, hback]
  have hgcd := ((hperiod _).mpr (pow_natDegree hf _)).gcd ((hperiod _).mpr hwhole)
  obtain ⟨j, hj, hgj⟩ := (Nat.dvd_prime_pow Nat.prime_two).mp (Nat.gcd_dvd_right f.natDegree (2 ^ (k + 1)))
  rw [hgj] at hgcd
  have hlast : j = k + 1 := by
    by_contra hne
    have hhalf : 2 ^ j ∣ 2 ^ k := pow_dvd_pow 2 (by omega)
    have hfixed := (hperiod _).mp (hgcd.trans_dvd hhalf)
    have hunit := haway.map φ
    rw [map_sub, map_pow, hφ, hfixed, sub_self] at hunit
    exact not_isUnit_zero hunit
  have hle : P.natDegree ≤ f.natDegree := by
    rw [hdeg, ← hlast, ← hgj]
    exact Nat.le_of_dvd (Irreducible.natDegree_pos hf) (Nat.gcd_dvd_left _ _)
  obtain ⟨q, rfl⟩ := hdvd
  have hq : q ≠ 0 := by
    rintro rfl
    rw [mul_zero, natDegree_zero] at hdeg
    exact absurd hdeg.symm (by positivity)
  rw [natDegree_mul hf.ne_zero hq] at hle
  have hconst : q.natDegree = 0 := by omega
  have hunit : IsUnit q := isUnit_iff_degree_eq_zero.mpr (by rw [degree_eq_natDegree hq, hconst]; rfl)
  exact (irreducible_mul_isUnit hunit).mpr hf

end Rabin

end Zelr.Gf
