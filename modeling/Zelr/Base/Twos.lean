import Mathlib.Data.Int.Bitwise

/-!
# Two's complement

A number of `n` bits read with its top bit as the sign: its bits are those of the number, and the
top one again for ever above them.
-/

namespace Zelr

theorem testBit_above {m k : Nat} (h : m ≤ k) : m.testBit k = false :=
  Nat.testBit_lt_two_pow (Nat.lt_two_pow_self.trans_le (Nat.pow_le_pow_right (by omega) h))

theorem eq_of_testBit {x y : Int} (h : ∀ k, x.testBit k = y.testBit k) : x = y := by
  cases x with
  | ofNat m =>
    cases y with
    | ofNat n =>
      have hmn : m = n := Nat.eq_of_testBit_eq h
      rw [hmn]
    | negSucc n =>
      have hbit := h (m + n)
      simp [Int.testBit, testBit_above (Nat.le_add_right m n), testBit_above (Nat.le_add_left n m)] at hbit
  | negSucc m =>
    cases y with
    | ofNat n =>
      have hbit := h (m + n)
      simp [Int.testBit, testBit_above (Nat.le_add_right m n), testBit_above (Nat.le_add_left n m)] at hbit
    | negSucc n =>
      have hmn : m = n := by
        apply Nat.eq_of_testBit_eq
        intro k
        simpa [Int.testBit] using h k
      rw [hmn]

variable {n : Nat}

theorem bmod_of_low {v : Nat} (h : v < 2 ^ n) : (v : Int).bmod (2 ^ (n + 1)) = v := by
  have hpow : 2 ^ (n + 1) = 2 * 2 ^ n := pow_succ' 2 n
  apply Int.bmod_eq_of_le <;> omega

theorem bmod_of_high {v : Nat} (h : 2 ^ n ≤ v) (hlt : v < 2 ^ (n + 1)) :
    (v : Int).bmod (2 ^ (n + 1)) = Int.negSucc (2 ^ (n + 1) - (v + 1)) := by
  have hpow : 2 ^ (n + 1) = 2 * 2 ^ n := pow_succ' 2 n
  have hmod : (v : Int) % ((2 ^ (n + 1) : Nat) : Int) = v := Int.emod_eq_of_lt (by omega) (by omega)
  rw [Int.bmod_neg _ _ (by rw [hmod]; omega), hmod, Int.negSucc_eq]
  omega

theorem testBit_bmod {v : Nat} (h : v < 2 ^ (n + 1)) (k : Nat) :
    ((v : Int).bmod (2 ^ (n + 1))).testBit k = v.testBit (min k n) := by
  rcases Nat.lt_or_ge v (2 ^ n) with hlow | hhigh
  · have hbits : ∀ j, n ≤ j → v.testBit j = false := fun j hj =>
      Nat.testBit_lt_two_pow (hlow.trans_le (Nat.pow_le_pow_right (by omega) hj))
    have heq : ((v : Int).bmod (2 ^ (n + 1))).testBit k = v.testBit k := by
      rw [bmod_of_low hlow]
      rfl
    rw [heq]
    rcases Nat.lt_or_ge k n with hk | hk
    · rw [min_eq_left hk.le]
    · rw [min_eq_right hk, hbits k hk, hbits n (le_refl n)]
  · have heq : ((v : Int).bmod (2 ^ (n + 1))).testBit k = !(2 ^ (n + 1) - (v + 1)).testBit k := by
      rw [bmod_of_high hhigh h]
      rfl
    have htop : v.testBit n = true := by
      have hpow : 2 ^ (n + 1) = 2 * 2 ^ n := pow_succ' 2 n
      rw [Nat.testBit_eq_decide_div_mod_eq, decide_eq_true_eq,
        Nat.div_eq_of_lt_le (k := 1) (by omega) (by omega)]
    rw [heq, Nat.testBit_two_pow_sub_succ h]
    rcases Nat.lt_or_ge k (n + 1) with hk | hk
    · simp [hk, min_eq_left (Nat.le_of_lt_succ hk)]
    · simp [min_eq_right (Nat.le_of_succ_le hk), htop, Nat.not_lt.mpr hk]

theorem testBit_bmod_of {f : Bool → Bool → Bool} {x y z : Nat} (hx : x < 2 ^ (n + 1))
    (hy : y < 2 ^ (n + 1)) (hz : z < 2 ^ (n + 1))
    (h : ∀ k, z.testBit k = f (x.testBit k) (y.testBit k)) (k : Nat) :
    ((z : Int).bmod (2 ^ (n + 1))).testBit k
      = f (((x : Int).bmod (2 ^ (n + 1))).testBit k) (((y : Int).bmod (2 ^ (n + 1))).testBit k) := by
  rw [testBit_bmod hx, testBit_bmod hy, testBit_bmod hz, h]

end Zelr
