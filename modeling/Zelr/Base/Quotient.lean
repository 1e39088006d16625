import Mathlib.Tactic.Linarith
import Mathlib.Tactic.Ring

/-!
# The estimate of a quotient's digit

Long division in base `B`: the dividend's top three digits are `u0`, `u1`, `u2` and the divisor's
top two `v1`, `v2`, over `P` times what the lower digits make.
-/

namespace Zelr.LongDivision

variable {B P u0 u1 u2 r v1 v2 s q qhat rhat : Nat}

def dividend (B P u0 u1 u2 r : Nat) : Nat := ((u0 * B + u1) * B + u2) * P + r

def divisor (B P v1 v2 s : Nat) : Nat := (v1 * B + v2) * P + s

theorem le_of_mul_le_add {a b : Nat} (h : a * P ≤ b * P + r) (hr : r < P) : a ≤ b := by
  by_contra hlt
  have hmul : (b + 1) * P ≤ a * P := Nat.mul_le_mul_right P (by omega)
  rw [add_mul, one_mul] at hmul
  omega

theorem first_le (hs : s < P) (hv2 : v2 < B)
    (h : dividend B P u0 u1 u2 r < B * divisor B P v1 v2 s) : u0 ≤ v1 := by
  have hlow : v2 * P + s < B * P := by
    have hmul : (v2 + 1) * P ≤ B * P := Nat.mul_le_mul_right P hv2
    rw [add_mul, one_mul] at hmul
    omega
  have hdiv : divisor B P v1 v2 s < (v1 + 1) * (B * P) := by
    calc divisor B P v1 v2 s = v1 * (B * P) + (v2 * P + s) := by
          unfold divisor
          ring
      _ < (v1 + 1) * (B * P) := by
          rw [add_mul, one_mul]
          omega
  have hB : 0 < B := by omega
  have hlt : u0 * (B * (B * P)) < (v1 + 1) * (B * (B * P)) := by
    calc u0 * (B * (B * P)) ≤ dividend B P u0 u1 u2 r := by
          have heq : dividend B P u0 u1 u2 r = u0 * (B * (B * P)) + ((u1 * B + u2) * P + r) := by
            unfold dividend
            ring
          omega
      _ < B * divisor B P v1 v2 s := h
      _ ≤ B * ((v1 + 1) * (B * P)) := Nat.mul_le_mul_left B hdiv.le
      _ = (v1 + 1) * (B * (B * P)) := by ring
  exact Nat.le_of_lt_succ (Nat.lt_of_mul_lt_mul_right hlt)

theorem le_estimate (hr : r < P) (hu2 : u2 < B) (hv1 : 0 < v1)
    (h : q * divisor B P v1 v2 s ≤ dividend B P u0 u1 u2 r) : q ≤ (u0 * B + u1) / v1 := by
  rw [Nat.le_div_iff_mul_le hv1]
  have hle : q * v1 * B * P ≤ ((u0 * B + u1) * B + u2) * P + r := by
    calc q * v1 * B * P ≤ q * divisor B P v1 v2 s := by
          have heq : q * divisor B P v1 v2 s = q * v1 * B * P + q * (v2 * P + s) := by
            unfold divisor
            ring
          omega
      _ ≤ dividend B P u0 u1 u2 r := h
      _ = ((u0 * B + u1) * B + u2) * P + r := rfl
  exact le_of_mul_le_add (le_of_mul_le_add hle hr) hu2

theorem lt_of_second (hr : r < P) (hrhat : qhat * v1 + rhat = u0 * B + u1)
    (hsecond : rhat * B + u2 < qhat * v2)
    (h : q * divisor B P v1 v2 s ≤ dividend B P u0 u1 u2 r) : q < qhat := by
  by_contra hge
  have hle : qhat * (v1 * B + v2) * P ≤ ((u0 * B + u1) * B + u2) * P + r := by
    calc qhat * (v1 * B + v2) * P ≤ qhat * divisor B P v1 v2 s := by
          have heq : qhat * divisor B P v1 v2 s = qhat * (v1 * B + v2) * P + qhat * s := by
            unfold divisor
            ring
          omega
      _ ≤ q * divisor B P v1 v2 s := Nat.mul_le_mul_right _ (by omega)
      _ ≤ dividend B P u0 u1 u2 r := h
      _ = ((u0 * B + u1) * B + u2) * P + r := rfl
  have htop := le_of_mul_le_add hle hr
  have hsplit : (u0 * B + u1) * B = qhat * v1 * B + rhat * B := by rw [← hrhat]; ring
  have hprod : qhat * (v1 * B + v2) = qhat * v1 * B + qhat * v2 := by ring
  omega

theorem le_succ_of_second (hs : s < P) (hv1 : 0 < v1) (hqhat : qhat ≤ B)
    (hrhat : qhat * v1 + rhat = u0 * B + u1) (hsecond : qhat * v2 ≤ rhat * B + u2)
    (h : dividend B P u0 u1 u2 r < (q + 1) * divisor B P v1 v2 s) : qhat ≤ q + 1 := by
  have htop : qhat * (v1 * B + v2) ≤ (u0 * B + u1) * B + u2 := by
    have hsplit : (u0 * B + u1) * B = qhat * v1 * B + rhat * B := by rw [← hrhat]; ring
    have hprod : qhat * (v1 * B + v2) = qhat * v1 * B + qhat * v2 := by ring
    omega
  have hbelow : qhat * s ≤ divisor B P v1 v2 s := by
    calc qhat * s ≤ B * P := Nat.mul_le_mul hqhat hs.le
      _ ≤ v1 * (B * P) := Nat.le_mul_of_pos_left _ hv1
      _ ≤ divisor B P v1 v2 s := by
          have heq : divisor B P v1 v2 s = v1 * (B * P) + (v2 * P + s) := by
            unfold divisor
            ring
          omega
  have hmul : qhat * divisor B P v1 v2 s < (q + 2) * divisor B P v1 v2 s := by
    calc qhat * divisor B P v1 v2 s = qhat * (v1 * B + v2) * P + qhat * s := by
          unfold divisor
          ring
      _ ≤ ((u0 * B + u1) * B + u2) * P + qhat * s := by
          have := Nat.mul_le_mul_right P htop
          omega
      _ ≤ dividend B P u0 u1 u2 r + divisor B P v1 v2 s := by
          unfold dividend
          omega
      _ < (q + 2) * divisor B P v1 v2 s := by
          have heq : (q + 2) * divisor B P v1 v2 s
              = (q + 1) * divisor B P v1 v2 s + divisor B P v1 v2 s := by ring
          omega
  have := Nat.lt_of_mul_lt_mul_right hmul
  omega

end Zelr.LongDivision
