import Mathlib.Data.Nat.Bitwise
import Zelr.Base.Bytes

/-!
# Numbers low byte first
-/

namespace Zelr

def littleNat : Bytes → Nat
  | [] => 0
  | b :: bs => b.toNat + 256 * littleNat bs

/-- The low `k` bytes of `n`, low byte first. -/
def littleBytes (k n : Nat) : Bytes := (List.range k).map fun i => UInt8.ofNat (n / 256 ^ i)

@[simp] theorem littleBytes_length (k n : Nat) : (littleBytes k n).length = k := by
  simp [littleBytes]

theorem littleBytes_add (a b n : Nat) :
    littleBytes (a + b) n = littleBytes a n ++ littleBytes b (n / 256 ^ a) := by
  unfold littleBytes
  rw [List.range_add, List.map_append, List.map_map]
  congr 1
  apply List.map_congr_left
  intro i _
  simp only [Function.comp, pow_add, Nat.div_div_eq_div_mul]

theorem littleBytes_mod (k n : Nat) : littleBytes k (n % 256 ^ k) = littleBytes k n := by
  unfold littleBytes
  apply List.map_congr_left
  intro i hi
  have hi := List.mem_range.mp hi
  have hpow : 256 ^ k = 256 ^ i * (256 * 256 ^ (k - i - 1)) := by
    rw [← pow_succ', ← pow_add]
    congr 1
    omega
  apply UInt8.toNat.inj
  rw [UInt8.toNat_ofNat', UInt8.toNat_ofNat', hpow, Nat.mod_mul_right_div_self]
  exact Nat.mod_mod_of_dvd _ (Dvd.intro _ rfl)

theorem littleNat_lt (bs : Bytes) : littleNat bs < 256 ^ bs.length := by
  induction bs with
  | nil => simp [littleNat]
  | cons b bs ih =>
    have hb := b.toNat_lt
    rw [littleNat, List.length_cons, pow_succ]
    omega

theorem littleNat_littleBytes (k n : Nat) : littleNat (littleBytes k n) = n % 256 ^ k := by
  induction k generalizing n with
  | zero => simp [littleBytes, littleNat, Nat.mod_one]
  | succ k ih =>
    have hfirst : littleBytes 1 n = [UInt8.ofNat n] := by simp [littleBytes]
    rw [add_comm k 1, littleBytes_add, hfirst, List.singleton_append, littleNat, ih, pow_one,
      UInt8.toNat_ofNat', add_comm 1 k, pow_succ' 256]
    exact Nat.mod_mul.symm

theorem littleNat_append (xs ys : Bytes) :
    littleNat (xs ++ ys) = littleNat xs + 256 ^ xs.length * littleNat ys := by
  induction xs with
  | nil => simp [littleNat]
  | cons x xs ih =>
    rw [List.cons_append, littleNat, littleNat, ih, List.length_cons, pow_succ]
    ring

theorem byteAt_littleNat (bs : Bytes) (i : Nat) :
    (byteAt bs i).toNat = littleNat bs / 256 ^ i % 256 := by
  induction bs generalizing i with
  | nil => simp [byteAt, littleNat]
  | cons b bs ih =>
    have hb := b.toNat_lt
    cases i with
    | zero =>
      rw [byteAt, List.getD_cons_zero, littleNat, pow_zero, Nat.div_one]
      omega
    | succ i =>
      have hnext : byteAt (b :: bs) (i + 1) = byteAt bs i := List.getD_cons_succ
      rw [hnext, ih, littleNat, pow_succ, mul_comm (256 ^ i), ← Nat.div_div_eq_div_mul]
      congr 2
      omega

theorem byteAt_bit (bs : Bytes) (j : Nat) :
    (byteAt bs (j / 8)).toNat / 2 ^ (j % 8) % 2 = littleNat bs / 2 ^ j % 2 := by
  have hbyte : (2 : Nat) ^ j = 256 ^ (j / 8) * 2 ^ (j % 8) := by
    conv_lhs => rw [← Nat.div_add_mod j 8, pow_add, pow_mul]
    rfl
  have hdvd : 2 ^ (j % 8) * 2 ∣ 256 := by
    have hle : j % 8 + 1 ≤ 8 := Nat.mod_lt _ (by decide)
    exact (pow_succ 2 (j % 8)) ▸ Nat.pow_dvd_pow 2 hle
  rw [byteAt_littleNat, hbyte, ← Nat.div_div_eq_div_mul, ← Nat.mod_mul_right_div_self,
    Nat.mod_mod_of_dvd _ hdvd, Nat.mod_mul_right_div_self]

theorem or_shiftLeft_eq {a k : Nat} (b : Nat) (h : a < 2 ^ k) : a ||| b <<< k = a + 2 ^ k * b := by
  rw [Nat.or_comm, Nat.shiftLeft_eq, mul_comm, ← Nat.two_pow_add_eq_or_of_lt h, add_comm]

theorem or_shiftLeft_mod_eq {a k : Nat} (b : Nat) {m : Nat} (h : a < 2 ^ k) :
    a ||| (b <<< k) % 2 ^ (k + m) = a + 2 ^ k * (b % 2 ^ m) := by
  have hmod : (b <<< k) % 2 ^ (k + m) = (b % 2 ^ m) <<< k := by
    rw [Nat.shiftLeft_eq, Nat.shiftLeft_eq, mul_comm, pow_add, Nat.mul_mod_mul_left, mul_comm]
  rw [hmod, or_shiftLeft_eq _ h]

end Zelr
