import Mathlib.Algebra.Group.Int.Defs
import Mathlib.Algebra.Group.Nat.Defs
import Mathlib.Tactic.Common

/-!
# Sequence numbers of 32 bits

Positions in a stream are natural numbers; on the wire they wrap. Two positions less than 2^31
apart compare as their numbers do.
-/

namespace Zelr

abbrev U32 := BitVec 32

/-- The number of position `n` in a stream that starts at `base`. -/
def seqAt (base : U32) (n : Nat) : U32 := base + BitVec.ofNat 32 n

@[simp] theorem seqAt_zero (base : U32) : seqAt base 0 = base := by simp [seqAt]

theorem seqAt_add (base : U32) (m n : Nat) : seqAt base m + BitVec.ofNat 32 n = seqAt base (m + n) := by
  apply BitVec.eq_of_toNat_eq
  simp [seqAt, Nat.add_assoc]

theorem seqAt_sub (base : U32) (m n : Nat) :
    seqAt base m - seqAt base n = BitVec.ofInt 32 ((m : Int) - n) := by
  have h : BitVec.ofNat 32 m = BitVec.ofInt 32 ((m : Int) - n) + BitVec.ofNat 32 n := by
    rw [← BitVec.ofInt_natCast, ← BitVec.ofInt_natCast, ← BitVec.ofInt_add]
    congr 1
    omega
  rw [seqAt, seqAt, h, ← BitVec.add_assoc, BitVec.add_comm base, BitVec.add_assoc,
    BitVec.add_sub_cancel]

theorem seqAt_diff (base : U32) (m n : Nat) (hlo : -2 ^ 31 ≤ (m : Int) - n)
    (hhi : (m : Int) - n < 2 ^ 31) : (seqAt base m - seqAt base n).toInt = (m : Int) - n := by
  rw [seqAt_sub, BitVec.toInt_ofInt, Int.bmod_eq_of_le (by omega) (by omega)]

theorem seqAt_ahead (base : U32) (m n : Nat) (hle : n ≤ m) (hlt : m - n < 2 ^ 32) :
    (seqAt base m - seqAt base n).toNat = m - n := by
  rw [seqAt_sub, BitVec.toNat_ofInt]
  omega

end Zelr
