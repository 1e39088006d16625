import Zelr.Base.Twos
import Zelr.Js.Divide
import Zelr.Js.Value

/-!
# The bitwise operators are exact

A BigInt in two's complement, one limb wider than its magnitude, and back; the operators, and the cut
to a number of bits, are done to the limbs in between.
-/

namespace Zelr.Js

open Jbint

/-! ## Two's complement and back -/

@[simp] theorem negRow_length (a : Limbs) (c : Nat) : (negRow a c).length = a.length := by
  induction a generalizing c with
  | nil => rfl
  | cons x a ih => simp [negRow, ih]

theorem negRow_val (a : Limbs) {c : Nat} (hc : c ≤ 1) :
    ∃ k, limbsVal (negRow a c) + limbsVal a + 1 + (2 ^ 32) ^ a.length * k = (2 ^ 32) ^ a.length + c := by
  induction a generalizing c with
  | nil => exact ⟨c, by simp [negRow]⟩
  | cons x a ih =>
    have hx := x.toNat_lt
    have hnot : (~~~x).toNat = 2 ^ 32 - 1 - x.toNat := by
      rw [UInt32.toNat_not]
      rfl
    obtain ⟨k, hk⟩ := ih (c := (c + (2 ^ 32 - 1 - x.toNat)) / 2 ^ 32) (by omega)
    refine ⟨k, ?_⟩
    simp only [negRow, limbsVal_cons, toNat_limb, shiftRight_limb, hnot, List.length_cons,
      pow_succ' (2 ^ 32) a.length, mul_assoc]
    omega

theorem negRow_pos {a : Limbs} (h : 0 < limbsVal a) :
    limbsVal (negRow a 1) = (2 ^ 32) ^ a.length - limbsVal a := by
  obtain ⟨k, hk⟩ := negRow_val a (le_refl 1)
  have ha := limbsVal_lt a
  have hzero : k = 0 := by
    by_contra hne
    have hmul : (2 ^ 32) ^ a.length * 1 ≤ (2 ^ 32) ^ a.length * k :=
      Nat.mul_le_mul_left _ (Nat.one_le_iff_ne_zero.mpr hne)
    omega
  rw [hzero, mul_zero] at hk
  omega

variable {b a : Jbint} {len bits : Nat} {x : Limbs}

theorem jsbToTc_length (h : b.d.length ≤ len) : (jsbToTc b len).length = len := by
  unfold jsbToTc
  split <;> simp <;> omega

theorem jsbToTc_val (hb : b.Normal) (h : b.d.length ≤ len) :
    (limbsVal (jsbToTc b len) : Int) = b.val % (2 ^ 32) ^ len := by
  have hlen : (b.d ++ List.replicate (len - b.d.length) 0).length = len := by simp; omega
  have hpad : limbsVal (b.d ++ List.replicate (len - b.d.length) 0) = limbsVal b.d := by
    rw [limbsVal_append, limbsVal_zeros, mul_zero, add_zero]
  have hlt := limbsVal_lt (b.d ++ List.replicate (len - b.d.length) 0)
  rw [hlen, hpad] at hlt
  have hcast : ((2 : Int) ^ 32) ^ len = (((2 ^ 32) ^ len : Nat) : Int) := by push_cast; rfl
  cases hneg : b.neg with
  | false =>
    have hval : b.val = limbsVal b.d := by simp [val, hneg]
    simp only [jsbToTc, hneg, Bool.false_eq_true, if_false, hpad, hval, hcast]
    exact (Int.emod_eq_of_lt (by omega) (by omega)).symm
  | true =>
    have hsign := hb.neg_iff.mp hneg
    have hval : b.val = -(limbsVal b.d : Int) := by simp [val, hneg]
    have hpos : 0 < limbsVal (b.d ++ List.replicate (len - b.d.length) 0) := by omega
    simp only [jsbToTc, hneg, if_true, negRow_pos hpos, hlen, hpad, hcast]
    have hback : b.val = ((2 ^ 32) ^ len - limbsVal b.d : Nat) + (((2 ^ 32) ^ len : Nat) : Int) * (-1) := by
      omega
    rw [hback, Int.add_mul_emod_self_left, Int.emod_eq_of_lt (by omega) (by omega)]

theorem place_eq (len : Nat) : (2 ^ 32) ^ len = 2 ^ (32 * len) := (pow_mul 2 32 len).symm

theorem top_limb (tc : Limbs) (hne : tc ≠ []) :
    tc.getD (tc.length - 1) 0 >>> 31 ≠ 0 ↔ (2 ^ 32) ^ tc.length ≤ 2 * limbsVal tc := by
  obtain ⟨k, hk⟩ : ∃ k, tc.length = k + 1 :=
    ⟨tc.length - 1, by have := List.length_pos_iff.mpr hne; omega⟩
  have hlt := limbsVal_lt tc
  have hidx : tc.length - 1 = k := by omega
  have hshift : (31 : UInt32).toNat % 32 = 31 := rfl
  rw [hk, pow_succ (2 ^ 32)] at hlt
  rw [hidx, ne_eq, ← UInt32.toNat_inj, UInt32.toNat_shiftRight, hshift, getD_limbsVal,
    Nat.mod_eq_of_lt (Nat.div_lt_of_lt_mul hlt), Nat.shiftRight_eq_div_pow, UInt32.toNat_zero,
    Nat.div_div_eq_div_mul, hk, pow_succ (2 ^ 32), Nat.div_eq_zero_iff]
  have hpos : 0 < (2 ^ 32) ^ k := by positivity
  omega

theorem jsbFromTc_eq {tc : Limbs} (hne : tc ≠ []) :
    jsbFromTc tc = within tc.length ((limbsVal tc : Int).bmod (2 ^ (32 * tc.length))) := by
  have hlt := limbsVal_lt tc
  have htop := top_limb tc hne
  have hlen : 0 < tc.length := List.length_pos_iff.mpr hne
  rw [place_eq] at hlt htop
  obtain ⟨n, hn⟩ : ∃ n, 32 * tc.length = n + 1 := ⟨32 * tc.length - 1, by omega⟩
  have hpow : 2 ^ (n + 1) = 2 * 2 ^ n := pow_succ' 2 n
  rw [hn] at hlt htop ⊢
  unfold jsbFromTc
  by_cases hneg : tc.getD (tc.length - 1) 0 >>> 31 ≠ 0
  · have hhigh : 2 ^ n ≤ limbsVal tc := by
      rw [htop] at hneg
      omega
    have hpos : 0 < limbsVal tc := lt_of_lt_of_le (by positivity) hhigh
    simp only [if_pos hneg]
    apply new_then
    apply jsbTrim_eq
    rw [if_pos rfl, negRow_pos hpos, place_eq, hn, bmod_of_high hhigh hlt, Int.negSucc_eq]
    omega
  · have hlow : limbsVal tc < 2 ^ n := by
      rw [htop] at hneg
      omega
    simp only [if_neg hneg]
    apply new_then
    apply jsbTrim_eq
    rw [bmod_of_low hlow]
    rfl

/-! ## And, or, exclusive or -/

def bitOp (op : Nat) (x y : Bool) : Bool := if op = 0 then x && y else if op = 1 then x || y else x ^^ y

def intOp (op : Nat) (x y : Int) : Int :=
  if op = 0 then Int.land x y else if op = 1 then Int.lor x y else Int.xor x y

theorem testBit_intOp (op : Nat) (x y : Int) (k : Nat) :
    (intOp op x y).testBit k = bitOp op (x.testBit k) (y.testBit k) := by
  unfold intOp bitOp
  split
  · exact Int.testBit_land x y k
  · split
    · exact Int.testBit_lor x y k
    · exact Int.testBit_lxor x y k

theorem testBit_limbOp (op : Nat) (x y : UInt32) (k : Nat) :
    (limbOp op x y).toNat.testBit k = bitOp op (x.toNat.testBit k) (y.toNat.testBit k) := by
  unfold limbOp bitOp
  split
  · simp
  · split <;> simp

theorem getD_limbOp (op : Nat) {y : Limbs} (hlen : x.length = y.length) (i : Nat) :
    (List.zipWith (limbOp op) x y).getD i 0 = limbOp op (x.getD i 0) (y.getD i 0) := by
  have hzero : limbOp op 0 0 = 0 := by
    unfold limbOp
    split
    · rfl
    · split <;> rfl
  rcases Nat.lt_or_ge i x.length with hi | hi
  · have hi' : i < y.length := by omega
    simp [List.getD_eq_getElem?_getD, List.getElem?_zipWith, List.getElem?_eq_getElem hi,
      List.getElem?_eq_getElem hi']
  · have hi' : y.length ≤ i := by omega
    simp [List.getD_eq_getElem?_getD, List.getElem?_zipWith, List.getElem?_eq_none hi,
      List.getElem?_eq_none hi', hzero]

theorem testBit_zipWith (op : Nat) {y : Limbs} (hlen : x.length = y.length) (k : Nat) :
    (limbsVal (List.zipWith (limbOp op) x y)).testBit k
      = bitOp op ((limbsVal x).testBit k) ((limbsVal y).testBit k) := by
  rw [testBit_limbsVal, testBit_limbsVal, testBit_limbsVal, getD_limbOp op hlen, testBit_limbOp]

theorem toTc_bmod (hb : b.Normal) (h : b.d.length < len) :
    (limbsVal (jsbToTc b len) : Int).bmod (2 ^ (32 * len)) = b.val := by
  have hsmall := (hb.length_le_iff (len - 1)).mp (by omega)
  have hplace : 2 ^ (32 * len) = 2 ^ 32 * (2 ^ 32) ^ (len - 1) := by
    rw [← place_eq, ← pow_succ' (2 ^ 32)]
    congr 1
    omega
  have hcast : ((2 : Int) ^ 32) ^ len = ((2 ^ (32 * len) : Nat) : Int) := by
    rw [← place_eq]
    push_cast
    rfl
  rw [jsbToTc_val hb h.le, hcast, Int.emod_bmod]
  apply Int.bmod_eq_of_le <;> omega

theorem intOp_bmod (ha : a.Normal) (hb : b.Normal) (op : Nat)
    (hla : a.d.length < len) (hlb : b.d.length < len) :
    (limbsVal (List.zipWith (limbOp op) (jsbToTc a len) (jsbToTc b len)) : Int).bmod (2 ^ (32 * len))
      = intOp op a.val b.val := by
  have hxlen := jsbToTc_length hla.le
  have hylen := jsbToTc_length hlb.le
  have hx := limbsVal_lt (jsbToTc a len)
  have hy := limbsVal_lt (jsbToTc b len)
  have hz := limbsVal_lt (List.zipWith (limbOp op) (jsbToTc a len) (jsbToTc b len))
  rw [hxlen, place_eq] at hx
  rw [hylen, place_eq] at hy
  rw [List.length_zipWith, hxlen, hylen, min_self, place_eq] at hz
  apply eq_of_testBit
  intro k
  obtain ⟨n, hn⟩ : ∃ n, 32 * len = n + 1 := ⟨32 * len - 1, by omega⟩
  have hval := toTc_bmod ha hla
  have hval' := toTc_bmod hb hlb
  rw [hn] at hx hy hz hval hval' ⊢
  rw [testBit_intOp, ← hval, ← hval']
  exact testBit_bmod_of hx hy hz (testBit_zipWith op (by omega)) k

theorem jsbBitop_eq (ha : a.Normal) (hb : b.Normal) (op : Nat) :
    jsbBitop a b op = within (max a.d.length b.d.length + 1) (intOp op a.val b.val) := by
  have hla : a.d.length < max a.d.length b.d.length + 1 := by omega
  have hlb : b.d.length < max a.d.length b.d.length + 1 := by omega
  simp only [jsbBitop]
  generalize max a.d.length b.d.length + 1 = len at hla hlb
  have hlen : (List.zipWith (limbOp op) (jsbToTc a len) (jsbToTc b len)).length = len := by
    rw [List.length_zipWith, jsbToTc_length hla.le, jsbToTc_length hlb.le, min_self]
  have hne : List.zipWith (limbOp op) (jsbToTc a len) (jsbToTc b len) ≠ [] := by
    rw [← List.length_pos_iff]
    omega
  rw [jsbFromTc_eq hne, hlen, intOp_bmod ha hb op hla hlb]

/-! ## So many bits -/

/-- The limbs of a number cut to its low bits, all the limbs above set to one bit or the other. -/
structure Cuts (bits : Nat) (bit : Bool) (mask : UInt32 → UInt32) (above : UInt32) : Prop where
  mask : ∀ x j, j < 32 →
    (mask x).toNat.testBit j = if j < bits % 32 then x.toNat.testBit j else bit
  above : ∀ j, j < 32 → above.toNat.testBit j = bit

theorem cutBits_length (mask : UInt32 → UInt32) (above : UInt32)
    (h : (bits + 31) / 32 ≤ x.length) : (cutBits x bits mask above).length = x.length := by
  have hkept : (bits / 32 + if bits % 32 ≠ 0 then 1 else 0) ≤ x.length := by
    split <;> omega
  unfold cutBits
  dsimp only
  generalize (bits / 32 + if bits % 32 ≠ 0 then 1 else 0) = kept at hkept
  split <;> simp <;> omega

theorem getD_cutBits (mask : UInt32 → UInt32) (above : UInt32)
    (h : (bits + 31) / 32 ≤ x.length) (i : Nat) :
    (cutBits x bits mask above).getD i 0 =
      if i < bits / 32 then x.getD i 0
      else if i < (bits + 31) / 32 then mask (x.getD i 0)
      else if i < x.length then above else 0 := by
  have hkept : (bits / 32 + if bits % 32 ≠ 0 then 1 else 0) = (bits + 31) / 32 := by
    split <;> omega
  have hplain : ∀ j, (x.take ((bits + 31) / 32) ++ List.replicate (x.length - (bits + 31) / 32) above)[j]?
      = if j < (bits + 31) / 32 then x[j]? else if j < x.length then some above else none := by
    intro j
    by_cases hj : j < (bits + 31) / 32
    · rw [List.getElem?_append_left (by simp; omega), List.getElem?_take_of_lt hj, if_pos hj]
    · have hlen : (x.take ((bits + 31) / 32)).length = (bits + 31) / 32 := by simp; omega
      rw [List.getElem?_append_right (by omega), hlen, List.getElem?_replicate, if_neg hj]
      by_cases hjx : j < x.length
      · rw [if_pos (by omega), if_pos hjx]
      · rw [if_neg (by omega), if_neg hjx]
  unfold cutBits
  dsimp only
  rw [hkept]
  by_cases hpart : bits % 32 ≠ 0
  · rw [if_pos hpart, List.getD_eq_getElem?_getD, List.getElem?_modify, hplain]
    by_cases hi : i < (bits + 31) / 32
    · have hix : i < x.length := by omega
      simp only [if_pos hi, List.getElem?_eq_getElem hix, List.getD_eq_getElem?_getD, Option.getD_some,
        Option.map_eq_map, Option.map_some]
      by_cases hwhole : i < bits / 32
      · have hne : ¬ bits / 32 = i := by omega
        simp [hwhole, hne]
      · have heq : bits / 32 = i := by omega
        simp [heq]
    · have hne : ¬ bits / 32 = i := by omega
      have hwhole : ¬ i < bits / 32 := by omega
      simp only [if_neg hi, if_neg hwhole, if_neg hne]
      split <;> simp
  · have hwhole : (bits + 31) / 32 = bits / 32 := by omega
    rw [if_neg hpart, List.getD_eq_getElem?_getD, hplain, hwhole]
    split
    · rw [List.getD_eq_getElem?_getD]
    · split <;> simp

theorem testBit_cutBits {bit : Bool} {mask : UInt32 → UInt32} {above : UInt32}
    (hcuts : Cuts bits bit mask above) (h : (bits + 31) / 32 ≤ x.length) (k : Nat) :
    (limbsVal (cutBits x bits mask above)).testBit k =
      if k < bits then (limbsVal x).testBit k else (decide (k < 32 * x.length) && bit) := by
  have hj : k % 32 < 32 := Nat.mod_lt _ (by norm_num)
  rw [testBit_limbsVal, getD_cutBits mask above h, testBit_limbsVal]
  by_cases hwhole : k / 32 < bits / 32
  · rw [if_pos hwhole, if_pos (by omega)]
  · rw [if_neg hwhole]
    by_cases hkept : k / 32 < (bits + 31) / 32
    · have hin : k < 32 * x.length := by omega
      rw [if_pos hkept, hcuts.mask _ _ hj]
      by_cases hlow : k % 32 < bits % 32
      · rw [if_pos hlow, if_pos (by omega)]
      · rw [if_neg hlow, if_neg (by omega)]
        simp [hin]
    · rw [if_neg hkept, if_neg (show ¬ k < bits by omega)]
      by_cases hin : k / 32 < x.length
      · have hin' : k < 32 * x.length := by omega
        rw [if_pos hin, hcuts.above _ hj]
        simp [hin']
      · have hin' : ¬ k < 32 * x.length := by omega
        rw [if_neg hin]
        simp [hin']

theorem low_mask (p : Nat) (hp : p < 32) : ((1 : UInt32) <<< UInt32.ofNat p - 1).toNat = 2 ^ p - 1 := by
  have hpow : 2 ^ p < 2 ^ 32 := Nat.pow_lt_pow_right (by norm_num) hp
  have hp' : (UInt32.ofNat p).toNat % 32 = p := by
    rw [toNat_limb]
    omega
  have hone : (1 : UInt32).toNat = 1 := rfl
  have hshift : ((1 : UInt32) <<< UInt32.ofNat p).toNat = 2 ^ p := by
    rw [UInt32.toNat_shiftLeft, hp', hone, Nat.shiftLeft_eq, one_mul, Nat.mod_eq_of_lt hpow]
  have hpos : 1 ≤ 2 ^ p := Nat.one_le_two_pow
  have hle : (1 : UInt32) ≤ (1 : UInt32) <<< UInt32.ofNat p := by
    rw [UInt32.le_iff_toNat_le, hshift]
    exact hpos
  rw [UInt32.toNat_sub_of_le _ _ hle, hshift, hone]

theorem clears (bits : Nat) :
    Cuts bits false (· &&& ((1 <<< UInt32.ofNat (bits % 32)) - 1)) 0 where
  mask := by
    intro x j _
    have hlow := low_mask (bits % 32) (Nat.mod_lt _ (by norm_num))
    rw [UInt32.toNat_and, Nat.testBit_and, hlow, Nat.testBit_two_pow_sub_one]
    split <;> simp_all
  above := by
    intro j _
    simp

theorem sets (bits : Nat) :
    Cuts bits true (· ||| ~~~((1 <<< UInt32.ofNat (bits % 32)) - 1)) 0xFFFFFFFF where
  mask := by
    intro x j hj
    have hlow := low_mask (bits % 32) (Nat.mod_lt _ (by norm_num))
    have hlt := ((1 : UInt32) <<< UInt32.ofNat (bits % 32) - 1).toNat_lt
    have hnot : (~~~((1 : UInt32) <<< UInt32.ofNat (bits % 32) - 1)).toNat
        = 2 ^ 32 - (2 ^ (bits % 32) - 1 + 1) := by
      have hsize : UInt32.size = 2 ^ 32 := rfl
      rw [UInt32.toNat_not, hlow, hsize]
      omega
    rw [hlow] at hlt
    rw [UInt32.toNat_or, Nat.testBit_or, hnot, Nat.testBit_two_pow_sub_succ hlt,
      Nat.testBit_two_pow_sub_one]
    split <;> simp_all
  above := by
    intro j hj
    have hones : (0xFFFFFFFF : UInt32).toNat = 2 ^ 32 - 1 := rfl
    rw [hones, Nat.testBit_two_pow_sub_one]
    simpa using hj

/-- `a` modulo `2 ^ bits`, and that read as signed. -/
def asExact (isSigned : Bool) (bits : Nat) (x : Int) : Int :=
  if isSigned then x.bmod (2 ^ bits) else x % (2 ^ bits : Nat)

theorem sign_bit (x : Limbs) (j : Nat) :
    x.getD (j / 32) 0 >>> UInt32.ofNat (j % 32) &&& 1 ≠ 0 ↔ (limbsVal x).testBit j = true := by
  have hone : (1 : UInt32).toNat = 2 ^ 1 - 1 := rfl
  rw [testBit_limbsVal, Nat.testBit_eq_decide_div_mod_eq, decide_eq_true_eq, ne_eq, ← UInt32.toNat_inj,
    UInt32.toNat_and, shr_limb (Nat.mod_lt _ (by norm_num)), hone, Nat.and_two_pow_sub_one_eq_mod,
    UInt32.toNat_zero]
  omega

theorem cut_signed {n low cut : Nat} (hbits : 0 < bits) (hn : bits ≤ n) (hlow : low < 2 ^ bits)
    (hcut : cut < 2 ^ (n + 1))
    (h : ∀ k, k ≤ n → cut.testBit k = if k < bits then low.testBit k else low.testBit (bits - 1)) :
    (cut : Int).bmod (2 ^ (n + 1)) = (low : Int).bmod (2 ^ bits) := by
  obtain ⟨m, rfl⟩ : ∃ m, bits = m + 1 := ⟨bits - 1, by omega⟩
  apply eq_of_testBit
  intro k
  rw [testBit_bmod hcut, testBit_bmod hlow, h _ (min_le_right k n), Nat.add_sub_cancel]
  by_cases hk : k < m + 1
  · rw [min_eq_left (by omega), min_eq_left (by omega), if_pos hk]
  · rw [if_neg (by omega), min_eq_right (by omega)]

theorem jsbAsN_eq (ha : a.Normal) (hbits : 0 < bits) (isSigned : Bool) :
    jsbAsN a bits isSigned
      = within (max ((bits + 31) / 32 + 1) (a.d.length + 1)) (asExact isSigned bits a.val) := by
  have hroom : (bits + 31) / 32 < max ((bits + 31) / 32 + 1) (a.d.length + 1) := by omega
  have hwide : a.d.length < max ((bits + 31) / 32 + 1) (a.d.length + 1) := by omega
  simp only [jsbAsN, if_neg hbits.ne']
  generalize max ((bits + 31) / 32 + 1) (a.d.length + 1) = len at hroom hwide
  have hxlen := jsbToTc_length hwide.le
  have hval := jsbToTc_val ha hwide.le
  generalize jsbToTc a len = x at hxlen hval
  obtain ⟨n, hn⟩ : ∃ n, 32 * len = n + 1 := ⟨32 * len - 1, by omega⟩
  have hfits : (bits + 31) / 32 ≤ x.length := by omega
  have hlowbit := testBit_cutBits (clears bits) hfits
  have hlowlen := cutBits_length (x := x) (· &&& ((1 <<< UInt32.ofNat (bits % 32)) - 1)) 0 hfits
  have hlow := limbsVal_lt (cutBits x bits (· &&& ((1 <<< UInt32.ofNat (bits % 32)) - 1)) 0)
  have hlowval : limbsVal (cutBits x bits (· &&& ((1 <<< UInt32.ofNat (bits % 32)) - 1)) 0)
      = limbsVal x % 2 ^ bits := by
    apply Nat.eq_of_testBit_eq
    intro k
    rw [hlowbit, Nat.testBit_mod_two_pow]
    split <;> simp_all
  have hexact : ((limbsVal x % 2 ^ bits : Nat) : Int) = a.val % (2 ^ bits : Nat) := by
    have hcast : ((2 : Int) ^ 32) ^ len = ((2 ^ (32 * len) : Nat) : Int) := by
      rw [← place_eq]
      push_cast
      rfl
    have hdvd : ((2 ^ bits : Nat) : Int) ∣ ((2 ^ (32 * len) : Nat) : Int) := by
      exact_mod_cast Nat.pow_dvd_pow 2 (by omega)
    rw [Int.natCast_emod, hval, hcast, Int.emod_emod_of_dvd _ hdvd]
  rw [← hlowval] at hexact
  have hlowlt : limbsVal (cutBits x bits (· &&& ((1 <<< UInt32.ofNat (bits % 32)) - 1)) 0) < 2 ^ bits := by
    rw [hlowval]
    exact Nat.mod_lt _ (by positivity)
  have htop := sign_bit (cutBits x bits (· &&& ((1 <<< UInt32.ofNat (bits % 32)) - 1)) 0) (bits - 1)
  generalize cutBits x bits (· &&& ((1 <<< UInt32.ofNat (bits % 32)) - 1)) 0 = low at *
  have hbmod : (limbsVal low : Int).bmod (2 ^ bits) = a.val.bmod (2 ^ bits) := by
    rw [hexact, Int.emod_bmod]
  by_cases hset : isSigned = true ∧ low.getD ((bits - 1) / 32) 0 >>> UInt32.ofNat ((bits - 1) % 32) &&& 1 ≠ 0
  · obtain ⟨rfl, hset'⟩ := hset
    have hfits' : (bits + 31) / 32 ≤ low.length := by omega
    have hhighbit := testBit_cutBits (sets bits) hfits'
    have hhighlen := cutBits_length (x := low) (· ||| ~~~((1 <<< UInt32.ofNat (bits % 32)) - 1)) 0xFFFFFFFF hfits'
    have hhigh := limbsVal_lt (cutBits low bits (· ||| ~~~((1 <<< UInt32.ofNat (bits % 32)) - 1)) 0xFFFFFFFF)
    rw [if_pos ⟨rfl, hset'⟩]
    generalize cutBits low bits (· ||| ~~~((1 <<< UInt32.ofNat (bits % 32)) - 1)) 0xFFFFFFFF = high at *
    have hne : high ≠ [] := by
      rw [← List.length_pos_iff]
      omega
    have hlen : high.length = len := by omega
    rw [hlen, place_eq, hn] at hhigh
    rw [jsbFromTc_eq hne, hlen, hn, asExact, if_pos rfl, ← hbmod,
      cut_signed hbits (by omega) hlowlt hhigh]
    intro k hk
    rw [hhighbit, htop.mp hset']
    split
    · rfl
    · simp
      omega
  · have hne : low ≠ [] := by
      rw [← List.length_pos_iff]
      omega
    have hlen : low.length = len := by omega
    rw [hlen, place_eq, hn] at hlow
    rw [if_neg hset, jsbFromTc_eq hne, hlen, hn, asExact]
    cases isSigned with
    | true =>
      have hclear : (limbsVal low).testBit (bits - 1) = false := by
        rw [← Bool.not_eq_true, ← htop]
        exact fun hset' => hset ⟨rfl, hset'⟩
      rw [if_pos rfl, ← hbmod, cut_signed hbits (by omega) hlowlt hlow]
      intro k hk
      rw [hclear]
      split
      · rfl
      · rename_i hge
        rw [hlowbit, if_neg hge, Bool.and_false]
    | false =>
      have hbelow : limbsVal low < 2 ^ n :=
        hlowlt.trans_le (Nat.pow_le_pow_right (by norm_num) (by omega))
      rw [bmod_of_low hbelow, hexact]
      rfl

end Zelr.Js
