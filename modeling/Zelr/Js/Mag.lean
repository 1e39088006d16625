import Zelr.Js.Big

/-!
# Magnitudes are exact

What each row of limbs does to the numbers the limbs stand for.
-/

namespace Zelr.Js

@[simp] theorem toNat_limb (n : Nat) : (UInt32.ofNat n).toNat = n % 2 ^ 32 := by simp

@[simp] theorem shiftRight_limb (n : Nat) : n >>> 32 = n / 2 ^ 32 := Nat.shiftRight_eq_div_pow n 32

theorem two_limbs (hi : Nat) {lo : Nat} (h : lo < 2 ^ 32) : hi <<< 32 ||| lo = hi * 2 ^ 32 + lo := by
  rw [← Nat.shiftLeft_add_eq_or_of_lt h, Nat.shiftLeft_eq]

theorem head_tail (a : Limbs) : limbsVal a = (a.headD 0).toNat + 2 ^ 32 * limbsVal a.tail := by
  cases a with
  | nil => simp
  | cons x a => rw [limbsVal_cons, List.headD_cons, List.tail_cons]

/-! ## Comparing -/

variable {a b r : Limbs} {c : Nat}

theorem cmpFromTop_eq (h : a.length = b.length) :
    cmpFromTop a b = compare (limbsVal a.reverse) (limbsVal b.reverse) := by
  induction a generalizing b with
  | nil =>
    obtain rfl : b = [] := List.length_eq_zero_iff.mp h.symm
    simp [cmpFromTop]
  | cons x a ih =>
    cases b with
    | nil => cases h
    | cons y b =>
      have hlen : a.length = b.length := Nat.succ.inj h
      have ha := limbsVal_lt a.reverse
      have hb := limbsVal_lt b.reverse
      simp only [List.length_reverse, hlen] at ha hb
      simp only [cmpFromTop, List.reverse_cons, limbsVal_append, List.length_reverse, hlen,
        limbsVal_singleton]
      generalize (2 ^ 32) ^ b.length = p at ha hb
      by_cases hxy : x = y
      · subst hxy
        simp [ih hlen, Nat.compare_eq_ite_lt]
      · have hne : x.toNat ≠ y.toNat := fun heq => hxy (UInt32.toNat.inj heq)
        simp only [ne_eq, hxy, not_false_eq_true, if_true, UInt32.lt_iff_toNat_lt]
        by_cases hlt : x.toNat < y.toNat
        · have hmul : p * x.toNat + p ≤ p * y.toNat := by
            have := Nat.mul_le_mul_left p hlt
            rwa [Nat.mul_succ] at this
          rw [if_pos hlt, eq_comm, compare_lt_iff_lt]
          omega
        · have hmul : p * y.toNat + p ≤ p * x.toNat := by
            have := Nat.mul_le_mul_left p (show y.toNat + 1 ≤ x.toNat by omega)
            rwa [Nat.mul_succ] at this
          rw [if_neg hlt, eq_comm, compare_gt_iff_gt]
          omega

theorem jsbMagCmp_eq (ha : TopNonzero a) (hb : TopNonzero b) :
    jsbMagCmp a b = compare (limbsVal a) (limbsVal b) := by
  by_cases hlen : a.length = b.length
  · have hrev : a.reverse.length = b.reverse.length := by simp [hlen]
    simp [jsbMagCmp, hlen, cmpFromTop_eq hrev]
  · by_cases hlt : a.length < b.length
    · have hval := limbsVal_lt_of_length hb hlt
      simp [jsbMagCmp, hlen, hlt, compare_lt_iff_lt.mpr hval]
    · have hval := limbsVal_lt_of_length ha (show b.length < a.length by omega)
      simp [jsbMagCmp, hlen, hlt, compare_gt_iff_gt.mpr hval]

/-! ## Adding and taking away -/

theorem addRow_val (hlen : b.length ≤ a.length) (hc : c < 2 ^ 32) :
    limbsVal (addRow a b c) = limbsVal a + limbsVal b + c := by
  induction a generalizing b c with
  | nil =>
    obtain rfl : b = [] := by simpa using hlen
    by_cases hzero : c = 0
    · simp [addRow, hzero]
    · simp [addRow, hzero]
      omega
  | cons x a ih =>
    have hx := x.toNat_lt
    have hy := (b.headD 0).toNat_lt
    have hb := head_tail b
    have hrest := ih (b := b.tail) (c := (c + (x.toNat + (b.headD 0).toNat)) / 2 ^ 32)
      (by simpa using hlen) (by omega)
    simp only [addRow, limbsVal_cons, toNat_limb, shiftRight_limb, hrest]
    omega

theorem jsbMagAdd_val (a b : Limbs) : limbsVal (jsbMagAdd a b) = limbsVal a + limbsVal b := by
  by_cases hlt : a.length < b.length
  · simp [jsbMagAdd, hlt, addRow_val hlt.le, add_comm]
  · simp [jsbMagAdd, hlt, addRow_val (not_lt.mp hlt)]

theorem sub_limb (x y borrow : UInt32) (hborrow : borrow.toNat ≤ 1) :
    let t := x.toUInt64 - y.toUInt64 - borrow.toUInt64
    (t >>> 63).toUInt32.toNat ≤ 1 ∧
      t.toUInt32.toNat + y.toNat + borrow.toNat = x.toNat + 2 ^ 32 * (t >>> 63).toUInt32.toNat := by
  have hx := x.toNat_lt
  have hy := y.toNat_lt
  have hdiff : (x.toUInt64 - y.toUInt64 - borrow.toUInt64).toNat
      = (2 ^ 64 + x.toNat - y.toNat - borrow.toNat) % 2 ^ 64 := by
    simp only [UInt64.toNat_sub, UInt32.toNat_toUInt64]
    omega
  simp only [UInt64.toNat_toUInt32, UInt64.toNat_shiftRight, hdiff]
  have hshift : (63 : UInt64).toNat % 64 = 63 := rfl
  rw [hshift, Nat.shiftRight_eq_div_pow]
  omega

@[simp] theorem subRow_length (a b : Limbs) (borrow : UInt32) : (subRow a b borrow).length = a.length := by
  induction a generalizing b borrow with
  | nil => rfl
  | cons x a ih => simp [subRow, ih]

theorem subRow_val {borrow : UInt32} (hlen : b.length ≤ a.length)
    (hborrow : borrow.toNat ≤ 1) :
    ∃ k, limbsVal (subRow a b borrow) + limbsVal b + borrow.toNat
      = limbsVal a + (2 ^ 32) ^ a.length * k := by
  induction a generalizing b borrow with
  | nil =>
    obtain rfl : b = [] := by simpa using hlen
    exact ⟨borrow.toNat, by simp [subRow]⟩
  | cons x a ih =>
    obtain ⟨hle, heq⟩ := sub_limb x (b.headD 0) borrow hborrow
    obtain ⟨k, hk⟩ := ih (b := b.tail) (by simpa using hlen) hle
    have hb := head_tail b
    refine ⟨k, ?_⟩
    rw [subRow, limbsVal_cons, limbsVal_cons, List.length_cons, pow_succ' (2 ^ 32), mul_assoc]
    omega

theorem jsbMagSub_val (hlen : b.length ≤ a.length) (h : limbsVal b ≤ limbsVal a) :
    limbsVal (jsbMagSub a b) = limbsVal a - limbsVal b := by
  have hzero : (0 : UInt32).toNat ≤ 1 := Nat.zero_le 1
  obtain ⟨k, hk⟩ := subRow_val hlen hzero
  have hlt := limbsVal_lt (subRow a b 0)
  have ha := limbsVal_lt a
  rw [subRow_length] at hlt
  rw [UInt32.toNat_zero, add_zero] at hk
  rw [jsbMagSub, limbsVal_strip]
  -- A borrow out of the top would be worth more than the row.
  have hzero : k = 0 := by
    by_contra hne
    have hmul : (2 ^ 32) ^ a.length * 1 ≤ (2 ^ 32) ^ a.length * k :=
      Nat.mul_le_mul_left _ (Nat.one_le_iff_ne_zero.mpr hne)
    omega
  rw [hzero, mul_zero] at hk
  omega

/-! ## Multiplying -/

theorem mulRow_length (x : UInt32) (c : Nat) (hlen : r.length = b.length) :
    (mulRow x b r c).length = b.length + 1 := by
  induction b generalizing r c with
  | nil => simp [mulRow]
  | cons y b ih =>
    cases r with
    | nil => cases hlen
    | cons t r => simp [mulRow, ih _ (Nat.succ.inj hlen)]

theorem carry_lt {x y t : Nat} (hc : c < 2 ^ 32) (hx : x < 2 ^ 32) (hy : y < 2 ^ 32)
    (ht : t < 2 ^ 32) : (c + (x * y + t)) / 2 ^ 32 < 2 ^ 32 := by
  have hxy : x * y ≤ (2 ^ 32 - 1) * (2 ^ 32 - 1) := Nat.mul_le_mul (by omega) (by omega)
  omega

theorem mulRow_val (x : UInt32) (hlen : r.length = b.length)
    (hc : c < 2 ^ 32) : limbsVal (mulRow x b r c) = limbsVal r + x.toNat * limbsVal b + c := by
  induction b generalizing r c with
  | nil =>
    obtain rfl : r = [] := List.length_eq_zero_iff.mp hlen
    simp [mulRow]
    omega
  | cons y b ih =>
    cases r with
    | nil => cases hlen
    | cons t r =>
      have hrest := ih (Nat.succ.inj hlen) (carry_lt hc x.toNat_lt y.toNat_lt t.toNat_lt)
      have hsplit : x.toNat * (y.toNat + 2 ^ 32 * limbsVal b)
          = x.toNat * y.toNat + 2 ^ 32 * (x.toNat * limbsVal b) := by ring
      simp only [mulRow, limbsVal_cons, toNat_limb, shiftRight_limb, hrest, hsplit]
      omega

theorem mulRows_val (hlen : r.length = b.length) :
    limbsVal (mulRows b a r) = limbsVal r + limbsVal a * limbsVal b := by
  induction a generalizing r with
  | nil => simp [mulRows]
  | cons x a ih =>
    have hrow := mulRow_val x hlen (c := 0) (by norm_num)
    have hsplit := head_tail (mulRow x b r 0)
    have hrest := ih (r := (mulRow x b r 0).tail) (by simp [mulRow_length x 0 hlen])
    have hprod : (x.toNat + 2 ^ 32 * limbsVal a) * limbsVal b
        = x.toNat * limbsVal b + 2 ^ 32 * (limbsVal a * limbsVal b) := by ring
    simp only [mulRows, limbsVal_cons, hrest, hprod]
    omega

theorem jsbMagMul_val (a b : Limbs) : limbsVal (jsbMagMul a b) = limbsVal a * limbsVal b := by
  simp [jsbMagMul, mulRows_val]

theorem jsbMagMuladd_val (a : Limbs) (m : UInt32) (hc : c < 2 ^ 32) :
    limbsVal (jsbMagMuladd a m c) = limbsVal a * m.toNat + c := by
  induction a generalizing c with
  | nil =>
    by_cases hzero : c = 0
    · simp [jsbMagMuladd, hzero]
    · simp [jsbMagMuladd, hzero]
      omega
  | cons x a ih =>
    have hlt := carry_lt (t := 0) hc x.toNat_lt m.toNat_lt (by norm_num)
    have hrest := ih hlt
    have hsplit : (x.toNat + 2 ^ 32 * limbsVal a) * m.toNat
        = x.toNat * m.toNat + 2 ^ 32 * (limbsVal a * m.toNat) := by ring
    simp only [add_zero] at hrest
    simp only [jsbMagMuladd, limbsVal_cons, toNat_limb, shiftRight_limb, hrest, hsplit]
    omega

/-! ## Dividing by one limb -/

theorem divRow_val (d : UInt32) (hd : d ≠ 0) (a : Limbs) :
    limbsVal (divRow d a).1 = limbsVal a / d.toNat ∧ (divRow d a).2 = limbsVal a % d.toNat := by
  have hpos : 0 < d.toNat := by
    apply Nat.pos_of_ne_zero
    intro hzero
    exact hd (UInt32.toNat.inj hzero)
  induction a with
  | nil => simp [divRow]
  | cons x a ih =>
    obtain ⟨hquot, hrem⟩ := ih
    have hdlt := d.toNat_lt
    have hx := x.toNat_lt
    have hremlt : limbsVal a % d.toNat < d.toNat := Nat.mod_lt _ hpos
    have hcur : limbsVal a % d.toNat * 2 ^ 32 + x.toNat < d.toNat * 2 ^ 32 := by
      have := Nat.mul_le_mul_right (2 ^ 32) hremlt
      rw [Nat.succ_mul] at this
      omega
    have hdigit : (limbsVal a % d.toNat * 2 ^ 32 + x.toNat) / d.toNat < 2 ^ 32 := by
      rw [Nat.div_lt_iff_lt_mul hpos]
      omega
    have hwhole : x.toNat + 2 ^ 32 * limbsVal a
        = (limbsVal a % d.toNat * 2 ^ 32 + x.toNat) + d.toNat * (2 ^ 32 * (limbsVal a / d.toNat)) := by
      conv_lhs => rw [← Nat.div_add_mod (limbsVal a) d.toNat]
      ring
    constructor
    · rw [divRow, limbsVal_cons, hquot, hrem, two_limbs _ hx, toNat_limb, Nat.mod_eq_of_lt hdigit,
        limbsVal_cons, hwhole, Nat.add_mul_div_left _ _ hpos]
    · rw [divRow, hrem, two_limbs _ hx, limbsVal_cons, hwhole, Nat.add_mul_mod_self_left]

theorem jsbMagDivsmall_val {d : UInt32} (hd : d ≠ 0) (a : Limbs) :
    limbsVal (jsbMagDivsmall a d).1 = limbsVal a / d.toNat ∧
      (jsbMagDivsmall a d).2.toNat = limbsVal a % d.toNat := by
  obtain ⟨hquot, hrem⟩ := divRow_val d hd a
  have hpos : 0 < d.toNat := by
    apply Nat.pos_of_ne_zero
    intro hzero
    exact hd (UInt32.toNat.inj hzero)
  have hlt : limbsVal a % d.toNat < 2 ^ 32 := (Nat.mod_lt _ hpos).trans d.toNat_lt
  simp only [jsbMagDivsmall, limbsVal_strip, toNat_limb, hrem, Nat.mod_eq_of_lt hlt, and_true]
  exact hquot

end Zelr.Js
