import Zelr.Js.Bits

/-!
# BigInt arithmetic is exact

Each operation asks for its room and comes to the integer the language defines.
-/

namespace Zelr.Js

open Jbint

/-! ## Signs and magnitudes -/

theorem length_le_of_limbsVal {a b : Limbs} (hb : TopNonzero b) (h : limbsVal b ≤ limbsVal a) :
    b.length ≤ a.length := by
  by_contra hlt
  have := limbsVal_lt_of_length hb (not_le.mp hlt)
  omega

theorem magCmp_ne_lt {a b : Limbs} (ha : TopNonzero a) (hb : TopNonzero b) :
    jsbMagCmp a b ≠ .lt ↔ limbsVal b ≤ limbsVal a := by
  rw [jsbMagCmp_eq ha hb, ne_eq, compare_lt_iff_lt, not_lt]

variable {b a k e : Jbint} {n : Nat}

theorem taken_sign (hb : b.Normal) : (!b.neg && b.d.length != 0) = decide (0 < b.val) := by
  have hneg := hb.neg_iff
  have hnil := hb.nil_iff
  rw [← List.length_eq_zero_iff] at hnil
  rw [Bool.eq_iff_iff, decide_eq_true_eq]
  cases hsign : b.neg with
  | false =>
    have hge : ¬ b.val < 0 := by simp [← hneg, hsign]
    simp [hnil]
    omega
  | true =>
    have hlt := hneg.mp hsign
    simp
    omega

theorem jsbAddsub_eq (ha : a.Normal) (hb : b.Normal) (sub : Bool) :
    jsbAddsub a b sub = within (max a.d.length b.d.length + 1)
      (if sub then a.val - b.val else a.val + b.val) := by
  have hbneg : (if sub then !b.neg && b.d.length != 0 else b.neg)
      = (if sub then decide (0 < b.val) else b.neg) := by
    rw [taken_sign hb]
  have hsum : (if sub then a.val - b.val else a.val + b.val) = a.val +
      if (if sub then decide (0 < b.val) else b.neg) then -(limbsVal b.d : Int) else limbsVal b.d := by
    have habs := natAbs_val b
    have hneg := hb.neg_iff
    cases sub with
    | false =>
      simp only [Bool.false_eq_true, if_false, hneg]
      split <;> omega
    | true =>
      simp only [if_true, decide_eq_true_eq]
      split <;> omega
  unfold jsbAddsub
  simp only [hbneg, hsum]
  generalize (if sub then decide (0 < b.val) else b.neg) = bneg
  by_cases hsign : a.neg = bneg
  · simp only [if_pos hsign]
    apply new_then
    apply jsbTrim_eq
    rw [jsbMagAdd_val, val, hsign]
    cases bneg <;> simp
    omega
  · simp only [if_neg hsign]
    have hother : bneg = !a.neg := by
      cases hneg : a.neg <;> cases bneg <;> simp_all
    by_cases hcmp : jsbMagCmp a.d b.d ≠ .lt
    · have hle := (magCmp_ne_lt ha.top hb.top).mp hcmp
      simp only [if_pos hcmp]
      apply new_then
      apply jsbTrim_eq
      rw [jsbMagSub_val (length_le_of_limbsVal hb.top hle) hle, val, hother]
      cases a.neg <;> simp <;> omega
    · have hlt : limbsVal a.d ≤ limbsVal b.d := by
        rw [magCmp_ne_lt ha.top hb.top] at hcmp
        omega
      simp only [if_neg hcmp]
      apply new_then
      apply jsbTrim_eq
      rw [jsbMagSub_val (length_le_of_limbsVal ha.top hlt) hlt, val, hother]
      cases a.neg <;> simp <;> omega

theorem jsbMul_eq (a b : Jbint) : jsbMul a b = within (a.d.length + b.d.length) (a.val * b.val) := by
  apply new_then
  apply jsbTrim_eq
  rw [jsbMagMul_val, val, val]
  cases a.neg <;> cases b.neg <;> simp

/-! ## Division -/

theorem trim_signed (neg : Bool) (d : Limbs) :
    jsbTrim ⟨neg, d⟩ = ofInt (if neg then -(limbsVal d : Int) else limbsVal d) := jsbTrim_eq neg d rfl

theorem tdiv_signs (a b : Jbint) :
    (if a.neg ^^ b.neg then -((limbsVal a.d / limbsVal b.d : Nat) : Int)
      else (limbsVal a.d / limbsVal b.d : Nat)) = a.val.tdiv b.val := by
  unfold val
  cases a.neg <;> cases b.neg <;> simp

theorem tmod_signs (a b : Jbint) :
    (if a.neg then -((limbsVal a.d % limbsVal b.d : Nat) : Int)
      else (limbsVal a.d % limbsVal b.d : Nat)) = a.val.tmod b.val := by
  unfold val
  rw [Int.ofNat_tmod]
  cases a.neg <;> cases b.neg <;> simp

theorem jsbDivmod_eq (ha : a.Normal) (hb : b.Normal) (hsa : a.d.length ≤ JSB_MAX_LIMBS)
    (hsb : b.d.length ≤ JSB_MAX_LIMBS) (hzero : b.val ≠ 0) :
    jsbDivmod a b = .ok (ofInt (a.val.tdiv b.val), ofInt (a.val.tmod b.val)) := by
  have hne : ¬ b.d.length = 0 := by
    rw [List.length_eq_zero_iff, hb.nil_iff]
    exact hzero
  unfold jsbDivmod
  rw [if_neg hne]
  by_cases hcmp : jsbMagCmp a.d b.d = .lt
  · have hlt : limbsVal a.d < limbsVal b.d := by
      rwa [jsbMagCmp_eq ha.top hb.top, compare_lt_iff_lt] at hcmp
    have hquot : a.val.tdiv b.val = 0 := by
      rw [← tdiv_signs, Nat.div_eq_of_lt hlt]
      simp
    have hrem : a.val.tmod b.val = a.val := by
      rw [← tmod_signs, Nat.mod_eq_of_lt hlt, val]
    have hback : a = ofInt a.val := ha.eq_ofInt rfl
    simp only [if_pos hcmp, jsbNew_zero, jsbCopy_eq hsa, hquot, hrem]
    rw [← hback]
    rfl
  · have hle : limbsVal b.d ≤ limbsVal a.d := (magCmp_ne_lt ha.top hb.top).mp hcmp
    have hlen := length_le_of_limbsVal hb.top hle
    have hval : ∀ qr : Limbs × Limbs,
        (limbsVal qr.1 = limbsVal a.d / limbsVal b.d ∧ limbsVal qr.2 = limbsVal a.d % limbsVal b.d) →
        ((jsbTrim ⟨a.neg ^^ b.neg, qr.1⟩, jsbTrim ⟨a.neg, qr.2⟩) : Jbint × Jbint)
          = (ofInt (a.val.tdiv b.val), ofInt (a.val.tmod b.val)) := by
      intro qr hqr
      rw [trim_signed, trim_signed, hqr.1, hqr.2, tdiv_signs, tmod_signs]
    simp only [if_neg hcmp, jsbNew_eq, if_neg (not_lt.mpr hsa), if_neg (not_lt.mpr hsb)]
    by_cases hone : b.d.length = 1
    · obtain ⟨d, hd⟩ := List.length_eq_one_iff.mp hone
      have hdne : d ≠ 0 := by
        have htop := hb.top
        rw [hd] at htop
        simpa [TopNonzero] using htop
      have hsmall := jsbMagDivsmall_val hdne a.d
      have hbd : limbsVal b.d = d.toNat := by rw [hd, limbsVal_singleton]
      rw [if_pos hone]
      have := hval ((jsbMagDivsmall a.d d).1, [(jsbMagDivsmall a.d d).2])
        (by rw [hbd, limbsVal_singleton]; exact hsmall)
      simp only [hd, List.getD_cons_zero]
      rw [← this]
      rfl
    · rw [if_neg hone, ← hval _ (jsbMagDivmod_val hb.top (by omega) hlen)]
      rfl

/-! ## Shifts -/

def shiftInt (x y : Int) : Int := if 0 ≤ y then x * 2 ^ y.toNat else x / 2 ^ (-y).toNat

theorem jsbShiftMag_left (a : Jbint) (k : Nat) :
    jsbShiftMag a k true = within (a.d.length + k / 32 + 1) (a.val * 2 ^ k) := by
  have hbits : k % 32 < 32 := Nat.mod_lt _ (by norm_num)
  have hzero : (0 : UInt32).toNat < 2 ^ (k % 32) := by
    rw [UInt32.toNat_zero]
    positivity
  have hpow : (2 : Nat) ^ k = (2 ^ 32) ^ (k / 32) * 2 ^ (k % 32) := by
    rw [← pow_mul, ← pow_add, Nat.div_add_mod]
  have hval : limbsVal (List.replicate (k / 32) 0 ++ shlRow (k % 32) a.d 0) = limbsVal a.d * 2 ^ k := by
    rw [limbsVal_append, limbsVal_zeros, List.length_replicate, shlRow_val hbits a.d hzero,
      UInt32.toNat_zero, hpow]
    ring
  apply new_then
  apply jsbTrim_eq
  rw [hval, val]
  cases a.neg <;> simp

theorem jsbShiftMag_right (h : a.d.length ≤ JSB_MAX_LIMBS) (k : Nat) :
    jsbShiftMag a k false = .ok (ofInt
      (if a.neg then -((limbsVal a.d / 2 ^ k : Nat) : Int) else (limbsVal a.d / 2 ^ k : Nat))) := by
  have hbits : k % 32 < 32 := Nat.mod_lt _ (by norm_num)
  have hpow : (2 : Nat) ^ k = (2 ^ 32) ^ (k / 32) * 2 ^ (k % 32) := by
    rw [← pow_mul, ← pow_add, Nat.div_add_mod]
  simp only [jsbShiftMag, Bool.false_eq_true, if_false]
  by_cases hout : k / 32 ≥ a.d.length
  · have hlt : limbsVal a.d < 2 ^ k := by
      calc limbsVal a.d < (2 ^ 32) ^ a.d.length := limbsVal_lt a.d
        _ ≤ (2 ^ 32) ^ (k / 32) := Nat.pow_le_pow_right (by norm_num) hout
        _ ≤ 2 ^ k := by
            rw [hpow]
            exact Nat.le_mul_of_pos_right _ (by positivity)
    rw [if_pos hout, Nat.div_eq_of_lt hlt]
    simp
  · have hval : limbsVal (shrRow (k % 32) (a.d.drop (k / 32))) = limbsVal a.d / 2 ^ k := by
      rw [shrRow_val hbits, limbsVal_drop, hpow, Nat.div_div_eq_div_mul]
    have hroom : ¬ a.d.length - k / 32 > JSB_MAX_LIMBS := by omega
    rw [if_neg hout, jsbNew_eq, if_neg hroom, trim_signed, hval]
    rfl

theorem floor_below {p : Nat} (hn : 0 < n) (hp : 0 < p) :
    -(n : Int) / p = -(((n - 1) / p + 1 : Nat) : Int) := by
  obtain ⟨m, rfl⟩ : ∃ m, n = m + 1 := ⟨n - 1, by omega⟩
  rw [Nat.add_sub_cancel]
  have hdm := Nat.div_add_mod m p
  have hlt := Nat.mod_lt m hp
  generalize m / p = q at hdm ⊢
  generalize m % p = r at hdm hlt
  have hsplit : -((m + 1 : Nat) : Int) = ((p - 1 - r : Nat) : Int) + (p : Int) * (-((q + 1 : Nat) : Int)) := by
    zify at hdm
    push_cast [show r ≤ p - 1 by omega, show 1 ≤ p by omega]
    linear_combination hdm
  have hpos : (p : Int) ≠ 0 := by omega
  rw [hsplit, Int.add_mul_ediv_left _ _ hpos, Int.ediv_eq_zero_of_lt (by omega) (by omega), zero_add]

theorem within_over (h : JSB_MAX_LIMBS < n) (z : Int) : within n z = .error tooLarge := if_pos h

theorem within_ok (h : n ≤ JSB_MAX_LIMBS) (z : Int) : within n z = .ok (ofInt z) :=
  if_neg (not_lt.mpr h)

theorem first_limb (h : k.d.length ≤ 1) : (k.d.getD 0 0).toNat = k.val.natAbs := by
  rw [natAbs_val]
  cases hd : k.d with
  | nil => rfl
  | cons x d =>
    have hnil : d = [] := by
      rw [hd, List.length_cons] at h
      exact List.length_eq_zero_iff.mp (by omega)
    rw [hnil, limbsVal_singleton]
    rfl

theorem more_limbs (hk : k.Normal) (h : 1 < k.d.length) : 2 ^ 32 ≤ k.val.natAbs := by
  by_contra hlt
  have := (hk.length_le_iff 1).mpr (by omega)
  omega

theorem jsbShift_left (hk : k.Normal) {left : Bool}
    (hleft : (if k.neg then !left else left) = true) :
    jsbShift a k left
      = within (a.d.length + k.val.natAbs / 32 + 1) (a.val * 2 ^ k.val.natAbs) := by
  have hmax : JSB_MAX_LIMBS = 32768 := rfl
  simp only [jsbShift, hleft, true_and]
  by_cases hfar : k.d.length > 1 ∨ k.d.length ≠ 0 ∧ (k.d.getD 0 0).toNat > JSB_MAX_LIMBS * 32
  · have hbig : JSB_MAX_LIMBS * 32 < k.val.natAbs := by
      by_cases hlen : 1 < k.d.length
      · have := more_limbs hk hlen
        omega
      · have := first_limb (k := k) (by omega)
        omega
    rw [if_pos hfar, within_over (by omega)]
    rfl
  · rw [if_neg hfar, first_limb (by omega)]
    exact jsbShiftMag_left a k.val.natAbs

theorem ofInt_length_le {z : Int} {k : Nat} (h : z.natAbs < (2 ^ 32) ^ k) : (ofInt z).d.length ≤ k := by
  rw [(ofInt_normal z).length_le_iff, ofInt_val]
  exact h

theorem shiftMag_ofInt (h : n < (2 ^ 32) ^ JSB_MAX_LIMBS) (k : Nat) :
    jsbShiftMag (ofInt n) k false = .ok (ofInt ((n / 2 ^ k : Nat) : Int)) := by
  have hsign : (ofInt (n : Int)).neg = false := by simp [ofInt]
  have hval : limbsVal (ofInt (n : Int)).d = n := by
    rw [← natAbs_val, ofInt_val]
    rfl
  rw [jsbShiftMag_right (ofInt_length_le (by simpa using h)), hsign, hval]
  rfl

theorem negated (hn : 0 < n) :
    (if (ofInt (n : Int)).d.length ≠ 0 then { ofInt (n : Int) with neg := true } else ofInt n)
      = ofInt (-(n : Int)) := by
  have hne : (ofInt (n : Int)).d ≠ [] := by
    rw [Ne, (ofInt_normal _).nil_iff, ofInt_val]
    omega
  have hlen : (ofInt (n : Int)).d.length ≠ 0 := by rwa [Ne, List.length_eq_zero_iff]
  rw [if_pos hlen]
  have hnormal : Normal ⟨true, (ofInt (n : Int)).d⟩ :=
    ⟨(ofInt_normal _).top, fun hnil => absurd hnil hne⟩
  have habs := natAbs_val (ofInt (n : Int))
  rw [ofInt_val] at habs
  apply hnormal.eq_ofInt
  simp only [val, if_true]
  omega

theorem shift_below (ha : a.Normal) (hsa : a.d.length ≤ JSB_MAX_LIMBS) (hneg : a.neg = true)
    (k : Nat) :
    (do
      let one ← jsbFromU64 1 false
      let m ← jsbAddsub (← jsbCopy a false) one true
      let s ← jsbShiftMag m k false
      let r ← jsbAddsub s one false
      return if r.d.length ≠ 0 then { r with neg := true } else r)
      = within (a.d.length + 1) (a.val / 2 ^ k) := by
  have hlt := ha.neg_iff.mp hneg
  have hval : a.val = -(limbsVal a.d : Int) := by simp [val, hneg]
  have hpos : 0 < limbsVal a.d := by omega
  have hlen : 1 ≤ a.d.length := by
    by_contra hzero
    have hnil : a.d = [] := List.length_eq_zero_iff.mp (by omega)
    rw [hnil, limbsVal_nil] at hpos
    omega
  have habove := limbsVal_lt a.d
  have hplace : (2 ^ 32) ^ a.d.length ≤ (2 ^ 32) ^ JSB_MAX_LIMBS := Nat.pow_le_pow_right (by norm_num) hsa
  have hone : jsbFromU64 1 false = .ok (ofInt 1) := jsbFromU64_eq 1 false
  have honelen : (ofInt 1).d.length ≤ 1 := ofInt_length_le (by simp)
  have hmag : Normal ⟨false, a.d⟩ := ⟨ha.top, fun _ => rfl⟩
  have hm : jsbAddsub ⟨false, a.d⟩ (ofInt 1) true = within (a.d.length + 1) ((limbsVal a.d - 1 : Nat) : Int) := by
    have hroom : max a.d.length (ofInt 1).d.length + 1 = a.d.length + 1 := by omega
    have hless : val ⟨false, a.d⟩ - (ofInt 1).val = ((limbsVal a.d - 1 : Nat) : Int) := by
      rw [ofInt_val]
      simp only [val, Bool.false_eq_true, if_false]
      omega
    rw [jsbAddsub_eq hmag (ofInt_normal 1), if_pos rfl, hless, hroom]
  have hfloor : a.val / 2 ^ k = -(((limbsVal a.d - 1) / 2 ^ k + 1 : Nat) : Int) := by
    have := floor_below hpos (p := 2 ^ k) (by positivity)
    rw [hval]
    exact_mod_cast this
  simp only [hone, jsbCopy_eq hsa, hfloor]
  show (do
    let m ← jsbAddsub ⟨false, a.d⟩ (ofInt 1) true
    let s ← jsbShiftMag m k false
    let r ← jsbAddsub s (ofInt 1) false
    return if r.d.length ≠ 0 then { r with neg := true } else r) = _
  rw [hm]
  rcases Nat.lt_or_ge JSB_MAX_LIMBS (a.d.length + 1) with hover | hfits
  · rw [within_over hover, within_over hover]
    rfl
  · rw [within_ok hfits, within_ok hfits]
    have hs := shiftMag_ofInt (n := limbsVal a.d - 1) (by omega) k
    generalize hq : (limbsVal a.d - 1) / 2 ^ k = q at hs ⊢
    have hqle : q ≤ limbsVal a.d - 1 := by
      rw [← hq]
      exact Nat.div_le_self _ _
    have hqlen : (ofInt (q : Int)).d.length ≤ a.d.length := by
      apply ofInt_length_le
      rw [Int.natAbs_natCast]
      omega
    have hr : jsbAddsub (ofInt q) (ofInt 1) false = .ok (ofInt ((q + 1 : Nat) : Int)) := by
      rw [jsbAddsub_eq (ofInt_normal _) (ofInt_normal 1), within_ok (by omega), ofInt_val, ofInt_val]
      rfl
    show (do
      let s ← jsbShiftMag (ofInt ((limbsVal a.d - 1 : Nat) : Int)) k false
      let r ← jsbAddsub s (ofInt 1) false
      return if r.d.length ≠ 0 then { r with neg := true } else r) = _
    rw [hs]
    show (do
      let r ← jsbAddsub (ofInt (q : Int)) (ofInt 1) false
      return if r.d.length ≠ 0 then { r with neg := true } else r) = _
    rw [hr]
    exact congrArg Except.ok (negated (Nat.succ_pos q))

theorem jsbShift_right (ha : a.Normal) (hk : k.Normal) (hsa : a.d.length ≤ JSB_MAX_LIMBS)
    {left : Bool} (hleft : (if k.neg then !left else left) = false) :
    jsbShift a k left =
      if a.neg = true ∧ k.d.length ≤ 1 then within (a.d.length + 1) (a.val / 2 ^ k.val.natAbs)
      else .ok (ofInt (a.val / 2 ^ k.val.natAbs)) := by
  have hmax : JSB_MAX_LIMBS = 32768 := rfl
  simp only [jsbShift, hleft, Bool.false_eq_true, false_and, or_false, if_false, false_or]
  by_cases hfar : k.d.length > 1
  · have hbig := more_limbs hk hfar
    have hlt : limbsVal a.d < 2 ^ k.val.natAbs := by
      calc limbsVal a.d < (2 ^ 32) ^ a.d.length := limbsVal_lt a.d
        _ = 2 ^ (32 * a.d.length) := place_eq _
        _ ≤ 2 ^ k.val.natAbs := Nat.pow_le_pow_right (by norm_num) (by omega)
    have hnear : ¬ (a.neg = true ∧ k.d.length ≤ 1) := fun h => absurd h.2 (not_le.mpr hfar)
    rw [if_pos hfar, if_neg hnear]
    cases hneg : a.neg with
    | false =>
      have hval : a.val = limbsVal a.d := by simp [val, hneg]
      have hzero : a.val / 2 ^ k.val.natAbs = 0 := by
        rw [hval]
        exact_mod_cast Nat.div_eq_of_lt hlt
      rw [hzero]
      rfl
    | true =>
      have hsign := ha.neg_iff.mp hneg
      have hval : a.val = -(limbsVal a.d : Int) := by simp [val, hneg]
      have hone : a.val / 2 ^ k.val.natAbs = -1 := by
        have := floor_below (n := limbsVal a.d) (p := 2 ^ k.val.natAbs) (by omega) (by positivity)
        rw [Nat.div_eq_of_lt (by omega), zero_add] at this
        rw [hval]
        exact_mod_cast this
      have hmade : jsbFromU64 1 true = .ok (ofInt (-1)) := jsbFromU64_eq 1 true
      rw [hone, if_pos rfl, hmade]
  · rw [if_neg hfar, first_limb (by omega)]
    cases hneg : a.neg with
    | false =>
      have hval : a.val = limbsVal a.d := by simp [val, hneg]
      have hquot : a.val / 2 ^ k.val.natAbs = ((limbsVal a.d / 2 ^ k.val.natAbs : Nat) : Int) := by
        rw [hval]
        push_cast
        rfl
      have hmag := jsbShiftMag_right hsa k.val.natAbs
      rw [hneg] at hmag
      rw [if_pos rfl, if_neg (by simp), hquot, hmag]
      rfl
    | true =>
      rw [if_neg (by simp), if_pos ⟨rfl, by omega⟩]
      exact shift_below ha hsa hneg k.val.natAbs

/-! ## Powers -/

theorem jsbBits_eq (ha : a.Normal) : jsbBits a = a.val.natAbs.size := by
  rw [natAbs_val]
  by_cases hzero : a.d.length = 0
  · have hnil : a.d = [] := List.length_eq_zero_iff.mp hzero
    simp [jsbBits, hnil]
  · obtain ⟨k, hk⟩ : ∃ k, a.d.length = k + 1 := ⟨a.d.length - 1, by omega⟩
    obtain ⟨hs, hlt, hge⟩ := divisor_up ha.top hk
    have hidx : k + 1 - 1 = k := rfl
    simp only [jsbBits, hk, hidx, if_pos (Nat.succ_ne_zero k)]
    generalize jsbClz (a.d.getD k 0) = s at hs hlt hge
    rw [place_eq] at hlt hge
    have hpow : 0 < 2 ^ s := by positivity
    have hupper : limbsVal a.d < 2 ^ (k * 32 + (32 - s)) := by
      apply Nat.lt_of_mul_lt_mul_right (a := 2 ^ s)
      calc limbsVal a.d * 2 ^ s < 2 ^ (32 * k) * 2 ^ 32 := hlt
        _ = 2 ^ (k * 32 + (32 - s)) * 2 ^ s := by
            rw [← pow_add, ← pow_add]
            congr 1
            omega
    have hlower : 2 ^ (k * 32 + (32 - s) - 1) ≤ limbsVal a.d := by
      apply Nat.le_of_mul_le_mul_right _ hpow
      calc 2 ^ (k * 32 + (32 - s) - 1) * 2 ^ s = 2 ^ (32 * k) * 2 ^ 31 := by
            rw [← pow_add, ← pow_add]
            congr 1
            omega
        _ ≤ limbsVal a.d * 2 ^ s := hge
    apply le_antisymm
    · have := Nat.lt_size.mpr hlower
      omega
    · exact Nat.size_le.mpr hupper

def limbCount (z : Int) : Nat := (ofInt z).d.length

/-- The products that the turn for bit `i` takes have room. -/
def TurnRoom (x : Int) (k i : Nat) : Prop :=
  (k.testBit i = true → limbCount (x ^ (k % 2 ^ i)) + limbCount (x ^ 2 ^ i) ≤ JSB_MAX_LIMBS) ∧
    (2 ^ (i + 1) ≤ k → limbCount (x ^ 2 ^ i) + limbCount (x ^ 2 ^ i) ≤ JSB_MAX_LIMBS)

theorem low_bit (k i : Nat) : k / 2 ^ i &&& 1 ≠ 0 ↔ k.testBit i = true := by
  have hone : (1 : Nat) = 2 ^ 1 - 1 := rfl
  rw [Nat.testBit_eq_decide_div_mod_eq, decide_eq_true_eq, hone, Nat.and_two_pow_sub_one_eq_mod]
  omega

theorem jsbMul_ofInt (x y : Int) :
    jsbMul (ofInt x) (ofInt y) = within (limbCount x + limbCount y) (x * y) := by
  rw [jsbMul_eq, ofInt_val, ofInt_val]
  rfl

theorem powLoop_turn (turns k : Nat) (u y : Int) :
    powLoop (turns + 1) k (ofInt u) (ofInt y) =
      if k &&& 1 ≠ 0 ∧ JSB_MAX_LIMBS < limbCount u + limbCount y then .error tooLarge
      else if k >>> 1 = 0 then .ok (ofInt (if k &&& 1 ≠ 0 then u * y else u))
      else if JSB_MAX_LIMBS < limbCount y + limbCount y then .error tooLarge
      else powLoop turns (k >>> 1) (ofInt (if k &&& 1 ≠ 0 then u * y else u)) (ofInt (y * y)) := by
  have hsquare : ∀ res, (do powLoop turns (k >>> 1) res (← jsbMul (ofInt y) (ofInt y)))
      = if JSB_MAX_LIMBS < limbCount y + limbCount y then .error tooLarge
        else powLoop turns (k >>> 1) res (ofInt (y * y)) := by
    intro res
    rw [jsbMul_ofInt, within]
    split <;> rfl
  simp only [powLoop, hsquare]
  by_cases hbit : k &&& 1 ≠ 0
  · simp only [hbit, ne_eq, not_false_eq_true, if_true, true_and, jsbMul_ofInt]
    by_cases hover : JSB_MAX_LIMBS < limbCount u + limbCount y
    · rw [within_over hover, if_pos hover]
      rfl
    · rw [within_ok (not_lt.mp hover), if_neg hover]
      rfl
  · simp only [hbit, false_and, if_false]
    rfl

theorem pow_turn (x : Int) (k i : Nat) :
    x ^ (k % 2 ^ (i + 1)) = if k.testBit i = true then x ^ (k % 2 ^ i) * x ^ 2 ^ i else x ^ (k % 2 ^ i) := by
  rw [Nat.mod_pow_succ, Nat.testBit_eq_decide_div_mod_eq]
  by_cases hbit : k / 2 ^ i % 2 = 1
  · simp only [hbit, mul_one, decide_true, if_true, pow_add]
  · have hzero : k / 2 ^ i % 2 = 0 := by omega
    simp [hzero]

theorem powLoop_eq (x : Int) (k : Nat) (turns i : Nat) (hlt : k / 2 ^ i < 2 ^ turns) (hle : 2 ^ i ≤ k) :
    ((∀ j, i ≤ j → 2 ^ j ≤ k → TurnRoom x k j) ∧
        powLoop turns (k / 2 ^ i) (ofInt (x ^ (k % 2 ^ i))) (ofInt (x ^ 2 ^ i)) = .ok (ofInt (x ^ k))) ∨
      ((¬ ∀ j, i ≤ j → 2 ^ j ≤ k → TurnRoom x k j) ∧
        powLoop turns (k / 2 ^ i) (ofInt (x ^ (k % 2 ^ i))) (ofInt (x ^ 2 ^ i)) = .error tooLarge) := by
  induction turns generalizing i with
  | zero =>
    have hpos : 0 < k / 2 ^ i := Nat.div_pos hle (by positivity)
    rw [pow_zero] at hlt
    omega
  | succ turns ih =>
    have hhalf : (k / 2 ^ i) >>> 1 = k / 2 ^ (i + 1) := by
      rw [Nat.shiftRight_eq_div_pow, Nat.div_div_eq_div_mul, pow_one, ← pow_succ]
    have hsquare : x ^ 2 ^ i * x ^ 2 ^ i = x ^ 2 ^ (i + 1) := by
      rw [← pow_add]
      congr 1
      omega
    have hturn := pow_turn x k i
    rw [powLoop_turn]
    simp only [low_bit, hhalf, hsquare, ← hturn]
    by_cases hroom : k.testBit i = true ∧ JSB_MAX_LIMBS < limbCount (x ^ (k % 2 ^ i)) + limbCount (x ^ 2 ^ i)
    · right
      rw [if_pos hroom]
      refine ⟨?_, rfl⟩
      intro hall
      have := (hall i (le_refl i) hle).1 hroom.1
      omega
    rw [if_neg hroom]
    have hfirst : k.testBit i = true → limbCount (x ^ (k % 2 ^ i)) + limbCount (x ^ 2 ^ i) ≤ JSB_MAX_LIMBS := by
      intro hbit
      by_contra hgt
      exact hroom ⟨hbit, not_le.mp hgt⟩
    by_cases hlast : k / 2 ^ (i + 1) = 0
    · left
      have hsmall : k < 2 ^ (i + 1) := by
        by_contra hge
        have : 0 < k / 2 ^ (i + 1) := Nat.div_pos (not_lt.mp hge) (by positivity)
        omega
      rw [if_pos hlast, Nat.mod_eq_of_lt hsmall]
      refine ⟨?_, rfl⟩
      intro j hij hj
      have hji : j < i + 1 := (Nat.pow_lt_pow_iff_right (by norm_num)).mp (hj.trans_lt hsmall)
      obtain rfl : j = i := by omega
      exact ⟨hfirst, fun hge => absurd hge (not_le.mpr hsmall)⟩
    have hmore : 2 ^ (i + 1) ≤ k := by
      by_contra hgt
      exact hlast (Nat.div_eq_of_lt (not_le.mp hgt))
    rw [if_neg hlast]
    by_cases hover : JSB_MAX_LIMBS < limbCount (x ^ 2 ^ i) + limbCount (x ^ 2 ^ i)
    · right
      rw [if_pos hover]
      refine ⟨?_, rfl⟩
      intro hall
      have := (hall i (le_refl i) hle).2 hmore
      omega
    rw [if_neg hover]
    have hnext : k / 2 ^ (i + 1) < 2 ^ turns := by
      rw [← hhalf, Nat.shiftRight_eq_div_pow, pow_one]
      rw [pow_succ] at hlt
      omega
    rcases ih (i + 1) hnext hmore with ⟨hall, heq⟩ | ⟨hnot, heq⟩
    · left
      refine ⟨?_, heq⟩
      intro j hij hj
      rcases Nat.eq_or_lt_of_le hij with rfl | hlt
      · exact ⟨hfirst, fun _ => not_lt.mp hover⟩
      · exact hall j hlt hj
    · right
      refine ⟨?_, heq⟩
      intro hall
      exact hnot fun j hij hj => hall j (by omega) hj

def PowRoom (x : Int) (k : Nat) : Prop :=
  x.natAbs.size * k ≤ JSB_MAX_LIMBS * 32 ∧ ∀ i, 2 ^ i ≤ k → TurnRoom x k i

theorem jsbPow_negative (he : e.neg = true) : jsbPow a e = .error negativePower := by
  simp only [jsbPow, he, if_true]
  rfl

theorem jsbPow_cases (hsa : a.d.length ≤ JSB_MAX_LIMBS) (hpos : e.neg = false) :
    jsbPow a e =
      if e.d.length = 0 then .ok (ofInt 1)
      else if a.d.length = 0 then .ok (ofInt 0)
      else if a.d.length = 1 ∧ a.d.getD 0 0 = 1 then
        .ok (ofInt (if (a.neg && e.d.getD 0 0 &&& 1 != 0) = true then -1 else 1))
      else if e.d.length > 1 ∨ jsbBits a * (e.d.getD 0 0).toNat > JSB_MAX_LIMBS * 32 then .error tooLarge
      else powLoop 32 (e.d.getD 0 0).toNat (ofInt 1) a := by
  have hone : ∀ neg, jsbFromU64 1 neg = .ok (ofInt (if neg = true then -1 else 1)) :=
    fun neg => jsbFromU64_eq 1 neg
  have hcopy := jsbCopy_eq hsa a.neg
  simp only [jsbPow, hpos, Bool.false_eq_true, if_false, hone, hcopy, jsbNew_zero]
  by_cases he : e.d.length = 0
  · rw [if_pos he]
    simp only [he]
    rfl
  rw [if_neg he]
  by_cases hzero : a.d.length = 0
  · rw [if_pos hzero]
    simp only [he, hzero]
    rfl
  rw [if_neg hzero]
  by_cases hunit : a.d.length = 1 ∧ a.d.getD 0 0 = 1
  · rw [if_pos hunit]
    simp only [he, hunit]
    rfl
  rw [if_neg hunit]
  by_cases hbig : e.d.length > 1 ∨ jsbBits a * (e.d.getD 0 0).toNat > JSB_MAX_LIMBS * 32
  · rw [if_pos hbig]
    simp only [he, hzero, hunit, hbig, if_true, if_false]
    rfl
  · rw [if_neg hbig]
    simp only [he, hzero, hunit, hbig, if_false]
    rfl

theorem unit_iff (ha : a.Normal) : a.d.length = 1 ∧ a.d.getD 0 0 = 1 ↔ a.val.natAbs = 1 := by
  constructor
  · rintro ⟨hlen, hd⟩
    rw [← first_limb hlen.le, hd]
    rfl
  · intro hval
    have hlen : a.d.length ≤ 1 := (ha.length_le_iff 1).mpr (by omega)
    have hd := first_limb hlen
    have hne : a.d.length ≠ 0 := by
      rw [Ne, List.length_eq_zero_iff, ha.nil_iff]
      omega
    exact ⟨by omega, UInt32.toNat.inj (hd.trans hval)⟩

theorem odd_limb (hpos : e.neg = false) : e.d.getD 0 0 &&& 1 ≠ 0 ↔ e.val.toNat % 2 = 1 := by
  have hval : e.val.toNat = limbsVal e.d := by simp [val, hpos]
  have hlimb := getD_limbsVal e.d 0
  have hone : (1 : UInt32).toNat = 2 ^ 1 - 1 := rfl
  rw [hval, ne_eq, ← UInt32.toNat_inj, UInt32.toNat_and, hone, Nat.and_two_pow_sub_one_eq_mod, hlimb,
    UInt32.toNat_zero]
  omega

theorem jsbPow_trivial (ha : a.Normal) (hsa : a.d.length ≤ JSB_MAX_LIMBS) (he : e.Normal)
    (hpos : e.neg = false) (h : e.val = 0 ∨ a.val.natAbs ≤ 1) :
    jsbPow a e = .ok (ofInt (a.val ^ e.val.toNat)) := by
  rw [jsbPow_cases hsa hpos]
  have henil := he.nil_iff
  have hanil := ha.nil_iff
  have hnonneg : ¬ e.val < 0 := by simp [← he.neg_iff, hpos]
  rw [← List.length_eq_zero_iff] at henil hanil
  by_cases hezero : e.val = 0
  · rw [if_pos (henil.mpr hezero), hezero, Int.toNat_zero, pow_zero]
  rw [if_neg (by rwa [henil])]
  by_cases hazero : a.val = 0
  · rw [if_pos (hanil.mpr hazero), hazero, zero_pow (by omega)]
  rw [if_neg (by rwa [hanil]), if_pos ((unit_iff ha).mpr (by omega))]
  congr 2
  by_cases hneg : a.neg = true
  · have hminus : a.val = -1 := by
      have := ha.neg_iff.mp hneg
      omega
    have hodd := odd_limb hpos
    simp only [hminus, hneg, Bool.true_and, bne_iff_ne]
    by_cases hpar : e.val.toNat % 2 = 1
    · rw [if_pos (hodd.mpr hpar), (Nat.odd_iff.mpr hpar).neg_one_pow]
    · rw [if_neg (by rwa [hodd]), (Nat.even_iff.mpr (by omega)).neg_one_pow]
  · have hplus : a.val = 1 := by
      rw [ha.neg_iff] at hneg
      omega
    simp [hneg, hplus]

theorem jsbPow_eq (ha : a.Normal) (hsa : a.d.length ≤ JSB_MAX_LIMBS) (he : e.Normal)
    (hpos : e.neg = false) (hezero : e.val ≠ 0) (hunit : 1 < a.val.natAbs) :
    (PowRoom a.val e.val.toNat ∧ jsbPow a e = .ok (ofInt (a.val ^ e.val.toNat))) ∨
      (¬ PowRoom a.val e.val.toNat ∧ jsbPow a e = .error tooLarge) := by
  have henil := he.nil_iff
  have hanil := ha.nil_iff
  rw [← List.length_eq_zero_iff] at henil hanil
  have hnonneg : ¬ e.val < 0 := by simp [← he.neg_iff, hpos]
  rw [jsbPow_cases hsa hpos, if_neg (by rwa [henil]), if_neg (by rw [hanil]; omega),
    if_neg (by rw [unit_iff ha]; omega), jsbBits_eq ha]
  by_cases hlong : e.d.length > 1
  · have hbig := more_limbs he hlong
    right
    refine ⟨?_, by rw [if_pos (Or.inl hlong)]⟩
    rintro ⟨hbits, -⟩
    have hsize : 1 ≤ a.val.natAbs.size := Nat.size_pos.mpr (by omega)
    have hmul := Nat.mul_le_mul_right e.val.toNat hsize
    have hmax : JSB_MAX_LIMBS = 32768 := rfl
    omega
  · have hfirst := first_limb (k := e) (by omega)
    have hfirst' : (e.d.getD 0 0).toNat = e.val.toNat := by omega
    have hback : a = ofInt a.val := ha.eq_ofInt rfl
    have hlt : e.val.toNat < 2 ^ 32 := by
      rw [← hfirst']
      exact UInt32.toNat_lt _
    rw [hfirst']
    by_cases hbits : a.val.natAbs.size * e.val.toNat > JSB_MAX_LIMBS * 32
    · right
      exact ⟨fun hroom => absurd hroom.1 (not_le.mpr hbits), by rw [if_pos (Or.inr hbits)]⟩
    · rw [if_neg (by simp [hlong, hbits])]
      have hloop := powLoop_eq a.val e.val.toNat 32 0 (by simpa using hlt) (by simp; omega)
      simp only [pow_zero, Nat.div_one, Nat.mod_one, pow_one, ← hback, Nat.zero_le, true_implies] at hloop
      rcases hloop with ⟨hall, heq⟩ | ⟨hnot, heq⟩
      · exact Or.inl ⟨⟨not_lt.mp hbits, hall⟩, heq⟩
      · exact Or.inr ⟨fun hroom => hnot hroom.2, heq⟩

end Zelr.Js
