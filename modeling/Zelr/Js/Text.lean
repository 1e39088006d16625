import Zelr.Js.Value

/-!
# Text and back

The digits come out a chunk at a time, and are the digits of the number with no zero before them.
-/

namespace Zelr.Js

open Jbint

variable {radix k : Nat} {a : Jbint}

/-! ## Digits out -/

theorem chunkFrom_pow (turns : Nat) (hk : radix ^ k < 2 ^ 32) (hpos : 0 < k) :
    ∃ j, 0 < j ∧ radix ^ j < 2 ^ 32 ∧ chunkFrom radix turns (radix ^ k) k = (radix ^ j, j) := by
  induction turns generalizing k with
  | zero => exact ⟨k, hpos, hk, rfl⟩
  | succ turns ih =>
    by_cases hmore : radix ^ k * radix < 0xFFFFFFFF
    · have hnext : radix ^ (k + 1) < 2 ^ 32 := by
        rw [pow_succ]
        omega
      obtain ⟨j, hj, hlt, heq⟩ := ih hnext (Nat.succ_pos k)
      refine ⟨j, hj, hlt, ?_⟩
      rw [chunkFrom, if_pos hmore, ← pow_succ, heq]
    · exact ⟨k, hpos, hk, by rw [chunkFrom, if_neg hmore]⟩

def digitChars (radix n : Nat) : List Char := (Nat.digits radix n).map (DIG.getD · '0')

theorem digitChars_pos {n : Nat} (hradix : 1 < radix) (hn : 0 < n) :
    digitChars radix n = DIG.getD (n % radix) '0' :: digitChars radix (n / radix) := by
  rw [digitChars, Nat.digits_def' hradix hn, List.map_cons, digitChars]

theorem chunkDigits_more (hradix : 1 < radix) (k r q : Nat) (hr : r < radix ^ k) (hq : 0 < q) :
    chunkDigits radix true k r ++ digitChars radix q = digitChars radix (r + radix ^ k * q) := by
  induction k generalizing r with
  | zero =>
    obtain rfl : r = 0 := by simpa using hr
    simp [chunkDigits]
  | succ k ih =>
    have hpow : radix ^ (k + 1) = radix * radix ^ k := pow_succ' radix k
    have hpos : 0 < r + radix ^ (k + 1) * q := by positivity
    have hrest : r / radix < radix ^ k := by
      apply Nat.div_lt_of_lt_mul
      rwa [← hpow]
    have hmod : (r + radix ^ (k + 1) * q) % radix = r % radix := by
      rw [hpow, mul_assoc, Nat.add_mul_mod_self_left]
    have hdiv : (r + radix ^ (k + 1) * q) / radix = r / radix + radix ^ k * q := by
      rw [hpow, mul_assoc, Nat.add_mul_div_left _ _ (by omega)]
    rw [digitChars_pos hradix hpos, hmod, hdiv, ← ih _ hrest]
    simp [chunkDigits]

theorem chunkDigits_last (hradix : 1 < radix) (k r : Nat) (hr : r < radix ^ k) :
    chunkDigits radix false k r = digitChars radix r := by
  induction k generalizing r with
  | zero =>
    obtain rfl : r = 0 := by simpa using hr
    simp [chunkDigits, digitChars]
  | succ k ih =>
    have hrest : r / radix < radix ^ k := by
      apply Nat.div_lt_of_lt_mul
      rwa [← pow_succ']
    by_cases hzero : r = 0
    · simp [chunkDigits, digitChars, hzero]
    · rw [digitChars_pos hradix (Nat.pos_of_ne_zero hzero), ← ih _ hrest]
      simp [chunkDigits, hzero]

theorem digitsLoop_eq {turns : Nat} (hradix : 1 < radix) (hk : 0 < k) (hchunk : radix ^ k < 2 ^ 32)
    {m : Limbs} (hm : TopNonzero m) (hturns : limbsVal m < 2 ^ turns) :
    digitsLoop radix (radix ^ k) k turns m = digitChars radix (limbsVal m) := by
  induction turns generalizing m with
  | zero =>
    have hzero : limbsVal m = 0 := by simpa using hturns
    simp [digitsLoop, hzero, digitChars]
  | succ turns ih =>
    have hnil := limbsVal_eq_zero hm
    by_cases hlen : m.length = 0
    · have hzero : limbsVal m = 0 := hnil.mpr (List.length_eq_zero_iff.mp hlen)
      simp [digitsLoop, hlen, hzero, digitChars]
    · have htwo : 2 ≤ radix ^ k := by
        calc 2 ≤ radix := hradix
          _ = radix ^ 1 := (pow_one radix).symm
          _ ≤ radix ^ k := Nat.pow_le_pow_right (by omega) hk
      have hlimb : (UInt32.ofNat (radix ^ k)).toNat = radix ^ k := by
        rw [toNat_limb, Nat.mod_eq_of_lt hchunk]
      have hne : UInt32.ofNat (radix ^ k) ≠ 0 := by
        intro hzero
        have := congrArg UInt32.toNat hzero
        rw [hlimb, UInt32.toNat_zero] at this
        omega
      obtain ⟨hquot, hrem⟩ := jsbMagDivsmall_val hne m
      rw [hlimb] at hquot hrem
      have htop : TopNonzero (jsbMagDivsmall m (UInt32.ofNat (radix ^ k))).1 := stripLimbs_top _
      have hless : limbsVal (jsbMagDivsmall m (UInt32.ofNat (radix ^ k))).1 < 2 ^ turns := by
        rw [hquot]
        apply Nat.div_lt_of_lt_mul
        calc limbsVal m < 2 ^ (turns + 1) := hturns
          _ = 2 * 2 ^ turns := pow_succ' 2 turns
          _ ≤ radix ^ k * 2 ^ turns := Nat.mul_le_mul_right _ htwo
      have hremlt : limbsVal m % radix ^ k < radix ^ k := Nat.mod_lt _ (by omega)
      have hwhole := Nat.mod_add_div (limbsVal m) (radix ^ k)
      have hqnil := limbsVal_eq_zero htop
      rw [digitsLoop, if_neg hlen]
      dsimp only
      rw [ih htop hless, hquot, hrem]
      by_cases hlast : limbsVal m / radix ^ k = 0
      · have hend : ((jsbMagDivsmall m (UInt32.ofNat (radix ^ k))).1.length != 0) = false := by
          simp [hqnil.mp (by rw [hquot, hlast])]
        rw [hend, chunkDigits_last hradix k _ hremlt, hlast]
        rw [hlast, mul_zero, add_zero] at hwhole
        rw [hwhole]
        simp [digitChars]
      · have hmore : ((jsbMagDivsmall m (UInt32.ofNat (radix ^ k))).1.length != 0) = true := by
          have : (jsbMagDivsmall m (UInt32.ofNat (radix ^ k))).1 ≠ [] := by
            rw [Ne, ← hqnil, hquot]
            exact hlast
          simpa using this
        rw [hmore, chunkDigits_more hradix k _ _ hremlt (Nat.pos_of_ne_zero hlast), hwhole]

theorem jsbToStr_eq (ha : a.Normal) (hradix : 1 < radix) (hlimb : radix < 2 ^ 32)
    (hne : a.val ≠ 0) :
    jsbToStr a radix
      = (if a.neg then ['-'] else []) ++ (digitChars radix a.val.natAbs).reverse := by
  have hlen : a.d.length ≠ 0 := by rwa [Ne, List.length_eq_zero_iff, ha.nil_iff]
  have hone : radix ^ 1 < 2 ^ 32 := by rwa [pow_one]
  obtain ⟨k, hk, hchunk, hpair⟩ := chunkFrom_pow 32 hone Nat.one_pos
  rw [pow_one] at hpair
  have hbits : limbsVal a.d < 2 ^ (32 * a.d.length) := by
    rw [pow_mul]
    exact limbsVal_lt a.d
  simp only [jsbToStr, if_neg hlen, hpair]
  rw [digitsLoop_eq hradix hk hchunk ha.top hbits, natAbs_val]
  cases a.neg <;> simp

/-! ## Digits in -/

theorem digit_back {d : Nat} (hd : d < radix) (hradix : radix ≤ 36) :
    jsbDigit (DIG.getD d '0') radix = some d ∧ DIG.getD d '0' ≠ '_' := by
  have hall : ∀ d < 36, digitValue (DIG.getD d '0') = d ∧ DIG.getD d '0' ≠ '_' := by decide
  obtain ⟨hvalue, hline⟩ := hall d (by omega)
  exact ⟨by rw [jsbDigit, hvalue, if_pos hd], hline⟩

theorem parseLoop_digits (hradix : radix ≤ 36) (ds : List Nat) (hds : ∀ d ∈ ds, d < radix)
    (b : Limbs) (got : Nat) :
    ∃ r, parseLoop radix (ds.map (DIG.getD · '0')) b got = some (r, got + ds.length) ∧
      limbsVal r = limbsVal b * radix ^ ds.length + Nat.ofDigits radix ds.reverse := by
  induction ds generalizing b got with
  | nil => exact ⟨b, by simp [parseLoop], by simp⟩
  | cons d ds ih =>
    have hd : d < radix := hds d List.mem_cons_self
    obtain ⟨hdigit, hline⟩ := digit_back hd hradix
    obtain ⟨r, hr, hval⟩ := ih (fun x hx => hds x (List.mem_cons_of_mem d hx))
      (jsbMagMuladd b (UInt32.ofNat radix) d) (got + 1)
    refine ⟨r, ?_, ?_⟩
    · rw [List.map_cons, parseLoop, if_neg hline, hdigit, List.length_cons, add_comm ds.length, ← add_assoc]
      exact hr
    · rw [hval, jsbMagMuladd_val b _ (by omega), toNat_limb, Nat.mod_eq_of_lt (by omega), List.length_cons,
        List.reverse_cons, Nat.ofDigits_append, List.length_reverse, Nat.ofDigits_singleton, pow_succ']
      ring

def digitsOf (a : Jbint) (radix : Nat) : List Char := (jsbToStr a radix).drop (if a.neg then 1 else 0)

theorem digitsOf_eq (ha : a.Normal) (hradix : 1 < radix) (hlimb : radix < 2 ^ 32)
    (hne : a.val ≠ 0) : digitsOf a radix = (digitChars radix a.val.natAbs).reverse := by
  rw [digitsOf, jsbToStr_eq ha hradix hlimb hne]
  cases a.neg <;> simp

theorem parse_digitsOf (ha : a.Normal) (hlow : 2 ≤ radix) (hhigh : radix ≤ 36) :
    jsbParseDigits (digitsOf a radix) radix a.neg =
      if (digitsOf a radix).length * 6 / 32 + 2 > JSB_MAX_LIMBS then .error tooLarge else .ok (some a) := by
  have hread : ∃ b got, parseLoop radix (digitsOf a radix) [] 0 = some (b, got) ∧ got ≠ 0 ∧
      limbsVal b = a.val.natAbs := by
    by_cases hzero : a.val = 0
    · have hlen : a.d.length = 0 := by rw [List.length_eq_zero_iff, ha.nil_iff, hzero]
      have hsign : a.neg = false := ha.sign (List.length_eq_zero_iff.mp hlen)
      have htext : digitsOf a radix = [0].map (DIG.getD · '0') := by
        simp [digitsOf, jsbToStr, hlen, hsign]
        rfl
      obtain ⟨r, hr, hval⟩ := parseLoop_digits hhigh [0] (by simp; omega) [] 0
      exact ⟨r, _, by rw [htext, hr], by simp, by simpa [hzero] using hval⟩
    · have hpos : 0 < a.val.natAbs := by omega
      obtain ⟨r, hr, hval⟩ := parseLoop_digits hhigh (Nat.digits radix a.val.natAbs).reverse
        (fun d hd => Nat.digits_lt_base (by omega) (List.mem_reverse.mp hd)) [] 0
      have htext : digitsOf a radix = (Nat.digits radix a.val.natAbs).reverse.map (DIG.getD · '0') := by
        rw [digitsOf_eq ha (by omega) (by omega) hzero, digitChars, List.map_reverse]
      have hsome : 0 + (Nat.digits radix a.val.natAbs).reverse.length ≠ 0 := by
        have : Nat.digits radix a.val.natAbs ≠ [] := by
          rw [Ne, Nat.digits_eq_nil_iff_eq_zero]
          omega
        simpa using this
      refine ⟨r, _, by rw [htext, hr], hsome, ?_⟩
      rw [hval, List.reverse_reverse, Nat.ofDigits_digits, limbsVal_nil, zero_mul, zero_add]
  obtain ⟨b, got, hloop, hgot, hval⟩ := hread
  have hback : jsbTrim ⟨a.neg, b⟩ = a := by
    conv_rhs => rw [ha.eq_ofInt rfl]
    apply jsbTrim_eq
    rw [hval, natAbs_val]
    rfl
  rw [jsbParseDigits, jsbNew_eq, hloop]
  split
  · rfl
  · show Except.ok (if got = 0 then none else some (jsbTrim ⟨a.neg, b⟩)) = _
    rw [if_neg hgot, hback]

/-- As many digits as room is reckoned for within the limit. -/
def MAX_DIGITS : Nat := 174757

theorem room_iff (n : Nat) : n * 6 / 32 + 2 > JSB_MAX_LIMBS ↔ MAX_DIGITS < n := by
  have hmax : JSB_MAX_LIMBS = 32768 := rfl
  have hdigits : MAX_DIGITS = 174757 := rfl
  omega

theorem digitsOf_length {a : Jbint} (ha : a.Normal) {radix : Nat} (hradix : 1 < radix) (hlimb : radix < 2 ^ 32) :
    MAX_DIGITS < (digitsOf a radix).length ↔ radix ^ MAX_DIGITS ≤ a.val.natAbs := by
  by_cases hzero : a.val = 0
  · have hlen : a.d.length = 0 := by rw [List.length_eq_zero_iff, ha.nil_iff, hzero]
    have hsign : a.neg = false := ha.sign (List.length_eq_zero_iff.mp hlen)
    have hpos : 0 < radix ^ MAX_DIGITS := Nat.pow_pos (by omega)
    have hone : (digitsOf a radix).length = 1 := by simp [digitsOf, jsbToStr, hlen, hsign]
    have hmax : MAX_DIGITS = 174757 := rfl
    rw [hone, hzero, Int.natAbs_zero]
    omega
  · rw [digitsOf_eq ha hradix hlimb hzero, List.length_reverse, digitChars, List.length_map,
      Nat.lt_digits_length_iff hradix]

/-- A BigInt's digits read back as it, where there are no more of them than room is reckoned for. -/
theorem round_trip_iff (a : BigInt) {radix : Nat} (hlow : 2 ≤ radix) (hhigh : radix ≤ 36) :
    jsbParseDigits (digitsOf a.toJbint radix) radix a.neg = .ok (some a.toJbint) ↔
      a.val.natAbs < radix ^ MAX_DIGITS := by
  rw [parse_digitsOf a.normal hlow hhigh, ← not_le, ← digitsOf_length a.normal (by omega) (by omega), ← room_iff]
  split <;> simp_all

/-- `-255n` in hexadecimal. -/
theorem round_trip_sample :
    jsbParseDigits (digitsOf ⟨true, [255]⟩ 16) 16 true = .ok (some ⟨true, [255]⟩) :=
  (@round_trip_iff ⟨⟨true, [255]⟩, by decide, by decide⟩ 16 (by decide) (by decide)).mpr
    ((show 255 < 16 ^ 2 by decide).trans_le (Nat.pow_le_pow_right (by decide) (by decide)))

/-- `2n ** 174757n` takes a sixth of the limbs there may be, and its binary digits are refused. -/
theorem long_text_refused :
    ∃ a : BigInt, a.val = 2 ^ 174757 ∧
      jsbParseDigits (digitsOf a.toJbint 2) 2 a.neg = .error tooLarge := by
  have hsmall : (ofInt (2 ^ MAX_DIGITS)).d.length ≤ JSB_MAX_LIMBS := by
    rw [(ofInt_normal _).length_le_iff, ofInt_val, Int.natAbs_pow, ← pow_mul]
    exact Nat.pow_lt_pow_right (by decide) (by decide)
  refine ⟨⟨ofInt (2 ^ MAX_DIGITS), ofInt_normal _, hsmall⟩, ofInt_val _, ?_⟩
  have hlong := @digitsOf_length _ (ofInt_normal (2 ^ MAX_DIGITS)) 2 (by decide) (by decide)
  rw [parse_digitsOf (ofInt_normal _) (by decide) (by decide), if_pos]
  rw [room_iff, hlong, ofInt_val, Int.natAbs_pow]
  exact le_refl _

end Zelr.Js
