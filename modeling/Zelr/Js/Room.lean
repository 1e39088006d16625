import Zelr.Js.Exact

/-!
# Room and result

An operation asks for room by a bound of its own.
-/

namespace Zelr.Js

open Jbint

variable {k bits : Nat} {x : Int} {m : Big Jbint}

/-! ## What the language defines -/

/-- The integer an operator comes to, where it comes to one. -/
def exactOp (op : Jop) (x y : Int) : Option Int :=
  match op with
  | .add => some (x + y)
  | .sub => some (x - y)
  | .mul => some (x * y)
  | .div => if y = 0 then none else some (x.tdiv y)
  | .mod => if y = 0 then none else some (x.tmod y)
  | .pow => if y < 0 then none else some (x ^ y.toNat)
  | .band => some (Int.land x y)
  | .bor => some (Int.lor x y)
  | .bxor => some (Int.xor x y)
  | .shl => some (shiftInt x y)
  | .shr => some (shiftInt x (-y))

def TooBig (z : Int) : Prop := (2 ^ 32) ^ JSB_MAX_LIMBS ≤ z.natAbs

/-! ## What each operation asks for -/

def ShiftOverasks (a k : Jbint) (left : Bool) : Prop :=
  if left then JSB_MAX_LIMBS < a.d.length + k.val.natAbs / 32 + 1
  else (a.neg = true ∧ k.d.length ≤ 1) ∧ JSB_MAX_LIMBS < a.d.length + 1

/-- The room an operator asks for is past the limit. -/
def Overasks (op : Jop) (a b : Jbint) : Prop :=
  match op with
  | .add | .sub | .band | .bor | .bxor => JSB_MAX_LIMBS < max a.d.length b.d.length + 1
  | .mul => JSB_MAX_LIMBS < a.d.length + b.d.length
  | .div | .mod => False
  | .pow => (b.val ≠ 0 ∧ 1 < a.val.natAbs) ∧ ¬ PowRoom a.val b.val.toNat
  | .shl => ShiftOverasks a b (!b.neg)
  | .shr => ShiftOverasks a b b.neg

def AsOverasks (bits : Nat) (a : Jbint) (isSigned : Bool) : Prop :=
  if bits > JSB_MAX_LIMBS * 32 then isSigned = false ∧ a.neg = true
  else bits ≠ 0 ∧ JSB_MAX_LIMBS < max ((bits + 31) / 32 + 1) (a.d.length + 1)

def Does (beyond : Prop) (m : Big Jbint) (z : Int) : Prop :=
  (¬ beyond ∧ m = .ok (ofInt z)) ∨ (beyond ∧ m = .error tooLarge)

theorem within_does (n : Nat) (z : Int) : Does (JSB_MAX_LIMBS < n) (within n z) z := by
  rcases Nat.lt_or_ge JSB_MAX_LIMBS n with h | h
  · exact Or.inr ⟨h, within_over h z⟩
  · exact Or.inl ⟨not_lt.mpr h, within_ok h z⟩

theorem shift_amount {k : Jbint} (hk : k.Normal) (left : Bool) :
    (if left then k.val else -k.val)
      = if (if k.neg then !left else left) then (k.val.natAbs : Int) else -(k.val.natAbs : Int) := by
  cases hsign : k.neg with
  | false =>
    obtain ⟨n, hn⟩ : ∃ n : Nat, k.val = n := by
      have hge : ¬ k.val < 0 := by simp [← hk.neg_iff, hsign]
      exact ⟨k.val.natAbs, by omega⟩
    rw [hn]
    cases left <;> simp
  | true =>
    obtain ⟨n, hn⟩ : ∃ n : Nat, k.val = -(n : Int) := by
      have hlt := hk.neg_iff.mp hsign
      exact ⟨k.val.natAbs, by omega⟩
    rw [hn]
    cases left <;> simp

theorem shift_does (a k : BigInt) (left : Bool) :
    Does (ShiftOverasks a.toJbint k.toJbint (if k.neg then !left else left))
      (jsbShift a.toJbint k.toJbint left)
      (shiftInt a.val (if left then k.val else -k.val)) := by
  rw [shift_amount k.normal]
  cases hleft : (if k.neg then !left else left) with
  | true =>
    rw [jsbShift_left k.normal hleft, if_pos rfl, shiftInt, if_pos (by omega), Int.toNat_natCast]
    exact within_does _ _
  | false =>
    have hint : shiftInt a.val (-(k.val.natAbs : Int)) = a.val / 2 ^ k.val.natAbs := by
      rw [shiftInt, neg_neg, Int.toNat_natCast]
      by_cases hzero : k.val.natAbs = 0
      · simp [hzero]
      · rw [if_neg (by omega)]
    rw [if_neg (by simp), hint]
    rw [jsbShift_right a.normal k.normal a.small hleft]
    by_cases hbelow : a.neg = true ∧ k.d.length ≤ 1
    · rw [if_pos hbelow]
      rcases Nat.lt_or_ge JSB_MAX_LIMBS (a.d.length + 1) with h | h
      · exact Or.inr ⟨⟨hbelow, h⟩, within_over h _⟩
      · exact Or.inl ⟨fun hover => absurd hover.2 (not_lt.mpr h), within_ok h _⟩
    · rw [if_neg hbelow]
      exact Or.inl ⟨fun hover => hbelow hover.1, rfl⟩

theorem pow_does (a e : BigInt) (hpos : e.neg = false) :
    Does (Overasks .pow a.toJbint e.toJbint) (jsbPow a.toJbint e.toJbint) (a.val ^ e.val.toNat) := by
  by_cases htrivial : e.val = 0 ∨ a.val.natAbs ≤ 1
  · refine Or.inl ⟨?_, jsbPow_trivial a.normal a.small e.normal hpos htrivial⟩
    rintro ⟨⟨hezero, hunit⟩, -⟩
    omega
  · obtain ⟨hezero, hunit⟩ : e.val ≠ 0 ∧ 1 < a.val.natAbs := by omega
    rcases jsbPow_eq a.normal a.small e.normal hpos hezero hunit with ⟨hroom, heq⟩ | ⟨hroom, heq⟩
    · exact Or.inl ⟨fun hover => hover.2 hroom, heq⟩
    · exact Or.inr ⟨⟨⟨hezero, hunit⟩, hroom⟩, heq⟩

variable {a b : Jbint} {op : Jop} {z : Int} {beyond : Prop}

theorem divmod_zero (hb : b.Normal) (h : b.val = 0) : jsbDivmod a b = .error byZero := by
  have hlen : b.d.length = 0 := by rw [List.length_eq_zero_iff, hb.nil_iff, h]
  unfold jsbDivmod
  rw [if_pos hlen]
  rfl

/-- Each operator comes to the integer the language defines, or asks for too much room. -/
theorem jsbBinary_does {a b : BigInt} (h : exactOp op a.val b.val = some z) :
    Does (Overasks op a.toJbint b.toJbint) (jsbBinary op a.toJbint b.toJbint) z := by
  cases op with
  | add =>
    obtain rfl := Option.some.inj h
    show Does _ (jsbAddsub a.toJbint b.toJbint false) _
    rw [jsbAddsub_eq a.normal b.normal]
    exact within_does _ _
  | sub =>
    obtain rfl := Option.some.inj h
    show Does _ (jsbAddsub a.toJbint b.toJbint true) _
    rw [jsbAddsub_eq a.normal b.normal]
    exact within_does _ _
  | mul =>
    obtain rfl := Option.some.inj h
    show Does _ (jsbMul a.toJbint b.toJbint) _
    rw [jsbMul_eq]
    exact within_does _ _
  | div =>
    simp only [exactOp] at h
    split at h
    · cases h
    · rename_i hzero
      obtain rfl := Option.some.inj h
      refine Or.inl ⟨id, ?_⟩
      show (do return (← jsbDivmod a.toJbint b.toJbint).1) = _
      rw [jsbDivmod_eq a.normal b.normal a.small b.small hzero]
      rfl
  | mod =>
    simp only [exactOp] at h
    split at h
    · cases h
    · rename_i hzero
      obtain rfl := Option.some.inj h
      refine Or.inl ⟨id, ?_⟩
      show (do return (← jsbDivmod a.toJbint b.toJbint).2) = _
      rw [jsbDivmod_eq a.normal b.normal a.small b.small hzero]
      rfl
  | pow =>
    simp only [exactOp] at h
    split at h
    · cases h
    · rename_i hneg
      obtain rfl := Option.some.inj h
      rw [← b.normal.neg_iff, Bool.not_eq_true] at hneg
      exact pow_does a b hneg
  | band =>
    obtain rfl := Option.some.inj h
    show Does _ (jsbBitop a.toJbint b.toJbint 0) _
    rw [jsbBitop_eq a.normal b.normal]
    exact within_does _ _
  | bor =>
    obtain rfl := Option.some.inj h
    show Does _ (jsbBitop a.toJbint b.toJbint 1) _
    rw [jsbBitop_eq a.normal b.normal]
    exact within_does _ _
  | bxor =>
    obtain rfl := Option.some.inj h
    show Does _ (jsbBitop a.toJbint b.toJbint 2) _
    rw [jsbBitop_eq a.normal b.normal]
    exact within_does _ _
  | shl =>
    obtain rfl := Option.some.inj h
    have hdoes := shift_does a b true
    have hway : (if b.neg then !true else true) = !b.neg := by cases b.neg <;> rfl
    rw [hway, if_pos rfl] at hdoes
    exact hdoes
  | shr =>
    obtain rfl := Option.some.inj h
    have hdoes := shift_does a b false
    have hway : (if b.neg then !false else false) = b.neg := by cases b.neg <;> rfl
    rw [hway, if_neg (by simp)] at hdoes
    exact hdoes

theorem jsbBinary_undefined {a b : BigInt} (h : exactOp op a.val b.val = none) :
    ∃ e, e ≠ tooLarge ∧ jsbBinary op a.toJbint b.toJbint = .error e := by
  cases op with
  | div =>
    have hzero : b.val = 0 := by simpa [exactOp] using h
    refine ⟨byZero, by decide, ?_⟩
    show (do return (← jsbDivmod a.toJbint b.toJbint).1) = _
    rw [divmod_zero b.normal hzero]
    rfl
  | mod =>
    have hzero : b.val = 0 := by simpa [exactOp] using h
    refine ⟨byZero, by decide, ?_⟩
    show (do return (← jsbDivmod a.toJbint b.toJbint).2) = _
    rw [divmod_zero b.normal hzero]
    rfl
  | pow =>
    have hneg : b.val < 0 := by simpa [exactOp] using h
    exact ⟨negativePower, by decide, jsbPow_negative (b.normal.neg_iff.mpr hneg)⟩
  | _ => cases h

theorem asExact_beyond {a : BigInt} (hbits : bits > JSB_MAX_LIMBS * 32) (isSigned : Bool) :
    (isSigned = false ∧ a.neg = true → TooBig (asExact isSigned bits a.val)) ∧
      (¬ (isSigned = false ∧ a.neg = true) → asExact isSigned bits a.val = a.val) := by
  have hsmall := (a.normal.length_le_iff JSB_MAX_LIMBS).mp a.small
  have hplace : 2 * (2 ^ 32) ^ JSB_MAX_LIMBS ≤ 2 ^ bits := by
    rw [place_eq, ← pow_succ']
    exact Nat.pow_le_pow_right (by norm_num) (by omega)
  have hneg := a.normal.neg_iff
  refine ⟨?_, ?_⟩
  · rintro ⟨rfl, hsign⟩
    have hlt := hneg.mp hsign
    have hrest : asExact false bits a.val = ((2 ^ bits - a.val.natAbs : Nat) : Int) := by
      have hsplit : a.val = ((2 ^ bits - a.val.natAbs : Nat) : Int) + ((2 ^ bits : Nat) : Int) * (-1) := by
        omega
      rw [asExact, if_neg (by simp)]
      conv_lhs => rw [hsplit]
      rw [Int.add_mul_emod_self_left, Int.emod_eq_of_lt (by omega) (by omega)]
    rw [TooBig, hrest, Int.natAbs_natCast]
    omega
  · intro hnot
    cases isSigned with
    | true =>
      rw [asExact, if_pos rfl]
      apply Int.bmod_eq_of_le <;> omega
    | false =>
      have hge : ¬ a.val < 0 := by
        rw [← hneg]
        exact fun hsign => hnot ⟨rfl, hsign⟩
      rw [asExact, if_neg (by simp)]
      exact Int.emod_eq_of_lt (by omega) (by omega)

theorem jsbAs_does (bits : Nat) (a : BigInt) (isSigned : Bool) :
    Does (AsOverasks bits a.toJbint isSigned) (jsbAs bits a.toJbint isSigned)
      (asExact isSigned bits a.val) := by
  unfold AsOverasks jsbAs
  by_cases hbits : bits > JSB_MAX_LIMBS * 32
  · obtain ⟨-, hwhole⟩ := asExact_beyond (a := a) hbits isSigned
    rw [if_pos hbits, if_pos hbits]
    by_cases hthrow : isSigned = false ∧ a.neg = true
    · exact Or.inr ⟨hthrow, by rw [if_pos hthrow]; rfl⟩
    · refine Or.inl ⟨hthrow, ?_⟩
      rw [if_neg hthrow, hwhole hthrow, ← a.normal.eq_ofInt rfl]
      rfl
  · rw [if_neg hbits, if_neg hbits]
    by_cases hzero : bits = 0
    · subst hzero
      refine Or.inl ⟨fun hover => hover.1 rfl, ?_⟩
      have hnone : asExact isSigned 0 a.val = 0 := by
        cases isSigned
        · simp [asExact]
        · simp [asExact, Int.bmod_one]
      rw [hnone]
      rfl
    · rw [jsbAsN_eq a.normal (Nat.pos_of_ne_zero hzero)]
      rcases within_does (max ((bits + 31) / 32 + 1) (a.d.length + 1)) (asExact isSigned bits a.val) with
        ⟨hroom, heq⟩ | ⟨hroom, heq⟩
      · exact Or.inl ⟨fun hover => hroom hover.2, heq⟩
      · exact Or.inr ⟨⟨hzero, hroom⟩, heq⟩

/-! ## What fits its room is not too large -/

theorem abs_lt (h : a.d.length ≤ k) : a.val.natAbs < (2 ^ 32) ^ k := by
  rw [natAbs_val]
  exact (limbsVal_lt a.d).trans_le (Nat.pow_le_pow_right (by norm_num) h)

theorem BigInt.not_tooBig (a : BigInt) : ¬ TooBig a.val := not_le.mpr (abs_lt a.small)

theorem not_tooBig_of_le (hx : ¬ TooBig x) (h : z.natAbs ≤ x.natAbs) : ¬ TooBig z := by
  rw [TooBig] at hx ⊢
  omega

theorem sum_fits (hroom : ¬ JSB_MAX_LIMBS < max a.d.length b.d.length + 1)
    (hz : z.natAbs ≤ a.val.natAbs + b.val.natAbs) : ¬ TooBig z := by
  have ha := abs_lt (le_max_left a.d.length b.d.length)
  have hb := abs_lt (le_max_right a.d.length b.d.length)
  have hplace : (2 ^ 32) ^ (max a.d.length b.d.length + 1) ≤ (2 ^ 32) ^ JSB_MAX_LIMBS :=
    Nat.pow_le_pow_right (by norm_num) (not_lt.mp hroom)
  rw [pow_succ (2 ^ 32)] at hplace
  rw [TooBig]
  omega

theorem product_fits (hroom : ¬ JSB_MAX_LIMBS < a.d.length + b.d.length) :
    ¬ TooBig (a.val * b.val) := by
  rw [TooBig, not_le, Int.natAbs_mul]
  calc a.val.natAbs * b.val.natAbs < (2 ^ 32) ^ a.d.length * (2 ^ 32) ^ b.d.length :=
        Nat.mul_lt_mul'' (abs_lt (le_refl _)) (abs_lt (le_refl _))
    _ = (2 ^ 32) ^ (a.d.length + b.d.length) := (pow_add _ _ _).symm
    _ ≤ (2 ^ 32) ^ JSB_MAX_LIMBS := Nat.pow_le_pow_right (by norm_num) (not_lt.mp hroom)

theorem bmod_fits {n : Nat} (hn : 0 < n) (hk : n ≤ 32 * k) :
    (x.bmod (2 ^ n)).natAbs < (2 ^ 32) ^ k := by
  have hpow : 2 ^ n ≤ 2 ^ (32 * k) := Nat.pow_le_pow_right (by norm_num) hk
  have htwo : 2 ^ n = 2 * 2 ^ (n - 1) := by
    rw [← pow_succ']
    congr 1
    omega
  have hpos : 0 < 2 ^ n := by positivity
  have hle := Int.le_bmod (x := x) hpos
  have hlt := Int.bmod_lt (x := x) hpos
  rw [place_eq]
  omega

theorem bitop_fits (ha : a.Normal) (hb : b.Normal) (op : Nat)
    (hroom : ¬ JSB_MAX_LIMBS < max a.d.length b.d.length + 1) : ¬ TooBig (intOp op a.val b.val) := by
  have hla : a.d.length < max a.d.length b.d.length + 1 := by omega
  have hlb : b.d.length < max a.d.length b.d.length + 1 := by omega
  rw [TooBig, not_le, ← intOp_bmod ha hb op hla hlb]
  exact bmod_fits (by omega) (by omega)

theorem shift_fits (a k : BigInt) (left : Bool)
    (hroom : ¬ ShiftOverasks a.toJbint k.toJbint (if k.neg then !left else left)) :
    ¬ TooBig (shiftInt a.val (if left then k.val else -k.val)) := by
  rw [shift_amount k.normal]
  cases hleft : (if k.neg then !left else left) with
  | true =>
    rw [hleft, ShiftOverasks, if_pos rfl] at hroom
    rw [if_pos rfl, shiftInt, if_pos (by omega), Int.toNat_natCast, TooBig, not_le, Int.natAbs_mul,
      Int.natAbs_pow]
    calc a.val.natAbs * 2 ^ k.val.natAbs < (2 ^ 32) ^ a.d.length * 2 ^ k.val.natAbs :=
          Nat.mul_lt_mul_of_pos_right (abs_lt (le_refl _)) (by positivity)
      _ = 2 ^ (32 * a.d.length + k.val.natAbs) := by rw [place_eq, ← pow_add]
      _ ≤ 2 ^ (32 * JSB_MAX_LIMBS) := Nat.pow_le_pow_right (by norm_num) (by omega)
      _ = (2 ^ 32) ^ JSB_MAX_LIMBS := (place_eq _).symm
  | false =>
    rw [if_neg (by simp), shiftInt, neg_neg, Int.toNat_natCast]
    by_cases hzero : k.val.natAbs = 0
    · simpa [hzero] using a.not_tooBig
    · rw [if_neg (by omega)]
      exact not_tooBig_of_le a.not_tooBig (Int.natAbs_ediv_le_natAbs _ _)

theorem pow_fits (a e : BigInt) (hroom : ¬ Overasks .pow a.toJbint e.toJbint) :
    ¬ TooBig (a.val ^ e.val.toNat) := by
  have hmax : 1 < (2 ^ 32) ^ JSB_MAX_LIMBS := Nat.one_lt_pow (by decide) (by norm_num)
  rw [TooBig, not_le, Int.natAbs_pow]
  by_cases htrivial : e.val.toNat = 0 ∨ a.val.natAbs ≤ 1
  · have hone : a.val.natAbs ^ e.val.toNat ≤ 1 := by
      rcases htrivial with hezero | hunit
      · rw [hezero, pow_zero]
      · simpa using Nat.pow_le_pow_left hunit e.val.toNat
    omega
  · have hfits : PowRoom a.val e.val.toNat := by
      by_contra hnot
      exact hroom ⟨⟨by omega, by omega⟩, hnot⟩
    calc a.val.natAbs ^ e.val.toNat < (2 ^ a.val.natAbs.size) ^ e.val.toNat :=
          Nat.pow_lt_pow_left (Nat.lt_size_self _) (by omega)
      _ = 2 ^ (a.val.natAbs.size * e.val.toNat) := (pow_mul _ _ _).symm
      _ ≤ 2 ^ (32 * JSB_MAX_LIMBS) := Nat.pow_le_pow_right (by norm_num) (by have := hfits.1; omega)
      _ = (2 ^ 32) ^ JSB_MAX_LIMBS := (place_eq _).symm

theorem binary_fits {a b : BigInt} (h : exactOp op a.val b.val = some z)
    (hroom : ¬ Overasks op a.toJbint b.toJbint) : ¬ TooBig z := by
  cases op with
  | add =>
    obtain rfl := Option.some.inj h
    exact sum_fits hroom (Int.natAbs_add_le _ _)
  | sub =>
    obtain rfl := Option.some.inj h
    exact sum_fits hroom (Int.natAbs_sub_le _ _)
  | mul =>
    obtain rfl := Option.some.inj h
    exact product_fits hroom
  | div =>
    simp only [exactOp] at h
    split at h
    · cases h
    · obtain rfl := Option.some.inj h
      exact not_tooBig_of_le a.not_tooBig (Int.natAbs_tdiv_le_natAbs _ _)
  | mod =>
    simp only [exactOp] at h
    split at h
    · cases h
    · obtain rfl := Option.some.inj h
      apply not_tooBig_of_le a.not_tooBig
      rw [Int.natAbs_tmod]
      exact Nat.mod_le _ _
  | pow =>
    simp only [exactOp] at h
    split at h
    · cases h
    · obtain rfl := Option.some.inj h
      exact pow_fits a b hroom
  | band =>
    obtain rfl := Option.some.inj h
    exact bitop_fits a.normal b.normal 0 hroom
  | bor =>
    obtain rfl := Option.some.inj h
    exact bitop_fits a.normal b.normal 1 hroom
  | bxor =>
    obtain rfl := Option.some.inj h
    exact bitop_fits a.normal b.normal 2 hroom
  | shl =>
    obtain rfl := Option.some.inj h
    have hway : (if b.neg then !true else true) = !b.neg := by cases b.neg <;> rfl
    have hfits := shift_fits a b true
    rw [hway, if_pos rfl] at hfits
    exact hfits hroom
  | shr =>
    obtain rfl := Option.some.inj h
    have hway : (if b.neg then !false else false) = b.neg := by cases b.neg <;> rfl
    have hfits := shift_fits a b false
    rw [hway, if_neg (by simp)] at hfits
    exact hfits hroom

theorem as_fits {a : BigInt} {isSigned : Bool} (hroom : ¬ AsOverasks bits a.toJbint isSigned) :
    ¬ TooBig (asExact isSigned bits a.val) := by
  unfold AsOverasks at hroom
  by_cases hbits : bits > JSB_MAX_LIMBS * 32
  · rw [if_pos hbits] at hroom
    rw [(asExact_beyond hbits isSigned).2 hroom]
    exact a.not_tooBig
  rw [if_neg hbits] at hroom
  rw [TooBig, not_le, asExact]
  cases isSigned with
  | false =>
    have hpos : 0 < 2 ^ bits := by positivity
    have hpow : 2 ^ bits ≤ 2 ^ (32 * JSB_MAX_LIMBS) := Nat.pow_le_pow_right (by norm_num) (by omega)
    have hge := Int.emod_nonneg a.val (show ((2 ^ bits : Nat) : Int) ≠ 0 by omega)
    have hlt := Int.emod_lt_of_pos a.val (show (0 : Int) < ((2 ^ bits : Nat) : Int) by omega)
    rw [if_neg (by simp), place_eq]
    omega
  | true =>
    rw [if_pos rfl]
    by_cases hzero : bits = 0
    · have hnone : a.val.bmod (2 ^ bits) = 0 := by rw [hzero, pow_zero, Int.bmod_one]
      rw [hnone, Int.natAbs_zero]
      positivity
    · exact bmod_fits (Nat.pos_of_ne_zero hzero) (by omega)

theorem Does.of_ok {r : Jbint} (h : Does beyond m z) (hr : m = .ok r) :
    ¬ beyond ∧ r = ofInt z := by
  rcases h with ⟨hroom, heq⟩ | ⟨-, heq⟩
  · rw [heq] at hr
    exact ⟨hroom, (Except.ok.inj hr).symm⟩
  · rw [heq] at hr
    cases hr

theorem Does.error_iff (h : Does beyond m z) :
    m = .error tooLarge ↔ beyond := by
  rcases h with ⟨hroom, heq⟩ | ⟨hover, heq⟩
  · simp [heq, hroom]
  · simp [heq, hover]

/-! ## Arithmetic -/

/-- Whatever an operation returns is the representation of the integer the language defines. -/
theorem bigint_exact :
    (∀ (op : Jop) (a b : BigInt) (r : Jbint), jsbBinary op a.toJbint b.toJbint = .ok r →
      r.Normal ∧ exactOp op a.val b.val = some r.val) ∧
    ∀ (bits : Nat) (a : BigInt) (isSigned : Bool) (r : Jbint), jsbAs bits a.toJbint isSigned = .ok r →
      r.Normal ∧ asExact isSigned bits a.val = r.val := by
  refine ⟨?_, ?_⟩
  · intro op a b r hr
    cases hexact : exactOp op a.val b.val with
    | none =>
      obtain ⟨e, -, he⟩ := jsbBinary_undefined hexact
      rw [he] at hr
      cases hr
    | some z =>
      obtain ⟨-, rfl⟩ := (jsbBinary_does hexact).of_ok hr
      exact ⟨ofInt_normal z, by rw [ofInt_val]⟩
  · intro bits a isSigned r hr
    obtain ⟨-, rfl⟩ := (jsbAs_does bits a isSigned).of_ok hr
    exact ⟨ofInt_normal _, (ofInt_val _).symm⟩

/-- `7n / -2n` is `-3n`, and `BigInt.asIntN(3, 7n)` is `-1n`. -/
theorem bigint_exact_sample :
    (Jbint.Normal ⟨true, [3]⟩ ∧ exactOp .div 7 (-2) = some (-3)) ∧
      (Jbint.Normal ⟨true, [1]⟩ ∧ asExact true 3 7 = -1) :=
  ⟨bigint_exact.1 .div ⟨⟨false, [7]⟩, by decide, by decide⟩ ⟨⟨true, [2]⟩, by decide, by decide⟩
      ⟨true, [3]⟩ (by decide),
    bigint_exact.2 3 ⟨⟨false, [7]⟩, by decide, by decide⟩ true ⟨true, [1]⟩ (by decide)⟩

theorem judged_iff {big : Prop} (h : ¬ beyond → ¬ big) : ((beyond ↔ big) ↔ (beyond → big)) :=
  ⟨fun hiff => hiff.mp, fun himp => ⟨himp, fun hbig => by_contra fun hroom => h hroom hbig⟩⟩

/-- An operation throws for size exactly when its result is too large, but for those whose room alone is past the limit. -/
theorem size_judged_iff (op : Jop) (a b : BigInt) (bits : Nat) (isSigned : Bool) :
    ((jsbBinary op a.toJbint b.toJbint = .error tooLarge ↔
        ∃ z, exactOp op a.val b.val = some z ∧ TooBig z) ↔
      (Overasks op a.toJbint b.toJbint → ∀ z, exactOp op a.val b.val = some z → TooBig z)) ∧
    ((jsbAs bits a.toJbint isSigned = .error tooLarge ↔ TooBig (asExact isSigned bits a.val)) ↔
      (AsOverasks bits a.toJbint isSigned → TooBig (asExact isSigned bits a.val))) := by
  refine ⟨?_, ?_⟩
  · cases hexact : exactOp op a.val b.val with
    | none =>
      obtain ⟨e, hne, he⟩ := jsbBinary_undefined hexact
      simp [he, hne]
    | some z =>
      have hthrow := (jsbBinary_does hexact).error_iff
      have hfits := binary_fits hexact
      simp only [hthrow, Option.some.injEq, exists_eq_left', forall_eq']
      exact judged_iff hfits
  · have hthrow := (jsbAs_does bits a isSigned).error_iff
    rw [hthrow]
    exact judged_iff as_fits

/-- `2n ** 524289n` needs half the limbs there may be, and is refused: its bits are reckoned as two for
each time two is multiplied. -/
theorem power_refused :
    ∃ a b : BigInt, (a.toJbint = ⟨false, [2]⟩ ∧ b.toJbint = ⟨false, [524289]⟩) ∧
      jsbBinary .pow a.toJbint b.toJbint = .error tooLarge ∧
      exactOp .pow a.val b.val = some (2 ^ 524289) ∧ ¬ TooBig (2 ^ 524289) := by
  refine ⟨⟨⟨false, [2]⟩, by decide, by decide⟩, ⟨⟨false, [524289]⟩, by decide, by decide⟩, ⟨rfl, rfl⟩,
    by decide, ?_, ?_⟩
  · have hval : Jbint.val ⟨false, [2]⟩ = 2 ∧ Jbint.val ⟨false, [524289]⟩ = 524289 := by decide
    have hexp : Int.toNat 524289 = 524289 := rfl
    have hpow : ∀ n : Nat, (if (524289 : Int) < 0 then none else some ((2 : Int) ^ n)) = some (2 ^ n) :=
      fun n => if_neg (by decide)
    simp only [exactOp, hval.1, hval.2, hexp]
    exact hpow 524289
  · rw [TooBig, not_le, place_eq, Int.natAbs_pow]
    exact Nat.pow_lt_pow_right (by norm_num) (by decide)

end Zelr.Js
