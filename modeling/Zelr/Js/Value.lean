import Zelr.Js.Mag

/-!
# What a BigInt stands for

Each integer has one representation, and what an operation makes of the room it asks for and of the
integer it comes to is said in one word.
-/

namespace Zelr.Js

variable {b : Jbint} {z : Int}

namespace Jbint

/-- The integer a sign and a magnitude stand for. -/
def val (b : Jbint) : Int := if b.neg then -(limbsVal b.d : Int) else limbsVal b.d

/-- No zero limb at the top, and no sign on zero. -/
structure Normal (b : Jbint) : Prop where
  top : TopNonzero b.d
  sign : b.d = [] → b.neg = false

instance (b : Jbint) : Decidable b.Normal :=
  decidable_of_iff (TopNonzero b.d ∧ (b.d = [] → b.neg = false))
    ⟨fun h => ⟨h.1, h.2⟩, fun h => ⟨h.top, h.sign⟩⟩

def limbsOf (n : Nat) : Limbs := (Nat.digits (2 ^ 32) n).map UInt32.ofNat

def ofInt (z : Int) : Jbint := ⟨decide (z < 0), limbsOf z.natAbs⟩

theorem limbsVal_limbsOf (n : Nat) : limbsVal (limbsOf n) = n := by
  have hback : ((Nat.digits (2 ^ 32) n).map UInt32.ofNat).map UInt32.toNat = Nat.digits (2 ^ 32) n := by
    rw [List.map_map]
    conv_rhs => rw [← List.map_id (Nat.digits (2 ^ 32) n)]
    apply List.map_congr_left
    intro x hx
    have hlt : x < 2 ^ 32 := Nat.digits_lt_base (by norm_num) hx
    rw [Function.comp_apply, toNat_limb, Nat.mod_eq_of_lt hlt, id]
  rw [limbsVal, limbsOf, hback, Nat.ofDigits_digits]

theorem limbsOf_top (n : Nat) : TopNonzero (limbsOf n) := by
  intro hzero
  rw [limbsOf, List.getLast?_map, Option.map_eq_some_iff] at hzero
  obtain ⟨x, hlast, hx⟩ := hzero
  have hmem := List.mem_of_getLast? hlast
  have hlt : x < 2 ^ 32 := Nat.digits_lt_base (by norm_num) hmem
  have hxzero : x = 0 := by
    have := congrArg UInt32.toNat hx
    rwa [toNat_limb, Nat.mod_eq_of_lt hlt] at this
  have hne : Nat.digits (2 ^ 32) n ≠ [] := List.ne_nil_of_mem hmem
  have hn : n ≠ 0 := by
    rintro rfl
    simp at hne
  apply Nat.getLast_digit_ne_zero (2 ^ 32) hn
  rw [List.getLast?_eq_some_getLast hne, Option.some.injEq] at hlast
  rw [hlast, hxzero]

theorem ofInt_normal (z : Int) : (ofInt z).Normal where
  top := limbsOf_top z.natAbs
  sign := by
    intro hnil
    have hzero : z.natAbs = 0 := by
      have hval := limbsVal_limbsOf z.natAbs
      have hnil : limbsOf z.natAbs = [] := hnil
      rw [hnil, limbsVal_nil] at hval
      exact hval.symm
    have hz : z = 0 := Int.natAbs_eq_zero.mp hzero
    subst hz
    rfl

@[simp] theorem ofInt_val (z : Int) : (ofInt z).val = z := by
  by_cases hz : z < 0
  · simp only [val, ofInt, hz, decide_true, if_true, limbsVal_limbsOf]
    omega
  · simp only [val, ofInt, hz, decide_false, limbsVal_limbsOf]
    simp
    omega

theorem natAbs_val (b : Jbint) : b.val.natAbs = limbsVal b.d := by
  unfold val
  split <;> omega

theorem Normal.neg_iff (h : b.Normal) : b.neg = true ↔ b.val < 0 := by
  unfold val
  cases hneg : b.neg with
  | false => simp
  | true =>
    have hne : b.d ≠ [] := by
      intro hnil
      rw [h.sign hnil] at hneg
      cases hneg
    have hpos : limbsVal b.d ≠ 0 := by
      rw [Ne, limbsVal_eq_zero h.top]
      exact hne
    simp only [if_true, true_iff]
    omega

theorem Normal.nil_iff (h : b.Normal) : b.d = [] ↔ b.val = 0 := by
  rw [← limbsVal_eq_zero h.top, ← natAbs_val, Int.natAbs_eq_zero]

theorem Normal.eq_ofInt (h : b.Normal) (hz : b.val = z) : b = ofInt z := by
  subst hz
  have hd : b.d = (ofInt b.val).d := by
    apply eq_of_limbsVal h.top (ofInt_normal _).top
    rw [← natAbs_val, ← natAbs_val, ofInt_val]
  have hneg : b.neg = (ofInt b.val).neg := by
    rw [Bool.eq_iff_iff, h.neg_iff, (ofInt_normal _).neg_iff, ofInt_val]
  exact Jbint.ext hneg hd

theorem Normal.length_le_iff (h : b.Normal) (k : Nat) :
    b.d.length ≤ k ↔ b.val.natAbs < (2 ^ 32) ^ k := by
  rw [natAbs_val]
  exact Zelr.length_le_iff h.top k

end Jbint

/-- A BigInt as the program makes them: normal, and of no more limbs than are allowed. -/
structure BigInt extends Jbint where
  normal : toJbint.Normal
  small : d.length ≤ JSB_MAX_LIMBS

/-! ## Room and result -/

def within (room : Nat) (z : Int) : Big Jbint :=
  if room > JSB_MAX_LIMBS then .error tooLarge else .ok (Jbint.ofInt z)

open Jbint

theorem jsbNew_eq (n : Nat) :
    jsbNew n = if n > JSB_MAX_LIMBS then .error tooLarge else .ok ⟨false, List.replicate n 0⟩ := rfl

theorem jsbTrim_normal (b : Jbint) : (jsbTrim b).Normal where
  top := stripLimbs_top b.d
  sign := by
    intro hnil
    have hnil : stripLimbs b.d = [] := hnil
    simp [jsbTrim, hnil]

theorem jsbTrim_val (b : Jbint) : (jsbTrim b).val = b.val := by
  by_cases hnil : stripLimbs b.d = []
  · have hzero := limbsVal_strip b.d
    rw [hnil, limbsVal_nil] at hzero
    simp [jsbTrim, val, hnil, ← hzero]
  · simp [jsbTrim, val, hnil]

theorem jsbTrim_eq (neg : Bool) (d : Limbs)
    (hz : (if neg then -(limbsVal d : Int) else limbsVal d) = z) : jsbTrim ⟨neg, d⟩ = ofInt z :=
  (jsbTrim_normal _).eq_ofInt (by rw [jsbTrim_val]; exact hz)

theorem new_then (n : Nat) {r : Jbint} (hr : r = ofInt z) :
    (do let _ ← jsbNew n; return r) = within n z := by
  rw [jsbNew_eq, within, hr]
  split <;> rfl

@[simp] theorem jsbNew_zero : jsbNew 0 = .ok (ofInt 0) := rfl

theorem jsbCopy_eq {a : Jbint} (h : a.d.length ≤ JSB_MAX_LIMBS) (neg : Bool) :
    jsbCopy a neg = .ok ⟨neg, a.d⟩ := by
  rw [jsbCopy, jsbNew_eq, if_neg (by omega)]
  rfl

theorem jsbFromU64_eq (v : UInt64) (neg : Bool) :
    jsbFromU64 v neg = .ok (ofInt (if neg then -(v.toNat : Int) else v.toNat)) := by
  have hv := v.toNat_lt
  have hval : limbsVal [v.toUInt32, (v >>> 32).toUInt32] = v.toNat := by
    have hshift : (32 : UInt64).toNat % 64 = 32 := rfl
    rw [limbsVal_cons, limbsVal_singleton, UInt64.toNat_toUInt32, UInt64.toNat_toUInt32,
      UInt64.toNat_shiftRight, hshift, shiftRight_limb]
    omega
  have htwo : ¬ 2 > JSB_MAX_LIMBS := by decide
  rw [jsbFromU64, jsbNew_eq, if_neg htwo,
    jsbTrim_eq neg [v.toUInt32, (v >>> 32).toUInt32] (by rw [hval])]
  rfl

end Zelr.Js
