import Mathlib.Algebra.Order.Field.Power
import Mathlib.Tactic.FieldSimp
import Mathlib.Tactic.Positivity
import Mathlib.Tactic.Qify
import Zelr.Base.Ladder
import Zelr.Js.Decimal

/-!
# Doubles

The doubles from nought up are the rungs of a ladder: the next bit pattern is the next double, and
infinity stands where the next power of two would be.
-/

namespace Zelr.Js

open Ladder

variable {v : ℚ} {hi k : Nat} {e : Int}

def units (b : Nat) : Nat :=
  if b / 2 ^ 52 = 0 then b % 2 ^ 52 else (2 ^ 52 + b % 2 ^ 52) * 2 ^ (b / 2 ^ 52 - 1)

/-- What a double is worth; infinity counts as two to the 1024. -/
def value (b : Nat) : ℚ := units b / 2 ^ 1074

/-- The double nearest to `v`, ties to the even one: from halfway between the largest and two to the
1024 on that is infinity. -/
def NearestDouble (v : ℚ) (b : Nat) : Prop := Nearest value JN_INF v b

/-! ## The ladder -/

theorem smallest_pos : (0 : ℚ) < 2 ^ 1074 := pow_pos (by norm_num) 1074

theorem units_at {t k : Nat} (hk : k ≤ 2 ^ 53) (h : t = 0 ∨ 2 ^ 52 ≤ k) :
    units (t * 2 ^ 52 + k) = k * 2 ^ t := by
  rcases lt_or_ge k (2 ^ 52) with hlt | hge
  · obtain rfl : t = 0 := by omega
    have hdiv : (0 * 2 ^ 52 + k) / 2 ^ 52 = 0 := by omega
    have hmod : (0 * 2 ^ 52 + k) % 2 ^ 52 = k := by omega
    rw [units, hdiv, hmod, if_pos rfl, pow_zero, mul_one]
  · rcases Nat.eq_or_lt_of_le hk with rfl | hk
    · have hdiv : (t * 2 ^ 52 + 2 ^ 53) / 2 ^ 52 = t + 2 := by omega
      have hmod : (t * 2 ^ 52 + 2 ^ 53) % 2 ^ 52 = 0 := by omega
      rw [units, hdiv, hmod, if_neg (by omega), show t + 2 - 1 = t + 1 from rfl, pow_succ]
      ring
    · have hdiv : (t * 2 ^ 52 + k) / 2 ^ 52 = t + 1 := by omega
      have hmod : (t * 2 ^ 52 + k) % 2 ^ 52 = k - 2 ^ 52 := by omega
      rw [units, hdiv, hmod, if_neg (by omega), Nat.add_sub_cancel, Nat.add_sub_of_le hge]

theorem exists_units (b : Nat) :
    ∃ t k, b = t * 2 ^ 52 + k ∧ t = b / 2 ^ 52 - 1 ∧ k < 2 ^ 53 ∧ (t = 0 ∨ 2 ^ 52 ≤ k) := by
  refine ⟨b / 2 ^ 52 - 1, b - (b / 2 ^ 52 - 1) * 2 ^ 52, ?_, rfl, ?_, ?_⟩ <;> omega

theorem units_succ (b : Nat) : units (b + 1) = units b + 2 ^ (b / 2 ^ 52 - 1) := by
  obtain ⟨t, k, hb, ht, hk, hnorm⟩ := exists_units b
  have hnorm' : t = 0 ∨ 2 ^ 52 ≤ k + 1 := by omega
  rw [← ht, hb, Nat.add_assoc, units_at hk hnorm', units_at hk.le hnorm, Nat.succ_mul]

theorem units_strictMono : StrictMono units := by
  apply strictMono_nat_of_lt_succ
  intro b
  have hpos : 0 < 2 ^ (b / 2 ^ 52 - 1) := by positivity
  rw [units_succ]
  omega

theorem value_strictMono : StrictMono value := by
  intro a b h
  have hlt : (units a : ℚ) < units b := by exact_mod_cast units_strictMono h
  exact div_lt_div_of_pos_right hlt smallest_pos

@[simp] theorem value_zero : value 0 = 0 := by
  simp [value, units]

theorem value_inf : value JN_INF = 2 ^ 1024 := by
  have hat : JN_INF = 2046 * 2 ^ 52 + 2 ^ 52 := rfl
  have hunits := @units_at 2046 (2 ^ 52) (by norm_num) (Or.inr le_rfl)
  have hpow : (2 : ℚ) ^ 52 * 2 ^ 2046 = 2 ^ 1024 * 2 ^ 1074 := by rw [← pow_add, ← pow_add]
  rw [value, div_eq_iff smallest_pos.ne', hat, hunits, ← hpow, Nat.cast_mul, Nat.cast_pow, Nat.cast_pow,
    Nat.cast_ofNat]

theorem cut_units (b : Nat) : cut value b = (2 * units b + 2 ^ (b / 2 ^ 52 - 1) : Nat) / 2 ^ 1075 := by
  have hsum : (units b : ℚ) + units (b + 1) = (2 * units b + 2 ^ (b / 2 ^ 52 - 1) : Nat) := by
    rw [units_succ]
    push_cast
    ring
  rw [cut, value, value, ← add_div, div_div, ← pow_succ, hsum]

theorem value_succ_le (a : Nat) : value (a + 1) ≤ 2 ^ 53 * (value (a + 1) - value a) := by
  obtain ⟨t, k, ha, ht, hk, hnorm⟩ := exists_units a
  have hunits : units a = k * 2 ^ t := by
    rw [ha]
    exact units_at hk.le hnorm
  have hstep : value (a + 1) - value a = 2 ^ t / 2 ^ 1074 := by
    rw [value, value, units_succ, ← ht, Nat.cast_add, Nat.cast_pow, Nat.cast_ofNat, add_div, add_sub_cancel_left]
  have hle : ((k : ℚ) + 1) * 2 ^ t ≤ 2 ^ 53 * 2 ^ t := by
    gcongr
    exact_mod_cast hk
  have hsucc : (units (a + 1) : ℚ) = (k + 1) * 2 ^ t := by
    rw [units_succ, ← ht, hunits]
    push_cast
    ring
  rw [hstep, value, hsucc, ← mul_div_assoc]
  exact div_le_div_of_nonneg_right hle smallest_pos.le

/-! ## Where infinity begins, and nought ends -/

theorem cut_below_inf : cut value (JN_INF - 1) = 2 ^ 1024 - 2 ^ 970 := by
  have hat : JN_INF - 1 = 2045 * 2 ^ 52 + (2 ^ 53 - 1) := rfl
  have hgap : (JN_INF - 1) / 2 ^ 52 - 1 = 2045 := rfl
  have hunits := @units_at 2045 (2 ^ 53 - 1) (by norm_num) (Or.inr (by norm_num))
  have hsum : 2 * ((2 ^ 53 - 1) * 2 ^ 2045) + 2 ^ 2045 = (2 ^ 54 - 1) * 2 ^ 2045 := by
    generalize 2 ^ 2045 = two
    omega
  have hpow : (2 : ℚ) ^ 2045 = 2 ^ 970 * 2 ^ 1075 := (pow_add 2 970 1075)
  have hpos : (0 : ℚ) < 2 ^ 1075 := pow_pos (by norm_num) 1075
  have hinf : (2 : ℚ) ^ 1024 = 2 ^ 54 * 2 ^ 970 := (pow_add 2 54 970)
  have hodd : ((2 ^ 54 - 1 : Nat) : ℚ) = 2 ^ 54 - 1 := by norm_num
  rw [cut_units, hgap, hat, hunits, hsum, Nat.cast_mul, Nat.cast_pow 2 2045, Nat.cast_ofNat, hpow, ← mul_assoc,
    mul_div_cancel_right₀ _ hpos.ne', hinf, hodd, sub_mul, one_mul]

theorem nearest_inf_iff : NearestDouble v JN_INF ↔ 2 ^ 1024 - 2 ^ 970 ≤ v := by
  have hcut := cut_below_inf
  rw [NearestDouble, nearest_iff value_strictMono, ← hcut]
  constructor
  · rintro ⟨-, hbelow, -⟩
    rcases hbelow (JN_INF - 1) rfl with h | h
    · exact h.le
    · exact h.1.le
  · intro h
    refine ⟨le_rfl, ?_, fun hlt => absurd hlt (lt_irrefl _)⟩
    intro a ha
    obtain rfl : a = JN_INF - 1 := by omega
    rcases h.lt_or_eq with h | h
    · exact Or.inl h
    · exact Or.inr ⟨h, by decide⟩

theorem nearest_zero_iff : NearestDouble v 0 ↔ v ≤ (2 : ℚ) ^ (-1075 : ℤ) := by
  have hcut : cut value 0 = (2 : ℚ) ^ (-1075 : ℤ) := by
    rw [cut_units]
    simp [units]
  rw [NearestDouble, nearest_iff value_strictMono, ← hcut]
  constructor
  · rintro ⟨-, -, habove⟩
    rcases habove (by decide) with h | h
    · exact h.le
    · exact h.1.le
  · intro h
    refine ⟨Nat.zero_le _, fun a ha => absurd ha (Nat.succ_ne_zero a).symm, fun _ => ?_⟩
    rcases h.lt_or_eq with h | h
    · exact Or.inl h
    · exact Or.inr ⟨h, by decide⟩

/-! ## Rounding -/

theorem jnRound_eq (sticky : Bool) (h63 : 2 ^ 63 ≤ hi) (h64 : hi < 2 ^ 64)
    (htop : e + 63 ≤ 1023) {shift t : Nat} (hshift : shift = 11 + (-1085 - e).toNat) (h : shift ≤ 64)
    (ht : t = (e + 1085).toNat) :
    jnRound hi e sticky = t * 2 ^ 52 + hi / 2 ^ shift +
      if hi % 2 ^ shift > 2 ^ (shift - 1) ∨ hi % 2 ^ shift = 2 ^ (shift - 1) ∧
        (sticky ∨ ¬ Even (hi / 2 ^ shift)) then 1 else 0 := by
  have hwhole : (if e + 63 < -1022 then 11 + (-1022 - (e + 63)).toNat else 11) = shift := by
    split <;> omega
  have hkeep : (if shift = 64 then 0 else hi >>> shift) = hi / 2 ^ shift := by
    split
    · next heq => rw [heq, Nat.div_eq_of_lt h64]
    · rw [Nat.shiftRight_eq_div_pow]
  have hrest : (if shift = 64 then hi else hi &&& (2 ^ shift - 1)) = hi % 2 ^ shift := by
    split
    · next heq => rw [heq, Nat.mod_eq_of_lt h64]
    · rw [Nat.and_two_pow_sub_one_eq_mod]
  have hodd : ∀ n : Nat, (n &&& 1 ≠ 0) = ¬ Even n := by
    intro n
    rw [Nat.and_one_is_mod, Nat.even_iff]
  simp only [jnRound, hwhole, hkeep, hodd, if_neg (not_lt.mpr htop),
    if_neg (show ¬ (e + 63 < -1022 ∧ shift > 64) by omega), Nat.shiftLeft_eq, one_mul, hrest]
  generalize hup : (if hi % 2 ^ shift > 2 ^ (shift - 1) ∨ hi % 2 ^ shift = 2 ^ (shift - 1) ∧
    (sticky = true ∨ ¬ Even (hi / 2 ^ shift)) then (1 : Nat) else 0) = up
  have hadd : (if hi % 2 ^ shift > 2 ^ (shift - 1) ∨ hi % 2 ^ shift = 2 ^ (shift - 1) ∧
      (sticky = true ∨ ¬ Even (hi / 2 ^ shift)) then hi / 2 ^ shift + 1 else hi / 2 ^ shift)
      = hi / 2 ^ shift + up := by
    rw [← hup]
    split <;> rfl
  have hup1 : up ≤ 1 := by
    rw [← hup]
    split <;> omega
  rw [hadd]
  by_cases hsub : e + 63 < -1022
  · obtain rfl : t = 0 := by omega
    rw [if_pos hsub]
    omega
  · obtain rfl : shift = 11 := by omega
    have hlow : 2 ^ 52 ≤ hi / 2 ^ 11 := by omega
    have hhigh : hi / 2 ^ 11 < 2 ^ 53 := by omega
    generalize hi / 2 ^ 11 = keep at hlow hhigh
    rw [if_neg hsub]
    split
    · next heq =>
      split
      · have : JN_INF = 2047 * 2 ^ 52 := rfl
        omega
      · have hmask : (keep + up) >>> 1 &&& 0xFFFFFFFFFFFFF = 0 := by
          rw [heq]
          rfl
        rw [hmask, Nat.or_zero]
        omega
    · next hne =>
      have hmask : (keep + up) &&& 0xFFFFFFFFFFFFF = keep + up - 2 ^ 52 := by
        have hmod := Nat.and_two_pow_sub_one_eq_mod (keep + up) 52
        norm_num at hmod
        rw [hmod]
        omega
      rw [hmask, ← Nat.shiftLeft_eq, ← Nat.shiftLeft_add_eq_or_of_lt (by omega), Nat.shiftLeft_eq]
      omega

theorem jnRound_inf (sticky : Bool) (h63 : 2 ^ 63 ≤ hi)
    (hlow : hi * (2 : ℚ) ^ e ≤ v) (htop : 1023 < e + 63) : NearestDouble v (jnRound hi e sticky) := by
  have heq : jnRound hi e sticky = JN_INF := by simp only [jnRound, if_pos htop]
  have h63' : (2 : ℚ) ^ 63 ≤ hi := by exact_mod_cast h63
  have hinf : value JN_INF ≤ v := by
    calc value JN_INF = (2 : ℚ) ^ (1024 : ℤ) := value_inf
      _ ≤ (2 : ℚ) ^ (63 + e) := zpow_le_zpow_right₀ (by norm_num) (by omega)
      _ = 2 ^ 63 * (2 : ℚ) ^ e := by
          rw [zpow_add₀ (by norm_num)]
          rfl
      _ ≤ hi * (2 : ℚ) ^ e := by gcongr
      _ ≤ v := hlow
  rw [heq]
  exact nearest_last value_strictMono hinf

theorem jnRound_zero (sticky : Bool) (h64 : hi < 2 ^ 64)
    (hhigh : v < (hi + 1) * (2 : ℚ) ^ e) (htop : e + 63 ≤ 1023) (hfar : 64 < 11 + (-1085 - e).toNat) :
    NearestDouble v (jnRound hi e sticky) := by
  have hwhole : (if e + 63 < -1022 then 11 + (-1022 - (e + 63)).toNat else 11)
      = 11 + (-1085 - e).toNat := by
    split <;> omega
  have heq : jnRound hi e sticky = 0 := by
    simp only [jnRound, if_neg (not_lt.mpr htop), hwhole,
      if_pos (show e + 63 < -1022 ∧ 11 + (-1085 - e).toNat > 64 by omega)]
  have h64' : (hi : ℚ) + 1 ≤ 2 ^ 64 := by exact_mod_cast h64
  rw [heq]
  apply nearest_zero_iff.mpr
  apply le_of_lt
  calc v < (hi + 1) * (2 : ℚ) ^ e := hhigh
    _ ≤ 2 ^ 64 * (2 : ℚ) ^ e := by gcongr
    _ = (2 : ℚ) ^ (64 + e) := by
        rw [zpow_add₀ (by norm_num)]
        rfl
    _ ≤ (2 : ℚ) ^ (-1075 : ℤ) := zpow_le_zpow_right₀ (by norm_num) (by omega)

theorem past_half {rest half : Nat} {w δ : ℚ} {sticky odd : Prop} (hw : 0 < w) (hδ : 0 ≤ δ) (hlt : δ < w)
    (hsticky : sticky ↔ 0 < δ) :
    (rest > half ∨ rest = half ∧ (sticky ∨ odd)) ↔
      2 * half * w < 2 * (rest * w + δ) ∨ 2 * (rest * w + δ) = 2 * half * w ∧ odd := by
  rcases lt_trichotomy rest half with hless | rfl | hmore
  · have hcast : ((rest : ℚ) + 1) * w ≤ half * w := by
      gcongr
      exact_mod_cast hless
    constructor
    · rintro (h | ⟨h, -⟩) <;> omega
    · rintro (h | ⟨h, -⟩) <;> linarith
  · rw [hsticky]
    constructor
    · rintro (h | ⟨-, h | h⟩)
      · omega
      · left
        linarith
      · rcases hδ.lt_or_eq with hpos | hzero
        · left
          linarith
        · right
          exact ⟨by linarith, h⟩
    · rintro (h | ⟨-, h⟩)
      · exact Or.inr ⟨rfl, Or.inl (by linarith)⟩
      · exact Or.inr ⟨rfl, Or.inr h⟩
  · have hcast : ((half : ℚ) + 1) * w ≤ rest * w := by
      gcongr
      exact_mod_cast hmore
    constructor
    · intro _
      left
      linarith
    · intro _
      exact Or.inl hmore

/-- The word and whether there is more below it: enough to find the nearest double. -/
theorem jnRound_nearest {sticky : Bool} (h63 : 2 ^ 63 ≤ hi)
    (h64 : hi < 2 ^ 64) (hlow : hi * (2 : ℚ) ^ e ≤ v) (hhigh : v < (hi + 1) * (2 : ℚ) ^ e)
    (hsticky : sticky = true ↔ hi * (2 : ℚ) ^ e < v) : NearestDouble v (jnRound hi e sticky) := by
  rcases lt_or_ge 1023 (e + 63) with htop | htop
  · exact jnRound_inf sticky h63 hlow htop
  obtain ⟨shift, hshift⟩ : ∃ shift, shift = 11 + (-1085 - e).toNat := ⟨_, rfl⟩
  rcases lt_or_ge 64 shift with hfar | hnear
  · exact jnRound_zero sticky h64 hhigh htop (hshift ▸ hfar)
  obtain ⟨t, ht⟩ : ∃ t, t = (e + 1085).toNat := ⟨_, rfl⟩
  rw [jnRound_eq sticky h63 h64 htop hshift hnear ht]
  have hsplit : (hi : ℚ) = (hi / 2 ^ shift : Nat) * 2 ^ shift + (hi % 2 ^ shift : Nat) := by
    have := Nat.div_add_mod' hi (2 ^ shift)
    exact_mod_cast this.symm
  have hmod : ((hi % 2 ^ shift : Nat) : ℚ) + 1 ≤ 2 ^ shift := by
    have hlt : hi % 2 ^ shift + 1 ≤ 2 ^ shift := Nat.mod_lt _ (by positivity)
    exact_mod_cast hlt
  have hkeep : hi / 2 ^ shift < 2 ^ 53 := by
    have hpow : 2 ^ 11 ≤ 2 ^ shift := Nat.pow_le_pow_right (by norm_num) (by omega)
    calc hi / 2 ^ shift ≤ hi / 2 ^ 11 := Nat.div_le_div_left hpow (by norm_num)
      _ < 2 ^ 53 := by omega
  have hnorm : t = 0 ∨ 2 ^ 52 ≤ hi / 2 ^ shift := by
    rcases Nat.eq_zero_or_pos t with hzero | hpos
    · exact Or.inl hzero
    · obtain rfl : shift = 11 := by omega
      right
      omega
  generalize hi / 2 ^ shift = keep at hsplit hkeep hnorm
  generalize hi % 2 ^ shift = rest at hsplit hmod
  -- the scale of the pattern is that of the word, moved up by what is cut off
  have hscale : (2 : ℚ) ^ t / 2 ^ 1074 = 2 ^ shift * (2 : ℚ) ^ e := by
    rw [div_eq_iff smallest_pos.ne', ← zpow_natCast, ← zpow_natCast, ← zpow_natCast,
      ← zpow_add₀ (by norm_num), ← zpow_add₀ (by norm_num)]
    congr 1
    push_cast
    omega
  have hvalue : ∀ k, k ≤ 2 ^ 53 → (t = 0 ∨ 2 ^ 52 ≤ k) →
      value (t * 2 ^ 52 + k) = k * (2 ^ shift * (2 : ℚ) ^ e) := by
    intro k hk hkn
    rw [value, units_at hk hkn, ← hscale, Nat.cast_mul, Nat.cast_pow, Nat.cast_ofNat, mul_div_assoc]
  have hb := hvalue keep hkeep.le hnorm
  have hb1 := hvalue (keep + 1) hkeep (by omega)
  rw [← Nat.add_assoc, Nat.cast_succ] at hb1
  have hhalf : (2 : ℚ) ^ shift = 2 * ((2 ^ (shift - 1) : Nat) : ℚ) := by
    rw [Nat.cast_pow, Nat.cast_ofNat, ← pow_succ']
    congr 1
    omega
  have heven : Even (t * 2 ^ 52 + keep) ↔ Even keep := by
    have hpow : Even (t * 2 ^ 52) := by
      rw [Nat.even_mul]
      right
      decide
    rw [Nat.even_add, iff_true_left hpow]
  have hlast : t * 2 ^ 52 + keep < JN_INF := by
    have : JN_INF = 2047 * 2 ^ 52 := rfl
    omega
  have hw : (0 : ℚ) < 2 ^ e := by positivity
  generalize (2 : ℚ) ^ e = w at *
  have hup := @past_half rest (2 ^ (shift - 1)) w (v - hi * w) (sticky = true) (¬ Even keep) hw
    (sub_nonneg.mpr hlow) (by linarith) (hsticky.trans sub_pos.symm)
  have hgap : value (t * 2 ^ 52 + keep + 1) - value (t * 2 ^ 52 + keep)
      = 2 * ((2 ^ (shift - 1) : Nat) : ℚ) * w := by
    rw [hb1, hb, hhalf]
    ring
  have hrest : v = value (t * 2 ^ 52 + keep) + (rest * w + (v - hi * w)) := by
    rw [hb, hsplit]
    ring
  have hinside : value (t * 2 ^ 52 + keep) + (rest * w + (v - hi * w))
      < value (t * 2 ^ 52 + keep + 1) := by
    rw [← hrest]
    calc v < (hi + 1) * w := hhigh
      _ = keep * (2 ^ shift * w) + (rest + 1) * w := by
          rw [hsplit]
          ring
      _ ≤ keep * (2 ^ shift * w) + 2 ^ shift * w := by gcongr
      _ = value (t * 2 ^ 52 + keep + 1) := by
          rw [hb1]
          ring
  have hnonneg : 0 ≤ rest * w + (v - hi * w) :=
    add_nonneg (mul_nonneg (Nat.cast_nonneg _) hw.le) (sub_nonneg.mpr hlow)
  rw [← hgap, ← heven] at hup
  have hnearest := nearest_of_rest value_strictMono hlast hrest hnonneg hinside
    (rest > 2 ^ (shift - 1) ∨ rest = 2 ^ (shift - 1) ∧ (sticky = true ∨ ¬ Even keep)) (by rwa [← heven])
  split at hnearest
  · next h => rwa [if_pos h]
  · next h =>
    rw [if_neg h, Nat.add_zero]
    exact hnearest

/-! ## Whole numbers as doubles -/

theorem doubleOf_eq {v : Nat} (hpos : 0 < v) (hk : v * 2 ^ 52 = 2 ^ v.log2 * k) :
    doubleOf v = (v.log2 + 1022) * 2 ^ 52 + k ∧ 2 ^ 52 ≤ k ∧ k < 2 ^ 53 := by
  have hlow := Nat.log2_self_le hpos.ne'
  have hhigh := Nat.lt_log2_self (n := v)
  rw [doubleOf, if_neg hpos.ne']
  generalize v.log2 = top at *
  have hP : 0 < 2 ^ top := by positivity
  have hk52 : 2 ^ 52 ≤ k := by
    apply Nat.le_of_mul_le_mul_left _ hP
    rw [← hk]
    exact Nat.mul_le_mul_right _ hlow
  have hk53 : k < 2 ^ 53 := by
    apply Nat.lt_of_mul_lt_mul_left (a := 2 ^ top)
    rw [← hk]
    calc v * 2 ^ 52 < 2 ^ (top + 1) * 2 ^ 52 := Nat.mul_lt_mul_of_pos_right hhigh (by norm_num)
      _ = 2 ^ top * 2 ^ 53 := by ring
  have hmask : k &&& 0xFFFFFFFFFFFFF = k - 2 ^ 52 := by
    have hmod := Nat.and_two_pow_sub_one_eq_mod k 52
    norm_num at hmod
    rw [hmod]
    omega
  have hsum : (top + 1023) * 2 ^ 52 + (k - 2 ^ 52) = (top + 1022) * 2 ^ 52 + k := by
    rw [Nat.succ_mul, Nat.add_assoc, Nat.add_sub_of_le hk52]
  refine ⟨?_, hk52, hk53⟩
  rw [Nat.shiftLeft_eq v, Nat.shiftRight_eq_div_pow, hk, Nat.mul_div_cancel_left _ hP, hmask,
    ← Nat.shiftLeft_add_eq_or_of_lt (by omega), Nat.shiftLeft_eq, hsum]

theorem value_doubleOf {v : Nat} (hfit : 2 ^ v.log2 ∣ v * 2 ^ 52) : value (doubleOf v) = v := by
  rcases Nat.eq_zero_or_pos v with rfl | hpos
  · exact value_zero
  obtain ⟨k, hk⟩ := hfit
  obtain ⟨hdouble, hk52, hk53⟩ := doubleOf_eq hpos hk
  have hunits : units (doubleOf v) = v * 2 ^ 1074 := by
    calc units (doubleOf v) = k * 2 ^ (v.log2 + 1022) := by
          rw [hdouble]
          exact units_at hk53.le (Or.inr hk52)
      _ = 2 ^ v.log2 * k * 2 ^ 1022 := by rw [pow_add, ← Nat.mul_assoc, Nat.mul_comm k]
      _ = v * 2 ^ 1074 := by rw [← hk, Nat.mul_assoc, ← pow_add]
  rw [value, hunits, Nat.cast_mul, Nat.cast_pow, Nat.cast_ofNat]
  exact mul_div_cancel_right₀ _ smallest_pos.ne'

theorem value_small {v : Nat} (h : v < 2 ^ 53) : value (doubleOf v) = v := by
  apply value_doubleOf
  have htop : v.log2 ≤ 52 := by
    rcases Nat.eq_zero_or_pos v with rfl | hpos
    · simp
    · exact Nat.lt_succ_iff.mp ((Nat.log2_lt hpos.ne').mpr h)
  exact Dvd.dvd.mul_left (pow_dvd_pow 2 htop) v

theorem value_pow10 (h : k ≤ 22) : value (JN_POW10 k) = 10 ^ k := by
  have hfit : ∀ k < 23, 2 ^ (10 ^ k).log2 ∣ 10 ^ k * 2 ^ 52 := by decide
  rw [JN_POW10, value_doubleOf (hfit k (by omega)), Nat.cast_pow, Nat.cast_ofNat]

theorem lt_inf_iff {b : Nat} : b < JN_INF ↔ value b < 2 ^ 1024 := by
  rw [← value_inf, value_strictMono.lt_iff_lt]

theorem JN_POW10_lt (h : k ≤ 22) : JN_POW10 k < JN_INF := by
  rw [lt_inf_iff, value_pow10 h]
  calc (10 : ℚ) ^ k ≤ 10 ^ 22 := pow_le_pow_right₀ (by norm_num) h
    _ < 2 ^ 74 := by norm_num
    _ ≤ 2 ^ 1024 := pow_le_pow_right₀ (by norm_num) (by norm_num)

theorem JN_POW10_pos (h : k ≤ 22) : 0 < JN_POW10 k := by
  rw [← value_strictMono.lt_iff_lt, value_zero, value_pow10 h]
  positivity

theorem doubleOf_lt {v : Nat} (h : v < 2 ^ 53) : doubleOf v < JN_INF := by
  have hv : (v : ℚ) < 2 ^ 53 := by exact_mod_cast h
  rw [lt_inf_iff, value_small h]
  exact hv.trans_le (pow_le_pow_right₀ (by norm_num) (by norm_num))

end Zelr.Js
