import Zelr.Js.Double
import Zelr.Js.Work

/-!
# Reading a decimal

What `jn_from_digits` returns is the double nearest to what the digits write, and no work number runs
out of room on the way.
-/

namespace Zelr.Js

open Ladder

variable {w : Work} {p m : Nat} {s : ℤ}

/-- The powers of ten that the doubles and the decimals halfway between them stay under. -/
theorem ten_bounds : 2 ^ 1024 ≤ 10 ^ 310 ∧ 2 ^ 1075 ≤ 10 ^ 325 ∧ 2 ^ 53 * 5 ^ 1074 ≤ 10 ^ 779 := by
  decide +kernel

/-! ## The long division -/

/-- After so many turns: what the quotient has so far, what is left, and the divisor as far down. -/
structure Work.After (w : Work) (d p k : Nat) : Prop where
  quotient : ∃ q r, w.Q.Holds q ∧ w.D.Holds r ∧ d = q * (p * 2 ^ (69 - k)) + r ∧ r < p * 2 ^ (69 - k)
  divisor : w.P.Holds (p * 2 ^ 68 / 2 ^ k)

variable {d k hi n i : Nat} {D P : Jbig} {e exp10 : ℤ} {more sticky : Bool} {v : ℚ} {dg : Bytes} {fpu : Fpu}

theorem divTurn_after (hw : w.After d p k) (hk : k < 69) (hd : d < p * 2 ^ 69) :
    (divTurn w).After d p (k + 1) := by
  obtain ⟨q, r, hQ, hD, hsum, hlt⟩ := hw.quotient
  have he : p * 2 ^ 68 / 2 ^ k = p * 2 ^ (68 - k) := by
    rw [show 68 = 68 - k + k by omega, pow_add, ← mul_assoc, Nat.mul_div_cancel _ (by positivity)]
    congr 2
    omega
  have hdouble : p * 2 ^ (69 - k) = 2 * (p * 2 ^ (68 - k)) := by
    rw [show 69 - k = 68 - k + 1 by omega, pow_succ]
    ring
  have hnext : 69 - (k + 1) = 68 - k := by omega
  have hP := hw.divisor
  have hhalf := jbShr1_holds hP
  rw [Nat.div_div_eq_div_mul, ← pow_succ] at hhalf
  rw [he] at hP
  have hq : q < 2 ^ 69 := by
    apply Nat.lt_of_mul_lt_mul_right (a := p)
    calc q * p ≤ q * (p * 2 ^ (69 - k)) :=
          Nat.mul_le_mul_left q (Nat.le_mul_of_pos_right p (by positivity))
      _ ≤ d := hsum ▸ Nat.le_add_right _ _
      _ < 2 ^ 69 * p := by rwa [mul_comm]
  have hroom : (2 : Nat) ^ 70 < 2 ^ (32 * (JN_LIMBS - 2)) :=
    Nat.pow_lt_pow_right (by norm_num) (by decide)
  have hroom' : (2 : Nat) ^ 70 < 2 ^ (32 * JN_LIMBS) :=
    Nat.pow_lt_pow_right (by norm_num) (by decide)
  have hshift := jbShl_holds hQ (s := 1) (by omega)
  rw [pow_one] at hshift
  rw [hdouble] at hsum hlt
  obtain ⟨e, heq⟩ : ∃ e, p * 2 ^ (68 - k) = e := ⟨_, rfl⟩
  rw [heq] at hP hsum hlt
  unfold divTurn
  simp only [jbCmp_eq hD hP]
  split
  · next hge =>
    rw [ne_eq, compare_lt_iff_lt, not_lt] at hge
    have hadd := jbAdd_holds hshift (x := 1) (by rw [UInt32.toNat_one]; omega)
    refine ⟨⟨q * 2 + 1, r - e, hadd, jbSub_holds hD hP hge, ?_, ?_⟩, hhalf⟩
    · rw [hnext, heq, hsum, Nat.add_mul (q * 2), Nat.add_assoc, one_mul, Nat.add_sub_of_le hge, mul_assoc]
    · rw [hnext, heq]
      omega
  · next hless =>
    rw [ne_eq, not_not, compare_lt_iff_lt] at hless
    refine ⟨⟨q * 2, r, hshift, hD, ?_, ?_⟩, hhalf⟩
    · rw [hnext, heq, hsum, mul_assoc]
    · rwa [hnext, heq]

theorem divTurns (hD : D.Holds d) (hP : P.Holds (p * 2 ^ 68))
    (hd : d < p * 2 ^ 69) : ((divTurn^[69] ⟨D, P, jbSet 0⟩).After d p 69) := by
  have hturns : ∀ k ≤ 69, (divTurn^[k] ⟨D, P, jbSet 0⟩).After d p k := by
    intro k hk
    induction k with
    | zero =>
      refine ⟨⟨0, d, jbSet_holds (by norm_num), hD, ?_, hd⟩, ?_⟩
      · rw [zero_mul, zero_add]
      · rwa [pow_zero, Nat.div_one]
    | succ k ih =>
      rw [Function.iterate_succ_apply']
      exact divTurn_after (ih (Nat.le_of_succ_le hk)) hk hd
  exact hturns 69 le_rfl

/-! ## The word to round -/

/-- Sixty-four bits of `v`, and whether there is more of it below them. -/
structure Word (hi : Nat) (e : ℤ) (more : Bool) (v : ℚ) : Prop where
  top : 2 ^ 63 ≤ hi
  lt : hi < 2 ^ 64
  low : hi * (2 : ℚ) ^ e ≤ v
  high : v < (hi + 1) * (2 : ℚ) ^ e
  more_iff : more = true ↔ hi * (2 : ℚ) ^ e < v

theorem Word.rounds (h : Word hi e more v) :
    NearestDouble v (jnRound hi e more) :=
  jnRound_nearest h.top h.lt h.low h.high h.more_iff

theorem word_of_top {b : Jbig} {n : Nat} (hb : b.Holds n) (hn : 0 < n) {E : ℤ} {more : Bool} {v : ℚ}
    (hlow : n * (2 : ℚ) ^ E ≤ v) (hhigh : v < (n + 1) * (2 : ℚ) ^ E)
    (hmore : more = true ↔ n * (2 : ℚ) ^ E < v) (hlen : 64 ≤ n.size ∨ more = false) :
    Word (jbTop b).1 (jbBits b - 64 + E) ((jbTop b).2 || more) v := by
  obtain ⟨hhi, hst⟩ := jbTop_eq hb
  have hsize : 0 < n.size := Nat.size_pos.mpr hn
  have hn1 : 2 ^ (n.size - 1) ≤ n := Nat.lt_size.mp (by omega)
  have hn2 := Nat.lt_size_self n
  have hP : 0 < 2 ^ n.size := by positivity
  rw [jbBits_eq hb]
  -- the word's last place, against the number's
  have hscale : (2 : ℚ) ^ E * 2 ^ n.size = 2 ^ ((n.size : ℤ) - 64 + E) * 2 ^ 64 := by
    rw [← zpow_natCast, ← zpow_natCast, ← zpow_add₀ (by norm_num), ← zpow_add₀ (by norm_num)]
    congr 1
    push_cast
    ring
  have hw : (0 : ℚ) < 2 ^ ((n.size : ℤ) - 64 + E) := by positivity
  have hPq : (0 : ℚ) < 2 ^ n.size := by positivity
  obtain ⟨w, hweq⟩ : ∃ w, (2 : ℚ) ^ ((n.size : ℤ) - 64 + E) = w := ⟨_, rfl⟩
  rw [hweq] at hscale hw
  have hdiv := Nat.div_add_mod (n * 2 ^ 64) (2 ^ n.size)
  have hmod := Nat.mod_lt (n * 2 ^ 64) hP
  rw [← hhi] at hdiv
  have htop : 2 ^ 63 ≤ (jbTop b).1 := by
    rw [hhi, Nat.le_div_iff_mul_le hP]
    calc 2 ^ 63 * 2 ^ n.size = 2 ^ (n.size - 1) * 2 ^ 64 := by
          rw [← pow_add, ← pow_add]
          congr 1
          omega
      _ ≤ n * 2 ^ 64 := Nat.mul_le_mul_right _ hn1
  have hlt : (jbTop b).1 < 2 ^ 64 := by
    rw [hhi, Nat.div_lt_iff_lt_mul hP, mul_comm]
    exact Nat.mul_lt_mul_of_pos_left hn2 (by norm_num)
  have hnext : 64 ≤ n.size → (n + 1) * 2 ^ 64 ≤ ((jbTop b).1 + 1) * 2 ^ n.size := by
    intro hlong
    have hpow : 2 ^ n.size = 2 ^ (n.size - 64) * 2 ^ 64 := by rw [← pow_add, Nat.sub_add_cancel hlong]
    have hlt : n * 2 ^ 64 < ((jbTop b).1 + 1) * 2 ^ n.size := by
      rw [Nat.succ_mul, mul_comm _ (2 ^ n.size)]
      omega
    rw [hpow, ← mul_assoc] at hlt ⊢
    exact Nat.mul_le_mul_right _ (Nat.lt_of_mul_lt_mul_right hlt)
  generalize (jbTop b).1 = hi at *
  generalize n * 2 ^ 64 % 2 ^ n.size = low at *
  have hsum : n * (2 : ℚ) ^ E = hi * w + low * w / 2 ^ n.size := by
    have hcast : (2 : ℚ) ^ n.size * hi + low = n * 2 ^ 64 := by exact_mod_cast hdiv
    rw [eq_comm, ← sub_eq_zero]
    have : (n : ℚ) * 2 ^ E = n * (w * 2 ^ 64) / 2 ^ n.size := by
      rw [← hscale, ← mul_assoc, mul_div_cancel_right₀ _ hPq.ne']
    rw [this]
    field_simp
    linear_combination w * hcast
  have hlowq : (low : ℚ) < 2 ^ n.size := by exact_mod_cast hmod
  have hpart : low * w / 2 ^ n.size < w := by
    rw [div_lt_iff₀ hPq, mul_comm]
    exact mul_lt_mul_of_pos_left hlowq hw
  have hpart0 : 0 ≤ low * w / 2 ^ n.size := by positivity
  refine ⟨htop, hlt, ?_, ?_, ?_⟩ <;> rw [hweq]
  · linarith
  · rcases hlen with hlong | hnone
    · have hcast : ((n : ℚ) + 1) * 2 ^ 64 ≤ (hi + 1) * 2 ^ n.size := by exact_mod_cast hnext hlong
      have hle : ((n : ℚ) + 1) * 2 ^ E ≤ (hi + 1) * w := by
        have h2E : (2 : ℚ) ^ E = w * 2 ^ 64 / 2 ^ n.size := by
          rw [← hscale, mul_div_cancel_right₀ _ hPq.ne']
        rw [h2E, ← mul_div_assoc, div_le_iff₀ hPq]
        nlinarith
      exact hhigh.trans_le hle
    · have hle : v ≤ n * (2 : ℚ) ^ E := by
        rw [← not_lt, ← hmore]
        simp [hnone]
      linarith
  · have hzero : low * w / 2 ^ n.size = 0 ↔ low = 0 := by
      rw [div_eq_zero_iff, mul_eq_zero, Nat.cast_eq_zero]
      constructor
      · rintro ((h | h) | h)
        · exact h
        · exact absurd h hw.ne'
        · exact absurd h hPq.ne'
      · intro h
        exact Or.inl (Or.inl h)
    rw [Bool.or_eq_true, hst, hmore]
    constructor
    · rintro (h | h)
      · have hpos := lt_of_le_of_ne hpart0 (Ne.symm (mt hzero.mp h))
        linarith
      · linarith
    · intro h
      by_cases hlow0 : low = 0
      · right
        rw [hsum, hzero.mpr hlow0]
        linarith
      · exact Or.inl hlow0

/-! ## What the digits write -/

/-- The value of the digits, the last of them worth ten to the `exp10`. With `sticky` it is more, by less
than one in the last of the places that are kept. -/
def Writes (dg : Bytes) (exp10 : ℤ) (sticky : Bool) (v : ℚ) : Prop :=
  if sticky then
    digitsNum dg * (10 : ℚ) ^ exp10 < v ∧
      v < digitsNum dg * (10 : ℚ) ^ exp10 + 10 ^ (exp10 + dg.length - JN_DIGITS)
  else v = digitsNum dg * (10 : ℚ) ^ exp10

/-- The processor's multiplication and division round to the nearest double. -/
structure Fpu.Rounds (fpu : Fpu) : Prop where
  mul : ∀ a b, a < JN_INF → b < JN_INF → NearestDouble (value a * value b) (fpu.mul a b)
  div : ∀ a b, a < JN_INF → b < JN_INF → 0 < b → NearestDouble (value a / value b) (fpu.div a b)

theorem le_digitsNum (hdigits : ∀ c ∈ dg, IsDigit c) (hlead : dg.head? ≠ some '0'.toUInt8)
    (hne : dg ≠ []) : 10 ^ (dg.length - 1) ≤ digitsNum dg := by
  cases dg with
  | nil => exact absurd rfl hne
  | cons c dg =>
    have hc := (hdigits c (by simp)).1
    have hzero : c.toNat ≠ 48 := by
      intro h
      apply hlead
      rw [List.head?_cons, Option.some_inj]
      exact UInt8.toNat_inj.mp h
    have hone : digitsNum [c] = c.toNat - 48 := by simp [digitsNum]
    have hpos : 1 ≤ c.toNat - 48 := by
      have : '0'.toNat = 48 := rfl
      omega
    have happend := digitsNum_append [c] dg
    rw [List.singleton_append, hone] at happend
    rw [happend, List.length_cons, Nat.add_sub_cancel]
    exact (Nat.le_mul_of_pos_left _ hpos).trans (Nat.le_add_right _ _)

theorem digitsNum_zeros (h : ∀ c ∈ dg, c = '0'.toUInt8) : digitsNum dg = 0 := by
  induction dg using List.reverseRecOn with
  | nil => rfl
  | append_singleton dg c ih =>
    have hc : digitsNum [c] = 0 := by
      rw [h c (by simp)]
      rfl
    rw [digitsNum_append, ih fun c' hc' => h c' (by simp [hc']), hc, zero_mul]

theorem kept_digits (dg : Bytes) :
    ∃ zeros : Bytes, dg = dg.rdropWhile (· = '0'.toUInt8) ++ zeros ∧ ∀ c ∈ zeros, c = '0'.toUInt8 := by
  refine ⟨dg.rtakeWhile (· = '0'.toUInt8), List.rdropWhile_append_rtakeWhile.symm, ?_⟩
  intro c hc
  simpa using List.mem_rtakeWhile_imp hc

/-! ## No double's border within a place -/

theorem cut_avoids (hn : 10 ^ 779 ≤ n) (a : Nat) :
    cut value a ≤ n / 10 ^ k ∨ (n + 1) / 10 ^ k ≤ cut value a := by
  obtain ⟨t, m, ha, ht, hm, hnorm⟩ := exists_units a
  have hunits : 2 * units a + 2 ^ (a / 2 ^ 52 - 1) = (2 * m + 1) * 2 ^ t := by
    rw [← ht, ha, units_at hm.le hnorm]
    ring
  have hten : (0 : ℚ) < 10 ^ k := by positivity
  have htwo : (0 : ℚ) < 2 ^ 1075 := pow_pos (by norm_num) 1075
  have hfive : 2 ^ t * 10 ^ k = 2 ^ (k + t) * 5 ^ k := by
    rw [show 10 = 2 * 5 from rfl, mul_pow, ← mul_assoc, ← pow_add, add_comm t k]
  rw [cut_units, hunits, le_div_iff₀ hten, div_le_iff₀ hten, div_mul_eq_mul_div, div_le_iff₀ htwo,
    le_div_iff₀ htwo]
  have hcast : (((2 * m + 1) * 2 ^ t : Nat) : ℚ) * 10 ^ k = ((2 * m + 1) * (2 ^ (k + t) * 5 ^ k) : Nat) := by
    rw [← hfive, ← mul_assoc, Nat.cast_mul _ (10 ^ k), Nat.cast_pow, Nat.cast_ofNat]
  rw [hcast]
  rcases le_or_gt 1075 (k + t) with hfine | hcoarse
  · -- a whole number of the decimal's places
    have hpow : (2 * m + 1) * (2 ^ (k + t) * 5 ^ k) = (2 * m + 1) * (2 ^ (k + t - 1075) * 5 ^ k) * 2 ^ 1075 := by
      conv_lhs => rw [← Nat.sub_add_cancel hfine, pow_add]
      generalize 2 ^ 1075 = two
      ring
    rw [hpow, Nat.cast_mul _ (2 ^ 1075), Nat.cast_pow 2 1075, Nat.cast_ofNat]
    rcases le_or_gt ((2 * m + 1) * (2 ^ (k + t - 1075) * 5 ^ k)) n with h | h
    · left
      exact mul_le_mul_of_nonneg_right (by exact_mod_cast h) htwo.le
    · right
      exact mul_le_mul_of_nonneg_right (by exact_mod_cast h) htwo.le
  · -- too small to reach the decimal's digits
    left
    have hle : (2 * m + 1) * (2 ^ (k + t) * 5 ^ k) ≤ n * 2 ^ 1075 := by
      have hm54 : 2 * m + 1 ≤ 2 ^ 54 := by omega
      have hk : k ≤ 1074 := by omega
      have htwos : 2 ^ (k + t) ≤ 2 ^ 1074 := pow_le_pow_right₀ (by norm_num) (by omega)
      have hfives : 5 ^ k ≤ 5 ^ 1074 := pow_le_pow_right₀ (by norm_num) hk
      have hbound : 2 ^ 53 * 5 ^ 1074 ≤ 10 ^ 779 := ten_bounds.2.2
      calc (2 * m + 1) * (2 ^ (k + t) * 5 ^ k) ≤ 2 ^ 54 * (2 ^ 1074 * 5 ^ 1074) :=
            Nat.mul_le_mul hm54 (Nat.mul_le_mul htwos hfives)
        _ = 2 ^ 53 * 5 ^ 1074 * 2 ^ 1075 := by
            rw [pow_succ 2 1074, pow_succ 2 53]
            generalize 2 ^ 1074 = two
            generalize 5 ^ 1074 = five
            ring
        _ ≤ n * 2 ^ 1075 := Nat.mul_le_mul_right _ (hbound.trans hn)
    calc (((2 * m + 1) * (2 ^ (k + t) * 5 ^ k) : Nat) : ℚ) ≤ (n * 2 ^ 1075 : Nat) := by exact_mod_cast hle
      _ = n * 2 ^ 1075 := by rw [Nat.cast_mul, Nat.cast_pow, Nat.cast_ofNat]

/-! ## The two ways to the word -/

theorem word_up (hD : D.Holds n) (hn : 0 < n) :
    Word (jbTop D).1 (jbBits D - 64) (jbTop D).2 n := by
  have hword := @word_of_top D n hD hn 0 false n (by simp) (by simp) (by simp)
    (Or.inr rfl)
  rwa [Bool.or_false, add_zero] at hword

theorem room_of_lt {x : Nat} (hx : x < 2 ^ i) (hi : i ≤ 4000) : x < 2 ^ (32 * (JN_LIMBS - 2)) := by
  apply hx.trans_le (Nat.pow_le_pow_right (by norm_num) _)
  rw [JN_LIMBS]
  omega

/-- The divisor and the dividend brought to where the quotient has sixty-six or sixty-seven bits. -/
theorem brought (hD : D.Holds n) (hP : P.Holds m) (hn : 0 < n) (hm : 0 < m)
    (hnroom : n.size ≤ 3900) (hmroom : m.size ≤ 3900) (hs : s = jbBits P - jbBits D + 66) :
    ∃ d p, (if 0 ≤ s then jbShl D s.toNat else D).Holds d ∧
      (jbShl (if 0 ≤ s then P else jbShl P (-s).toNat) 68).Holds (p * 2 ^ 68) ∧
      0 < p ∧ p * 2 ^ 65 ≤ d ∧ d < p * 2 ^ 67 ∧ (n : ℚ) / m = d / p * 2 ^ (-s) := by
  rw [jbBits_eq hD, jbBits_eq hP] at hs
  have hnsize : 0 < n.size := Nat.size_pos.mpr hn
  have hmsize : 0 < m.size := Nat.size_pos.mpr hm
  have hn1 : 2 ^ (n.size - 1) ≤ n := Nat.lt_size.mp (by omega)
  have hm1 : 2 ^ (m.size - 1) ≤ m := Nat.lt_size.mp (by omega)
  have hn2 := Nat.lt_size_self n
  have hm2 := Nat.lt_size_self m
  have hmq : (m : ℚ) ≠ 0 := Nat.cast_ne_zero.mpr hm.ne'
  split
  · next hpos =>
    obtain ⟨u, rfl⟩ : ∃ u : Nat, s = u := ⟨s.toNat, by omega⟩
    have hup : n * 2 ^ u < 2 ^ (m.size + 66) := by
      calc n * 2 ^ u < 2 ^ n.size * 2 ^ u := Nat.mul_lt_mul_of_pos_right hn2 (by positivity)
        _ = 2 ^ (m.size + 66) := by
            rw [← pow_add]
            congr 1
            omega
    have hdown : 2 ^ (m.size + 65) ≤ n * 2 ^ u := by
      calc 2 ^ (m.size + 65) = 2 ^ (n.size - 1) * 2 ^ u := by
            rw [← pow_add]
            congr 1
            omega
        _ ≤ n * 2 ^ u := Nat.mul_le_mul_right _ hn1
    have hfar : m * 2 ^ 68 < 2 ^ (m.size + 68) := by
      rw [pow_add]
      exact (Nat.mul_lt_mul_right (by norm_num)).mpr hm2
    have hD' := jbShl_holds hD (room_of_lt hup (by omega))
    refine ⟨n * 2 ^ u, m, hD', jbShl_holds hP (room_of_lt hfar (by omega)), hm, ?_, ?_, ?_⟩
    · calc m * 2 ^ 65 ≤ 2 ^ m.size * 2 ^ 65 := Nat.mul_le_mul_right _ hm2.le
        _ = 2 ^ (m.size + 65) := (pow_add 2 m.size 65).symm
        _ ≤ n * 2 ^ u := hdown
    · calc n * 2 ^ u < 2 ^ (m.size + 66) := hup
        _ = 2 ^ (m.size - 1) * 2 ^ 67 := by
            rw [← pow_add]
            congr 1
            omega
        _ ≤ m * 2 ^ 67 := Nat.mul_le_mul_right _ hm1
    · rw [zpow_neg, zpow_natCast, Nat.cast_mul, Nat.cast_pow, Nat.cast_ofNat, div_mul_eq_mul_div,
        mul_inv_cancel_right₀ (pow_ne_zero u two_ne_zero)]
  · next hneg =>
    obtain ⟨u, hu⟩ : ∃ u : Nat, -s = u := ⟨(-s).toNat, by omega⟩
    have hup : m * 2 ^ u < 2 ^ (n.size - 66) := by
      calc m * 2 ^ u < 2 ^ m.size * 2 ^ u := Nat.mul_lt_mul_of_pos_right hm2 (by positivity)
        _ = 2 ^ (n.size - 66) := by
            rw [← pow_add]
            congr 1
            omega
    have hdown : 2 ^ (n.size - 67) ≤ m * 2 ^ u := by
      calc 2 ^ (n.size - 67) = 2 ^ (m.size - 1) * 2 ^ u := by
            rw [← pow_add]
            congr 1
            omega
        _ ≤ m * 2 ^ u := Nat.mul_le_mul_right _ hm1
    have hfar : m * 2 ^ u * 2 ^ 68 < 2 ^ (n.size - 66 + 68) := by
      rw [pow_add]
      exact Nat.mul_lt_mul_of_pos_right hup (by norm_num)
    have hP' := jbShl_holds hP (room_of_lt hup (by omega))
    rw [hu, Int.toNat_natCast]
    refine ⟨n, m * 2 ^ u, hD, jbShl_holds hP' (room_of_lt hfar (by omega)), by positivity, ?_, ?_, ?_⟩
    · calc m * 2 ^ u * 2 ^ 65 ≤ 2 ^ (n.size - 66) * 2 ^ 65 := Nat.mul_le_mul_right _ hup.le
        _ = 2 ^ (n.size - 1) := by
            rw [← pow_add]
            congr 1
            omega
        _ ≤ n := hn1
    · calc n < 2 ^ n.size := hn2
        _ = 2 ^ (n.size - 67) * 2 ^ 67 := by
            rw [← pow_add]
            congr 1
            omega
        _ ≤ m * 2 ^ u * 2 ^ 67 := Nat.mul_le_mul_right _ hdown
    · rw [zpow_natCast, Nat.cast_mul, Nat.cast_pow, Nat.cast_ofNat, div_mul_eq_mul_div,
        mul_div_mul_right _ _ (pow_ne_zero u two_ne_zero)]

theorem word_down (hD : D.Holds n) (hP : P.Holds m) (hn : 0 < n) (hm : 0 < m)
    (hnroom : n.size ≤ 3900) (hmroom : m.size ≤ 3900) (hs : s = jbBits P - jbBits D + 66)
    (hw : w = divTurn^[69] ⟨if 0 ≤ s then jbShl D s.toNat else D,
      jbShl (if 0 ≤ s then P else jbShl P (-s).toNat) 68, jbSet 0⟩) :
    (w.D.lost || w.P.lost || w.Q.lost) = false ∧
      Word (jbTop w.Q).1 (jbBits w.Q - 64 - s) ((jbTop w.Q).2 || w.D.w ≠ []) (n / m) := by
  obtain ⟨d, p, hd, hp, hpos, hlow, hhigh, hratio⟩ := brought hD hP hn hm hnroom hmroom hs
  have hafter := divTurns hd hp (hhigh.trans_le (Nat.mul_le_mul_left p (by norm_num)))
  rw [← hw] at hafter
  obtain ⟨q, r, hQ, hR, hsum, hlt⟩ := hafter.quotient
  rw [Nat.sub_self, pow_zero, mul_one] at hsum hlt
  refine ⟨by rw [hR.kept, hQ.kept, hafter.divisor.kept]; rfl, ?_⟩
  have hq : 2 ^ 65 ≤ q := by
    have hlt : 2 ^ 65 * p < (q + 1) * p := by
      rw [Nat.succ_mul, mul_comm]
      omega
    exact Nat.le_of_lt_succ (Nat.lt_of_mul_lt_mul_right hlt)
  have hscale : (0 : ℚ) < 2 ^ (-s) := by positivity
  have hpq : (0 : ℚ) < p := Nat.cast_pos.mpr hpos
  have hdiv : (d : ℚ) / p = q + r / p := by
    rw [hsum, Nat.cast_add, Nat.cast_mul, add_div, mul_div_cancel_right₀ _ hpq.ne']
  have hr0 : (0 : ℚ) ≤ r / p := by positivity
  have hr1 : (r : ℚ) / p < 1 := by
    rw [div_lt_one hpq]
    exact_mod_cast hlt
  rw [hratio, hdiv]
  have hlong : 64 ≤ q.size := by
    have := Nat.lt_size.mpr hq
    omega
  apply word_of_top hQ (by omega) _ _ _ (Or.inl hlong)
  · rw [add_mul]
    exact le_add_of_nonneg_right (mul_nonneg hr0 hscale.le)
  · rw [add_mul, add_mul]
    exact add_lt_add_right (mul_lt_mul_of_pos_right hr1 hscale) _
  · have hleft : w.D.w ≠ [] ↔ 0 < (r : ℚ) / p := by
      rw [ne_eq, hR.nil_iff, div_pos_iff_of_pos_right hpq, Nat.cast_pos, Nat.pos_iff_ne_zero]
    rw [decide_eq_true_eq, hleft, add_mul, lt_add_iff_pos_right, mul_pos_iff_of_pos_right hscale]

/-! ## What is returned -/

theorem in_places {n nd : Nat} {exp10 : ℤ} (hnd : nd ≤ 780) (htop : nd + exp10 ≤ 780) :
    n * (10 : ℚ) ^ exp10 = (n * 10 ^ (780 - nd) : Nat) / 10 ^ (780 - (nd + exp10)).toNat := by
  rw [eq_div_iff (by positivity), mul_assoc, ← zpow_natCast, ← zpow_add₀ (by norm_num), Nat.cast_mul,
    Nat.cast_pow, Nat.cast_ofNat, ← zpow_natCast]
  congr 2
  omega

theorem Word.rounds_above
    (h : Word hi e more (n / 10 ^ k)) (hn : 10 ^ 779 ≤ n) (hlow : n / 10 ^ k < v)
    (hhigh : v < (n + 1) / 10 ^ k) : NearestDouble v (jnRound hi e true) := by
  obtain ⟨y, hy, hyw⟩ := exists_between h.high
  have hmin : (n : ℚ) / 10 ^ k < min v y := lt_min hlow hy
  have hword : Word hi e true (min v y) := by
    refine ⟨h.top, h.lt, h.low.trans hmin.le, (min_le_right v y).trans_lt hyw, ?_⟩
    exact iff_of_true rfl (h.low.trans_lt hmin)
  refine hword.rounds.congr value_strictMono ?_
  intro a _
  rcases cut_avoids (k := k) hn a with hcut | hcut
  · exact ⟨iff_of_true (hcut.trans_lt hmin) (hcut.trans_lt hlow),
      iff_of_false (hcut.trans_lt hmin).not_gt (hcut.trans_lt hlow).not_gt⟩
  · have hv := hhigh.trans_le hcut
    have hy := (min_le_left v y).trans_lt hv
    exact ⟨iff_of_false hy.not_gt hv.not_gt, iff_of_true hy hv⟩

theorem Word.writes
    (h : Word hi e more (digitsNum dg * (10 : ℚ) ^ exp10)) (hlen : dg.length ≤ JN_DIGITS)
    (hlead : sticky = true → dg ≠ [] ∧ 10 ^ (dg.length - 1) ≤ digitsNum dg)
    (htop : dg.length + exp10 ≤ 310) (hv : Writes dg exp10 sticky v) :
    NearestDouble v (jnRound hi e (more || sticky)) := by
  cases sticky with
  | false =>
    rw [Writes, if_neg (by simp)] at hv
    rw [Bool.or_false, hv]
    exact h.rounds
  | true =>
    rw [Writes, if_pos rfl] at hv
    have hdigits : JN_DIGITS = 780 := rfl
    obtain ⟨hne, hlead⟩ := hlead rfl
    have hpos : 0 < dg.length := List.length_pos_iff.mpr hne
    have hn : 10 ^ 779 ≤ digitsNum dg * 10 ^ (780 - dg.length) := by
      calc 10 ^ 779 = 10 ^ (dg.length - 1) * 10 ^ (780 - dg.length) := by
            rw [← pow_add]
            congr 1
            omega
        _ ≤ digitsNum dg * 10 ^ (780 - dg.length) := Nat.mul_le_mul_right _ hlead
    have hplaces := @in_places (digitsNum dg) dg.length exp10 (hdigits ▸ hlen) (by omega)
    have hlast : (10 : ℚ) ^ (exp10 + dg.length - JN_DIGITS) = 1 / 10 ^ (780 - (dg.length + exp10)).toNat := by
      rw [eq_div_iff (by positivity), ← zpow_natCast, ← zpow_add₀ (by norm_num), ← zpow_zero (10 : ℚ)]
      congr 1
      omega
    rw [hplaces] at h hv
    rw [hlast, ← add_div] at hv
    rw [Bool.or_true]
    exact h.rounds_above hn hv.1 hv.2

theorem ten_pow_le {j : Nat} (h : i ≤ 3 * j) : 10 ^ i ≤ 2 ^ (10 * j) := by
  calc 10 ^ i ≤ 10 ^ (3 * j) := Nat.pow_le_pow_right (by norm_num) h
    _ = 1000 ^ j := by rw [pow_mul]; norm_num
    _ ≤ 1024 ^ j := Nat.pow_le_pow_left (by norm_num) j
    _ = 2 ^ (10 * j) := by rw [pow_mul]; norm_num

theorem ten_pow_lt (h : i ≤ 1104) : 10 ^ i < 2 ^ (32 * JN_LIMBS) := by
  calc 10 ^ i ≤ 2 ^ (10 * 368) := ten_pow_le h
    _ < 2 ^ (32 * JN_LIMBS) := Nat.pow_lt_pow_right (by norm_num) (by decide)

theorem size_le_of_lt (h : n < 10 ^ i) (hi : i ≤ 1105) : n.size ≤ 3900 := by
  have hsize : n.size ≤ 10 * 369 := Nat.size_le.mpr (h.trans_le (ten_pow_le (by omega)))
  omega

theorem Writes.le (hv : Writes dg exp10 sticky v) :
    digitsNum dg * (10 : ℚ) ^ exp10 ≤ v := by
  cases sticky with
  | false =>
    rw [Writes, if_neg (by simp)] at hv
    exact hv.ge
  | true =>
    rw [Writes, if_pos rfl] at hv
    exact hv.1.le

theorem Writes.lt (hv : Writes dg exp10 sticky v)
    (hlen : dg.length ≤ JN_DIGITS) : v < (digitsNum dg + 1) * (10 : ℚ) ^ exp10 := by
  have hpos : (0 : ℚ) < 10 ^ exp10 := by positivity
  rw [add_mul, one_mul]
  cases sticky with
  | false =>
    rw [Writes, if_neg (by simp)] at hv
    linarith
  | true =>
    rw [Writes, if_pos rfl] at hv
    have hle : (10 : ℚ) ^ (exp10 + dg.length - JN_DIGITS) ≤ 10 ^ exp10 :=
      zpow_le_zpow_right₀ (by norm_num) (by omega)
    linarith

theorem nearest_inf (h : 10 ^ (310 : ℤ) ≤ v) : NearestDouble v JN_INF := by
  apply nearest_last value_strictMono
  have hnat : 2 ^ 1024 ≤ 10 ^ 310 := ten_bounds.1
  have hq : (2 : ℚ) ^ 1024 ≤ 10 ^ 310 := by exact_mod_cast hnat
  rw [value_inf]
  exact hq.trans h

theorem nearest_small (h : v < 10 ^ (-325 : ℤ)) : NearestDouble v 0 := by
  apply nearest_zero_iff.mpr
  have hnat : 2 ^ 1075 ≤ 10 ^ 325 := ten_bounds.2.1
  have hq : (2 : ℚ) ^ 1075 ≤ 10 ^ 325 := by exact_mod_cast hnat
  have htwo : (0 : ℚ) < 2 ^ 1075 := pow_pos (by norm_num) 1075
  apply h.le.trans
  rw [zpow_neg, zpow_neg]
  exact inv_anti₀ htwo hq

/-- The digits that are kept, by the way the source takes. -/
theorem jnKept_rounds (hfpu : fpu.Rounds)
    (hdigits : ∀ c ∈ dg, IsDigit c) (hlen : dg.length ≤ JN_DIGITS) (hpos : dg ≠ [] → 0 < digitsNum dg)
    (hlead : sticky = true → dg ≠ [] ∧ 10 ^ (dg.length - 1) ≤ digitsNum dg)
    (hhuge : dg ≠ [] → 310 < dg.length + exp10 → 10 ^ (310 : ℤ) ≤ v) (hv : Writes dg exp10 sticky v) :
    NearestDouble v (jnKept fpu dg exp10 sticky).1 ∧ (jnKept fpu dg exp10 sticky).2 = false := by
  have hhigh := hv.lt hlen
  have hn := digitsNum_lt hdigits
  have hten : (0 : ℚ) < 10 ^ exp10 := by positivity
  simp only [jnKept]
  split
  · next hnone =>
    have hnil : dg = [] := List.length_eq_zero_iff.mp hnone
    have hexact : sticky = false := by
      rw [← Bool.not_eq_true]
      intro h
      exact (hlead h).1 hnil
    rw [Writes, if_neg (by simp [hexact]), hnil] at hv
    refine ⟨nearest_zero_iff.mpr ?_, rfl⟩
    rw [hv]
    simp [digitsNum]
  next hsome =>
  have hne : dg ≠ [] := fun h => hsome (List.length_eq_zero_iff.mpr h)
  have hpos := hpos hne
  split
  · next htop => exact ⟨nearest_inf (hhuge hne htop), rfl⟩
  next htop =>
  split
  · next hsmall =>
    refine ⟨nearest_small ?_, rfl⟩
    calc v < (digitsNum dg + 1) * (10 : ℚ) ^ exp10 := hhigh
      _ ≤ (10 ^ dg.length : Nat) * 10 ^ exp10 := mul_le_mul_of_nonneg_right (by exact_mod_cast hn) hten.le
      _ = 10 ^ (dg.length + exp10) := by
          rw [zpow_add₀ (by norm_num), zpow_natCast, Nat.cast_pow, Nat.cast_ofNat]
      _ ≤ 10 ^ (-325 : ℤ) := zpow_le_zpow_right₀ (by norm_num) (by omega)
  next hsmall =>
  split
  · next hfast =>
    refine ⟨?_, rfl⟩
    rw [Writes, if_neg (by simp [hfast.2.1])] at hv
    have h53 : digitsNum dg < 2 ^ 53 := by
      calc digitsNum dg < 10 ^ dg.length := hn
        _ ≤ 10 ^ 15 := Nat.pow_le_pow_right (by norm_num) hfast.1
        _ < 2 ^ 53 := by norm_num
    have hx := value_small h53
    have hxinf := doubleOf_lt h53
    split
    · next hup =>
      obtain ⟨k, rfl⟩ : ∃ k : Nat, exp10 = k := ⟨exp10.toNat, by omega⟩
      have hpow := value_pow10 (k := k) (by omega)
      have hmul := hfpu.mul _ _ hxinf (JN_POW10_lt (k := k) (by omega))
      rw [hx, hpow] at hmul
      rwa [hv, Int.toNat_natCast, zpow_natCast]
    · next hdown =>
      obtain ⟨k, hk⟩ : ∃ k : Nat, -exp10 = k := ⟨(-exp10).toNat, by omega⟩
      have hexp : exp10 = -(k : ℤ) := by omega
      have hpow := value_pow10 (k := k) (by omega)
      have hdiv := hfpu.div _ _ hxinf (JN_POW10_lt (k := k) (by omega)) (JN_POW10_pos (by omega))
      rw [hx, hpow] at hdiv
      rwa [hv, hk, hexp, Int.toNat_natCast, zpow_neg, zpow_natCast, ← div_eq_mul_inv]
  next hslow =>
  have h780 : dg.length ≤ 780 := hlen
  have hDroom : (0 + 1) * 10 ^ dg.length ≤ 2 ^ (32 * JN_LIMBS) := by
    rw [zero_add, one_mul]
    exact (ten_pow_lt (by omega)).le
  have hD := digitChunks_holds hdigits le_rfl (jbSet_holds (v := 0) (by norm_num)) hDroom
  rw [zero_mul, zero_add] at hD
  split
  · next hup =>
    obtain ⟨k, rfl⟩ : ∃ k : Nat, exp10 = k := ⟨exp10.toNat, by omega⟩
    rw [Int.toNat_natCast]
    have hroom : digitsNum dg * 10 ^ k < 2 ^ (32 * JN_LIMBS) := by
      calc digitsNum dg * 10 ^ k < 10 ^ dg.length * 10 ^ k := (Nat.mul_lt_mul_right (by positivity)).mpr hn
        _ = 10 ^ (dg.length + k) := (pow_add 10 dg.length k).symm
        _ < 2 ^ (32 * JN_LIMBS) := ten_pow_lt (by omega)
    have hD' := jbMulPow_holds hD (Or.inr rfl) hroom
    have hword := word_up hD' (by positivity)
    rw [Nat.cast_mul, Nat.cast_pow, Nat.cast_ofNat, ← zpow_natCast] at hword
    exact ⟨hword.writes hlen hlead (by omega) hv, hD'.kept⟩
  · next hdown =>
    obtain ⟨k, hk⟩ : ∃ k : Nat, -exp10 = k := ⟨(-exp10).toNat, by omega⟩
    have hexp : exp10 = -(k : ℤ) := by omega
    have hk1104 : k ≤ 1104 := by omega
    have hProom : 1 * 10 ^ k < 2 ^ (32 * JN_LIMBS) := by
      rw [one_mul]
      exact ten_pow_lt hk1104
    have hP := jbMulPow_holds (jbSet_holds (by norm_num)) (Or.inr rfl) hProom
    rw [one_mul] at hP
    have hnsize := size_le_of_lt hn (by omega)
    have hmsize : (10 ^ k).size ≤ 3900 :=
      size_le_of_lt (Nat.pow_lt_pow_succ (by norm_num)) (Nat.succ_le_succ hk1104)
    rw [hk, Int.toNat_natCast]
    generalize jbMulPow (jbSet 1) 10 k = P at *
    generalize digitChunks dg.length dg (jbSet 0) = D at *
    generalize hs : (jbBits P : ℤ) - jbBits D + 66 = s
    generalize hw : divTurn^[69] _ = w
    obtain ⟨hroom, hword⟩ := word_down hD hP hpos (by positivity) hnsize hmsize hs.symm hw.symm
    refine ⟨?_, hroom⟩
    rw [Nat.cast_pow, Nat.cast_ofNat, ← zpow_natCast, div_eq_mul_inv, ← zpow_neg, ← hexp] at hword
    rw [Bool.or_right_comm]
    exact hword.writes hlen hlead (by omega) hv

theorem writes_kept {kept zeros : Bytes}
    (hzeros : ∀ c ∈ zeros, c = '0'.toUInt8) :
    Writes (kept ++ zeros) exp10 sticky v ↔ Writes kept (exp10 + zeros.length) sticky v := by
  have hvalue : digitsNum (kept ++ zeros) * (10 : ℚ) ^ exp10
      = digitsNum kept * (10 : ℚ) ^ (exp10 + zeros.length) := by
    rw [digitsNum_append, digitsNum_zeros hzeros, add_zero, Nat.cast_mul, Nat.cast_pow, Nat.cast_ofNat,
      zpow_add₀ (by norm_num), zpow_natCast]
    ring
  have hplace : exp10 + (kept ++ zeros).length - JN_DIGITS = exp10 + zeros.length + kept.length - JN_DIGITS := by
    rw [List.length_append, Nat.cast_add]
    ring
  rw [Writes, Writes, hvalue, hplace]

theorem huge_of_lead (hv : Writes dg exp10 sticky v)
    (hne : dg ≠ []) (hlead : 10 ^ (dg.length - 1) ≤ digitsNum dg) (htop : 310 < dg.length + exp10) :
    10 ^ (310 : ℤ) ≤ v := by
  have hpos : 0 < dg.length := List.length_pos_iff.mpr hne
  have hten : (0 : ℚ) < 10 ^ exp10 := by positivity
  calc (10 : ℚ) ^ (310 : ℤ) ≤ 10 ^ ((dg.length - 1 : Nat) + exp10) :=
        zpow_le_zpow_right₀ (by norm_num) (by omega)
    _ = (10 ^ (dg.length - 1) : Nat) * 10 ^ exp10 := by
        rw [zpow_add₀ (by norm_num), zpow_natCast, Nat.cast_pow, Nat.cast_ofNat]
    _ ≤ digitsNum dg * 10 ^ exp10 := mul_le_mul_of_nonneg_right (by exact_mod_cast hlead) hten.le
    _ ≤ v := hv.le

theorem digitsNum_pos (hdigits : ∀ c ∈ dg, IsDigit c) (hne : dg ≠ [])
    (hlast : dg.getLast? ≠ some '0'.toUInt8) : 0 < digitsNum dg := by
  cases dg using List.reverseRecOn with
  | nil => exact absurd rfl hne
  | append_singleton dg c =>
    have hc := (hdigits c (by simp)).1
    have hzero : c.toNat ≠ 48 := by
      intro h
      apply hlast
      rw [List.getLast?_concat, Option.some_inj]
      exact UInt8.toNat_inj.mp h
    have hone : digitsNum [c] = c.toNat - 48 := by simp [digitsNum]
    have : '0'.toNat = 48 := rfl
    rw [digitsNum_append, hone]
    omega

theorem jnFromDigits_kept (dg : Bytes) :
    ∃ kept zeros : Bytes, dg = kept ++ zeros ∧ (∀ c ∈ zeros, c = '0'.toUInt8) ∧
      (kept ≠ [] → kept.getLast? ≠ some '0'.toUInt8) ∧ ∀ fpu exp10 sticky,
        jnFromDigits fpu dg exp10 sticky = jnKept fpu kept (exp10 + zeros.length) sticky := by
  obtain ⟨zeros, hsplit, hzeros⟩ := kept_digits dg
  refine ⟨dg.rdropWhile (· = '0'.toUInt8), zeros, hsplit, hzeros, ?_, ?_⟩
  · intro hne
    have hlast := List.rdropWhile_last_not (p := (· = '0'.toUInt8)) dg hne
    rw [List.getLast?_eq_getLast_of_ne_nil hne, ne_eq, Option.some_inj]
    simpa using hlast
  · intro fpu exp10 sticky
    have hcount : dg.length - (dg.rdropWhile (· = '0'.toUInt8)).length = zeros.length := by
      have hlen := congrArg List.length hsplit
      rw [List.length_append] at hlen
      omega
    rw [jnFromDigits]
    simp only [hcount]

theorem jnFromDigits_rounds (hfpu : fpu.Rounds)
    (hdigits : ∀ c ∈ dg, IsDigit c) (hlen : dg.length ≤ JN_DIGITS) (hlead : dg.head? ≠ some '0'.toUInt8)
    (hsticky : sticky = true → dg ≠ []) (hv : Writes dg exp10 sticky v) :
    NearestDouble v (jnFromDigits fpu dg exp10 sticky).1 ∧ (jnFromDigits fpu dg exp10 sticky).2 = false := by
  obtain ⟨kept, zeros, rfl, hzeros, -, heq⟩ := jnFromDigits_kept dg
  rw [writes_kept hzeros] at hv
  rw [List.length_append] at hlen
  have hkept : ∀ c ∈ kept, IsDigit c := fun c hc => hdigits c (List.mem_append_left _ hc)
  have hle : kept ≠ [] → 10 ^ (kept.length - 1) ≤ digitsNum kept := by
    intro hne
    apply le_digitsNum hkept _ hne
    rwa [List.head?_append_of_ne_nil _ hne] at hlead
  have hnone : sticky = true → kept ≠ [] := by
    rintro h rfl
    cases zeros with
    | nil => exact hsticky h rfl
    | cons c zeros =>
      apply hlead
      rw [List.nil_append, List.head?_cons, hzeros c (by simp)]
  rw [heq]
  apply jnKept_rounds hfpu hkept (by omega) _ _ _ hv
  · intro hne
    exact lt_of_lt_of_le (by positivity) (hle hne)
  · intro h
    exact ⟨hnone h, hle (hnone h)⟩
  · intro hne htop
    exact huge_of_lead hv hne (hle hne) htop

theorem nearest_of_read (hfpu : fpu.Rounds)
    (hdigits : ∀ c ∈ dg, IsDigit c) (hlen : dg.length ≤ JN_DIGITS) (hd : d < JN_INF)
    (hread : (jnFromDigits fpu dg exp10 false).1 = d) :
    NearestDouble (digitsNum dg * (10 : ℚ) ^ exp10) d := by
  have hv : Writes dg exp10 false (digitsNum dg * (10 : ℚ) ^ exp10) := by rw [Writes, if_neg (by simp)]
  generalize digitsNum dg * (10 : ℚ) ^ exp10 = v at hv ⊢
  obtain ⟨kept, zeros, rfl, hzeros, hlast, heq⟩ := jnFromDigits_kept dg
  rw [writes_kept hzeros] at hv
  rw [List.length_append] at hlen
  have hkept : ∀ c ∈ kept, IsDigit c := fun c hc => hdigits c (List.mem_append_left _ hc)
  rw [heq] at hread
  by_cases hfar : kept ≠ [] ∧ 310 < kept.length + (exp10 + zeros.length)
  · have hinf : (jnKept fpu kept (exp10 + zeros.length) false).1 = JN_INF := by
      rw [jnKept, if_neg (mt List.length_eq_zero_iff.mp hfar.1), if_pos hfar.2]
    omega
  · rw [← hread]
    refine (jnKept_rounds hfpu hkept (by omega) ?_ (by simp) ?_ hv).1
    · intro hne
      exact digitsNum_pos hkept hne (hlast hne)
    · intro hne htop
      exact absurd ⟨hne, htop⟩ hfar

/-- **Reading is right to the last bit.** What comes back is the double nearest to what the digits write, infinity from
halfway past the largest on; and nothing is dropped from a work number. -/
theorem decimal_rounded {fpu : Fpu} (hfpu : fpu.Rounds) {dg : Bytes} {exp10 : ℤ} {sticky : Bool} {v : ℚ}
    (hdigits : ∀ c ∈ dg, IsDigit c) (hlen : dg.length ≤ JN_DIGITS) (hlead : dg.head? ≠ some '0'.toUInt8)
    (hsticky : sticky = true → dg ≠ []) (hv : Writes dg exp10 sticky v) :
    (∀ b, NearestDouble v b ↔ b = (jnFromDigits fpu dg exp10 sticky).1) ∧
      ((jnFromDigits fpu dg exp10 sticky).1 = JN_INF ↔ 2 ^ 1024 - 2 ^ 970 ≤ v) ∧
      ((jnFromDigits fpu dg exp10 sticky).1 = 0 ↔ v ≤ (2 : ℚ) ^ (-1075 : ℤ)) ∧
      (jnFromDigits fpu dg exp10 sticky).2 = false := by
  obtain ⟨hnear, hroom⟩ := jnFromDigits_rounds hfpu hdigits hlen hlead hsticky hv
  have hiff : ∀ b, NearestDouble v b ↔ b = (jnFromDigits fpu dg exp10 sticky).1 := by
    intro b
    constructor
    · intro h
      exact h.unique value_strictMono hnear
    · rintro rfl
      exact hnear
  refine ⟨hiff, ?_, ?_, hroom⟩
  · rw [eq_comm, ← hiff, nearest_inf_iff]
  · rw [eq_comm, ← hiff, nearest_zero_iff]

def nearestFpu : Fpu where
  mul a b := rung value JN_INF (value a * value b)
  div a b := rung value JN_INF (value a / value b)

theorem nearestFpu_rounds : nearestFpu.Rounds where
  mul _ _ _ _ := nearest_rung value_strictMono _
  div _ _ _ _ _ := nearest_rung value_strictMono _

/-- Halfway between two doubles, and a digit far on tips it up. -/
def halfwayDigits : Bytes := "9007199254740993".toList.map Char.toUInt8

theorem decimal_rounded_sample :
    (jnFromDigits nearestFpu halfwayDigits 0 false).1 = 0x4340000000000000 ∧
      (jnFromDigits nearestFpu halfwayDigits 0 true).1 = 0x4340000000000001 ∧
      NearestDouble 9007199254740993 0x4340000000000000 ∧
      NearestDouble (9007199254740993 + 10 ^ (-764 : ℤ) / 2) 0x4340000000000001 := by
  have hdigits : ∀ c ∈ halfwayDigits, IsDigit c := by decide +kernel
  have hlen : halfwayDigits.length ≤ JN_DIGITS := by decide
  have hlead : halfwayDigits.head? ≠ some '0'.toUInt8 := by decide
  have hnum : digitsNum halfwayDigits = 9007199254740993 := by decide
  have hexact : Writes halfwayDigits 0 false 9007199254740993 := by
    rw [Writes, if_neg (by simp), hnum]
    norm_num
  have hmore : Writes halfwayDigits 0 true (9007199254740993 + 10 ^ (-764 : ℤ) / 2) := by
    have hplace : (0 : ℤ) + halfwayDigits.length - JN_DIGITS = -764 := by decide
    have hpos : (0 : ℚ) < 10 ^ (-764 : ℤ) := zpow_pos (by norm_num) _
    rw [Writes, if_pos rfl, hnum, hplace, zpow_zero, mul_one, Nat.cast_ofNat]
    exact ⟨lt_add_of_pos_right _ (half_pos hpos), add_lt_add_right (half_lt_self hpos) _⟩
  have hdown : (jnFromDigits nearestFpu halfwayDigits 0 false).1 = 0x4340000000000000 := by decide +kernel
  have hup : (jnFromDigits nearestFpu halfwayDigits 0 true).1 = 0x4340000000000001 := by decide +kernel
  refine ⟨hdown, hup, ?_, ?_⟩
  · rw [(decimal_rounded nearestFpu_rounds hdigits hlen hlead (by simp) hexact).1, hdown]
  · rw [(decimal_rounded nearestFpu_rounds hdigits hlen hlead (by decide) hmore).1, hup]

end Zelr.Js
