import Zelr.Js.Digits

/-!
# Writing a double

The digits `js_shortest` comes to are read back as the same double, no shorter ones are, and none of
that length are nearer.
-/

namespace Zelr.Js

open Ladder

variable {fpu : Fpu} {c : Bytes} {f k : Nat}

variable {d p : Nat}

def NoneOf (d p : Nat) : Prop :=
  ∀ (k : Nat) (j : ℤ), k < 10 ^ p → ¬ NearestDouble (k * (10 : ℚ) ^ j) d

/-- No decimal of so many digits that the double is nearest to is nearer to it than `x`. -/
def Closest (d p : Nat) (x : ℚ) : Prop :=
  ∀ (k : Nat) (j : ℤ), k < 10 ^ p → NearestDouble (k * (10 : ℚ) ^ j) d →
    |x - value d| ≤ |k * (10 : ℚ) ^ j - value d|

/-- The shortest digits that read back, and of those the nearest. -/
structure Shortest (d : Nat) (out : Bytes) (e : ℤ) : Prop where
  digits : ∀ c ∈ out, IsDigit c
  lead : out.head? ≠ some '0'.toUInt8
  length : out.length ≤ 17
  reads : NearestDouble (decimalOf out e) d
  none : NoneOf d (out.length - 1)
  closest : Closest d out.length (decimalOf out e)

/-! ## What reads back -/

theorem reads_iff (hfpu : fpu.Rounds) (e : ℤ) (hdigits : ∀ x ∈ c, IsDigit x)
    (hlen : c.length ≤ JN_DIGITS) (hlead : c.head? ≠ some '0'.toUInt8) (hd : d < JN_INF) :
    (jnFromDigits fpu c (e - c.length + 1) false).1 = d ↔ NearestDouble (decimalOf c e) d := by
  constructor
  · intro h
    exact nearest_of_read hfpu hdigits hlen hd h
  · intro h
    have hv : Writes c (e - c.length + 1) false (decimalOf c e) := by
      rw [Writes, if_neg (by simp), decimalOf]
    exact (jnFromDigits_rounds hfpu hdigits hlen hlead (by simp) hv).1.unique value_strictMono h

theorem noneOf_zero (hpos : 0 < d) : NoneOf d 0 := by
  intro k j hk h
  rw [pow_zero, Nat.lt_one_iff] at hk
  rw [hk, Nat.cast_zero, zero_mul] at h
  have hzero : NearestDouble (value 0) 0 := nearest_height value_strictMono (Nat.zero_le _)
  rw [value_zero] at hzero
  have := h.unique value_strictMono hzero
  omega

theorem no_decimal_between (q j : ℤ) (hp : 0 < p) (hf : 10 ^ (p - 1) ≤ f) (hk : k < 10 ^ p) :
    k * (10 : ℚ) ^ j ≤ f * 10 ^ q ∨ (f + 1) * (10 : ℚ) ^ q ≤ k * 10 ^ j := by
  have hq : (0 : ℚ) < 10 ^ q := by positivity
  rcases le_or_gt q j with hle | hlt
  · -- whole steps of the place
    obtain ⟨u, hu⟩ : ∃ u : Nat, j = q + u := ⟨(j - q).toNat, by omega⟩
    have hwhole : k * (10 : ℚ) ^ j = (k * 10 ^ u : Nat) * 10 ^ q := by
      rw [hu, zpow_add₀ (by norm_num), zpow_natCast, Nat.cast_mul, Nat.cast_pow, Nat.cast_ofNat]
      ring
    rw [hwhole]
    rcases le_or_gt (k * 10 ^ u) f with h | h
    · left
      exact mul_le_mul_of_nonneg_right (by exact_mod_cast h) hq.le
    · right
      exact mul_le_mul_of_nonneg_right (by exact_mod_cast h) hq.le
  · -- too few digits to come up to the first
    left
    have hk' : (k : ℚ) ≤ 10 ^ p := by exact_mod_cast hk.le
    have hf' : (10 : ℚ) ^ (p - 1) ≤ f := by exact_mod_cast hf
    calc k * (10 : ℚ) ^ j ≤ 10 ^ p * 10 ^ j := mul_le_mul_of_nonneg_right hk' (by positivity)
      _ = 10 ^ (p + j) := by rw [zpow_add₀ (by norm_num), zpow_natCast]
      _ ≤ 10 ^ ((p - 1 : Nat) + q) := zpow_le_zpow_right₀ (by norm_num) (by omega)
      _ = 10 ^ (p - 1) * 10 ^ q := by rw [zpow_add₀ (by norm_num), zpow_natCast]
      _ ≤ f * 10 ^ q := mul_le_mul_of_nonneg_right hf' hq.le

theorem beside {q j : ℤ} (hp : 0 < p) (hf : 10 ^ (p - 1) ≤ f) (hk : k < 10 ^ p) (hd : d < JN_INF)
    (hlow : f * (10 : ℚ) ^ q ≤ value d) (hhigh : value d < (f + 1) * (10 : ℚ) ^ q)
    (hreads : NearestDouble (k * (10 : ℚ) ^ j) d) :
    (NearestDouble (f * (10 : ℚ) ^ q) d ∧ |f * (10 : ℚ) ^ q - value d| ≤ |k * (10 : ℚ) ^ j - value d|) ∨
      (NearestDouble ((f + 1) * (10 : ℚ) ^ q) d ∧
        |(f + 1) * (10 : ℚ) ^ q - value d| ≤ |k * (10 : ℚ) ^ j - value d|) := by
  have hself : NearestDouble (value d) d := nearest_height value_strictMono hd.le
  rcases no_decimal_between q j hp hf hk with h | h
  · left
    refine ⟨hreads.between value_strictMono hself h hlow, ?_⟩
    rw [abs_of_nonpos (by linarith), abs_of_nonpos (by linarith)]
    linarith
  · right
    refine ⟨hself.between value_strictMono hreads hhigh.le h, ?_⟩
    rw [abs_of_nonneg (by linarith), abs_of_nonneg (by linarith)]
    linarith

theorem reads_of_close {x u : ℚ} (hpos : 0 < d) (hd : d < JN_INF) (hu : u * 10 ^ 16 ≤ value d)
    (hx : |x - value d| ≤ u / 2) : NearestDouble x d := by
  obtain ⟨hxlow, hxhigh⟩ := abs_le.mp hx
  have hless : (2 : ℚ) ^ 53 < 10 ^ 16 := by norm_num
  refine (nearest_iff value_strictMono).mpr ⟨hd.le, ?_, ?_⟩
  · rintro a rfl
    left
    have hstep := value_strictMono (Nat.lt_succ_self a)
    have hle := value_succ_le a
    unfold cut
    nlinarith
  · intro _
    left
    have hstep := value_strictMono (Nat.lt_succ_self d)
    have hle := value_succ_le d
    unfold cut
    nlinarith

/-! ## The two tried -/

/-- The digits cut at `p`: the double is what they write and a part of the last place. -/
structure CutAt (d : Nat) (all : Bytes) (first : ℤ) (p : Nat) : Prop where
  digits : ∀ c ∈ all, IsDigit c
  lead : all.head? ≠ some '0'.toUInt8
  exact : decimalOf all first = value d
  pos : 0 < p
  short : p < all.length

namespace CutAt

variable {all : Bytes} {first : ℤ} (h : CutAt d all first p)

include h

theorem cut_ne : all.take p ≠ [] := by
  have := h.pos
  have := h.short
  intro hnil
  have := congrArg List.length hnil
  rw [List.length_take, List.length_nil] at this
  omega

theorem cut_length : (all.take p).length = p := by
  rw [List.length_take, min_eq_left h.short.le]

theorem cut_lead : (all.take p).head? ≠ some '0'.toUInt8 := by
  rw [List.head?_take, if_neg h.pos.ne']
  exact h.lead

theorem cut_digits : ∀ c ∈ all.take p, IsDigit c := fun c hc => h.digits c (List.mem_of_mem_take hc)

theorem le_cut : 10 ^ (p - 1) ≤ digitsNum (all.take p) := by
  have hle := le_digitsNum h.cut_digits h.cut_lead h.cut_ne
  rwa [h.cut_length] at hle

theorem value_eq : value d = (digitsNum (all.take p) + digitsNum (all.drop p) / 10 ^ (all.length - p)) *
    (10 : ℚ) ^ (first - p + 1) := by
  have hsplit := digitsNum_append (all.take p) (all.drop p)
  have hshort := h.short
  rw [List.take_append_drop, List.length_drop] at hsplit
  have hscale : (10 : ℚ) ^ (first - p + 1) = 10 ^ (all.length - p) * 10 ^ (first - all.length + 1) := by
    rw [← zpow_natCast, ← zpow_add₀ (by norm_num)]
    congr 1
    omega
  rw [← h.exact, decimalOf, hsplit, hscale, Nat.cast_add, Nat.cast_mul, Nat.cast_pow, Nat.cast_ofNat]
  field_simp

theorem rest_lt : digitsNum (all.drop p) < 10 ^ (all.length - p) := by
  have hlt := @digitsNum_lt (all.drop p) fun c hc => h.digits c (List.mem_of_mem_drop hc)
  rwa [List.length_drop] at hlt

theorem up_iff {rest : Bool} (last : Prop) (hrest : rest = (all.drop (p + 1)).any (· ≠ '0'.toUInt8)) :
    (all.getD p 0 > '5'.toUInt8 ∨ all.getD p 0 = '5'.toUInt8 ∧ (rest ∨ last) →
        10 ^ (all.length - p) ≤ 2 * digitsNum (all.drop p)) ∧
      (¬ (all.getD p 0 > '5'.toUInt8 ∨ all.getD p 0 = '5'.toUInt8 ∧ (rest ∨ last)) →
        2 * digitsNum (all.drop p) ≤ 10 ^ (all.length - p)) ∧
      (all.getD p 0 = '0'.toUInt8 ∧ rest = false → digitsNum (all.drop p) = 0) := by
  have hshort := h.short
  have hnext := h.digits all[p] (List.getElem_mem _)
  have hlow : digitsNum (all.drop (p + 1)) < 10 ^ (all.length - p - 1) := by
    have hlt := @digitsNum_lt (all.drop (p + 1)) fun c hc => h.digits c (List.mem_of_mem_drop hc)
    rwa [List.length_drop, Nat.sub_add_eq] at hlt
  have hnone : rest = false → digitsNum (all.drop (p + 1)) = 0 := by
    intro hfalse
    rw [hrest, List.any_eq_false] at hfalse
    exact digitsNum_zeros fun c hc => by simpa using hfalse c hc
  have hone : digitsNum [all[p]] = all[p].toNat - 48 := by simp [digitsNum]
  have hsplit : digitsNum (all.drop p)
      = (all[p].toNat - 48) * 10 ^ (all.length - p - 1) + digitsNum (all.drop (p + 1)) := by
    have happend := digitsNum_append [all[p]] (all.drop (p + 1))
    rw [hone, List.length_drop, List.singleton_append, ← List.drop_eq_getElem_cons hshort, Nat.sub_add_eq] at happend
    exact happend
  have hwhole : 10 ^ (all.length - p) = 10 * 10 ^ (all.length - p - 1) := by
    rw [← pow_succ']
    congr 1
    omega
  have hget : all.getD p 0 = all[p] := List.getD_eq_getElem _ _ hshort
  have hfive : ∀ x : UInt8, x = '5'.toUInt8 ↔ x.toNat = 53 := fun x => UInt8.toNat_inj.symm
  have hzero : ∀ x : UInt8, x = '0'.toUInt8 ↔ x.toNat = 48 := fun x => UInt8.toNat_inj.symm
  have hmore : ∀ x : UInt8, x > '5'.toUInt8 ↔ 53 < x.toNat := fun x => UInt8.lt_iff_toNat_lt
  have h0 : '0'.toNat = 48 := rfl
  rw [IsDigit, h0] at hnext
  rw [hget, hsplit, hwhole, hfive, hzero, hmore]
  generalize all[p].toNat = x at *
  generalize 10 ^ (all.length - p - 1) = place at *
  generalize digitsNum (all.drop (p + 1)) = low at *
  refine ⟨?_, ?_, ?_⟩
  · intro hup
    have hx : 5 ≤ x - 48 := by omega
    have hle := Nat.mul_le_mul_right place hx
    omega
  · intro hdown
    rcases Nat.lt_or_ge x 53 with hx | hx
    · have hle := Nat.mul_le_mul_right place (show x - 48 ≤ 4 by omega)
      omega
    · obtain rfl : x = 53 := by omega
      have hfalse : rest = false := by
        rw [← Bool.not_eq_true]
        intro htrue
        exact hdown (Or.inr ⟨rfl, Or.inl htrue⟩)
      rw [hnone hfalse]
      omega
  · rintro ⟨rfl, hfalse⟩
    rw [hnone hfalse]
    omega

theorem low_le : digitsNum (all.take p) * (10 : ℚ) ^ (first - p + 1) ≤ value d := by
  rw [h.value_eq]
  have : (0 : ℚ) ≤ digitsNum (all.drop p) / 10 ^ (all.length - p) := by positivity
  gcongr
  linarith

theorem lt_high : value d < (digitsNum (all.take p) + 1) * (10 : ℚ) ^ (first - p + 1) := by
  rw [h.value_eq]
  have hrest : (digitsNum (all.drop p) : ℚ) < 10 ^ (all.length - p) := by exact_mod_cast h.rest_lt
  have hpart : (digitsNum (all.drop p) : ℚ) / 10 ^ (all.length - p) < 1 := by
    rwa [div_lt_one (by positivity)]
  gcongr

theorem parts : ∃ r : ℚ, 0 ≤ r ∧ r < 1 ∧ (2 * digitsNum (all.drop p) ≤ 10 ^ (all.length - p) → r ≤ 1 / 2) ∧
    (10 ^ (all.length - p) ≤ 2 * digitsNum (all.drop p) → 1 / 2 ≤ r) ∧
    (digitsNum (all.drop p) = 0 → r = 0) ∧
    value d = (digitsNum (all.take p) + r) * (10 : ℚ) ^ (first - p + 1) := by
  have hW : (0 : ℚ) < 10 ^ (all.length - p) := by positivity
  refine ⟨_, ?_, ?_, ?_, ?_, ?_, h.value_eq⟩
  · positivity
  · rw [div_lt_one hW]
    exact_mod_cast h.rest_lt
  · intro hle
    have hcast : 2 * (digitsNum (all.drop p) : ℚ) ≤ 10 ^ (all.length - p) := by exact_mod_cast hle
    rw [div_le_iff₀ hW]
    linarith
  · intro hle
    have hcast : (10 : ℚ) ^ (all.length - p) ≤ 2 * digitsNum (all.drop p) := by exact_mod_cast hle
    rw [le_div_iff₀ hW]
    linarith
  · intro hzero
    rw [hzero, Nat.cast_zero, zero_div]

end CutAt

/-- A candidate that is a decimal of `p` digits. -/
structure Candidate (c : Bytes) (p : Nat) : Prop where
  digits : ∀ x ∈ c, IsDigit x
  length : c.length = p
  lead : c.head? ≠ some '0'.toUInt8

theorem lead_of_le (hdigits : ∀ x ∈ c, IsDigit x) (hne : c ≠ [])
    (hle : 10 ^ (c.length - 1) ≤ digitsNum c) : c.head? ≠ some '0'.toUInt8 := by
  cases c with
  | nil => exact absurd rfl hne
  | cons x c =>
    intro hx
    rw [List.head?_cons, Option.some_inj] at hx
    have hlt := @digitsNum_lt c fun y hy => hdigits y (by simp [hy])
    have hsame : digitsNum (x :: c) = digitsNum c :=
      @digitsNum_leading [x] c (by simpa using hx)
    rw [hsame, List.length_cons, Nat.add_sub_cancel] at hle
    omega

theorem shortest_of_candidate {e : ℤ} (hc : Candidate c p) (hpos : 0 < p) (hp : p ≤ 17)
    (hreads : NearestDouble (decimalOf c e) d) (hnone : NoneOf d (p - 1)) (hclosest : Closest d p (decimalOf c e)) :
    Shortest d (trimZeros c) e := by
  have hne : c ≠ [] := by
    rintro rfl
    have := hc.length
    rw [List.length_nil] at this
    omega
  obtain ⟨zeros, hsplit, hzeros, hkept⟩ := trimZeros_spec hne
  -- trimmed, it would be a shorter one
  have hnil : zeros = [] := by
    by_contra hsome
    have hlen := congrArg List.length hsplit
    have hcount := List.length_pos_iff.mpr hsome
    rw [List.length_append, hc.length] at hlen
    have hdigits : ∀ x ∈ trimZeros c, IsDigit x := by
      intro x hx
      apply hc.digits
      rw [hsplit]
      exact List.mem_append_left _ hx
    have hlt : digitsNum (trimZeros c) < 10 ^ (p - 1) :=
      (digitsNum_lt hdigits).trans_le (Nat.pow_le_pow_right (by norm_num) (by omega))
    rw [hsplit, decimalOf_append hzeros] at hreads
    exact hnone _ _ hlt hreads
  rw [hnil, List.append_nil] at hsplit
  rw [← hsplit]
  exact ⟨hc.digits, hc.lead, by rw [hc.length]; exact hp, hreads, by rw [hc.length]; exact hnone,
    by rw [hc.length]; exact hclosest⟩

/-! ## A turn -/

namespace CutAt

variable {all : Bytes} {first : ℤ} (h : CutAt d all first p)

include h

theorem low_candidate : Candidate (all.take p) p := ⟨h.cut_digits, h.cut_length, h.cut_lead⟩

theorem decimalOf_low : decimalOf (all.take p) first = digitsNum (all.take p) * (10 : ℚ) ^ (first - p + 1) := by
  rw [decimalOf, h.cut_length]

theorem high_candidate : Candidate (jnBump (all.take p)).1 p ∧
    decimalOf (jnBump (all.take p)).1 (if (jnBump (all.take p)).2 then first + 1 else first)
      = (digitsNum (all.take p) + 1) * (10 : ℚ) ^ (first - p + 1) := by
  have hlead := h.le_cut
  have hpos := h.pos
  have hcut := h.cut_length
  obtain ⟨hlen, hdigits, hle, hvalue⟩ := jnBump_spec h.cut_digits h.cut_ne (by rwa [hcut]) first
  rw [hcut] at hlen hle hvalue
  refine ⟨⟨hdigits, hlen, lead_of_le hdigits ?_ (by rwa [hlen])⟩, hvalue⟩
  intro hnil
  rw [hnil, List.length_nil] at hlen
  omega

theorem not_none (hp : p = 17) (hpos : 0 < d) (hd : d < JN_INF) : ¬ NoneOf d p := by
  obtain ⟨r, hr0, hr1, hhalf, hhalf', -, hvalue⟩ := h.parts
  have hle := h.le_cut
  have hlow := h.low_candidate
  have hlowvalue := h.decimalOf_low
  obtain ⟨hhigh, hhighvalue⟩ := h.high_candidate
  subst hp
  have hu : (0 : ℚ) < 10 ^ (first - (17 : Nat) + 1) := by positivity
  have hcast : (10 : ℚ) ^ 16 ≤ digitsNum (all.take 17) := by exact_mod_cast hle
  have hunit : 10 ^ (first - (17 : Nat) + 1) * 10 ^ 16 ≤ value d := by
    rw [hvalue, mul_comm]
    gcongr
    linarith
  have hlt : ∀ {c : Bytes}, Candidate c 17 → digitsNum c < 10 ^ 17 := by
    intro c hc
    have := digitsNum_lt hc.digits
    rwa [hc.length] at this
  intro hnone
  rcases le_total (2 * digitsNum (all.drop 17)) (10 ^ (all.length - 17)) with hdown | hup
  · apply hnone _ (first - (17 : Nat) + 1) (hlt hlow)
    apply reads_of_close hpos hd hunit
    rw [hvalue, ← sub_mul, abs_mul, abs_of_pos hu, sub_add_cancel_left, abs_neg, abs_of_nonneg hr0]
    rw [div_eq_inv_mul]
    exact mul_le_mul_of_nonneg_right ((hhalf hdown).trans_eq (one_div 2)) hu.le
  · rw [decimalOf] at hhighvalue
    apply hnone _ _ (hlt hhigh)
    rw [hhighvalue]
    apply reads_of_close hpos hd hunit
    rw [hvalue, ← sub_mul, abs_mul, abs_of_pos hu, add_sub_add_left_eq_sub,
      abs_of_nonneg (by linarith : (0 : ℚ) ≤ 1 - r)]
    rw [div_eq_inv_mul]
    apply mul_le_mul_of_nonneg_right _ hu.le
    have := hhalf' hup
    linarith

theorem nearer : (2 * digitsNum (all.drop p) ≤ 10 ^ (all.length - p) →
      |decimalOf (all.take p) first - value d| ≤
        |(digitsNum (all.take p) + 1) * (10 : ℚ) ^ (first - p + 1) - value d|) ∧
    (10 ^ (all.length - p) ≤ 2 * digitsNum (all.drop p) →
      |(digitsNum (all.take p) + 1) * (10 : ℚ) ^ (first - p + 1) - value d| ≤
        |decimalOf (all.take p) first - value d|) := by
  obtain ⟨r, hr0, hr1, hhalf, hhalf', -, hvalue⟩ := h.parts
  have hu : (0 : ℚ) < 10 ^ (first - p + 1) := by positivity
  rw [h.decimalOf_low, hvalue, ← sub_mul, ← sub_mul, abs_mul, abs_mul, sub_add_cancel_left, abs_neg,
    abs_of_nonneg hr0, add_sub_add_left_eq_sub, abs_of_nonneg (by linarith : (0 : ℚ) ≤ 1 - r)]
  constructor
  · intro hdown
    have := hhalf hdown
    gcongr
    linarith
  · intro hup
    have := hhalf' hup
    gcongr
    linarith

end CutAt

theorem turn_spec (hfpu : fpu.Rounds) (hd : d < JN_INF) {c a next : Bytes × ℤ} {exact : Prop}
    [Decidable exact] (hc : Candidate c.1 p) (ha : Candidate a.1 p) (hp : 0 < p) (hp17 : p ≤ 17)
    (hnone : NoneOf d (p - 1))
    (hbeside : ∀ (k : Nat) (j : ℤ), k < 10 ^ p → NearestDouble (k * (10 : ℚ) ^ j) d →
      (NearestDouble (decimalOf c.1 c.2) d ∧
          |decimalOf c.1 c.2 - value d| ≤ |k * (10 : ℚ) ^ j - value d|) ∨
        (¬ exact ∧ NearestDouble (decimalOf a.1 a.2) d ∧
          |decimalOf a.1 a.2 - value d| ≤ |k * (10 : ℚ) ^ j - value d|))
    (hnearer : |decimalOf c.1 c.2 - value d| ≤ |decimalOf a.1 a.2 - value d|)
    (hnext : NoneOf d p → Shortest d next.1 next.2) {r : Bytes × ℤ}
    (hr : r = if (jnFromDigits fpu c.1 (c.2 - p + 1) false).1 = d then (trimZeros c.1, c.2)
      else if ¬ exact ∧ (jnFromDigits fpu a.1 (a.2 - p + 1) false).1 = d then (trimZeros a.1, a.2)
      else next) : Shortest d r.1 r.2 := by
  have hreads : ∀ {x : Bytes × ℤ}, Candidate x.1 p →
      ((jnFromDigits fpu x.1 (x.2 - p + 1) false).1 = d ↔ NearestDouble (decimalOf x.1 x.2) d) := by
    intro x hx
    have hiff := reads_iff hfpu x.2 hx.digits (by rw [hx.length, JN_DIGITS]; omega) hx.lead hd
    rwa [hx.length] at hiff
  subst hr
  split
  · next hyes =>
    apply shortest_of_candidate hc hp hp17 ((hreads hc).mp hyes) hnone
    intro k j hk hkj
    rcases hbeside k j hk hkj with h | h
    · exact h.2
    · exact hnearer.trans h.2.2
  · next hno =>
    split
    · next hother =>
      apply shortest_of_candidate ha hp hp17 ((hreads ha).mp hother.2) hnone
      intro k j hk hkj
      rcases hbeside k j hk hkj with h | h
      · exact absurd ((hreads hc).mpr h.1) hno
      · exact h.2.2
    · next hneither =>
      apply hnext
      intro k j hk hkj
      rcases hbeside k j hk hkj with h | h
      · exact hno ((hreads hc).mpr h.1)
      · exact hneither ⟨h.1, (hreads ha).mpr h.2.1⟩

/-- Digit after digit, what is returned is the shortest there is. -/
theorem shortestFrom_spec (hfpu : fpu.Rounds) (hpos : 0 < d) (hd : d < JN_INF) {all : Bytes}
    {first : ℤ} (hdigits : ∀ c ∈ all, IsDigit c) (hlead : all.head? ≠ some '0'.toUInt8)
    (hexact : decimalOf all first = value d) {turns : Nat} (hturns : p + turns = 18) (hp : 0 < p)
    (hlen : p ≤ all.length) (hnone : NoneOf d (p - 1)) :
    Shortest d (shortestFrom fpu d all first turns p).1 (shortestFrom fpu d all first turns p).2 := by
  have hself : NearestDouble (value d) d := nearest_height value_strictMono hd.le
  induction turns generalizing p with
  | zero =>
    obtain rfl : p = 18 := hturns
    have hcut : CutAt d all first 17 := ⟨hdigits, hlead, hexact, by norm_num, hlen⟩
    exact absurd hnone (hcut.not_none rfl hpos hd)
  | succ turns ih =>
    by_cases hshort : p < all.length
    · have hcut : CutAt d all first p := ⟨hdigits, hlead, hexact, hp, hshort⟩
      obtain ⟨hhigh, hhighvalue⟩ := hcut.high_candidate
      have hlow := hcut.low_candidate
      have hlowvalue := hcut.decimalOf_low
      obtain ⟨hnearlow, hnearhigh⟩ := hcut.nearer
      obtain ⟨hhalf, hhalf', hwhole⟩ := hcut.up_iff
        (((all.take p).getD (p - 1) 0 - '0'.toUInt8) &&& 1 ≠ 0) rfl
      have hnext : NoneOf d p → Shortest d (shortestFrom fpu d all first turns (p + 1)).1
          (shortestFrom fpu d all first turns (p + 1)).2 := fun h =>
        ih (by omega) (by omega) hshort (by rwa [Nat.add_sub_cancel])
      have hboth := fun (k : Nat) (j : ℤ) (hk : k < 10 ^ p) hkj =>
        beside (j := j) hp hcut.le_cut hk hd hcut.low_le hcut.lt_high hkj
      rw [← hlowvalue, ← hhighvalue] at hboth
      rw [← hhighvalue] at hnearlow hnearhigh
      rw [shortestFrom, if_pos hshort]
      simp only
      split
      · next hup =>
        rw [if_pos (Or.inl hup)]
        refine turn_spec hfpu hd (c := ((jnBump (all.take p)).1, _)) (a := (all.take p, first)) hhigh hlow hp
          (by omega) hnone ?_ (hnearhigh (hhalf hup)) hnext rfl
        have hinexact : ¬ (all.getD p 0 = '0'.toUInt8 ∧
            ((all.drop (p + 1)).any (· ≠ '0'.toUInt8)) = false) := by
          intro hzero
          have hpow : 0 < 10 ^ (all.length - p) := by positivity
          have hrest := hwhole hzero
          have := hhalf hup
          omega
        intro k j hk hkj
        rcases hboth k j hk hkj with h | h
        · exact Or.inr ⟨hinexact, h⟩
        · exact Or.inl h
      · next hdown =>
        by_cases hzero : all.getD p 0 = '0'.toUInt8 ∧ ((all.drop (p + 1)).any (· ≠ '0'.toUInt8)) = false
        · rw [if_pos (Or.inr hzero)]
          refine turn_spec hfpu hd (c := (all.take p, first)) (a := (all.take p, first)) hlow hlow hp (by omega)
            hnone ?_ le_rfl hnext rfl
          -- nothing is cut off
          obtain ⟨r, -, -, -, -, hr, hvalue⟩ := hcut.parts
          have hsame : decimalOf (all.take p) first = value d := by
            rw [hlowvalue, hvalue, hr (hwhole hzero), add_zero]
          intro k j _ _
          left
          rw [hsame, sub_self, abs_zero]
          exact ⟨hself, abs_nonneg _⟩
        · rw [if_neg (not_or.mpr ⟨hdown, hzero⟩)]
          refine turn_spec hfpu hd (c := (all.take p, first)) (a := ((jnBump (all.take p)).1, _)) hlow hhigh hp
            (by omega) hnone ?_ (hnearlow (hhalf' hdown)) hnext rfl
          intro k j hk hkj
          rcases hboth k j hk hkj with h | h
          · exact Or.inl h
          · exact Or.inr ⟨hzero, h⟩
    · obtain rfl : p = all.length := by omega
      have hall : all.take 17 = all := List.take_of_length_le (by omega)
      rw [shortestFrom, if_neg hshort, hall]
      apply shortest_of_candidate ⟨hdigits, rfl, hlead⟩ hp (by omega) (hexact ▸ hself) hnone
      intro k j _ _
      rw [hexact, sub_self, abs_zero]
      exact abs_nonneg _

theorem jsShortest_spec (hfpu : fpu.Rounds) (hpos : 0 < d) (hd : d < JN_INF) :
    Shortest d (jsShortest fpu d).1 (jsShortest fpu d).2 := by
  obtain ⟨hdigits, hne, hlead, hexact⟩ := exactDigits_spec hpos hd
  exact shortestFrom_spec hfpu hpos hd hdigits hlead hexact (by norm_num) (by norm_num)
    (List.length_pos_iff.mpr hne) (noneOf_zero hpos)

/-- **Writing is shortest and exact.** What is written is read back as the same double, nothing shorter is, and nothing as
long that is read back so is nearer to the double. -/
theorem written_shortest {fpu : Fpu} (hfpu : fpu.Rounds) (hpos : 0 < d) (hd : d < JN_INF) {out : Bytes}
    {e : ℤ} (hout : jsShortest fpu d = (out, e)) :
    (jnFromDigits fpu out (e - out.length + 1) false).1 = d ∧
      ∀ (dg : Bytes) (exp10 : ℤ), (∀ c ∈ dg, IsDigit c) → (jnFromDigits fpu dg exp10 false).1 = d →
        out.length ≤ dg.length ∧
          (dg.length = out.length →
            |digitsNum out * (10 : ℚ) ^ (e - out.length + 1) - value d| ≤
              |digitsNum dg * (10 : ℚ) ^ exp10 - value d|) := by
  have hspec := jsShortest_spec hfpu hpos hd
  rw [hout] at hspec
  simp only at hspec
  have hroom : out.length ≤ JN_DIGITS := hspec.length.trans (by decide)
  refine ⟨(reads_iff hfpu e hspec.digits hroom hspec.lead hd).mpr hspec.reads, ?_⟩
  intro dg exp10 hdigits hread
  have hlt := digitsNum_lt hdigits
  constructor
  · by_contra hshort
    have hnear := nearest_of_read hfpu hdigits (by omega) hd hread
    exact hspec.none _ _ (hlt.trans_le (Nat.pow_le_pow_right (by norm_num) (by omega))) hnear
  · intro hsame
    have hnear := nearest_of_read hfpu hdigits (by omega) hd hread
    exact hspec.closest _ _ (hsame ▸ hlt) hnear

/-- The digits of the double below ten to the 23 begin with nines, and a one reads back as it. -/
theorem written_shortest_sample :
    jsShortest nearestFpu 0x44B52D02C7E14AF6 = (['1'.toUInt8], 23) ∧
      (jnFromDigits nearestFpu ['1'.toUInt8] 23 false).1 = 0x44B52D02C7E14AF6 := by
  have hout : jsShortest nearestFpu 0x44B52D02C7E14AF6 = (['1'.toUInt8], 23) := by decide +kernel
  exact ⟨hout, (written_shortest nearestFpu_rounds (by norm_num) (by decide) hout).1⟩

end Zelr.Js
