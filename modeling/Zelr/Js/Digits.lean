import Zelr.Js.Read

/-!
# The digits of a double

Every digit of a double, worked out nine at a time, and one added to the last of a run of digits.
-/

namespace Zelr.Js

variable {n : Nat} {c : Bytes}

/-- What digits are worth, the first of them worth ten to the `e`. -/
def decimalOf (c : Bytes) (e : ℤ) : ℚ := digitsNum c * (10 : ℚ) ^ (e - c.length + 1)

theorem digit_of_lt (h : n < 10) :
    IsDigit (UInt8.ofNat ('0'.toNat + n)) ∧ digitsNum [UInt8.ofNat ('0'.toNat + n)] = n := by
  have hnat : (UInt8.ofNat ('0'.toNat + n)).toNat = 48 + n := by
    have hzero : '0'.toNat = 48 := rfl
    rw [hzero, UInt8.toNat_ofNat']
    omega
  constructor
  · have hzero : '0'.toNat = 48 := rfl
    have hnine : '9'.toNat = 57 := rfl
    rw [IsDigit, hnat]
    omega
  · have hone : digitsNum [UInt8.ofNat ('0'.toNat + n)] = (UInt8.ofNat ('0'.toNat + n)).toNat - 48 := by
      simp [digitsNum]
    rw [hone, hnat, Nat.add_sub_cancel_left]

/-! ## Nine digits at a time -/

@[simp] theorem chunkRev_length (k r : Nat) : (chunkRev k r).length = k := by
  induction k generalizing r with
  | zero => rfl
  | succ k ih => rw [chunkRev, List.length_cons, ih]

theorem chunkRev_digits (k r : Nat) : ∀ c ∈ chunkRev k r, IsDigit c := by
  induction k generalizing r with
  | zero => simp [chunkRev]
  | succ k ih =>
    intro c hc
    rw [chunkRev, List.mem_cons] at hc
    rcases hc with rfl | hc
    · exact (digit_of_lt (Nat.mod_lt _ (by norm_num))).1
    · exact ih _ c hc

theorem chunkRev_num (k r : Nat) : digitsNum (chunkRev k r).reverse = r % 10 ^ k := by
  induction k generalizing r with
  | zero => simp [chunkRev, digitsNum, Nat.mod_one]
  | succ k ih =>
    have hdigit := (digit_of_lt (Nat.mod_lt r (by norm_num : 10 > 0))).2
    rw [chunkRev, List.reverse_cons, digitsNum_append, ih, hdigit, List.length_singleton, pow_one, pow_succ',
      Nat.mod_mul]
    ring

theorem jbDivSmall_holds {b : Jbig} (hb : b.Holds n) {d : UInt32} (hd : d ≠ 0) :
    (jbDivSmall b d).1.Holds (n / d.toNat) ∧ (jbDivSmall b d).2.toNat = n % d.toNat := by
  obtain ⟨hquot, hrem⟩ := jsbMagDivsmall_val hd b.w
  rw [hb.val] at hquot hrem
  exact ⟨⟨hquot, stripLimbs_top _, hb.kept⟩, hrem⟩

theorem revDigits_spec {turns n : Nat} {M : Jbig} {rev : Bytes} (hM : M.Holds n) (hn : n < 10 ^ (9 * turns))
    (hroom : rev.length + 9 * turns ≤ 800) (hrev : ∀ c ∈ rev, IsDigit c) :
    (∀ c ∈ revDigits turns M rev, IsDigit c) ∧
      digitsNum (revDigits turns M rev).reverse = n * 10 ^ rev.length + digitsNum rev.reverse := by
  induction turns generalizing n M rev with
  | zero =>
    rw [Nat.mul_zero, pow_zero, Nat.lt_one_iff] at hn
    rw [hn, zero_mul, zero_add]
    exact ⟨hrev, rfl⟩
  | succ turns ih =>
    by_cases hnil : M.w = []
    · rw [revDigits, if_neg (by simp [hnil]), hM.nil_iff.mp hnil, zero_mul, zero_add]
      exact ⟨hrev, rfl⟩
    · obtain ⟨hquot, hrem⟩ := jbDivSmall_holds hM (d := 1000000000) (by decide)
      have hbillion : (1000000000 : UInt32).toNat = 10 ^ 9 := rfl
      rw [hbillion] at hquot hrem
      rw [revDigits, if_pos ⟨hnil, by omega⟩]
      have hlen : (rev ++ chunkRev 9 (jbDivSmall M 1000000000).2.toNat).length = rev.length + 9 := by
        rw [List.length_append, chunkRev_length]
      have hnext := @ih (n / 10 ^ 9) (jbDivSmall M 1000000000).1 (rev ++ chunkRev 9 (jbDivSmall M 1000000000).2.toNat) hquot
        (by
          rw [Nat.div_lt_iff_lt_mul (by norm_num), ← pow_add]
          exact hn)
        (by rw [hlen]; omega)
        (by
          intro c hc
          rcases List.mem_append.mp hc with hc | hc
          · exact hrev c hc
          · exact chunkRev_digits _ _ c hc)
      refine ⟨hnext.1, ?_⟩
      rw [hnext.2, hlen, List.reverse_append, digitsNum_append, chunkRev_num, hrem, Nat.mod_mod,
        List.length_reverse, pow_add]
      conv_rhs => rw [← Nat.div_add_mod n (10 ^ 9)]
      ring

/-! ## Zeros taken off -/

theorem trimZeros_spec (hne : c ≠ []) :
    ∃ zeros, c = trimZeros c ++ zeros ∧ (∀ x ∈ zeros, x = '0'.toUInt8) ∧ trimZeros c ≠ [] := by
  obtain ⟨zeros, hsplit, hzeros⟩ := kept_digits c
  rw [trimZeros]
  split
  · next hnil =>
    rw [hnil, List.nil_append] at hsplit
    refine ⟨c.drop 1, (List.take_append_drop 1 c).symm, ?_, ?_⟩
    · intro x hx
      exact hzeros x (hsplit ▸ List.mem_of_mem_drop hx)
    · cases c with
      | nil => exact absurd rfl hne
      | cons x c => simp
  · next hkept => exact ⟨zeros, hsplit, hzeros, hkept⟩

theorem decimalOf_append {zeros : Bytes} (hzeros : ∀ x ∈ zeros, x = '0'.toUInt8) (e : ℤ) :
    decimalOf (c ++ zeros) e = decimalOf c e := by
  rw [decimalOf, decimalOf, digitsNum_append, digitsNum_zeros hzeros, add_zero, List.length_append, Nat.cast_mul,
    Nat.cast_pow, Nat.cast_ofNat, mul_assoc, ← zpow_natCast, ← zpow_add₀ (by norm_num)]
  congr 2
  push_cast
  ring

theorem digitsNum_leading {zeros c : Bytes} (hzeros : ∀ x ∈ zeros, x = '0'.toUInt8) :
    digitsNum (zeros ++ c) = digitsNum c := by
  rw [digitsNum_append, digitsNum_zeros hzeros, zero_mul, zero_add]

/-! ## One more -/

theorem bumpFrom_spec (hc : ∀ x ∈ c, IsDigit x) :
    (bumpFrom c).1.length = c.length ∧ (∀ x ∈ (bumpFrom c).1, IsDigit x) ∧
      if (bumpFrom c).2 then digitsNum c.reverse + 1 = 10 ^ c.length ∧ ∀ x ∈ (bumpFrom c).1, x = '0'.toUInt8
      else digitsNum (bumpFrom c).1.reverse = digitsNum c.reverse + 1 := by
  induction c with
  | nil => simp [bumpFrom, digitsNum]
  | cons x c ih =>
    have hx := hc x (by simp)
    obtain ⟨hlen, hdigits, hnum⟩ := ih fun y hy => hc y (by simp [hy])
    have hzero : '0'.toNat = 48 := rfl
    have hnine : '9'.toNat = 57 := rfl
    rw [IsDigit, hzero, hnine] at hx
    have hone : ∀ y : UInt8, digitsNum [y] = y.toNat - 48 := by
      intro y
      simp [digitsNum]
    have hlast : ∀ (y : UInt8) (c : Bytes), digitsNum (y :: c).reverse = digitsNum c.reverse * 10 + (y.toNat - 48) := by
      intro y c
      rw [List.reverse_cons, digitsNum_append, hone, List.length_singleton, pow_one]
    by_cases hless : x < '9'.toUInt8
    · have hlt : x.toNat < 57 := UInt8.lt_iff_toNat_lt.mp hless
      have hnext : (x + 1).toNat = x.toNat + 1 := by
        rw [UInt8.toNat_add, UInt8.toNat_one]
        omega
      have heq : bumpFrom (x :: c) = ((x + 1) :: c, false) := by rw [bumpFrom, if_pos hless]
      rw [heq]
      refine ⟨rfl, ?_, ?_⟩
      · intro y hy
        rcases List.mem_cons.mp hy with rfl | hy
        · rw [IsDigit, hzero, hnine, hnext]
          omega
        · exact hc y (by simp [hy])
      · rw [if_neg (by simp), hlast, hlast, hnext]
        omega
    · have h57 : x.toNat = 57 := by
        have hge : ¬ x.toNat < 57 := fun h => hless (UInt8.lt_iff_toNat_lt.mpr h)
        omega
      have heq : bumpFrom (x :: c) = ('0'.toUInt8 :: (bumpFrom c).1, (bumpFrom c).2) := by
        simp only [bumpFrom, if_neg hless]
      rw [heq]
      refine ⟨by rw [List.length_cons, List.length_cons, hlen], ?_, ?_⟩
      · intro y hy
        rcases List.mem_cons.mp hy with rfl | hy
        · decide
        · exact hdigits y hy
      · rw [hlast, hlast, h57, List.length_cons, pow_succ]
        split
        · next hcarry =>
          rw [if_pos hcarry] at hnum
          refine ⟨by omega, ?_⟩
          intro y hy
          rcases List.mem_cons.mp hy with rfl | hy
          · rfl
          · exact hnum.2 y hy
        · next hstop =>
          rw [if_neg hstop] at hnum
          have : ('0'.toUInt8).toNat = 48 := rfl
          omega

theorem jnBump_spec (hc : ∀ x ∈ c, IsDigit x) (hne : c ≠ [])
    (hlead : 10 ^ (c.length - 1) ≤ digitsNum c) (e : ℤ) :
    (jnBump c).1.length = c.length ∧ (∀ x ∈ (jnBump c).1, IsDigit x) ∧
      10 ^ (c.length - 1) ≤ digitsNum (jnBump c).1 ∧
      decimalOf (jnBump c).1 (if (jnBump c).2 then e + 1 else e)
        = (digitsNum c + 1) * (10 : ℚ) ^ (e - c.length + 1) := by
  obtain ⟨hlen, hdigits, hnum⟩ := bumpFrom_spec (c := c.reverse) fun x hx => hc x (List.mem_reverse.mp hx)
  rw [List.length_reverse] at hlen
  rw [List.reverse_reverse, List.length_reverse] at hnum
  have hpos : 0 < c.length := List.length_pos_iff.mpr hne
  cases hcarry : (bumpFrom c.reverse).2 with
  | false =>
    rw [hcarry, if_neg (by simp)] at hnum
    simp only [jnBump, hcarry, Bool.false_eq_true, if_false]
    refine ⟨by rw [List.length_reverse, hlen], fun x hx => hdigits x (List.mem_reverse.mp hx), by omega, ?_⟩
    rw [decimalOf, List.length_reverse, hlen, hnum, Nat.cast_add, Nat.cast_one]
  | true =>
    rw [hcarry, if_pos rfl] at hnum
    simp only [jnBump, hcarry, if_true]
    obtain ⟨y, zeros, hrev⟩ : ∃ y zeros, (bumpFrom c.reverse).1.reverse = y :: zeros := by
      cases h : (bumpFrom c.reverse).1.reverse with
      | nil =>
        have := congrArg List.length h
        rw [List.length_reverse, hlen, List.length_nil] at this
        omega
      | cons y zeros => exact ⟨y, zeros, rfl⟩
    have hzeros : ∀ x ∈ zeros, x = '0'.toUInt8 := by
      intro x hx
      exact hnum.2 x (List.mem_reverse.mp (by rw [hrev]; simp [hx]))
    have hcount : zeros.length + 1 = c.length := by
      have := congrArg List.length hrev
      rw [List.length_reverse, hlen, List.length_cons] at this
      omega
    rw [hrev, List.set_cons_zero]
    have hone : digitsNum ['1'.toUInt8] = 1 := rfl
    have hsplit : ('1'.toUInt8 :: zeros) = ['1'.toUInt8] ++ zeros := rfl
    refine ⟨by rw [List.length_cons, hcount], ?_, ?_, ?_⟩
    · intro x hx
      rcases List.mem_cons.mp hx with rfl | hx
      · decide
      · rw [hzeros x hx]
        decide
    · rw [hsplit, digitsNum_append, hone, digitsNum_zeros hzeros, one_mul, add_zero, ← hcount, Nat.add_sub_cancel]
    · have hfull : (digitsNum c : ℚ) + 1 = 10 ^ c.length := by exact_mod_cast hnum.1
      rw [hsplit, decimalOf_append hzeros, decimalOf, hone, List.length_singleton, hfull, Nat.cast_one, one_mul,
        ← zpow_natCast, ← zpow_add₀ (by norm_num)]
      congr 1
      ring

/-! ## Every digit -/

theorem digits_of_holds {M : Jbig} (hM : M.Holds n) (hpos : 0 < n) (hn : n < 10 ^ (9 * 88)) :
    (∀ c ∈ (trimZeros (revDigits 88 M [])).reverse, IsDigit c) ∧
      (trimZeros (revDigits 88 M [])).reverse.head? ≠ some '0'.toUInt8 ∧
      digitsNum (trimZeros (revDigits 88 M [])).reverse = n := by
  obtain ⟨hdigits, hnum⟩ := @revDigits_spec 88 n M [] hM hn (by decide) (by simp)
  rw [List.length_nil, pow_zero, mul_one, List.reverse_nil, digitsNum_nil, add_zero] at hnum
  generalize revDigits 88 M [] = rev at *
  obtain ⟨zeros, hsplit, hzeros⟩ := kept_digits rev
  have hkept : rev.rdropWhile (· = '0'.toUInt8) ≠ [] := by
    intro hnil
    rw [hnil, List.nil_append] at hsplit
    have := @digitsNum_zeros rev.reverse fun c hc => hzeros c (hsplit ▸ List.mem_reverse.mp hc)
    omega
  have htrim : trimZeros rev = rev.rdropWhile (· = '0'.toUInt8) := by rw [trimZeros, if_neg hkept]
  have hlast := List.rdropWhile_last_not (p := (· = '0'.toUInt8)) rev hkept
  rw [htrim]
  generalize rev.rdropWhile (· = '0'.toUInt8) = kept at *
  subst hsplit
  refine ⟨fun c hc => hdigits c (List.mem_append_left _ (List.mem_reverse.mp hc)), ?_, ?_⟩
  · rw [List.head?_reverse, List.getLast?_eq_getLast_of_ne_nil hkept, ne_eq, Option.some_inj]
    simpa using hlast
  · rw [← hnum, List.reverse_append, digitsNum_leading fun c hc => hzeros c (List.mem_reverse.mp hc)]

theorem allDigits_spec {m : Nat} {e2 : ℤ} (hpos : 0 < m) (hm : m < 2 ^ 53) (hlow : -1074 ≤ e2) (hhigh : e2 ≤ 971) :
    (∀ c ∈ (allDigits m e2).1, IsDigit c) ∧ (allDigits m e2).1 ≠ [] ∧
      (allDigits m e2).1.head? ≠ some '0'.toUInt8 ∧
      decimalOf (allDigits m e2).1 (allDigits m e2).2 = m * (2 : ℚ) ^ e2 := by
  have hset := jbSet_holds (v := m) (by omega)
  have hdone : ∀ {M : Jbig} {n : Nat} {last : ℤ}, M.Holds n → 0 < n → n < 10 ^ (9 * 88) →
      n * (10 : ℚ) ^ last = m * (2 : ℚ) ^ e2 →
      let all := (trimZeros (revDigits 88 M [])).reverse
      (∀ c ∈ all, IsDigit c) ∧ all ≠ [] ∧ all.head? ≠ some '0'.toUInt8 ∧
        decimalOf all (last + all.length - 1) = m * (2 : ℚ) ^ e2 := by
    intro M n last hM hn hroom hvalue
    obtain ⟨hdigits, hlead, hnum⟩ := digits_of_holds hM hn hroom
    refine ⟨hdigits, ?_, hlead, ?_⟩
    · intro hnil
      rw [hnil, digitsNum_nil] at hnum
      omega
    · rw [decimalOf, hnum, ← hvalue]
      congr 2
      ring
  rw [allDigits]
  split
  · next hup =>
    obtain ⟨k, rfl⟩ : ∃ k : Nat, e2 = k := ⟨e2.toNat, by omega⟩
    have hk971 : k ≤ 971 := by omega
    have htwos : 2 ^ k ≤ 2 ^ 971 := pow_le_pow_right₀ (by norm_num) hk971
    have hlt : m * 2 ^ k < 2 ^ 1024 := by
      calc m * 2 ^ k < 2 ^ 53 * 2 ^ k := (Nat.mul_lt_mul_right (by positivity)).mpr hm
        _ ≤ 2 ^ 53 * 2 ^ 971 := Nat.mul_le_mul le_rfl htwos
        _ = 2 ^ 1024 := (pow_add 2 53 971).symm
    have hroom : 2 ^ 1024 ≤ 10 ^ (9 * 88) := ten_bounds.1.trans (pow_le_pow_right₀ (by norm_num) (by norm_num))
    rw [Int.toNat_natCast]
    have hM := jbShl_holds hset (room_of_lt hlt (by norm_num))
    apply hdone hM (by positivity) (hlt.trans_le hroom)
    rw [zpow_zero, mul_one, Nat.cast_mul, Nat.cast_pow, Nat.cast_ofNat, zpow_natCast]
  · next hdown =>
    obtain ⟨k, hk⟩ : ∃ k : Nat, -e2 = k := ⟨(-e2).toNat, by omega⟩
    have hexp : e2 = -(k : ℤ) := by omega
    have hk1074 : k ≤ 1074 := by omega
    have hlt : m * 5 ^ k < 10 ^ 779 := by
      have hfives : 5 ^ k ≤ 5 ^ 1074 := pow_le_pow_right₀ (by norm_num) hk1074
      have hbound : 2 ^ 53 * 5 ^ 1074 ≤ 10 ^ 779 := ten_bounds.2.2
      calc m * 5 ^ k < 2 ^ 53 * 5 ^ k := (Nat.mul_lt_mul_right (by positivity)).mpr hm
        _ ≤ 2 ^ 53 * 5 ^ 1074 := Nat.mul_le_mul le_rfl hfives
        _ ≤ 10 ^ 779 := hbound
    have hroom : 10 ^ 779 ≤ 10 ^ (9 * 88) := pow_le_pow_right₀ (by norm_num) (by norm_num)
    rw [hk, Int.toNat_natCast]
    have hM := jbMulPow_holds hset (Or.inl rfl) (hlt.trans (ten_pow_lt (by norm_num)))
    apply hdone hM (by positivity) (hlt.trans_le hroom)
    have hten : (10 : ℚ) ^ k = 2 ^ k * 5 ^ k := by rw [← mul_pow]; norm_num
    rw [hexp, zpow_neg, zpow_neg, zpow_natCast, zpow_natCast, Nat.cast_mul, Nat.cast_pow, Nat.cast_ofNat, hten]
    field_simp

theorem exactDigits_spec {d : Nat} (hpos : 0 < d) (hd : d < JN_INF) :
    (∀ c ∈ (exactDigits d).1, IsDigit c) ∧ (exactDigits d).1 ≠ [] ∧
      (exactDigits d).1.head? ≠ some '0'.toUInt8 ∧
      decimalOf (exactDigits d).1 (exactDigits d).2 = value d := by
  have hinf : JN_INF = 2047 * 2 ^ 52 := rfl
  have hef : d >>> 52 &&& 0x7FF = d / 2 ^ 52 := by
    have hmask := Nat.and_two_pow_sub_one_eq_mod (d >>> 52) 11
    rw [Nat.shiftRight_eq_div_pow] at hmask ⊢
    exact hmask.trans (Nat.mod_eq_of_lt (by omega))
  have hm : d &&& 0xFFFFFFFFFFFFF = d % 2 ^ 52 := Nat.and_two_pow_sub_one_eq_mod d 52
  have hunits : ∀ {m : Nat} {e2 : ℤ}, (units d : ℚ) = m * 2 ^ (e2 + 1074) → value d = m * (2 : ℚ) ^ e2 := by
    intro m e2 h
    rw [value, h, zpow_add₀ (by norm_num), ← mul_assoc]
    exact mul_div_cancel_right₀ _ smallest_pos.ne'
  simp only [exactDigits, hef, hm]
  by_cases hsub : d / 2 ^ 52 = 0
  · rw [if_neg (not_not.mpr hsub)]
    have hvalue : value d = (d % 2 ^ 52 : Nat) * (2 : ℚ) ^ (-1074 : ℤ) := by
      apply hunits
      rw [units, if_pos hsub, neg_add_cancel, zpow_zero, mul_one]
    rw [hvalue]
    exact allDigits_spec (by omega) (by omega) le_rfl (by norm_num)
  · rw [if_pos hsub]
    have hbit : d % 2 ^ 52 ||| 1 <<< 52 = 2 ^ 52 + d % 2 ^ 52 := by
      rw [Nat.or_comm, ← Nat.shiftLeft_add_eq_or_of_lt (Nat.mod_lt _ (by norm_num)), Nat.shiftLeft_eq, one_mul]
    have hvalue : value d = (2 ^ 52 + d % 2 ^ 52 : Nat) * (2 : ℚ) ^ ((d / 2 ^ 52 : Nat) - 1075 : ℤ) := by
      apply hunits
      have hexp : ((d / 2 ^ 52 : Nat) - 1075 + 1074 : ℤ) = (d / 2 ^ 52 - 1 : Nat) := by omega
      rw [units, if_neg hsub, hexp, zpow_natCast, Nat.cast_mul, Nat.cast_pow, Nat.cast_ofNat]
    rw [hbit, hvalue]
    exact allDigits_spec (by omega) (by omega) (by omega) (by omega)

end Zelr.Js
