import Mathlib.Data.Int.ModEq
import Zelr.Rsa.Big

/-!
# Montgomery multiplication is exact

Each row of limbs stands for a number, and what one turn of the loop does to that number.
-/

namespace Zelr.Rsa

variable {a b t n base : Bn} {c n0 : UInt64} {x : Nat}

/-! ## Limbs -/

@[simp] theorem bnVal_nil : bnVal [] = 0 := rfl

theorem bnVal_cons (x : UInt64) (a : Bn) : bnVal (x :: a) = x.toNat + 2 ^ 64 * bnVal a := by
  rw [bnVal, List.map_cons, Nat.ofDigits_cons]
  rfl

theorem bnVal_append (a b : Bn) : bnVal (a ++ b) = bnVal a + (2 ^ 64) ^ a.length * bnVal b := by
  rw [bnVal, List.map_append, Nat.ofDigits_append, List.length_map]
  rfl

theorem bnVal_lt (a : Bn) : bnVal a < (2 ^ 64) ^ a.length := by
  induction a with
  | nil => simp
  | cons x a ih =>
    have hx := x.toNat_lt
    rw [bnVal_cons, List.length_cons, pow_succ (2 ^ 64)]
    omega

theorem bnVal_replicate_zero (k : Nat) : bnVal (List.replicate k 0) = 0 := by
  induction k with
  | zero => rfl
  | succ k ih => rw [List.replicate_succ, bnVal_cons, ih]; rfl

theorem geFromTop_iff (h : a.length = b.length) :
    geFromTop a b = true ↔ bnVal b.reverse ≤ bnVal a.reverse := by
  induction a generalizing b with
  | nil =>
    obtain rfl : b = [] := List.length_eq_zero_iff.mp h.symm
    simp [geFromTop]
  | cons x a ih =>
    cases b with
    | nil => cases h
    | cons y b =>
      have hlen : a.length = b.length := Nat.succ.inj h
      have ha := bnVal_lt a.reverse
      have hb := bnVal_lt b.reverse
      rw [List.length_reverse] at ha hb
      rw [hlen] at ha
      rw [geFromTop, List.reverse_cons, List.reverse_cons, bnVal_append, bnVal_append,
        List.length_reverse, List.length_reverse, hlen, bnVal_cons, bnVal_cons, bnVal_nil,
        mul_zero, add_zero, add_zero]
      generalize (2 ^ 64) ^ b.length = r at ha hb
      by_cases hxy : x = y
      · subst hxy
        rw [if_neg (by simp), ih hlen]
        omega
      · rw [if_pos hxy, decide_eq_true_eq]
        constructor
        · intro hgt
          have hgt : y.toNat + 1 ≤ x.toNat := hgt
          have hmul := Nat.mul_le_mul_left r hgt
          rw [Nat.mul_add] at hmul
          omega
        · intro hle
          refine UInt64.lt_of_le_of_ne ?_ (Ne.symm hxy)
          by_contra hlt
          have hlt : x.toNat + 1 ≤ y.toNat := UInt64.not_le.mp hlt
          have hmul := Nat.mul_le_mul_left r hlt
          rw [Nat.mul_add] at hmul
          omega

theorem bnGe_iff (h : a.length = b.length) : bnGe a b = true ↔ bnVal b ≤ bnVal a := by
  rw [bnGe, geFromTop_iff (by simpa using h), List.reverse_reverse, List.reverse_reverse]

/-! ## Rows -/

theorem ofNat_toNat (n : Nat) : (UInt64.ofNat n).toNat = n % 2 ^ 64 := UInt64.toNat_ofNat'

theorem words_toNat {p : Nat} (h : p < 2 ^ 128) :
    (UInt64.ofNat p).toNat + 2 ^ 64 * (UInt64.ofNat (p >>> 64)).toNat = p := by
  rw [ofNat_toNat, ofNat_toNat, Nat.shiftRight_eq_div_pow]
  omega

theorem mulRow_length (b : UInt64) (h : a.length = t.length) (c : UInt64) :
    (mulRow b a t c).1.length = t.length := by
  induction a generalizing t c with
  | nil =>
    obtain rfl : t = [] := List.length_eq_zero_iff.mp h.symm
    rfl
  | cons x a ih =>
    cases t with
    | nil => cases h
    | cons y t =>
      rw [mulRow, List.length_cons, ih (Nat.succ.inj h), List.length_cons]

theorem mulRow_val (b : UInt64) (h : a.length = t.length) (c : UInt64) :
    bnVal (mulRow b a t c).1 + (2 ^ 64) ^ t.length * (mulRow b a t c).2.toNat =
      bnVal a * b.toNat + bnVal t + c.toNat := by
  induction a generalizing t c with
  | nil =>
    obtain rfl : t = [] := List.length_eq_zero_iff.mp h.symm
    simp [mulRow]
  | cons x a ih =>
    cases t with
    | nil => cases h
    | cons y t =>
      have hfit : x.toNat * b.toNat + y.toNat + c.toNat < 2 ^ 128 := by
        have hx := Nat.le_pred_of_lt x.toNat_lt
        have hb := Nat.le_pred_of_lt b.toNat_lt
        have hxb := Nat.mul_le_mul hx hb
        have hy := y.toNat_lt
        have hc := c.toNat_lt
        simp only [Nat.pred_eq_sub_one] at hxb
        omega
      have hwords := words_toNat hfit
      have hrest := ih (Nat.succ.inj h)
        (UInt64.ofNat ((x.toNat * b.toNat + y.toNat + c.toNat) >>> 64))
      rw [mulRow, bnVal_cons, bnVal_cons, bnVal_cons, List.length_cons, pow_succ (2 ^ 64)]
      linarith

theorem subLimb (x y : UInt64) (hc : c.toNat ≤ 1) :
    (if x < y + c ∨ c ≠ 0 ∧ y + c = 0 then (1 : UInt64) else 0).toNat ≤ 1 ∧
      (x - y - c).toNat + y.toNat + c.toNat =
        x.toNat + 2 ^ 64 * (if x < y + c ∨ c ≠ 0 ∧ y + c = 0 then (1 : UInt64) else 0).toNat := by
  have hx := x.toNat_lt
  have hy := y.toNat_lt
  have hzero : ∀ z : UInt64, z = 0 ↔ z.toNat = 0 := fun z => UInt64.toNat_inj.symm
  rw [UInt64.toNat_sub, UInt64.toNat_sub]
  split
  next h =>
    rw [UInt64.lt_iff_toNat_lt, ne_eq, hzero c, hzero (y + c), UInt64.toNat_add] at h
    simp only [UInt64.toNat_one]
    omega
  next h =>
    rw [UInt64.lt_iff_toNat_lt, ne_eq, hzero c, hzero (y + c), UInt64.toNat_add] at h
    simp only [UInt64.toNat_zero]
    omega

theorem subRow_val (h : a.length = b.length) (hc : c.toNat ≤ 1) :
    ∃ out ≤ 1, bnVal (subRow a b c) + bnVal b + c.toNat =
      bnVal a + (2 ^ 64) ^ a.length * out := by
  induction a generalizing b c with
  | nil =>
    obtain rfl : b = [] := List.length_eq_zero_iff.mp h.symm
    exact ⟨c.toNat, hc, by simp [subRow]⟩
  | cons x a ih =>
    cases b with
    | nil => cases h
    | cons y b =>
      obtain ⟨hc', hlow⟩ := subLimb x y hc
      generalize heq : (if x < y + c ∨ c ≠ 0 ∧ y + c = 0 then (1 : UInt64) else 0) = c' at hc' hlow
      obtain ⟨out, hout, hrest⟩ := ih (Nat.succ.inj h) hc'
      refine ⟨out, hout, ?_⟩
      rw [subRow, bnVal_cons, bnVal_cons, bnVal_cons, List.length_cons, pow_succ (2 ^ 64), heq]
      linarith

theorem subRow_length (h : a.length = b.length) (c : UInt64) :
    (subRow a b c).length = a.length := by
  induction a generalizing b c with
  | nil => rfl
  | cons x a ih =>
    cases b with
    | nil => cases h
    | cons y b => rw [subRow, List.length_cons, ih (Nat.succ.inj h), List.length_cons]

theorem bnSub_val (h : a.length = b.length) {top : Nat}
    (hle : bnVal b ≤ bnVal a + (2 ^ 64) ^ a.length * top)
    (hlt : bnVal a + (2 ^ 64) ^ a.length * top < bnVal b + (2 ^ 64) ^ a.length) :
    bnVal (bnSub a b) + bnVal b = bnVal a + (2 ^ 64) ^ a.length * top := by
  obtain ⟨out, -, hval⟩ := subRow_val h (c := 0) (by simp)
  have hbound := bnVal_lt (subRow a b 0)
  rw [subRow_length h] at hbound
  rw [show (0 : UInt64).toNat = 0 from rfl, add_zero] at hval
  rw [bnSub]
  generalize (2 ^ 64) ^ a.length = r at *
  obtain rfl : out = top := by
    by_contra hne
    obtain hlt' | hgt := Nat.lt_or_gt_of_ne hne
    · have hmul := Nat.mul_le_mul_left r (Nat.succ_le_of_lt hlt')
      rw [Nat.mul_succ] at hmul
      omega
    · have hmul := Nat.mul_le_mul_left r (Nat.succ_le_of_lt hgt)
      rw [Nat.mul_succ] at hmul
      omega
  exact hval

theorem dblRow_length (a : Bn) (c : UInt64) : (dblRow a c).1.length = a.length := by
  induction a generalizing c with
  | nil => rfl
  | cons x a ih => rw [dblRow, List.length_cons, ih, List.length_cons]

theorem dblRow_val (a : Bn) {c : UInt64} (hc : c.toNat ≤ 1) :
    (dblRow a c).2.toNat ≤ 1 ∧
      bnVal (dblRow a c).1 + (2 ^ 64) ^ a.length * (dblRow a c).2.toNat = 2 * bnVal a + c.toNat := by
  induction a generalizing c with
  | nil => exact ⟨hc, by simp [dblRow]⟩
  | cons x a ih =>
    have hx := x.toNat_lt
    have hhigh : (x >>> 63).toNat = x.toNat / 2 ^ 63 := by
      rw [UInt64.toNat_shiftRight, Nat.shiftRight_eq_div_pow]
      rfl
    have hlow : (x <<< 1 ||| c).toNat = 2 * x.toNat % 2 ^ 64 + c.toNat := by
      have heven : x.toNat <<< 1 % 2 ^ 64 = 2 ^ 1 * (x.toNat % 2 ^ 63) := by
        rw [Nat.shiftLeft_eq]
        omega
      rw [UInt64.toNat_or, UInt64.toNat_shiftLeft, show (1 : UInt64).toNat % 64 = 1 from rfl, heven,
        ← Nat.two_pow_add_eq_or_of_lt (by omega)]
      omega
    obtain ⟨htop, hrest⟩ := ih (c := x >>> 63) (by rw [hhigh]; omega)
    refine ⟨htop, ?_⟩
    rw [dblRow, bnVal_cons, bnVal_cons, List.length_cons, pow_succ (2 ^ 64), hlow]
    rw [hhigh] at hrest
    have hsplit : 2 * x.toNat % 2 ^ 64 + 2 ^ 64 * (x.toNat / 2 ^ 63) = 2 * x.toNat := by omega
    linarith

theorem bnSub_length (h : a.length = b.length) : (bnSub a b).length = a.length :=
  subRow_length h 0

theorem bnDblMod_length (h : a.length = n.length) : (bnDblMod a n).length = a.length := by
  have hd := dblRow_length a 0
  unfold bnDblMod
  dsimp only
  split
  · rw [bnSub_length (hd.trans h), hd]
  · exact hd

theorem bnDblMod_val (h : a.length = n.length) (ha : bnVal a ≤ bnVal n) :
    bnVal (bnDblMod a n) ≤ bnVal n ∧ bnVal (bnDblMod a n) ≡ 2 * bnVal a [MOD bnVal n] := by
  obtain ⟨htop, hval⟩ := @dblRow_val a 0 (by decide)
  rw [show (0 : UInt64).toNat = 0 from rfl, add_zero] at hval
  have hlen := (dblRow_length a 0).trans h
  have hn := bnVal_lt n
  have hzero : (dblRow a 0).2 ≠ 0 ↔ (dblRow a 0).2.toNat ≠ 0 := UInt64.toNat_inj.symm.not
  unfold bnDblMod
  dsimp only
  split
  next hover =>
    rw [hzero, bnGe_iff hlen] at hover
    rw [h] at hval
    have hlow : bnVal n ≤ bnVal (dblRow a 0).1 +
        (2 ^ 64) ^ (dblRow a 0).1.length * (dblRow a 0).2.toNat := by
      rw [hlen]
      obtain hcarry | hge := hover
      · have hmul := Nat.mul_le_mul_left ((2 ^ 64) ^ n.length) (Nat.one_le_iff_ne_zero.mpr hcarry)
        omega
      · omega
    have hsub := bnSub_val hlen hlow (by rw [hlen]; omega)
    rw [hlen, hval] at hsub
    refine ⟨by omega, ?_⟩
    rw [← hsub]
    exact (Nat.add_modEq_right).symm
  next hin =>
    rw [hzero, bnGe_iff hlen, not_or, not_not] at hin
    rw [hin.1, mul_zero, add_zero] at hval
    rw [hval]
    exact ⟨by omega, Nat.ModEq.refl _⟩

/-! ## The inverse of the bottom limb -/

theorem toNat_mul_modEq (x y : UInt64) :
    ((x * y).toNat : ℤ) ≡ x.toNat * y.toNat [ZMOD 2 ^ 64] := by
  rw [UInt64.toNat_mul]
  push_cast
  exact Int.mod_modEq _ _

theorem toNat_sub_modEq (x y : UInt64) :
    ((x - y).toNat : ℤ) ≡ x.toNat - y.toNat [ZMOD 2 ^ 64] := by
  have hy := y.toNat_lt
  rw [UInt64.toNat_sub, Int.natCast_mod, Nat.cast_add, Nat.cast_sub hy.le]
  push_cast
  refine (Int.mod_modEq _ _).trans ?_
  rw [Int.modEq_iff_dvd]
  exact ⟨-1, by ring⟩

theorem newton_bits (hodd : n0.toNat % 2 = 1) {k : Nat} (hk : k ≤ 6) :
    (2 : ℤ) ^ 2 ^ k ∣ 1 - n0.toNat * (Nat.iterate (fun inv => inv * (2 - n0 * inv)) k 1).toNat := by
  induction k with
  | zero =>
    simp only [Function.iterate_zero, id, UInt64.toNat_one]
    omega
  | succ k ih =>
    rw [Function.iterate_succ_apply']
    generalize Nat.iterate (fun inv => inv * (2 - n0 * inv)) k 1 = inv at ih ⊢
    have hprev := ih (by omega)
    have hword : (2 : ℤ) ^ 2 ^ (k + 1) ∣ 2 ^ 64 :=
      pow_dvd_pow 2 ((Nat.pow_le_pow_right (by decide) hk).trans (by decide))
    -- The wrapped step, as integers.
    have hstep : ((inv * (2 - n0 * inv)).toNat : ℤ) ≡
        inv.toNat * (2 - n0.toNat * inv.toNat) [ZMOD 2 ^ 64] := by
      refine (toNat_mul_modEq _ _).trans (Int.ModEq.mul_left _ ?_)
      exact (toNat_sub_modEq _ _).trans (Int.ModEq.sub_left _ (toNat_mul_modEq _ _))
    have hsquare : (2 : ℤ) ^ 2 ^ (k + 1) ∣
        1 - n0.toNat * (inv.toNat * (2 - n0.toNat * inv.toNat)) := by
      have hmul := mul_dvd_mul hprev hprev
      rw [← pow_add, ← two_mul, ← pow_succ'] at hmul
      have hring : (1 - (n0.toNat : ℤ) * inv.toNat) * (1 - n0.toNat * inv.toNat) =
          1 - n0.toNat * (inv.toNat * (2 - n0.toNat * inv.toNat)) := by ring
      rwa [hring] at hmul
    have hdiff := ((Int.modEq_iff_dvd.mp hstep).mul_left (n0.toNat : ℤ))
    have hsum := Int.dvd_add hsquare (hword.trans hdiff)
    have hring : 1 - (n0.toNat : ℤ) * (inv.toNat * (2 - n0.toNat * inv.toNat)) +
        n0.toNat * (inv.toNat * (2 - n0.toNat * inv.toNat) - (inv * (2 - n0 * inv)).toNat) =
        1 - n0.toNat * (inv * (2 - n0 * inv)).toNat := by ring
    rwa [hring] at hsum

theorem n0Inverse_spec (hodd : n0.toNat % 2 = 1) (t : UInt64) :
    ((t * n0Inverse n0).toNat * n0.toNat + t.toNat) % 2 ^ 64 = 0 := by
  have hbits := newton_bits hodd (le_refl 6)
  unfold n0Inverse
  generalize Nat.iterate (fun inv => inv * (2 - n0 * inv)) 6 1 = inv at hbits ⊢
  have hneg : ((t * (0 - inv)).toNat : ℤ) ≡ t.toNat * (0 - inv.toNat) [ZMOD 2 ^ 64] :=
    (toNat_mul_modEq _ _).trans (Int.ModEq.mul_left _ (toNat_sub_modEq _ _))
  have hsum : (((t * (0 - inv)).toNat * n0.toNat + t.toNat : Nat) : ℤ) ≡ 0 [ZMOD 2 ^ 64] := by
    push_cast
    refine ((hneg.mul_right _).add_right _).trans ?_
    rw [Int.modEq_zero_iff_dvd]
    have hring : (t.toNat : ℤ) * (0 - inv.toNat) * n0.toNat + t.toNat =
        t.toNat * (1 - n0.toNat * inv.toNat) := by ring
    rw [hring]
    exact hbits.mul_left _
  exact_mod_cast hsum

/-! ## The product -/

def rowsVal (t : Bn × UInt64) : Nat := bnVal t.1 + (2 ^ 64) ^ t.1.length * t.2.toNat

section Product

variable {a n : Bn}

/-- What one turn of the loop does: a multiple of each number is added, and the sum loses its bottom
limb, which is zero. -/
theorem montStep_spec (hodd : bnVal n % 2 = 1) (ha : a.length = n.length) {t : Bn × UInt64}
    (ht : t.1.length = n.length) (bi : UInt64) :
    (montStep a n (n0Inverse (n.headD 0)) t bi).1.length = n.length ∧
      ∃ m < 2 ^ 64, 2 ^ 64 * rowsVal (montStep a n (n0Inverse (n.headD 0)) t bi) =
        rowsVal t + bnVal a * bi.toNat + m * bnVal n := by
  obtain ⟨ts, top⟩ := t
  dsimp only at ht
  have hrow := mulRow_val bi (ha.trans ht.symm) 0
  have hrowlen := mulRow_length bi (ha.trans ht.symm) 0
  unfold montStep
  dsimp only
  generalize mulRow bi a ts 0 = row at hrow hrowlen ⊢
  obtain ⟨rl, rc⟩ := row
  cases n with
  | nil => simp at hodd
  | cons n0 ns =>
    dsimp only at hrow hrowlen ⊢
    cases rl with
    | nil =>
      rw [List.length_nil] at hrowlen
      rw [← hrowlen] at ht
      cases ht
    | cons t0 rs =>
      have hlen : ns.length = rs.length := by
        rw [← hrowlen] at ht
        exact (Nat.succ.inj ht).symm
      have hn0 : n0.toNat % 2 = 1 := by
        rw [bnVal_cons] at hodd
        omega
      rw [List.headD_cons, List.headD_cons, List.tail_cons, List.tail_cons]
      have hvanish := n0Inverse_spec hn0 t0
      generalize t0 * n0Inverse n0 = m at hvanish ⊢
      -- The top limb and the carry out of the first row fit two words, one of them a bit.
      have htop := top.toNat_lt
      have hrc := rc.toNat_lt
      have hwords := @words_toNat (top.toNat + rc.toNat) (by omega)
      have hoverbit : (UInt64.ofNat ((top.toNat + rc.toNat) >>> 64)).toNat ≤ 1 := by omega
      generalize UInt64.ofNat ((top.toNat + rc.toNat) >>> 64) = bit at hwords hoverbit ⊢
      generalize UInt64.ofNat (top.toNat + rc.toNat) = top' at hwords ⊢
      have hp : m.toNat * n0.toNat + t0.toNat < 2 ^ 128 := by
        have hm := Nat.le_pred_of_lt m.toNat_lt
        have hn := Nat.le_pred_of_lt n0.toNat_lt
        have hmn := Nat.mul_le_mul hm hn
        have ht0 := t0.toNat_lt
        simp only [Nat.pred_eq_sub_one] at hmn
        omega
      have hpwords := words_toNat hp
      rw [ofNat_toNat, hvanish, zero_add] at hpwords
      have hlow := mulRow_val m hlen (UInt64.ofNat ((m.toNat * n0.toNat + t0.toNat) >>> 64))
      have hlowlen := mulRow_length m hlen (UInt64.ofNat ((m.toNat * n0.toNat + t0.toNat) >>> 64))
      generalize mulRow m ns rs (UInt64.ofNat ((m.toNat * n0.toNat + t0.toNat) >>> 64)) = low
        at hlow hlowlen ⊢
      generalize (UInt64.ofNat ((m.toNat * n0.toNat + t0.toNat) >>> 64)).toNat = hi at hpwords hlow
      have htop' := top'.toNat_lt
      have hlc := low.2.toNat_lt
      have hlast := @words_toNat (top'.toNat + low.2.toNat) (by omega)
      generalize UInt64.ofNat (top'.toNat + low.2.toNat) = x at hlast ⊢
      generalize UInt64.ofNat ((top'.toNat + low.2.toNat) >>> 64) = y at hlast ⊢
      have hadd : (bit + y).toNat = bit.toNat + y.toNat := by
        rw [UInt64.toNat_add, Nat.mod_eq_of_lt (by omega)]
      refine ⟨by rw [List.length_append, hlowlen, List.length_singleton, List.length_cons, hlen],
        m.toNat, m.toNat_lt, ?_⟩
      rw [rowsVal, rowsVal, bnVal_append, List.length_append, List.length_singleton, hlowlen, hadd,
        bnVal_cons x [], bnVal_nil, mul_zero, add_zero, bnVal_cons n0 ns]
      rw [bnVal_cons t0 rs, show (0 : UInt64).toNat = 0 from rfl, add_zero] at hrow
      rw [← hrowlen, List.length_cons] at hrow ⊢
      rw [pow_succ (2 ^ 64)] at hrow ⊢
      generalize (2 ^ 64) ^ rs.length = r at *
      have hwords := congrArg (r * ·) hwords
      have hlast := congrArg (r * ·) hlast
      simp only [Nat.mul_add] at hwords hlast
      linarith

theorem montFold_spec (hodd : bnVal n % 2 = 1) (ha : a.length = n.length) (b : Bn) {t : Bn × UInt64}
    (ht : t.1.length = n.length) :
    (b.foldl (montStep a n (n0Inverse (n.headD 0))) t).1.length = n.length ∧
      ∃ q < (2 ^ 64) ^ b.length,
        (2 ^ 64) ^ b.length * rowsVal (b.foldl (montStep a n (n0Inverse (n.headD 0))) t) =
          rowsVal t + bnVal a * bnVal b + q * bnVal n := by
  induction b generalizing t with
  | nil => exact ⟨ht, 0, by simp, by simp⟩
  | cons bi b ih =>
    obtain ⟨hlen, m, hm, hstep⟩ := montStep_spec hodd ha ht bi
    obtain ⟨hlen', q, hq, hrest⟩ := ih hlen
    rw [List.foldl_cons]
    refine ⟨hlen', m + 2 ^ 64 * q, ?_, ?_⟩
    · rw [List.length_cons, pow_succ (2 ^ 64)]
      omega
    · have hrest := congrArg (2 ^ 64 * ·) hrest
      simp only [Nat.mul_add] at hrest
      rw [List.length_cons, pow_succ (2 ^ 64), bnVal_cons]
      linarith

theorem montRows_spec (hodd : bnVal n % 2 = 1) (ha : a.length = n.length)
    (hb : b.length = n.length) (hlt : bnVal a * bnVal b < bnVal n * (2 ^ 64) ^ n.length) :
    (montRows a b n (n0Inverse (n.headD 0))).1.length = n.length ∧
      rowsVal (montRows a b n (n0Inverse (n.headD 0))) < 2 * bnVal n ∧
      (2 ^ 64) ^ n.length * rowsVal (montRows a b n (n0Inverse (n.headD 0))) ≡
        bnVal a * bnVal b [MOD bnVal n] := by
  have hzero : rowsVal (List.replicate n.length 0, 0) = 0 := by
    rw [rowsVal, bnVal_replicate_zero, show (0 : UInt64).toNat = 0 from rfl]
    rfl
  obtain ⟨hlen, q, hq, hval⟩ :=
    montFold_spec hodd ha b (t := (List.replicate n.length 0, 0)) (List.length_replicate)
  rw [hzero, zero_add, hb] at hval
  rw [hb] at hq
  refine ⟨hlen, ?_, ?_⟩
  · unfold montRows
    generalize rowsVal (b.foldl _ _) = v at hval ⊢
    generalize (2 ^ 64) ^ n.length = r at *
    have hqn := Nat.mul_le_mul_right (bnVal n) hq.le
    by_contra hge
    have hge := Nat.mul_le_mul_left r (Nat.not_lt.mp hge)
    linarith
  · unfold montRows
    rw [hval]
    exact Nat.add_mul_mod_self_right _ _ _

theorem montMul_spec (hodd : bnVal n % 2 = 1) (ha : a.length = n.length)
    (hb : b.length = n.length) (hlt : bnVal a * bnVal b < bnVal n * (2 ^ 64) ^ n.length) :
    (montMul a b n (n0Inverse (n.headD 0))).length = n.length ∧
      bnVal (montMul a b n (n0Inverse (n.headD 0))) < bnVal n ∧
      (2 ^ 64) ^ n.length * bnVal (montMul a b n (n0Inverse (n.headD 0))) ≡
        bnVal a * bnVal b [MOD bnVal n] := by
  obtain ⟨hlen, htwice, hmod⟩ := montRows_spec hodd ha hb hlt
  have hn := bnVal_lt n
  unfold montMul
  dsimp only
  generalize montRows a b n (n0Inverse (n.headD 0)) = t at hlen htwice hmod ⊢
  have hzero : t.2 ≠ 0 ↔ t.2.toNat ≠ 0 := UInt64.toNat_inj.symm.not
  unfold rowsVal at htwice hmod
  split
  next hover =>
    rw [hzero, bnGe_iff hlen] at hover
    have hle : bnVal n ≤ bnVal t.1 + (2 ^ 64) ^ t.1.length * t.2.toNat := by
      obtain hcarry | hge := hover
      · have hmul := Nat.mul_le_mul_left ((2 ^ 64) ^ t.1.length) (Nat.one_le_iff_ne_zero.mpr hcarry)
        rw [hlen] at hmul ⊢
        omega
      · omega
    have hsub := bnSub_val hlen hle (by rw [hlen] at *; omega)
    refine ⟨(bnSub_length hlen).trans hlen, by omega, ?_⟩
    rw [← hsub, Nat.mul_add] at hmod
    refine Nat.ModEq.trans ?_ hmod
    exact (Nat.add_mul_mod_self_right _ _ _).symm
  next hin =>
    rw [hzero, bnGe_iff hlen, not_or, not_not] at hin
    rw [hin.1, mul_zero, add_zero] at hmod
    exact ⟨hlen, by omega, hmod⟩

/-! ## The power -/

/-- Limbs below the modulus that stand for `x` in Montgomery's form. -/
structure Mont (n : Bn) (x : Nat) (a : Bn) : Prop where
  length : a.length = n.length
  lt : bnVal a < bnVal n
  val : bnVal a ≡ (2 ^ 64) ^ n.length * x [MOD bnVal n]

theorem radix_coprime (hodd : bnVal n % 2 = 1) : Nat.gcd (bnVal n) ((2 ^ 64) ^ n.length) = 1 := by
  have htwo : Nat.Coprime (bnVal n) 2 := by
    rw [Nat.coprime_comm, Nat.Coprime, Nat.gcd_rec, hodd]
    rfl
  exact (htwo.pow_right 64).pow_right n.length

theorem montMul_of (hodd : bnVal n % 2 = 1) (ha : a.length = n.length)
    (hb : b.length = n.length) (hlt : bnVal a * bnVal b < bnVal n * (2 ^ 64) ^ n.length)
    (hmod : bnVal a * bnVal b ≡ (2 ^ 64) ^ n.length * ((2 ^ 64) ^ n.length * x) [MOD bnVal n]) :
    Mont n x (montMul a b n (n0Inverse (n.headD 0))) := by
  obtain ⟨hlen, hout, hval⟩ := montMul_spec hodd ha hb hlt
  exact ⟨hlen, hout, Nat.ModEq.cancel_left_of_coprime (radix_coprime hodd) (hval.trans hmod)⟩

theorem Mont.mul {y : Nat} (hodd : bnVal n % 2 = 1) (ha : Mont n x a) (hb : Mont n y b) :
    Mont n (x * y) (montMul a b n (n0Inverse (n.headD 0))) := by
  have hn := bnVal_lt n
  have hlt := (Nat.mul_le_mul ha.lt.le hb.lt.le).trans_lt
    (Nat.mul_lt_mul_of_pos_left hn (Nat.zero_lt_of_lt ha.lt))
  refine montMul_of hodd ha.length hb.length hlt ((ha.val.mul hb.val).trans ?_)
  have hring : (2 ^ 64) ^ n.length * x * ((2 ^ 64) ^ n.length * y) =
      (2 ^ 64) ^ n.length * ((2 ^ 64) ^ n.length * (x * y)) := by ring
  rw [hring]

theorem mod_two_pow_succ (x i : Nat) : x % 2 ^ (i + 1) = x % 2 ^ i + 2 ^ i * (x.testBit i).toNat := by
  rw [Nat.toNat_testBit, Nat.mod_pow_succ]

theorem squareMultiply_spec (hodd : bnVal n % 2 = 1) (e : UInt32) {s : Nat}
    (hbase : Mont n s base) (i : Nat) (ha : Mont n x a) :
    Mont n (x ^ 2 ^ i * s ^ (e.toNat % 2 ^ i))
      (squareMultiply e base n (n0Inverse (n.headD 0)) i a) := by
  induction i generalizing a x with
  | zero => simpa [squareMultiply, Nat.mod_one] using ha
  | succ i ih =>
    have hsq := ha.mul hodd ha
    rw [squareMultiply, mod_two_pow_succ]
    cases hbit : e.toNat.testBit i with
    | false =>
      have hrest := ih hsq
      rw [if_neg (by simp), Bool.toNat_false, mul_zero, add_zero]
      rwa [← sq, ← pow_mul, ← pow_succ'] at hrest
    | true =>
      have hrest := ih (hsq.mul hodd hbase)
      rw [if_pos rfl, Bool.toNat_true, mul_one, pow_add s]
      have hring : (x * x * s) ^ 2 ^ i * s ^ (e.toNat % 2 ^ i) =
          x ^ 2 ^ (i + 1) * (s ^ (e.toNat % 2 ^ i) * s ^ 2 ^ i) := by
        rw [mul_pow, ← sq, ← pow_mul, ← pow_succ']
        ring
      rwa [hring] at hrest

theorem lt_topBit (e : UInt32) (t : Nat) (h : e.toNat < 2 ^ (t + 1)) :
    e.toNat < 2 ^ (topBit e t + 1) := by
  induction t with
  | zero => exact h
  | succ t ih =>
    rw [topBit]
    split
    next => exact h
    next hbit =>
      refine ih ?_
      have hmod := mod_two_pow_succ e.toNat (t + 1)
      rw [Bool.not_eq_true] at hbit
      rw [hbit, Bool.toNat_false, mul_zero, add_zero, Nat.mod_eq_of_lt h] at hmod
      rw [hmod]
      exact Nat.mod_lt _ (Nat.two_pow_pos _)

theorem doublings_spec (ha : a.length = n.length) (hle : bnVal a ≤ bnVal n) (k : Nat) :
    (Nat.iterate (bnDblMod · n) k a).length = n.length ∧
      bnVal (Nat.iterate (bnDblMod · n) k a) ≤ bnVal n ∧
      bnVal (Nat.iterate (bnDblMod · n) k a) ≡ 2 ^ k * bnVal a [MOD bnVal n] := by
  induction k with
  | zero => exact ⟨ha, hle, by rw [pow_zero, one_mul]; rfl⟩
  | succ k ih =>
    obtain ⟨hlen, hbound, hmod⟩ := ih
    rw [Function.iterate_succ_apply']
    obtain ⟨hle', hmod'⟩ := bnDblMod_val hlen hbound
    refine ⟨(bnDblMod_length hlen).trans hlen, hle', hmod'.trans ?_⟩
    rw [pow_succ', mul_assoc]
    exact hmod.mul_left 2

theorem bnOne_spec (hn : n ≠ []) : (bnOne n.length).length = n.length ∧ bnVal (bnOne n.length) = 1 := by
  cases n with
  | nil => contradiction
  | cons x n =>
    refine ⟨by simp [bnOne], ?_⟩
    rw [bnOne, List.length_cons, List.replicate_succ, List.set_cons_zero, bnVal_cons,
      bnVal_replicate_zero]
    rfl

theorem bnModExp_spec (hodd : bnVal n % 2 = 1) (hlen : base.length = n.length)
    (hlt : bnVal base < bnVal n) (e : UInt32) :
    (bnModExp base e n).length = n.length ∧
      bnVal (bnModExp base e n) = bnVal base ^ e.toNat % bnVal n := by
  have hn : n ≠ [] := by
    rintro rfl
    simp at hodd
  have hpos : 0 < bnVal n := Nat.zero_lt_of_lt hlt
  have hnlt := bnVal_lt n
  obtain ⟨honelen, hone⟩ := bnOne_spec hn
  unfold bnModExp
  dsimp only
  obtain ⟨hr2len, hr2le, hr2mod⟩ := doublings_spec honelen (by omega) (2 * n.length * 64)
  generalize Nat.iterate (bnDblMod · n) (2 * n.length * 64) (bnOne n.length) = r2
    at hr2len hr2le hr2mod ⊢
  have hr2 : bnVal r2 ≡ (2 ^ 64) ^ n.length * (2 ^ 64) ^ n.length [MOD bnVal n] := by
    have hpow : (2 : Nat) ^ (2 * n.length * 64) = (2 ^ 64) ^ n.length * (2 ^ 64) ^ n.length := by
      rw [← pow_add, ← pow_mul]
      congr 1
      omega
    rwa [hone, mul_one, hpow] at hr2mod
  have hradix : 1 < (2 ^ 64) ^ n.length :=
    Nat.one_lt_pow (fun h => hn (List.length_eq_zero_iff.mp h)) (by decide)
  -- Into the form, the power in it, and out of it again.
  have hbase : Mont n (bnVal base) (montMul base r2 n (n0Inverse (n.headD 0))) := by
    refine montMul_of hodd hlen hr2len ?_ ?_
    · exact (Nat.mul_le_mul hlt.le hr2le).trans_lt (Nat.mul_lt_mul_of_pos_left hnlt hpos)
    · rw [← mul_assoc, mul_comm]
      exact hr2.mul_right _
  have hacc : Mont n 1 (montMul (bnOne n.length) r2 n (n0Inverse (n.headD 0))) := by
    refine montMul_of hodd honelen hr2len ?_ ?_
    · rw [hone, one_mul]
      exact hr2le.trans_lt (lt_mul_of_one_lt_right hpos hradix)
    · rw [hone, one_mul, mul_one]
      exact hr2
  have hpower := squareMultiply_spec hodd e hbase (topBit e 31 + 1) hacc
  rw [one_pow, one_mul, Nat.mod_eq_of_lt (lt_topBit e 31 e.toNat_lt)] at hpower
  generalize squareMultiply e (montMul base r2 n (n0Inverse (n.headD 0))) n (n0Inverse (n.headD 0))
    (topBit e 31 + 1) (montMul (bnOne n.length) r2 n (n0Inverse (n.headD 0))) = acc at hpower ⊢
  have hout := montMul_spec hodd hpower.length honelen (by
    rw [hone, mul_one]
    exact hpower.lt.trans (lt_mul_of_one_lt_right hpos hradix))
  obtain ⟨houtlen, houtlt, houtmod⟩ := hout
  rw [hone, mul_one] at houtmod
  have hval := Nat.ModEq.cancel_left_of_coprime (radix_coprime hodd) (houtmod.trans hpower.val)
  refine ⟨houtlen, ?_⟩
  rw [← hval, Nat.mod_eq_of_lt houtlt]

end Product

end Zelr.Rsa
