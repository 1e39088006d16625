import Zelr.Js.Decimal
import Zelr.Js.Divide

/-!
# The work numbers

What each operation on a work number does to the number it holds, while that fits in 4096 bits.
-/

namespace Zelr.Js

variable {w : Limbs} {c base k s : Nat} {big : UInt32}

/-- `b` holds `n`, in the limbs it needs, and nothing was dropped. -/
structure Jbig.Holds (b : Jbig) (n : Nat) : Prop where
  val : limbsVal b.w = n
  top : TopNonzero b.w
  kept : b.lost = false

namespace Jbig.Holds

variable {a b : Jbig} {m n : Nat}

theorem nil_iff (hb : b.Holds n) : b.w = [] ↔ n = 0 := by
  rw [← limbsVal_eq_zero hb.top, hb.val]

theorem pow_le (hb : b.Holds n) (hn : 0 < n) : 2 ^ (32 * (b.w.length - 1)) ≤ n := by
  have hne : b.w ≠ [] := fun h => by
    have := hb.nil_iff.mp h
    omega
  rw [← hb.val, pow_mul]
  exact le_limbsVal hb.top hne

end Jbig.Holds

open Jbig

variable {a b : Jbig} {m n : Nat}

theorem fit_holds (hval : limbsVal w = n) (htop : TopNonzero w) (h : n < 2 ^ (32 * JN_LIMBS)) :
    (Jbig.fit false w).Holds n := by
  have hlen : w.length ≤ JN_LIMBS := by
    rw [length_le_iff htop, hval, ← pow_mul]
    exact h
  rw [Jbig.fit, if_pos hlen]
  exact ⟨hval, htop, rfl⟩

theorem jbTrim_holds (hval : limbsVal w = n) : (jbTrim ⟨w, false⟩).Holds n :=
  ⟨by rw [jbTrim, limbsVal_strip, hval], stripLimbs_top _, rfl⟩

theorem jbSet_holds {v : Nat} (h : v < 2 ^ 64) : (jbSet v).Holds v := by
  refine ⟨?_, stripLimbs_top _, rfl⟩
  rw [jbSet, limbsVal_strip, limbsVal_cons, limbsVal_singleton, toNat_limb, toNat_limb, shiftRight_limb]
  omega

/-! ## A limb at a time -/

theorem top_of_length {a : Limbs} (ha : TopNonzero a) (hle : limbsVal a ≤ limbsVal w)
    (hlen : w.length = if (2 ^ 32) ^ a.length ≤ limbsVal w then a.length + 1 else a.length) :
    TopNonzero w := by
  split at hlen
  · next h =>
    apply top_of_le
    rwa [hlen, Nat.add_sub_cancel]
  · by_cases hnil : a = []
    · rw [hnil, List.length_nil, List.length_eq_zero_iff] at hlen
      simp [hlen, TopNonzero]
    · apply top_of_le
      rw [hlen]
      exact (le_limbsVal ha hnil).trans hle

theorem muladd_length (a : Limbs) (m : UInt32) (hc : c < 2 ^ 32) :
    (jsbMagMuladd a m c).length =
      if (2 ^ 32) ^ a.length ≤ limbsVal a * m.toNat + c then a.length + 1 else a.length := by
  induction a generalizing c with
  | nil =>
    unfold jsbMagMuladd
    by_cases hzero : c = 0
    · simp [hzero]
    · simp [hzero, Nat.one_le_iff_ne_zero]
  | cons x a ih =>
    have hcarry := carry_lt hc x.toNat_lt m.toNat_lt (by norm_num : 0 < 2 ^ 32)
    rw [add_zero] at hcarry
    have hiff : (2 ^ 32) ^ a.length ≤ limbsVal a * m.toNat + (c + x.toNat * m.toNat) / 2 ^ 32 ↔
        (2 ^ 32) ^ (a.length + 1) ≤ (x.toNat + 2 ^ 32 * limbsVal a) * m.toNat + c := by
      rw [pow_succ (2 ^ 32) a.length, ← Nat.le_div_iff_mul_le (by norm_num)]
      have hsum : (x.toNat + 2 ^ 32 * limbsVal a) * m.toNat + c
          = (c + x.toNat * m.toNat) + 2 ^ 32 * (limbsVal a * m.toNat) := by ring
      rw [hsum, Nat.add_mul_div_left _ _ (by norm_num), add_comm]
    rw [jsbMagMuladd, List.length_cons, shiftRight_limb, ih hcarry, limbsVal_cons, List.length_cons]
    simp only [hiff]
    split <;> rfl

theorem jbMul_holds (hb : b.Holds n) {m : UInt32} (hm : 0 < m.toNat) (h : n * m.toNat < 2 ^ (32 * JN_LIMBS)) :
    (jbMul b m).Holds (n * m.toNat) := by
  have hval : limbsVal (jsbMagMuladd b.w m 0) = n * m.toNat := by
    rw [jsbMagMuladd_val _ _ (by norm_num), hb.val, add_zero]
  have hle : limbsVal b.w ≤ n * m.toNat := by
    rw [hb.val]
    exact Nat.le_mul_of_pos_right n hm
  have hlen := muladd_length b.w m (c := 0) (by norm_num)
  rw [hb.val, add_zero, ← hval] at hlen
  rw [jbMul, hb.kept]
  exact fit_holds hval (top_of_length hb.top (hval ▸ hle) hlen) h

theorem addFrom_val (a : Limbs) (hc : c < 2 ^ 32) :
    limbsVal (addFrom a c) = limbsVal a + c := by
  induction a generalizing c with
  | nil =>
    unfold addFrom
    split
    · rw [limbsVal_singleton, toNat_limb, Nat.mod_eq_of_lt hc, limbsVal_nil, zero_add]
    · next h => rw [not_not.mp h, add_zero]
  | cons x a ih =>
    have hx := x.toNat_lt
    unfold addFrom
    split
    · next h => rw [h, add_zero]
    · rw [limbsVal_cons, shiftRight_limb, ih (by omega), limbsVal_cons, toNat_limb]
      omega

theorem addFrom_length (a : Limbs) (hc : c < 2 ^ 32) :
    (addFrom a c).length = if (2 ^ 32) ^ a.length ≤ limbsVal a + c then a.length + 1 else a.length := by
  induction a generalizing c with
  | nil =>
    unfold addFrom
    by_cases hzero : c = 0
    · simp [hzero]
    · simp [hzero, Nat.one_le_iff_ne_zero]
  | cons x a ih =>
    have hx := x.toNat_lt
    have hlt := limbsVal_lt (x :: a)
    unfold addFrom
    split
    · next h => rw [if_neg (by omega)]
    · have hiff : (2 ^ 32) ^ a.length ≤ limbsVal a + (x.toNat + c) / 2 ^ 32 ↔
          (2 ^ 32) ^ (a.length + 1) ≤ x.toNat + 2 ^ 32 * limbsVal a + c := by
        rw [pow_succ (2 ^ 32) a.length, ← Nat.le_div_iff_mul_le (by norm_num)]
        omega
      rw [List.length_cons, shiftRight_limb, ih (by omega), limbsVal_cons, List.length_cons]
      simp only [hiff]
      split <;> rfl

theorem jbAdd_holds (hb : b.Holds n) {x : UInt32} (h : n + x.toNat < 2 ^ (32 * JN_LIMBS)) :
    (jbAdd b x).Holds (n + x.toNat) := by
  have hval : limbsVal (addFrom b.w x.toNat) = n + x.toNat := by
    rw [addFrom_val _ x.toNat_lt, hb.val]
  have hle : limbsVal b.w ≤ limbsVal (addFrom b.w x.toNat) := by
    rw [hval, hb.val]
    omega
  have hlen := addFrom_length b.w x.toNat_lt
  rw [hb.val, ← hval] at hlen
  rw [jbAdd, hb.kept]
  exact fit_holds hval (top_of_length hb.top hle hlen) h

theorem subFrom_val {a b : Limbs} (hlen : b.length ≤ a.length) (hc : c ≤ 1)
    (h : limbsVal b + c ≤ limbsVal a) : limbsVal (subFrom a b c) = limbsVal a - (limbsVal b + c) := by
  induction a generalizing b c with
  | nil =>
    obtain rfl : b = [] := List.length_eq_zero_iff.mp (Nat.le_zero.mp hlen)
    simp [subFrom]
  | cons x a ih =>
    have hx := x.toNat_lt
    have hy := (b.headD 0).toNat_lt
    have hb := head_tail b
    have htail : b.tail.length ≤ a.length := by
      rw [List.length_tail]
      exact Nat.sub_le_of_le_add hlen
    rw [limbsVal_cons] at h
    simp only [subFrom]
    split
    · rw [limbsVal_cons, ih htail (by norm_num) (by omega), limbsVal_cons, toNat_limb]
      omega
    · rw [limbsVal_cons, ih htail le_rfl (by omega), limbsVal_cons, toNat_limb]
      omega

theorem jbSub_holds (ha : a.Holds m) (hb : b.Holds n) (h : n ≤ m) : (jbSub a b).Holds (m - n) := by
  have hlen : b.w.length ≤ a.w.length := by
    by_contra hgt
    have hlt := limbsVal_lt_of_length hb.top (not_le.mp hgt)
    rw [ha.val, hb.val] at hlt
    omega
  rw [jbSub, ha.kept]
  apply jbTrim_holds
  rw [subFrom_val hlen (by norm_num) (by rw [ha.val, hb.val]; exact h), ha.val, hb.val, add_zero]

theorem jbCmp_eq (ha : a.Holds m) (hb : b.Holds n) : jbCmp a b = compare m n := by
  rw [jbCmp, jsbMagCmp_eq ha.top hb.top, ha.val, hb.val]

theorem jbShr1_holds (hb : b.Holds n) : (jbShr1 b).Holds (n / 2) := by
  rw [jbShr1, hb.kept]
  apply jbTrim_holds
  rw [shrRow_val (by norm_num), hb.val, pow_one]

/-! ## Powers and digits -/

theorem mul_iterate_holds (hb : b.Holds n) (hbig : 0 < big.toNat) {q : Nat}
    (h : n * big.toNat ^ q < 2 ^ (32 * JN_LIMBS)) :
    ((jbMul · big)^[q] b).Holds (n * big.toNat ^ q) := by
  induction q with
  | zero => rwa [pow_zero, mul_one]
  | succ q ih =>
    rw [pow_succ, ← mul_assoc] at h ⊢
    rw [Function.iterate_succ_apply']
    exact jbMul_holds (ih ((Nat.le_mul_of_pos_right _ hbig).trans_lt h)) hbig h

theorem pow_steps_holds (hb : b.Holds n) {step : Nat}
    (hbase : 1 < base) (hstep : 0 < step) (hbig : big.toNat = base ^ step) (h : n * base ^ k < 2 ^ (32 * JN_LIMBS)) :
    (let r := base ^ (k % step)
     if r > 1 then jbMul ((jbMul · big)^[k / step] b) (UInt32.ofNat r)
     else (jbMul · big)^[k / step] b).Holds (n * base ^ k) := by
  have hpow : n * base ^ k = n * big.toNat ^ (k / step) * base ^ (k % step) := by
    rw [hbig, ← pow_mul, mul_assoc, ← pow_add, Nat.div_add_mod]
  have hr : 0 < base ^ (k % step) := Nat.pow_pos (by omega)
  have hlimb : base ^ (k % step) < 2 ^ 32 := by
    calc base ^ (k % step) ≤ base ^ step := Nat.pow_le_pow_right (by omega) (Nat.mod_lt _ hstep).le
      _ < 2 ^ 32 := hbig ▸ big.toNat_lt
  have hsteps : ((jbMul · big)^[k / step] b).Holds (n * big.toNat ^ (k / step)) := by
    apply mul_iterate_holds hb
    · rw [hbig]
      exact Nat.pow_pos (by omega)
    · exact (Nat.le_mul_of_pos_right _ hr).trans_lt (hpow ▸ h)
  rw [hpow] at h ⊢
  simp only
  split
  · have hnat : (UInt32.ofNat (base ^ (k % step))).toNat = base ^ (k % step) := by
      rw [toNat_limb, Nat.mod_eq_of_lt hlimb]
    have hmul := jbMul_holds hsteps (m := UInt32.ofNat (base ^ (k % step))) (by rwa [hnat]) (by rwa [hnat])
    rwa [hnat] at hmul
  · next hone =>
    have : base ^ (k % step) = 1 := by omega
    rwa [this, mul_one]

theorem jbMulPow_holds (hb : b.Holds n) (hbase : base = 5 ∨ base = 10)
    (h : n * base ^ k < 2 ^ (32 * JN_LIMBS)) : (jbMulPow b base k).Holds (n * base ^ k) := by
  rcases hbase with rfl | rfl
  · exact pow_steps_holds hb (by norm_num) (by norm_num) rfl h
  · exact pow_steps_holds hb (by norm_num) (by norm_num) rfl h

def IsDigit (c : UInt8) : Prop := '0'.toNat ≤ c.toNat ∧ c.toNat ≤ '9'.toNat

instance : DecidablePred IsDigit := fun _ => inferInstanceAs (Decidable (_ ∧ _))

@[simp] theorem digitsNum_nil : digitsNum [] = 0 := rfl

theorem digitsNum_append (x y : Bytes) :
    digitsNum (x ++ y) = digitsNum x * 10 ^ y.length + digitsNum y := by
  induction y using List.reverseRecOn with
  | nil => simp [digitsNum]
  | append_singleton y c ih =>
    rw [← List.append_assoc, digitsNum, List.foldl_append, ← digitsNum, ih, List.length_append,
      List.length_singleton, pow_succ]
    simp only [digitsNum, List.foldl_append, List.foldl_cons, List.foldl_nil]
    ring

theorem digitsNum_lt {dg : Bytes} (hdigits : ∀ c ∈ dg, IsDigit c) : digitsNum dg < 10 ^ dg.length := by
  induction dg using List.reverseRecOn with
  | nil => simp [digitsNum]
  | append_singleton dg c ih =>
    have hc : c.toNat ≤ 57 := (hdigits c (by simp)).2
    have hlt := ih fun c' hc' => hdigits c' (by simp [hc'])
    have hone : digitsNum [c] = c.toNat - 48 := by simp [digitsNum]
    rw [digitsNum_append, hone, List.length_append, List.length_singleton, pow_one, pow_succ]
    omega

theorem digitChunks_holds {dg : Bytes} (hdigits : ∀ c ∈ dg, IsDigit c) {turns : Nat}
    (hturns : dg.length ≤ turns) (hb : b.Holds n)
    (h : (n + 1) * 10 ^ dg.length ≤ 2 ^ (32 * JN_LIMBS)) :
    (digitChunks turns dg b).Holds (n * 10 ^ dg.length + digitsNum dg) := by
  induction turns generalizing dg b n with
  | zero =>
    obtain rfl : dg = [] := List.length_eq_zero_iff.mp (Nat.le_zero.mp hturns)
    simpa [digitChunks, digitsNum] using hb
  | succ turns ih =>
    unfold digitChunks
    split
    · next hnil =>
      subst hnil
      simpa [digitsNum] using hb
    · next hne =>
      have hpos : 0 < dg.length := List.length_pos_iff.mpr hne
      have hnow := @digitsNum_lt (dg.take 9) fun c hc => hdigits c (List.mem_of_mem_take hc)
      have hlen9 : (dg.take 9).length ≤ 9 := by
        rw [List.length_take]
        exact min_le_left _ _
      have hscale : 10 ^ (dg.take 9).length ≤ 10 ^ 9 := Nat.pow_le_pow_right (by norm_num) hlen9
      have hrestlen : (dg.drop 9).length ≤ turns := by
        rw [List.length_drop]
        omega
      have hrestdigits : ∀ c ∈ dg.drop 9, IsDigit c := fun c hc => hdigits c (List.mem_of_mem_drop hc)
      have hsplit := congrArg List.length (List.take_append_drop 9 dg)
      have hnum := digitsNum_append (dg.take 9) (dg.drop 9)
      rw [List.take_append_drop] at hnum
      rw [List.length_append] at hsplit
      rw [hnum]
      rw [← hsplit, pow_add, ← mul_assoc] at h
      rw [← hsplit]
      generalize dg.take 9 = now at *
      generalize dg.drop 9 = rest at *
      have hscalenat : (UInt32.ofNat (10 ^ now.length)).toNat = 10 ^ now.length := by
        rw [toNat_limb, Nat.mod_eq_of_lt (by omega)]
      have hchunk : (UInt32.ofNat (digitsNum now)).toNat = digitsNum now := by
        rw [toNat_limb, Nat.mod_eq_of_lt (by omega)]
      have hpow : 0 < 10 ^ rest.length := by positivity
      have hnext : n * 10 ^ now.length + digitsNum now + 1 ≤ (n + 1) * 10 ^ now.length := by
        rw [Nat.succ_mul]
        omega
      have hroom : n * 10 ^ now.length + digitsNum now + 1 ≤ 2 ^ (32 * JN_LIMBS) :=
        hnext.trans ((Nat.le_mul_of_pos_right _ hpow).trans h)
      have hmul := jbMul_holds hb (m := UInt32.ofNat (10 ^ now.length)) (by rw [hscalenat]; positivity)
        (by rw [hscalenat]; omega)
      have hadd := jbAdd_holds hmul (x := UInt32.ofNat (digitsNum now))
        (by rw [hscalenat, hchunk]; omega)
      rw [hscalenat, hchunk] at hadd
      have hrest := ih hrestdigits hrestlen hadd ((Nat.mul_le_mul_right _ hnext).trans h)
      rw [pow_add, ← mul_assoc, ← add_assoc, ← Nat.add_mul]
      exact hrest

/-! ## Moved up -/

theorem shlRow_getD (a : Limbs) (below : UInt32) {i : Nat} (hi : i ≤ a.length) :
    (shlRow s a below).getD i 0 =
      a.getD i 0 <<< UInt32.ofNat s ||| if i = 0 then below else carryOut s (a.getD (i - 1) 0) := by
  induction a generalizing below i with
  | nil =>
    obtain rfl : i = 0 := Nat.le_zero.mp hi
    simp [shlRow]
  | cons x a ih =>
    cases i with
    | zero => rfl
    | succ i =>
      have hrest := ih (carryOut s x) (Nat.le_of_succ_le_succ hi)
      rw [carryOut] at hrest
      rw [shlRow, List.getD_cons_succ, hrest, List.getD_cons_succ, if_neg (Nat.succ_ne_zero i),
        Nat.add_sub_cancel]
      cases i <;> rfl

theorem shl_limbs (w : Limbs) (words bits : Nat) :
    ((List.range (w.length + words + 1)).map fun i =>
      if bits ≠ 0 then
        (if words ≤ i then w.getD (i - words) 0 else 0) <<< UInt32.ofNat bits |||
          (if words + 1 ≤ i then w.getD (i - words - 1) 0 else 0) >>> UInt32.ofNat (32 - bits)
      else if words ≤ i then w.getD (i - words) 0 else 0)
      = List.replicate words 0 ++ shlRow bits w 0 := by
  apply List.ext_getElem
  · rw [List.length_map, List.length_range, List.length_append, List.length_replicate, shlRow_length]
    omega
  · intro i hi hi'
    rw [List.length_map, List.length_range] at hi
    rw [List.getElem_map, List.getElem_range]
    rcases lt_or_ge i words with hlow | hhigh
    · rw [List.getElem_append_left (by rwa [List.length_replicate]), List.getElem_replicate,
        if_neg (show ¬ words ≤ i by omega), if_neg (show ¬ words + 1 ≤ i by omega)]
      split <;> simp
    · have hlen : (List.replicate words (0 : UInt32)).length = words := List.length_replicate
      have hget := shlRow_getD (s := bits) w 0 (i := i - words) (by omega)
      rw [List.getD_eq_getElem _ _ (by rw [shlRow_length]; omega)] at hget
      rw [List.getElem_append_right (by rw [hlen]; exact hhigh)]
      simp only [hlen, hget, if_pos hhigh, carryOut]
      rcases Nat.eq_or_lt_of_le hhigh with rfl | hmore
      · simp only [Nat.sub_self, if_true, if_neg (Nat.not_succ_le_self words)]
        by_cases hbits : bits = 0 <;> simp [hbits]
      · simp only [if_pos (show words + 1 ≤ i from hmore), if_neg (show ¬ i - words = 0 by omega)]
        by_cases hbits : bits = 0 <;> simp [hbits]

theorem jbShl_holds (hb : b.Holds n) (h : n * 2 ^ s < 2 ^ (32 * (JN_LIMBS - 2))) :
    (jbShl b s).Holds (n * 2 ^ s) := by
  by_cases hnone : b.w = [] ∨ s = 0
  · have hsame : n * 2 ^ s = n := by
      rcases hnone with hnil | rfl
      · rw [hb.nil_iff.mp hnil, zero_mul]
      · rw [pow_zero, mul_one]
    rw [jbShl, if_pos hnone, hsame]
    exact hb
  · have hn : 0 < n := by
      apply Nat.pos_of_ne_zero
      intro hzero
      exact hnone (Or.inl (hb.nil_iff.mpr hzero))
    have hroom : b.w.length + s / 32 + 1 ≤ JN_LIMBS := by
      have hle : 2 ^ (32 * (b.w.length - 1) + s) < 2 ^ (32 * (JN_LIMBS - 2)) := by
        rw [pow_add]
        exact (Nat.mul_le_mul_right _ (hb.pow_le hn)).trans_lt h
      have := (Nat.pow_lt_pow_iff_right (by norm_num)).mp hle
      have hlimbs : JN_LIMBS = 128 := rfl
      omega
    rw [jbShl, if_neg hnone]
    simp only [min_eq_left hroom, hb.kept, Bool.false_or, decide_eq_false (not_lt.mpr hroom)]
    rw [shl_limbs]
    apply jbTrim_holds
    rw [limbsVal_append, limbsVal_zeros, List.length_replicate,
      shlRow_val (Nat.mod_lt _ (by norm_num)) _ (by simp), hb.val, zero_add, UInt32.toNat_zero, add_zero]
    conv_rhs => rw [← Nat.div_add_mod s 32, pow_add, pow_mul]
    ring

/-! ## Bits -/

theorem size_div_pow (h : 0 < n / 2 ^ k) : n.size = k + (n / 2 ^ k).size := by
  have hpow : 0 < 2 ^ k := by positivity
  apply le_antisymm
  · rw [Nat.size_le, pow_add, mul_comm, ← Nat.div_lt_iff_lt_mul hpow]
    exact Nat.lt_size_self _
  · have hlow : 2 ^ ((n / 2 ^ k).size - 1) ≤ n / 2 ^ k := by
      rw [← Nat.lt_size]
      have := Nat.size_pos.mpr h
      omega
    have hlt : k + ((n / 2 ^ k).size - 1) < n.size := by
      rw [Nat.lt_size, pow_add, mul_comm]
      exact (Nat.mul_le_mul_right _ hlow).trans (Nat.div_mul_le_self _ _)
    omega

theorem jbBits_eq (hb : b.Holds n) : jbBits b = n.size := by
  by_cases hnil : b.w = []
  · rw [jbBits, if_pos hnil, hb.nil_iff.mp hnil, Nat.size_zero]
  · have hn : 0 < n := Nat.pos_of_ne_zero fun h => hnil (hb.nil_iff.mpr h)
    have hlen : 0 < b.w.length := List.length_pos_iff.mpr hnil
    have hplace := hb.pow_le hn
    have htop : (b.w.getD (b.w.length - 1) 0).toNat = n / 2 ^ (32 * (b.w.length - 1)) := by
      rw [getD_limbsVal, hb.val, ← pow_mul, Nat.mod_eq_of_lt]
      rw [Nat.div_lt_iff_lt_mul (by positivity), ← pow_add, ← hb.val]
      have hlt := limbsVal_lt b.w
      rwa [← pow_mul, show 32 * b.w.length = 32 + 32 * (b.w.length - 1) by omega] at hlt
    have hsize := size_div_pow (Nat.div_pos hplace (by positivity))
    rw [jbBits, if_neg hnil, htop, hsize, mul_comm]

theorem bit_below_top (hb : b.Holds n) (k : Nat) :
    (if k < n.size then
      ((b.w.getD ((n.size - 1 - k) / 32) 0).toNat >>> ((n.size - 1 - k) % 32)) &&& 1 else 0)
      = n * 2 ^ (k + 1) / 2 ^ n.size % 2 := by
  split
  · next h =>
    have hpow : 2 ^ n.size = 2 ^ (n.size - 1 - k) * 2 ^ (k + 1) := by
      rw [← pow_add]
      congr 1
      omega
    have hbit := testBit_limbsVal b.w (n.size - 1 - k)
    rw [hb.val] at hbit
    rw [Nat.and_one_is_mod, Nat.shiftRight_eq_div_pow, ← Nat.toNat_testBit, ← hbit, Nat.toNat_testBit,
      hpow, Nat.mul_div_mul_right _ _ (by positivity)]
  · next h =>
    have hpow : n * 2 ^ (k + 1) = 2 ^ n.size * (2 * (n * 2 ^ (k - n.size))) := by
      rw [show k + 1 = n.size + 1 + (k - n.size) by omega, pow_add, pow_succ]
      ring
    rw [hpow, Nat.mul_div_cancel_left _ (by positivity), Nat.mul_mod_right]

theorem any_limb (a : Limbs) : a.any (· ≠ 0) = true ↔ limbsVal a ≠ 0 := by
  induction a with
  | nil => simp
  | cons x a ih =>
    have hx : x ≠ 0 ↔ x.toNat ≠ 0 := by rw [ne_eq, ne_eq, ← UInt32.toNat_inj, UInt32.toNat_zero]
    rw [List.any_cons, Bool.or_eq_true, ih, decide_eq_true_eq, hx, limbsVal_cons]
    omega

theorem below_top (n : Nat) :
    n * 2 ^ 64 % 2 ^ n.size ≠ 0 ↔ 64 < n.size ∧ n % 2 ^ (n.size - 64) ≠ 0 := by
  rcases le_or_gt n.size 64 with hle | hgt
  · have hdvd : 2 ^ n.size ∣ n * 2 ^ 64 := Dvd.dvd.mul_left (pow_dvd_pow 2 hle) n
    rw [Nat.mod_eq_zero_of_dvd hdvd]
    simp [not_lt.mpr hle]
  · have hpow : 2 ^ n.size = 2 ^ (n.size - 64) * 2 ^ 64 := by
      rw [← pow_add, Nat.sub_add_cancel hgt.le]
    rw [hpow, Nat.mul_mod_mul_right]
    simp [hgt]

theorem jbTop_eq (hb : b.Holds n) :
    (jbTop b).1 = n * 2 ^ 64 / 2 ^ n.size ∧
      ((jbTop b).2 = true ↔ n * 2 ^ 64 % 2 ^ n.size ≠ 0) := by
  have hbits : ∀ k, (List.range k).foldl (fun r k => r <<< 1 |||
      if k < n.size then ((b.w.getD ((n.size - 1 - k) / 32) 0).toNat >>> ((n.size - 1 - k) % 32)) &&& 1
      else 0) 0 = n * 2 ^ k / 2 ^ n.size := by
    intro k
    induction k with
    | zero =>
      rw [pow_zero, mul_one, Nat.div_eq_of_lt (Nat.lt_size_self n)]
      rfl
    | succ k ih =>
      have hdouble : n * 2 ^ k / 2 ^ n.size = n * 2 ^ (k + 1) / 2 ^ n.size / 2 := by
        rw [Nat.div_div_eq_div_mul, pow_succ, ← Nat.mul_assoc, Nat.mul_div_mul_right _ _ (by norm_num)]
      rw [List.range_succ, List.foldl_append, ih, List.foldl_cons, List.foldl_nil, bit_below_top hb,
        hdouble, ← Nat.shiftLeft_add_eq_or_of_lt (by omega), Nat.shiftLeft_eq]
      omega
  have hsplit : n % 2 ^ (n.size - 64) = n % (2 ^ 32) ^ ((n.size - 64) / 32) +
      (2 ^ 32) ^ ((n.size - 64) / 32) *
        (n / (2 ^ 32) ^ ((n.size - 64) / 32) % 2 ^ ((n.size - 64) % 32)) := by
    rw [← Nat.mod_mul, ← pow_mul, ← pow_add, Nat.div_add_mod]
  have hwords : (b.w.take ((n.size - 64) / 32)).any (· ≠ 0) = true ↔
      n % (2 ^ 32) ^ ((n.size - 64) / 32) ≠ 0 := by
    rw [any_limb, limbsVal_take, hb.val]
  have hrest : (b.w.getD ((n.size - 64) / 32) 0).toNat &&& (1 <<< ((n.size - 64) % 32) - 1)
      = n / (2 ^ 32) ^ ((n.size - 64) / 32) % 2 ^ ((n.size - 64) % 32) := by
    have hdvd : 2 ^ ((n.size - 64) % 32) ∣ 2 ^ 32 :=
      pow_dvd_pow 2 (Nat.mod_lt _ (by norm_num) : (n.size - 64) % 32 < 32).le
    rw [Nat.shiftLeft_eq, one_mul, Nat.and_two_pow_sub_one_eq_mod, getD_limbsVal, hb.val,
      Nat.mod_mod_of_dvd _ hdvd]
  simp only [jbTop, jbBits_eq hb]
  refine ⟨hbits 64, ?_⟩
  rw [decide_eq_true_eq, below_top, hrest, hwords, hsplit]
  have hpos : 0 < (2 ^ 32) ^ ((n.size - 64) / 32) := by positivity
  have hnone : (n.size - 64) % 32 = 0 →
      n / (2 ^ 32) ^ ((n.size - 64) / 32) % 2 ^ ((n.size - 64) % 32) = 0 := by
    intro hzero
    rw [hzero, pow_zero, Nat.mod_one]
  generalize n / (2 ^ 32) ^ ((n.size - 64) / 32) % 2 ^ ((n.size - 64) % 32) = high at *
  generalize (2 ^ 32) ^ ((n.size - 64) / 32) = place at *
  have hplace : place ≠ 0 := hpos.ne'
  rw [ne_eq, ne_eq (_ + _), Nat.add_eq_zero_iff, Nat.mul_eq_zero]
  tauto

end Zelr.Js
