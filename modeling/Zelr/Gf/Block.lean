import Zelr.Gf.Field

/-!
# Strings of sixteen bytes as elements of the field

The first byte's high bit is the constant term, as in GCM, so that a shift of the whole string to the right
multiplies by the root.
-/

open Polynomial

namespace Zelr.Gf

variable {a b bs : List UInt8}

noncomputable section

abbrev F := AdjoinRoot P

instance factIrreducible : Fact (Irreducible P) := ⟨irreducible_P⟩

def root : F := AdjoinRoot.root P

theorem mk_X_pow : AdjoinRoot.mk P (X ^ 128) = AdjoinRoot.mk P (X ^ 7 + X ^ 2 + X + 1) := by
  have hzero := congrArg (AdjoinRoot.mk P) P_eq
  rw [AdjoinRoot.mk_self, map_add] at hzero
  rw [← sub_eq_zero, sub_eq_add]
  exact hzero.symm

/-! ## Bytes -/

def bytePoly (b : UInt8) : (ZMod 2)[X] :=
  ∑ k ∈ Finset.range 8, if b.toNat.testBit (7 - k) then X ^ k else 0

theorem bytePoly_xor (a b : UInt8) : bytePoly (a ^^^ b) = bytePoly a + bytePoly b := by
  unfold bytePoly
  rw [← Finset.sum_add_distrib]
  refine Finset.sum_congr rfl fun k _ => ?_
  rw [UInt8.toNat_xor, Nat.testBit_xor]
  cases a.toNat.testBit (7 - k) <;> cases b.toNat.testBit (7 - k) <;> simp [CharTwo.add_self_eq_zero]

@[simp] theorem bytePoly_zero : bytePoly 0 = 0 := by simp [bytePoly]

theorem bytePoly_coeff (b : UInt8) (k : Nat) :
    (bytePoly b).coeff k = if k < 8 ∧ b.toNat.testBit (7 - k) then 1 else 0 := by
  have hterm : ∀ j, (if b.toNat.testBit (7 - j) then X ^ j else 0 : (ZMod 2)[X]).coeff k =
      if j = k ∧ b.toNat.testBit (7 - k) then 1 else 0 := by
    intro j
    by_cases hj : j = k
    · subst hj
      split <;> simp_all
    · have hright : (if j = k ∧ b.toNat.testBit (7 - k) then 1 else 0 : ZMod 2) = 0 := if_neg fun h => hj h.1
      rw [hright]
      split
      · rw [coeff_X_pow, if_neg (Ne.symm hj)]
      · exact coeff_zero k
  rw [bytePoly, finsetSum_coeff, Finset.sum_congr rfl fun j _ => hterm j]
  by_cases hk : k < 8
  · rw [Finset.sum_eq_single k (fun j _ hj => if_neg fun h => hj h.1)
      fun hout => absurd (Finset.mem_range.mpr hk) hout]
    simp [hk]
  · rw [if_neg fun h => hk h.1]
    refine Finset.sum_eq_zero fun j hj => if_neg fun h => hk ?_
    rw [← h.1]
    exact Finset.mem_range.mp hj

theorem byte_of_coeff {a b : UInt8} (h : ∀ k, k < 8 → (bytePoly a).coeff k = (bytePoly b).coeff k) : a = b := by
  apply UInt8.toNat_inj.mp
  refine Nat.eq_of_testBit_eq fun i => ?_
  obtain hi | hi := Nat.lt_or_ge i 8
  · have hcoeff := h (7 - i) (by omega)
    rw [bytePoly_coeff, bytePoly_coeff, show 7 - (7 - i) = i by omega] at hcoeff
    cases ha : a.toNat.testBit i <;> cases hb : b.toNat.testBit i <;> simp_all <;> omega
  · rw [Nat.testBit_lt_two_pow (a.toNat_lt.trans_le (Nat.pow_le_pow_right (by decide) hi)),
      Nat.testBit_lt_two_pow (b.toNat_lt.trans_le (Nat.pow_le_pow_right (by decide) hi))]

def halved (b before : UInt8) : UInt8 := (b >>> 1) ||| (before <<< 7)

theorem halved_testBit (b c : UInt8) {i : Nat} (hi : i < 8) :
    (halved b c).toNat.testBit i = if i = 7 then c.toNat.testBit 0 else b.toNat.testBit (i + 1) := by
  have hb : b.toNat.testBit 8 = false := Nat.testBit_lt_two_pow b.toNat_lt
  rw [halved, UInt8.toNat_or, UInt8.toNat_shiftRight, UInt8.toNat_shiftLeft, Nat.testBit_or]
  simp only [UInt8.reduceToNat, Nat.reduceMod, Nat.testBit_shiftRight, Nat.testBit_mod_two_pow, Nat.testBit_shiftLeft,
    hi, decide_true, Bool.true_and, Nat.add_comm 1]
  split
  next h =>
    subst h
    simp [hb]
  next h =>
    rw [decide_eq_false (by omega : ¬ 7 ≤ i), Bool.false_and, Bool.or_false]

theorem bytePoly_halved (b c : UInt8) :
    bytePoly (halved b c) + (if b.toNat.testBit 0 then X ^ 8 else 0) =
      (if c.toNat.testBit 0 then 1 else 0) + X * bytePoly b := by
  have hfirst : (halved b c).toNat.testBit 7 = c.toNat.testBit 0 := halved_testBit b c (by decide)
  have hnext : ∀ k, k < 7 → (halved b c).toNat.testBit (7 - (k + 1)) = b.toNat.testBit (7 - k) := by
    intro k hk
    rw [halved_testBit b c (by omega), if_neg (by omega), show 7 - (k + 1) + 1 = 7 - k by omega]
  unfold bytePoly
  rw [Finset.sum_range_succ', Finset.sum_range_succ (fun k => if b.toNat.testBit (7 - k) then X ^ k else 0),
    Finset.sum_congr rfl fun k hk => by rw [hnext k (Finset.mem_range.mp hk)], Nat.sub_zero, hfirst, mul_add,
    Finset.mul_sum]
  have hsum : ∀ k, X * (if b.toNat.testBit (7 - k) then X ^ k else 0 : (ZMod 2)[X]) =
      if b.toNat.testBit (7 - k) then X ^ (k + 1) else 0 := by
    intro k
    split
    · rw [pow_succ']
    · rw [mul_zero]
  rw [Finset.sum_congr rfl fun k _ => hsum k, hsum]
  simp only [pow_zero]
  ring

/-! ## Strings -/

def blockPoly : List UInt8 → (ZMod 2)[X]
  | [] => 0
  | b :: bs => bytePoly b + X ^ 8 * blockPoly bs

def value (bs : List UInt8) : F := AdjoinRoot.mk P (blockPoly bs)

theorem blockPoly_xor (h : a.length = b.length) :
    blockPoly (a.zipWith (· ^^^ ·) b) = blockPoly a + blockPoly b := by
  induction a generalizing b with
  | nil =>
    obtain rfl := List.eq_nil_of_length_eq_zero h.symm
    rw [List.zipWith_nil_left, blockPoly, zero_add]
  | cons x a ih =>
    obtain _ | ⟨y, b⟩ := b
    · cases h
    · rw [List.zipWith_cons_cons, blockPoly, blockPoly, blockPoly, bytePoly_xor, ih (Nat.succ.inj h)]
      ring

theorem value_xor (h : a.length = b.length) :
    value (a.zipWith (· ^^^ ·) b) = value a + value b := by
  rw [value, blockPoly_xor h, map_add]
  rfl

@[simp] theorem blockPoly_zeros (n : Nat) : blockPoly (List.replicate n 0) = 0 := by
  induction n with
  | zero => rfl
  | succ n ih => rw [List.replicate_succ, blockPoly, ih, bytePoly_zero, mul_zero, add_zero]

@[simp] theorem value_zeros (n : Nat) : value (List.replicate n 0) = 0 := by
  rw [value, blockPoly_zeros, map_zero]

theorem blockPoly_coeff (b : UInt8) (bs : List UInt8) (k : Nat) :
    (blockPoly (b :: bs)).coeff k = if k < 8 then (bytePoly b).coeff k else (blockPoly bs).coeff (k - 8) := by
  rw [blockPoly, coeff_add, coeff_X_pow_mul']
  by_cases hk : k < 8
  · rw [if_pos hk, if_neg (Nat.not_le.mpr hk), add_zero]
  · rw [if_neg hk, if_pos (Nat.not_lt.mp hk), bytePoly_coeff, if_neg fun h => hk h.1, zero_add]

theorem blockPoly_degree (bs : List UInt8) : (blockPoly bs).degree < (8 * bs.length : Nat) := by
  rw [degree_lt_iff_coeff_zero]
  induction bs with
  | nil => intro m _; exact coeff_zero m
  | cons b bs ih =>
    intro m hm
    rw [List.length_cons] at hm
    rw [blockPoly_coeff, if_neg (by omega)]
    exact ih (m - 8) (by omega)

theorem blockPoly_injective (hlen : a.length = b.length) (h : blockPoly a = blockPoly b) :
    a = b := by
  induction a generalizing b with
  | nil => exact (List.eq_nil_of_length_eq_zero hlen.symm).symm
  | cons x a ih =>
    obtain _ | ⟨y, b⟩ := b
    · cases hlen
    · have hcoeff : ∀ k, (blockPoly (x :: a)).coeff k = (blockPoly (y :: b)).coeff k := fun k => by rw [h]
      have hxy : x = y := byte_of_coeff fun k hk => by
        have hk' := hcoeff k
        rw [blockPoly_coeff, blockPoly_coeff, if_pos hk, if_pos hk] at hk'
        exact hk'
      have hrest : blockPoly a = blockPoly b := by
        ext k
        have hk' := hcoeff (k + 8)
        rw [blockPoly_coeff, blockPoly_coeff, if_neg (by omega), if_neg (by omega), Nat.add_sub_cancel] at hk'
        exact hk'
      rw [hxy, ih (Nat.succ.inj hlen) hrest]

theorem value_injective (ha : a.length = 16) (hb : b.length = 16) (h : value a = value b) :
    a = b := by
  refine blockPoly_injective (ha.trans hb.symm) (sub_eq_zero.mp ?_)
  have hdvd : P ∣ blockPoly a - blockPoly b := AdjoinRoot.mk_eq_mk.mp h
  have hbits : 8 * 16 = 128 := rfl
  have hda := blockPoly_degree a
  have hdb := blockPoly_degree b
  rw [ha, hbits] at hda
  rw [hb, hbits] at hdb
  refine eq_zero_of_dvd_of_degree_lt hdvd ((degree_sub_le _ _).trans_lt ?_)
  rw [degree_eq_natDegree irreducible_P.ne_zero, natDegree_P]
  exact max_lt hda hdb

/-! ## Shifting -/

def shifted (before : UInt8) (bs : List UInt8) : List UInt8 := bs.zipWith halved (before :: bs)

theorem blockPoly_shifted (c : UInt8) (bs : List UInt8) :
    blockPoly (shifted c bs) +
        (if ((c :: bs).getLast (List.cons_ne_nil c bs)).toNat.testBit 0 then X ^ (8 * bs.length) else 0) =
      (if c.toNat.testBit 0 then 1 else 0) + X * blockPoly bs := by
  induction bs generalizing c with
  | nil => simp [shifted, blockPoly]
  | cons b bs ih =>
    have hrest := ih b
    have hhead := bytePoly_halved b c
    have hpow : ∀ q : Prop, ∀ [Decidable q], (if q then X ^ (8 * (b :: bs).length) else 0 : (ZMod 2)[X]) =
        X ^ 8 * if q then X ^ (8 * bs.length) else 0 := by
      intro q _
      split
      · rw [← pow_add, List.length_cons]
        congr 1
        omega
      · rw [mul_zero]
    have hout : (if b.toNat.testBit 0 then X ^ 8 else 0 : (ZMod 2)[X]) = X ^ 8 * if b.toNat.testBit 0 then 1 else 0 := by
      split
      · rw [mul_one]
      · rw [mul_zero]
    rw [hout] at hhead
    rw [List.getLast_cons (List.cons_ne_nil b bs), hpow]
    change bytePoly (halved b c) + X ^ 8 * blockPoly (shifted b bs) + _ = _ + X * (bytePoly b + X ^ 8 * blockPoly bs)
    linear_combination hhead + X ^ 8 * hrest

/-! ## Bits -/

def bitAt (bs : List UInt8) (j : Nat) : Bool := (bs.getD (j / 8) 0).toNat.testBit (7 - j % 8)

theorem blockPoly_sum (bs : List UInt8) :
    blockPoly bs = ∑ j ∈ Finset.range (8 * bs.length), if bitAt bs j then X ^ j else 0 := by
  induction bs with
  | nil => simp [blockPoly]
  | cons b bs ih =>
    have hfirst : ∀ j ∈ Finset.range 8, (if bitAt (b :: bs) j then X ^ j else 0 : (ZMod 2)[X]) =
        if b.toNat.testBit (7 - j) then X ^ j else 0 := by
      intro j hj
      have hlt := Finset.mem_range.mp hj
      rw [bitAt, Nat.div_eq_of_lt hlt, Nat.mod_eq_of_lt hlt, List.getD_cons_zero]
    have hrest : ∀ j ∈ Finset.range (8 * bs.length), (if bitAt (b :: bs) (8 + j) then X ^ (8 + j) else 0 : (ZMod 2)[X]) =
        X ^ 8 * if bitAt bs j then X ^ j else 0 := by
      intro j _
      have hbit : bitAt (b :: bs) (8 + j) = bitAt bs j := by
        rw [bitAt, Nat.add_div_left j (by decide), List.getD_cons_succ, Nat.add_mod_left, bitAt]
      rw [hbit]
      split
      · rw [pow_add]
      · rw [mul_zero]
    rw [List.length_cons, Nat.mul_succ, Nat.add_comm, Finset.sum_range_add, Finset.sum_congr rfl hfirst,
      Finset.sum_congr rfl hrest, ← Finset.mul_sum, ← ih, blockPoly, bytePoly]

theorem value_sum (h : bs.length = 16) :
    value bs = ∑ j ∈ Finset.range 128, if bitAt bs j then root ^ j else 0 := by
  rw [value, blockPoly_sum, h, map_sum]
  refine Finset.sum_congr rfl fun j _ => ?_
  split
  · rw [map_pow, AdjoinRoot.mk_X]
    rfl
  · exact map_zero _

theorem value_shifted (h : bs.length = 16) :
    value (shifted 0 bs) + (if (bs.getD 15 0).toNat.testBit 0 then AdjoinRoot.mk P (X ^ 7 + X ^ 2 + X + 1) else 0) =
      root * value bs := by
  have hshift := congrArg (AdjoinRoot.mk P) (blockPoly_shifted 0 bs)
  have hlast : ((0 : UInt8) :: bs).getLast (List.cons_ne_nil 0 bs) = bs.getD 15 0 := by
    rw [List.getLast_eq_getElem, List.getD_eq_getElem _ _ (by omega)]
    simp [h]
  have hzero : (0 : UInt8).toNat.testBit 0 = false := rfl
  rw [hlast, hzero, h, if_neg Bool.false_ne_true, zero_add, map_mul, AdjoinRoot.mk_X, map_add] at hshift
  rw [value, root, value, ← hshift]
  congr 1
  split
  · exact mk_X_pow.symm
  · exact (map_zero _).symm

theorem value_set_zero (bs : List UInt8) (m : UInt8) (h : bs ≠ []) :
    value (bs.set 0 (bs.getD 0 0 ^^^ m)) = value bs + AdjoinRoot.mk P (bytePoly m) := by
  obtain _ | ⟨b, bs⟩ := bs
  · exact absurd rfl h
  · rw [List.set_cons_zero, List.getD_cons_zero, value, value, ← map_add]
    congr 1
    rw [blockPoly, blockPoly, bytePoly_xor]
    ring

end

end Zelr.Gf
