import Mathlib.Tactic.LinearCombination
import Zelr.Base.Quotient
import Zelr.Js.Mag

/-!
# Long division is exact

The shifts that bring the divisor's top bit up and take it down again, the estimate that is at most one
too great after its two corrections, and the multiply and subtract that is added back to once.
-/

namespace Zelr.Js

variable {s : Nat}

/-! ## Shifting by less than a limb -/

theorem top_bit (x : UInt32) : x &&& 0x80000000 ≠ 0 ↔ 2 ^ 31 ≤ x.toNat := by
  have hx := x.toNat_lt
  have hand : (x &&& 0x80000000).toNat = (x.toNat.testBit 31).toNat * 2 ^ 31 := by
    rw [UInt32.toNat_and]
    exact Nat.and_two_pow x.toNat 31
  have hbit : x.toNat.testBit 31 = true ↔ 2 ^ 31 ≤ x.toNat := by
    rw [Nat.testBit_eq_decide_div_mod_eq, decide_eq_true_eq]
    omega
  rw [← hbit, ne_eq, ← UInt32.toNat_inj, hand, UInt32.toNat_zero]
  cases x.toNat.testBit 31 <;> simp

theorem clzFrom_spec (turns : Nat) (x : UInt32) (h : 2 ^ 31 ≤ x.toNat * 2 ^ turns) :
    clzFrom turns x ≤ turns ∧ 2 ^ 31 ≤ x.toNat * 2 ^ clzFrom turns x ∧
      x.toNat * 2 ^ clzFrom turns x < 2 ^ 32 := by
  induction turns generalizing x with
  | zero => exact ⟨le_refl _, h, by simpa [clzFrom] using x.toNat_lt⟩
  | succ turns ih =>
    by_cases htop : x &&& 0x80000000 ≠ 0
    · have hx := x.toNat_lt
      have hle := (top_bit x).mp htop
      have heq : clzFrom (turns + 1) x = 0 := by simp [clzFrom, htop]
      rw [heq, pow_zero, mul_one]
      exact ⟨Nat.zero_le _, hle, hx⟩
    · have hlt : x.toNat < 2 ^ 31 := by
        rw [top_bit] at htop
        omega
      have hshift : (x <<< 1).toNat = x.toNat * 2 := by
        have hone : (1 : UInt32).toNat % 32 = 1 := rfl
        rw [UInt32.toNat_shiftLeft, hone, Nat.shiftLeft_eq]
        omega
      have heq : clzFrom (turns + 1) x = clzFrom turns (x <<< 1) + 1 := by
        simp only [clzFrom, htop, if_false]
      have hnext := ih (x <<< 1) (by rwa [hshift, mul_assoc, ← pow_succ'])
      rw [hshift, mul_assoc, ← pow_succ'] at hnext
      rw [heq]
      exact ⟨Nat.succ_le_succ hnext.1, hnext.2⟩

theorem jsbClz_spec {x : UInt32} (hx : x ≠ 0) :
    jsbClz x ≤ 31 ∧ 2 ^ 31 ≤ x.toNat * 2 ^ jsbClz x ∧ x.toNat * 2 ^ jsbClz x < 2 ^ 32 := by
  have hpos : 1 ≤ x.toNat := by
    apply Nat.one_le_iff_ne_zero.mpr
    intro hzero
    exact hx (UInt32.toNat.inj hzero)
  have heq : jsbClz x = clzFrom 31 x := by simp [jsbClz, hx]
  rw [heq]
  exact clzFrom_spec 31 x (by omega)

theorem pow_split (hs : s < 32) : (2 : Nat) ^ 32 = 2 ^ (32 - s) * 2 ^ s := by
  rw [← pow_add]
  congr 1
  omega

theorem shl_limb (hs : s < 32) (x below : UInt32) (hbelow : below.toNat < 2 ^ s) :
    (x <<< UInt32.ofNat s ||| below).toNat = x.toNat % 2 ^ (32 - s) * 2 ^ s + below.toNat := by
  have hs' : (UInt32.ofNat s).toNat % 32 = s := by
    rw [toNat_limb]
    omega
  rw [UInt32.toNat_or, UInt32.toNat_shiftLeft, hs', Nat.shiftLeft_eq, pow_split hs,
    Nat.mul_mod_mul_right, ← Nat.shiftLeft_eq, ← Nat.shiftLeft_add_eq_or_of_lt hbelow]

theorem shr_limb (hs : s < 32) (x : UInt32) :
    (x >>> UInt32.ofNat s).toNat = x.toNat / 2 ^ s := by
  have hs' : (UInt32.ofNat s).toNat % 32 = s := by
    rw [toNat_limb]
    omega
  rw [UInt32.toNat_shiftRight, hs', Nat.shiftRight_eq_div_pow]

@[simp] theorem shlRow_length (s : Nat) (a : Limbs) (below : UInt32) :
    (shlRow s a below).length = a.length + 1 := by
  induction a generalizing below with
  | nil => rfl
  | cons x a ih => simp [shlRow, ih]

def carryOut (s : Nat) (x : UInt32) : UInt32 :=
  if s ≠ 0 then x >>> UInt32.ofNat (32 - s) else 0

theorem carryOut_val (hs : s < 32) (x : UInt32) :
    (carryOut s x).toNat = x.toNat / 2 ^ (32 - s) := by
  have hx := x.toNat_lt
  by_cases hzero : s = 0
  · subst hzero
    simp [carryOut]
    omega
  · simp only [carryOut, ne_eq, hzero, not_false_eq_true, if_true]
    exact shr_limb (by omega) x

theorem shlRow_val (hs : s < 32) (a : Limbs) {below : UInt32} (hbelow : below.toNat < 2 ^ s) :
    limbsVal (shlRow s a below) = limbsVal a * 2 ^ s + below.toNat := by
  induction a generalizing below with
  | nil => simp [shlRow]
  | cons x a ih =>
    have hx := x.toNat_lt
    have hcarry := carryOut_val hs x
    have hlt : (carryOut s x).toNat < 2 ^ s := by
      rw [hcarry, Nat.div_lt_iff_lt_mul (by positivity), mul_comm, ← pow_split hs]
      exact hx
    have hrest := ih hlt
    have hsplit := Nat.div_add_mod x.toNat (2 ^ (32 - s))
    rw [carryOut] at hrest hcarry
    rw [shlRow, limbsVal_cons, hrest, shl_limb hs x below hbelow, hcarry, limbsVal_cons]
    conv_rhs => rw [← hsplit]
    rw [pow_split hs]
    ring

theorem shrRow_limb (hs : s < 32) (x y : UInt32) :
    (x >>> UInt32.ofNat s ||| (if s ≠ 0 then y <<< UInt32.ofNat (32 - s) else 0)).toNat
      = x.toNat / 2 ^ s + 2 ^ (32 - s) * (y.toNat % 2 ^ s) := by
  have hx := x.toNat_lt
  by_cases hzero : s = 0
  · subst hzero
    simp [Nat.mod_one]
  · have hlow : (x >>> UInt32.ofNat s).toNat < 2 ^ (32 - s) := by
      rw [shr_limb hs, Nat.div_lt_iff_lt_mul (by positivity), ← pow_split hs]
      exact hx
    have hback : 32 - (32 - s) = s := by omega
    rw [if_pos hzero, UInt32.or_comm, shl_limb (by omega) y _ hlow, shr_limb hs, hback]
    ring

theorem shrRow_val (hs : s < 32) (a : Limbs) : limbsVal (shrRow s a) = limbsVal a / 2 ^ s := by
  induction a with
  | nil => simp [shrRow]
  | cons x a ih =>
    have hhead : (a.headD 0).toNat % 2 ^ s = limbsVal a % 2 ^ s := by
      rw [head_tail a, pow_split hs, mul_comm (2 ^ (32 - s)), mul_assoc, Nat.add_mul_mod_self_left]
    have hsplit := Nat.div_add_mod (limbsVal a) (2 ^ s)
    have hmul : 2 ^ 32 * limbsVal a = 2 ^ s * (2 ^ (32 - s) * limbsVal a) := by
      rw [pow_split hs]
      ring
    rw [shrRow, limbsVal_cons, shrRow_limb hs, hhead, ih, limbsVal_cons, hmul,
      Nat.add_mul_div_left _ _ (by positivity)]
    conv_rhs => rw [← hsplit]
    rw [pow_split hs]
    ring

/-! ## The estimate -/

open LongDivision

section Estimate

variable {P u0 u1 u2 r v1 v2 s q : Nat}

theorem lowerQhat_spec (hr : r < P) (hs : s < P) (hv1 : 2 ^ 31 ≤ v1) (hu1 : u1 < 2 ^ 32)
    (hu2 : u2 < 2 ^ 32) (hv2 : v2 < 2 ^ 32)
    (hsmall : dividend (2 ^ 32) P u0 u1 u2 r < 2 ^ 32 * divisor (2 ^ 32) P v1 v2 s)
    (hq : q * divisor (2 ^ 32) P v1 v2 s ≤ dividend (2 ^ 32) P u0 u1 u2 r)
    (hq1 : dividend (2 ^ 32) P u0 u1 u2 r < (q + 1) * divisor (2 ^ 32) P v1 v2 s)
    {turns qhat rhat : Nat} (hrhat : qhat * v1 + rhat = u0 * 2 ^ 32 + u1) (hbelow : rhat < 2 ^ 32)
    (hturns : 2 ^ 32 ≤ rhat + turns * v1) (hle : q ≤ qhat) :
    q ≤ lowerQhat v1 v2 u2 turns qhat rhat ∧ lowerQhat v1 v2 u2 turns qhat rhat ≤ q + 1 ∧
      lowerQhat v1 v2 u2 turns qhat rhat < 2 ^ 32 := by
  have hqlt : q < 2 ^ 32 := by
    by_contra hge
    have := Nat.mul_le_mul_right (divisor (2 ^ 32) P v1 v2 s) (not_lt.mp hge)
    omega
  induction turns generalizing qhat rhat with
  | zero => omega
  | succ turns ih =>
    have hor := two_limbs rhat hu2
    by_cases hgreat : qhat ≥ 2 ^ 32 ∨ qhat * v2 > rhat * 2 ^ 32 + u2
    · -- Either way it is above the quotient.
      have habove : q < qhat := by
        rcases hgreat with hdigit | hsecond
        · omega
        · exact lt_of_second hr hrhat hsecond hq
      have hnext : (qhat - 1) * v1 + (rhat + v1) = u0 * 2 ^ 32 + u1 := by
        obtain ⟨below, rfl⟩ : ∃ below, qhat = below + 1 := ⟨qhat - 1, by omega⟩
        rw [add_mul, one_mul] at hrhat
        rw [Nat.add_sub_cancel]
        omega
      by_cases hbreak : rhat + v1 ≥ 2 ^ 32
      · have heq : lowerQhat v1 v2 u2 (turns + 1) qhat rhat = qhat - 1 := by
          simp only [lowerQhat, hor, hgreat, if_true, hbreak]
        have hu0 : u0 ≤ v1 := first_le hs hv2 hsmall
        have hdigit : qhat - 1 < 2 ^ 32 := by
          have htop : u0 * 2 ^ 32 ≤ v1 * 2 ^ 32 := Nat.mul_le_mul_right _ hu0
          apply Nat.lt_of_mul_lt_mul_right (a := v1)
          omega
        have hsecond : (qhat - 1) * v2 ≤ (rhat + v1) * 2 ^ 32 + u2 := by
          calc (qhat - 1) * v2 ≤ 2 ^ 32 * 2 ^ 32 := Nat.mul_le_mul hdigit.le hv2.le
            _ ≤ (rhat + v1) * 2 ^ 32 := Nat.mul_le_mul_right _ hbreak
            _ ≤ (rhat + v1) * 2 ^ 32 + u2 := Nat.le_add_right _ _
        have hnear := le_succ_of_second hs (by omega) hdigit.le hnext hsecond hq1
        rw [heq]
        omega
      · have heq : lowerQhat v1 v2 u2 (turns + 1) qhat rhat
            = lowerQhat v1 v2 u2 turns (qhat - 1) (rhat + v1) := by
          simp only [lowerQhat, hor, hgreat, if_true, hbreak, if_false]
        rw [add_mul, one_mul] at hturns
        rw [heq]
        exact ih hnext (by omega) (by omega) (by omega)
    · have heq : lowerQhat v1 v2 u2 (turns + 1) qhat rhat = qhat := by
        simp only [lowerQhat, hor, hgreat, if_false]
      obtain ⟨hdigit, hsecond⟩ : qhat < 2 ^ 32 ∧ qhat * v2 ≤ rhat * 2 ^ 32 + u2 := by
        rw [not_or] at hgreat
        omega
      have hnear := le_succ_of_second hs (by omega) hdigit.le hrhat hsecond hq1
      rw [heq]
      exact ⟨hle, hnear, hdigit⟩

end Estimate

/-! ## Multiply and subtract -/

theorem lowLimb_val (t : Int) : ((lowLimb t).toNat : Int) = t % 2 ^ 32 := by
  have hnonneg : 0 ≤ t % 2 ^ 32 := Int.emod_nonneg t (by norm_num)
  have hlt : t % 2 ^ 32 < 2 ^ 32 := Int.emod_lt_of_pos t (by norm_num)
  rw [lowLimb, toNat_limb, Nat.mod_eq_of_lt (by omega), Int.toNat_of_nonneg hnonneg]

variable {u v : Limbs} {k : Nat}

theorem mulSubRow_length (qhat : Nat) (borrow : Int) (hlen : u.length = v.length + 1) :
    (mulSubRow qhat u v borrow).1.length = v.length + 1 := by
  induction v generalizing u borrow with
  | nil =>
    obtain ⟨x, rfl⟩ := List.length_eq_one_iff.mp hlen
    rfl
  | cons y v ih =>
    cases u with
    | nil => cases hlen
    | cons x u => simp [mulSubRow, ih _ (Nat.succ.inj hlen)]

theorem mulSubRow_val (qhat : Nat) (borrow : Int) (hlen : u.length = v.length + 1) :
    (limbsVal (mulSubRow qhat u v borrow).1 : Int)
        + (2 ^ 32) ^ (v.length + 1) * ((mulSubRow qhat u v borrow).2 / 2 ^ 32)
      = limbsVal u - qhat * limbsVal v - borrow := by
  induction v generalizing u borrow with
  | nil =>
    obtain ⟨x, rfl⟩ := List.length_eq_one_iff.mp hlen
    have hsplit := Int.emod_add_mul_ediv ((x.toNat : Int) - borrow) (2 ^ 32)
    simp only [mulSubRow, limbsVal_singleton, limbsVal_nil, lowLimb_val, List.length_nil, zero_add,
      pow_one, Nat.cast_zero, mul_zero, sub_zero]
    omega
  | cons y v ih =>
    cases u with
    | nil => cases hlen
    | cons x u =>
      have hmask : qhat * y.toNat &&& 0xFFFFFFFF = qhat * y.toNat % 2 ^ 32 :=
        Nat.and_two_pow_sub_one_eq_mod _ 32
      have hshift : ∀ t : Int, t >>> (32 : Nat) = t / 2 ^ 32 := fun t => Int.shiftRight_eq_div_pow t 32
      have hprod := Nat.div_add_mod (qhat * y.toNat) (2 ^ 32)
      have hcast : (qhat : Int) * y.toNat = ((qhat * y.toNat : Nat) : Int) := by push_cast; ring
      simp only [mulSubRow, limbsVal_cons, List.length_cons, hmask, hshift, shiftRight_limb]
      generalize ht : (x.toNat : Int) - borrow - ((qhat * y.toNat % 2 ^ 32 : Nat) : Int) = t
      have hsplit := Int.emod_add_mul_ediv t (2 ^ 32)
      have hlow := lowLimb_val t
      have hrest := ih (((qhat * y.toNat / 2 ^ 32 : Nat) : Int) - t / 2 ^ 32) (Nat.succ.inj hlen)
      generalize mulSubRow qhat u v (((qhat * y.toNat / 2 ^ 32 : Nat) : Int) - t / 2 ^ 32) = rest at hrest ⊢
      generalize qhat * y.toNat = p at hprod ht hrest hcast
      rw [pow_succ _ (v.length + 1)]
      generalize ((2 : Int) ^ 32) ^ (v.length + 1) = place at hrest ⊢
      zify at hprod
      push_cast at hrest hprod hcast ht ⊢
      norm_num at hsplit hlow
      linear_combination 2 ^ 32 * hrest + hlow + hsplit - ht - hprod + hcast

theorem addBackRow_length (k : Nat) (hlen : u.length = v.length + 1) :
    (addBackRow u v k).length = v.length + 1 := by
  induction v generalizing u k with
  | nil =>
    obtain ⟨x, rfl⟩ := List.length_eq_one_iff.mp hlen
    rfl
  | cons y v ih =>
    cases u with
    | nil => cases hlen
    | cons x u => simp [addBackRow, ih _ (Nat.succ.inj hlen)]

theorem addBackRow_val (k : Nat) (hlen : u.length = v.length + 1) :
    ∃ c, limbsVal (addBackRow u v k) + (2 ^ 32) ^ (v.length + 1) * c
      = limbsVal u + limbsVal v + k := by
  induction v generalizing u k with
  | nil =>
    obtain ⟨x, rfl⟩ := List.length_eq_one_iff.mp hlen
    refine ⟨(x.toNat + k) / 2 ^ 32, ?_⟩
    have hx := x.toNat_lt
    simp only [addBackRow, limbsVal_singleton, limbsVal_nil, UInt32.toNat_add, toNat_limb,
      List.length_nil, zero_add, pow_one, add_zero]
    omega
  | cons y v ih =>
    cases u with
    | nil => cases hlen
    | cons x u =>
      obtain ⟨c, hc⟩ := ih ((k + (x.toNat + y.toNat)) / 2 ^ 32) (Nat.succ.inj hlen)
      refine ⟨c, ?_⟩
      simp only [addBackRow, limbsVal_cons, toNat_limb, shiftRight_limb, List.length_cons,
        pow_succ' (2 ^ 32) (v.length + 1), mul_assoc]
      omega

/-! ## One digit -/

theorem top_three (h : u.length = k + 3) :
    ∃ low x y z, u = low ++ [x, y, z] ∧ low.length = k := by
  have hlen : (u.drop k).length = 3 := by simp [h]
  obtain ⟨x, y, z, hxyz⟩ := List.length_eq_three.mp hlen
  refine ⟨u.take k, x, y, z, ?_, by simp [h]⟩
  rw [← hxyz, List.take_append_drop]

theorem top_two (h : v.length = k + 2) :
    ∃ low x y, v = low ++ [x, y] ∧ low.length = k := by
  have hlen : (v.drop k).length = 2 := by simp [h]
  obtain ⟨x, y, hxy⟩ := List.length_eq_two.mp hlen
  refine ⟨v.take k, x, y, ?_, by simp [h]⟩
  rw [← hxy, List.take_append_drop]

theorem divStep_qhat (hv : v.length = k + 2) (hu : u.length = k + 3)
    (htop : 2 ^ 31 ≤ (v.getD (k + 1) 0).toNat) (hsmall : limbsVal u < 2 ^ 32 * limbsVal v) :
    ∃ qhat, qhat < 2 ^ 32 ∧ limbsVal u / limbsVal v ≤ qhat ∧ qhat ≤ limbsVal u / limbsVal v + 1 ∧
      divStep v u = if (mulSubRow qhat u v 0).2 < 0 then
        (UInt32.ofNat qhat - 1, addBackRow (mulSubRow qhat u v 0).1 v 0)
        else (UInt32.ofNat qhat, (mulSubRow qhat u v 0).1) := by
  obtain ⟨lowu, x2, x1, x0, hu', hlowu⟩ := top_three hu
  obtain ⟨lowv, y2, y1, hv', hlowv⟩ := top_two hv
  have hr := limbsVal_lt lowu
  have hs := limbsVal_lt lowv
  rw [hlowu] at hr
  rw [hlowv] at hs
  have hdividend : limbsVal u
      = dividend (2 ^ 32) ((2 ^ 32) ^ k) x0.toNat x1.toNat x2.toNat (limbsVal lowu) := by
    rw [hu', limbsVal_append, hlowu, dividend]
    simp only [limbsVal_cons, limbsVal_nil]
    ring
  have hdivisor : limbsVal v = divisor (2 ^ 32) ((2 ^ 32) ^ k) y1.toNat y2.toNat (limbsVal lowv) := by
    rw [hv', limbsVal_append, hlowv, divisor]
    simp only [limbsVal_cons, limbsVal_nil]
    ring
  have hu0 : u.getD (k + 2) 0 = x0 := by simp [hu', hlowu]
  have hu1 : u.getD (k + 1) 0 = x1 := by simp [hu', hlowu]
  have hu2 : u.getD k 0 = x2 := by simp [hu', hlowu]
  have hv1 : v.getD (k + 1) 0 = y1 := by simp [hv', hlowv]
  have hv2 : v.getD k 0 = y2 := by simp [hv', hlowv]
  rw [hv1] at htop
  have hpos : 0 < limbsVal v := by
    rw [hdivisor, divisor]
    have : 0 < (y1.toNat * 2 ^ 32 + y2.toNat) * (2 ^ 32) ^ k := by positivity
    omega
  have hmod := Nat.div_add_mod' (x0.toNat * 2 ^ 32 + x1.toNat) y1.toNat
  have hmodlt := Nat.mod_lt (x0.toNat * 2 ^ 32 + x1.toNat) (show y1.toNat > 0 by omega)
  have hy1 := y1.toNat_lt
  have hq := Nat.div_mul_le_self (limbsVal u) (limbsVal v)
  have hq1 : limbsVal u < (limbsVal u / limbsVal v + 1) * limbsVal v := by
    rw [mul_comm]
    exact Nat.lt_mul_div_succ _ hpos
  have hfirst : limbsVal u / limbsVal v ≤ (x0.toNat * 2 ^ 32 + x1.toNat) / y1.toNat := by
    rw [hdividend, hdivisor] at hq ⊢
    exact le_estimate hr x2.toNat_lt (by omega) hq
  rw [hdividend, hdivisor] at hsmall hq hq1 hfirst
  have hturns : 2 ^ 32 ≤ (x0.toNat * 2 ^ 32 + x1.toNat) % y1.toNat + 2 * y1.toNat := by omega
  have hspec := lowerQhat_spec hr hs htop x1.toNat_lt x2.toNat_lt y2.toNat_lt hsmall hq hq1 hmod
    (by omega) hturns hfirst
  refine ⟨_, hspec.2.2, ?_, ?_, ?_⟩
  · rw [hdividend, hdivisor]
    exact hspec.1
  · rw [hdividend, hdivisor]
    exact hspec.2.1
  · simp only [divStep, hv, Nat.add_sub_cancel, show k + 2 - 1 = k + 1 from rfl, hu0, hu1, hu2, hv1,
      hv2, two_limbs _ x1.toNat_lt]

theorem above_unique {place x y h k : Int} (hx : 0 ≤ x) (hxlt : x < place) (hy : 0 ≤ y)
    (hylt : y < place) (heq : x + place * h = y + place * k) : h = k ∧ x = y := by
  have hpos : place ≠ 0 := by omega
  have hh : (x + place * h) / place = h := by
    rw [Int.add_mul_ediv_left _ _ hpos, Int.ediv_eq_zero_of_lt hx hxlt, zero_add]
  have hk : (y + place * k) / place = k := by
    rw [Int.add_mul_ediv_left _ _ hpos, Int.ediv_eq_zero_of_lt hy hylt, zero_add]
  have hhk : h = k := by rw [← hh, heq, hk]
  subst hhk
  exact ⟨rfl, by omega⟩

theorem divStep_val (hv : v.length = k + 2) (hu : u.length = k + 3)
    (htop : 2 ^ 31 ≤ (v.getD (k + 1) 0).toNat) (hsmall : limbsVal u < 2 ^ 32 * limbsVal v) :
    (divStep v u).1.toNat = limbsVal u / limbsVal v ∧
      limbsVal (divStep v u).2 = limbsVal u % limbsVal v ∧ (divStep v u).2.length = k + 3 := by
  obtain ⟨qhat, hdigit, hle, hnear, hstep⟩ := divStep_qhat hv hu htop hsmall
  have hlen : u.length = v.length + 1 := by omega
  have hrow := mulSubRow_val qhat 0 hlen
  have hrowlen := mulSubRow_length qhat 0 hlen
  have hrowlt := limbsVal_lt (mulSubRow qhat u v 0).1
  obtain ⟨c, hback⟩ := addBackRow_val (v := v) 0 hrowlen
  have hbacklen := addBackRow_length (v := v) 0 hrowlen
  have hbacklt := limbsVal_lt (addBackRow (mulSubRow qhat u v 0).1 v 0)
  rw [hrowlen] at hrowlt
  rw [hbacklen] at hbacklt
  have hvlt : limbsVal v < (2 ^ 32) ^ (v.length + 1) :=
    (limbsVal_lt v).trans (Nat.pow_lt_pow_right (by norm_num) (Nat.lt_succ_self _))
  have hpos : 0 < limbsVal v := by omega
  have hdm := Nat.div_add_mod' (limbsVal u) (limbsVal v)
  have hremlt := Nat.mod_lt (limbsVal u) hpos
  generalize limbsVal u / limbsVal v = q at hle hnear hdm ⊢
  generalize limbsVal u % limbsVal v = rem at hdm hremlt ⊢
  generalize hplace : (2 ^ 32) ^ (v.length + 1) = place at hrowlt hbacklt hvlt hback
  have hplace' : ((2 : Int) ^ 32) ^ (v.length + 1) = place := by rw [← hplace]; push_cast; rfl
  rw [hplace'] at hrow
  zify at hdm
  rcases Nat.lt_or_ge q qhat with hover | hexact
  · -- One too great: the difference is below zero, and the divisor goes back in once.
    obtain rfl : qhat = q + 1 := by omega
    have hdiff : (limbsVal (mulSubRow (q + 1) u v 0).1 : Int)
        + place * ((mulSubRow (q + 1) u v 0).2 / 2 ^ 32)
        = ((place + rem - limbsVal v : Nat) : Int) + place * (-1) := by
      rw [hrow]
      push_cast [show limbsVal v ≤ place + rem by omega]
      linear_combination -hdm
    obtain ⟨hhigh, hlow⟩ := above_unique (by omega) (by omega) (by omega) (by omega) hdiff
    have hneg : (mulSubRow (q + 1) u v 0).2 < 0 := by omega
    have hlow : limbsVal (mulSubRow (q + 1) u v 0).1 = place + rem - limbsVal v := by omega
    rw [hstep, if_pos hneg]
    dsimp only
    refine ⟨?_, ?_, by omega⟩
    · have hone : (1 : UInt32).toNat = 1 := rfl
      rw [UInt32.toNat_sub, toNat_limb, hone]
      omega
    · have hback' : (limbsVal (addBackRow (mulSubRow (q + 1) u v 0).1 v 0) : Int) + place * (c : Int)
          = rem + place * 1 := by
        zify at hback
        rw [hback]
        omega
      have := (above_unique (by omega) (by omega) (by omega) (by omega) hback').2
      omega
  · obtain rfl : qhat = q := by omega
    have hdiff : (limbsVal (mulSubRow qhat u v 0).1 : Int)
        + place * ((mulSubRow qhat u v 0).2 / 2 ^ 32) = (rem : Int) + place * 0 := by
      rw [hrow]
      linear_combination -hdm
    obtain ⟨hhigh, hlow⟩ := above_unique (by omega) (by omega) (by omega) (by omega) hdiff
    have hnonneg : ¬ (mulSubRow qhat u v 0).2 < 0 := by omega
    rw [hstep, if_neg hnonneg]
    dsimp only
    refine ⟨?_, by omega, by omega⟩
    rw [toNat_limb]
    omega

/-! ## All the digits -/

theorem divLoop_val {top : Limbs} (hv : v.length = k + 2)
    (htop : 2 ^ 31 ≤ (v.getD (k + 1) 0).toNat) (hlen : top.length = k + 2)
    (hsmall : limbsVal top < limbsVal v) (low : Limbs) :
    limbsVal (low ++ top) = limbsVal (divLoop v low top).1 * limbsVal v + limbsVal (divLoop v low top).2 ∧
      limbsVal (divLoop v low top).2 < limbsVal v ∧ k + 2 ≤ (divLoop v low top).2.length := by
  induction low with
  | nil => exact ⟨by simp [divLoop], hsmall, hlen.ge⟩
  | cons x low ih =>
    obtain ⟨heq, hlt, hlen'⟩ := ih
    have hx := x.toNat_lt
    have hvlt := limbsVal_lt v
    have htake : limbsVal ((divLoop v low top).2.take v.length) = limbsVal (divLoop v low top).2 := by
      rw [limbsVal_take, Nat.mod_eq_of_lt (hlt.trans hvlt)]
    have hwindow : limbsVal (x :: (divLoop v low top).2.take v.length)
        = x.toNat + 2 ^ 32 * limbsVal (divLoop v low top).2 := by
      rw [limbsVal_cons, htake]
    have hwindowlen : (x :: (divLoop v low top).2.take v.length).length = k + 3 := by
      rw [List.length_cons, List.length_take, hv, min_eq_left hlen']
    obtain ⟨hdigit, hrem, hremlen⟩ := divStep_val hv hwindowlen htop (by rw [hwindow]; omega)
    have hdm := Nat.div_add_mod' (limbsVal (x :: (divLoop v low top).2.take v.length)) (limbsVal v)
    rw [← hdigit, ← hrem] at hdm
    refine ⟨?_, ?_, ?_⟩
    · have hstep : divLoop v (x :: low) top
          = ((divStep v (x :: (divLoop v low top).2.take v.length)).1 :: (divLoop v low top).1,
            (divStep v (x :: (divLoop v low top).2.take v.length)).2) := rfl
      rw [hstep, List.cons_append, limbsVal_cons, limbsVal_cons, heq]
      rw [hwindow] at hdm
      linear_combination -hdm
    · have hremlt := Nat.mod_lt (limbsVal (x :: (divLoop v low top).2.take v.length))
        (show limbsVal v > 0 by omega)
      rw [← hrem] at hremlt
      exact hremlt
    · have hstep : (divLoop v (x :: low) top).2
          = (divStep v (x :: (divLoop v low top).2.take v.length)).2 := rfl
      rw [hstep]
      omega

theorem divisor_up (hv : TopNonzero v) (hlen : v.length = k + 1) :
    jsbClz (v.getD k 0) ≤ 31 ∧
      limbsVal v * 2 ^ jsbClz (v.getD k 0) < (2 ^ 32) ^ k * 2 ^ 32 ∧
      (2 ^ 32) ^ k * 2 ^ 31 ≤ limbsVal v * 2 ^ jsbClz (v.getD k 0) := by
  have htop : v.getD k 0 ≠ 0 := by
    have hlast : v.getLast? = some (v.getD k 0) := by
      rw [List.getLast?_eq_getElem?, hlen, List.getD_eq_getElem?_getD, Nat.add_sub_cancel,
        List.getElem?_eq_getElem (by omega), Option.getD_some]
    intro hzero
    exact hv (by rw [hlast, hzero])
  obtain ⟨hs, hge, hlt⟩ := jsbClz_spec htop
  generalize jsbClz (v.getD k 0) = s at hs hge hlt
  have hvlt := limbsVal_lt v
  have htopval := getD_limbsVal v k
  rw [hlen, pow_succ (2 ^ 32)] at hvlt
  generalize hP : (2 ^ 32) ^ k = P at hvlt htopval
  have hPpos : 0 < P := by
    rw [← hP]
    positivity
  rw [Nat.mod_eq_of_lt (Nat.div_lt_of_lt_mul hvlt)] at htopval
  refine ⟨hs, ?_, ?_⟩
  · have hlow := Nat.lt_mul_div_succ (limbsVal v) hPpos
    rw [← htopval] at hlow
    have hsucc : (v.getD k 0).toNat + 1 ≤ 2 ^ (32 - s) := by
      apply Nat.succ_le_of_lt
      apply Nat.lt_of_mul_lt_mul_right (a := 2 ^ s)
      rw [← pow_split (by omega)]
      exact hlt
    calc limbsVal v * 2 ^ s < P * ((v.getD k 0).toNat + 1) * 2 ^ s :=
          Nat.mul_lt_mul_of_pos_right hlow (by positivity)
      _ ≤ P * 2 ^ (32 - s) * 2 ^ s := Nat.mul_le_mul_right _ (Nat.mul_le_mul_left _ hsucc)
      _ = P * 2 ^ 32 := by rw [mul_assoc, ← pow_split (by omega)]
  · calc P * 2 ^ 31 ≤ P * ((v.getD k 0).toNat * 2 ^ s) := Nat.mul_le_mul_left _ hge
      _ = (v.getD k 0).toNat * P * 2 ^ s := by ring
      _ ≤ limbsVal v * 2 ^ s := by
          rw [htopval]
          exact Nat.mul_le_mul_right _ (Nat.div_mul_le_self _ _)

theorem dividend_up (hlen : k + 1 ≤ u.length) (hs : s ≤ 31) :
    limbsVal ((shlRow s u 0).drop (u.length - (k + 1) + 1)) < (2 ^ 32) ^ k * 2 ^ 31 := by
  have hult := limbsVal_lt u
  have hsplit : (2 ^ 32) ^ u.length = (2 ^ 32) ^ (u.length - (k + 1) + 1) * (2 ^ 32) ^ k := by
    rw [← pow_add]
    congr 1
    omega
  have hzero : (0 : UInt32).toNat < 2 ^ s := by
    rw [UInt32.toNat_zero]
    positivity
  rw [limbsVal_drop, shlRow_val (by omega) u hzero, UInt32.toNat_zero, add_zero]
  apply Nat.div_lt_of_lt_mul
  calc limbsVal u * 2 ^ s < (2 ^ 32) ^ u.length * 2 ^ s :=
        Nat.mul_lt_mul_of_pos_right hult (by positivity)
    _ ≤ (2 ^ 32) ^ u.length * 2 ^ 31 := Nat.mul_le_mul_left _ (Nat.pow_le_pow_right (by norm_num) hs)
    _ = (2 ^ 32) ^ (u.length - (k + 1) + 1) * ((2 ^ 32) ^ k * 2 ^ 31) := by rw [hsplit, mul_assoc]

theorem jsbMagDivmod_val (hv : TopNonzero v) (hlen : 2 ≤ v.length)
    (hle : v.length ≤ u.length) :
    limbsVal (jsbMagDivmod u v).1 = limbsVal u / limbsVal v ∧
      limbsVal (jsbMagDivmod u v).2 = limbsVal u % limbsVal v := by
  obtain ⟨k, hk⟩ : ∃ k, v.length = k + 2 := ⟨v.length - 2, by omega⟩
  obtain ⟨hs, hvmul, hvge⟩ := divisor_up hv hk
  generalize hclz : jsbClz (v.getD (k + 1) 0) = s at hs hvmul hvge
  have hs32 : s < 32 := by omega
  have hpow : 0 < 2 ^ s := by positivity
  have hzero : (0 : UInt32).toNat < 2 ^ s := hpow
  have huntop := dividend_up (u := u) (k := k + 1) (by omega) hs
  have hun : limbsVal (shlRow s u 0) = limbsVal u * 2 ^ s := shlRow_val hs32 u hzero
  have hvn : limbsVal ((shlRow s v 0).take (k + 2)) = limbsVal v * 2 ^ s := by
    rw [limbsVal_take, shlRow_val hs32 v hzero, UInt32.toNat_zero, add_zero, pow_succ (2 ^ 32),
      Nat.mod_eq_of_lt hvmul]
  have hvnlen : ((shlRow s v 0).take (k + 2)).length = k + 2 := by
    rw [List.length_take, shlRow_length]
    omega
  have hvntop : 2 ^ 31 ≤ (((shlRow s v 0).take (k + 2)).getD (k + 1) 0).toNat := by
    rw [getD_limbsVal, hvn, Nat.mod_eq_of_lt (Nat.div_lt_of_lt_mul hvmul),
      Nat.le_div_iff_mul_le (by positivity), mul_comm]
    exact hvge
  have huntoplen : ((shlRow s u 0).drop (u.length - (k + 2) + 1)).length = k + 2 := by
    rw [List.length_drop, shlRow_length]
    omega
  have hsmall : limbsVal ((shlRow s u 0).drop (u.length - (k + 2) + 1))
      < limbsVal ((shlRow s v 0).take (k + 2)) := by
    rw [hvn]
    exact huntop.trans_le hvge
  obtain ⟨heq, hremlt, -⟩ := divLoop_val hvnlen hvntop huntoplen hsmall
    ((shlRow s u 0).take (u.length - (k + 2) + 1))
  rw [List.take_append_drop, hun, hvn] at heq
  rw [hvn] at hremlt
  have hidx : k + 2 - 1 = k + 1 := rfl
  simp only [jsbMagDivmod, hk, hidx, hclz, limbsVal_strip, limbsVal_take, shrRow_val hs32]
  generalize divLoop ((shlRow s v 0).take (k + 2)) ((shlRow s u 0).take (u.length - (k + 2) + 1))
    ((shlRow s u 0).drop (u.length - (k + 2) + 1)) = run at heq hremlt ⊢
  have hvpos : 0 < limbsVal v * 2 ^ s := by omega
  have hquot : limbsVal u / limbsVal v = limbsVal run.1 := by
    rw [← Nat.mul_div_mul_right _ _ hpow, heq, add_comm, Nat.add_mul_div_right _ _ hvpos,
      Nat.div_eq_of_lt hremlt, zero_add]
  have hrem : limbsVal u % limbsVal v * 2 ^ s = limbsVal run.2 := by
    rw [← Nat.mul_mod_mul_right, heq, add_comm, Nat.add_mul_mod_self_right, Nat.mod_eq_of_lt hremlt]
  have hmodlt : limbsVal u % limbsVal v < (2 ^ 32) ^ (k + 2) := by
    have hvlt := limbsVal_lt v
    rw [hk] at hvlt
    exact (Nat.mod_lt _ (Nat.pos_of_mul_pos_right hvpos)).trans hvlt
  refine ⟨hquot.symm, ?_⟩
  rw [← hrem, Nat.mul_div_cancel _ hpow, Nat.mod_eq_of_lt hmodlt]

end Zelr.Js
