import Mathlib.Data.ZMod.Basic
import Mathlib.Tactic.LinearCombination
import Mathlib.Data.Nat.Bitwise
import Zelr.Base.Bytes

/-!
# Field elements of five limbs

The field operations of `x25519.c`. A sum, a difference or a product that does not fit its machine
type is `none`; shifts, masks and the casts under a mask are what they are in C.
-/

namespace Zelr.Curve

variable {n a b : Nat} {f g : Fe}

/-! ## Machine numbers -/

def u64 (n : Nat) : Option Nat := if n < 2 ^ 64 then some n else none

def u128 (n : Nat) : Option Nat := if n < 2 ^ 128 then some n else none

def sub64 (a b : Nat) : Option Nat := if b ≤ a then some (a - b) else none

theorem u64_eq (h : n < 2 ^ 64) : u64 n = some n := if_pos h

theorem u128_eq (h : n < 2 ^ 128) : u128 n = some n := if_pos h

theorem u64_bind {α : Type} (h : n < 2 ^ 64) (f : Nat → Option α) : (u64 n).bind f = f n := by
  rw [u64_eq h, Option.bind_some]

theorem u128_bind {α : Type} (h : n < 2 ^ 128) (f : Nat → Option α) : (u128 n).bind f = f n := by
  rw [u128_eq h, Option.bind_some]

theorem sub64_eq (h : b ≤ a) : sub64 a b = some (a - b) := if_pos h

/-! ## The operations -/

/-- `fe`: five limbs of fifty-one bits, little end first. -/
structure Fe where
  h0 : Nat
  h1 : Nat
  h2 : Nat
  h3 : Nat
  h4 : Nat
  deriving DecidableEq, Repr

def MASK51 : Nat := 0x7ffffffffffff

def feZero : Fe := ⟨0, 0, 0, 0, 0⟩

def feOne : Fe := { feZero with h0 := 1 }

def feAdd (f g : Fe) : Option Fe := do
  return ⟨← u64 (f.h0 + g.h0), ← u64 (f.h1 + g.h1), ← u64 (f.h2 + g.h2), ← u64 (f.h3 + g.h3),
    ← u64 (f.h4 + g.h4)⟩

def feSub (f g : Fe) : Option Fe := do
  return ⟨← sub64 (← u64 (f.h0 + 0xfffffffffffda)) g.h0, ← sub64 (← u64 (f.h1 + 0xffffffffffffe)) g.h1,
    ← sub64 (← u64 (f.h2 + 0xffffffffffffe)) g.h2, ← sub64 (← u64 (f.h3 + 0xffffffffffffe)) g.h3,
    ← sub64 (← u64 (f.h4 + 0xffffffffffffe)) g.h4⟩

def feCarry (h : Fe) : Option Fe := do
  let h1 ← u64 (h.h1 + h.h0 >>> 51)
  let h2 ← u64 (h.h2 + h1 >>> 51)
  let h3 ← u64 (h.h3 + h2 >>> 51)
  let h4 ← u64 (h.h4 + h3 >>> 51)
  let h0 ← u64 ((h.h0 &&& MASK51) + (h4 >>> 51) * 19)
  let h1 ← u64 ((h1 &&& MASK51) + h0 >>> 51)
  return ⟨h0 &&& MASK51, h1, h2 &&& MASK51, h3 &&& MASK51, h4 &&& MASK51⟩

/-- The columns of a product, of 128 bits each. -/
structure Columns where
  t0 : Nat
  t1 : Nat
  t2 : Nat
  t3 : Nat
  t4 : Nat
  deriving DecidableEq, Repr

/-- The carries of `fe_mul` and `fe_mul121665`: each column into the next, and the last one back
into the first limb times nineteen. -/
def foldColumns (t : Columns) : Option Fe := do
  let t1 ← u128 (t.t1 + (← u64 (t.t0 >>> 51)))
  let t2 ← u128 (t.t2 + (← u64 (t1 >>> 51)))
  let t3 ← u128 (t.t3 + (← u64 (t2 >>> 51)))
  let t4 ← u128 (t.t4 + (← u64 (t3 >>> 51)))
  let c ← u64 (t4 >>> 51)
  let out0 ← u64 ((t.t0 &&& MASK51) + c * 19)
  let out1 ← u64 ((t1 &&& MASK51) + out0 >>> 51)
  return ⟨out0 &&& MASK51, out1, t2 &&& MASK51, t3 &&& MASK51, t4 &&& MASK51⟩

def mulColumns (f g : Fe) : Option Columns := do
  return {
    t0 := ← u128 (f.h0 * g.h0 + 19 * (f.h1 * g.h4 + f.h2 * g.h3 + f.h3 * g.h2 + f.h4 * g.h1))
    t1 := ← u128 (f.h0 * g.h1 + f.h1 * g.h0 + 19 * (f.h2 * g.h4 + f.h3 * g.h3 + f.h4 * g.h2))
    t2 := ← u128 (f.h0 * g.h2 + f.h1 * g.h1 + f.h2 * g.h0 + 19 * (f.h3 * g.h4 + f.h4 * g.h3))
    t3 := ← u128 (f.h0 * g.h3 + f.h1 * g.h2 + f.h2 * g.h1 + f.h3 * g.h0 + 19 * (f.h4 * g.h4))
    t4 := ← u128 (f.h0 * g.h4 + f.h1 * g.h3 + f.h2 * g.h2 + f.h3 * g.h1 + f.h4 * g.h0) }

def feMul (f g : Fe) : Option Fe := do
  let out ← foldColumns (← mulColumns f g)
  let out2 ← u64 (out.h2 + out.h1 >>> 51)
  return { out with h1 := out.h1 &&& MASK51, h2 := out2 }

def feSq (f : Fe) : Option Fe := feMul f f

def feMul121665 (f : Fe) : Option Fe := do
  foldColumns {
    t0 := ← u128 (f.h0 * 121665)
    t1 := ← u128 (f.h1 * 121665)
    t2 := ← u128 (f.h2 * 121665)
    t3 := ← u128 (f.h3 * 121665)
    t4 := ← u128 (f.h4 * 121665) }

/-- One limb of `fe_cswap`: the mask is all ones or nothing. -/
def cswapLimb (a b bit : Nat) : Nat × Nat :=
  let mask := (2 ^ 64 - bit) % 2 ^ 64
  let x := mask &&& (a ^^^ b)
  (a ^^^ x, b ^^^ x)

def feCswap (a b : Fe) (bit : Nat) : Fe × Fe :=
  let s0 := cswapLimb a.h0 b.h0 bit
  let s1 := cswapLimb a.h1 b.h1 bit
  let s2 := cswapLimb a.h2 b.h2 bit
  let s3 := cswapLimb a.h3 b.h3 bit
  let s4 := cswapLimb a.h4 b.h4 bit
  (⟨s0.1, s1.1, s2.1, s3.1, s4.1⟩, ⟨s0.2, s1.2, s2.2, s3.2, s4.2⟩)

/-! ## What they compute -/

def P : Nat := 2 ^ 255 - 19

instance : NeZero P := ⟨by decide⟩

def Fe.nat (f : Fe) : Nat :=
  f.h0 + 2 ^ 51 * f.h1 + 2 ^ 102 * f.h2 + 2 ^ 153 * f.h3 + 2 ^ 204 * f.h4

def Fe.val (f : Fe) : ZMod P := (f.nat : ZMod P)

/-- Limbs of fifty-one bits, or one more than the largest. -/
structure Red (f : Fe) : Prop where
  h0 : f.h0 ≤ 2 ^ 51
  h1 : f.h1 ≤ 2 ^ 51
  h2 : f.h2 ≤ 2 ^ 51
  h3 : f.h3 ≤ 2 ^ 51
  h4 : f.h4 ≤ 2 ^ 51

/-- Limbs with room to spare, as a sum or a difference leaves them. -/
structure Loose (f : Fe) : Prop where
  h0 : f.h0 < 2 ^ 54
  h1 : f.h1 < 2 ^ 54
  h2 : f.h2 < 2 ^ 54
  h3 : f.h3 < 2 ^ 54
  h4 : f.h4 < 2 ^ 54

def Computes (r : Option Fe) (x : ZMod P) : Prop := ∃ f, r = some f ∧ Red f ∧ f.val = x

theorem two_pow_255 : (2 : ZMod P) ^ 255 = 19 := by
  have hp : ((P + 19 : Nat) : ZMod P) = ((2 ^ 255 : Nat) : ZMod P) := congrArg _ (by decide)
  rw [Nat.cast_add, ZMod.natCast_self, zero_add, Nat.cast_pow] at hp
  exact_mod_cast hp.symm

theorem and_mask (n : Nat) : n &&& MASK51 = n % 2 ^ 51 := Nat.and_two_pow_sub_one_eq_mod n 51

theorem shift_51 (n : Nat) : n >>> 51 = n / 2 ^ 51 := Nat.shiftRight_eq_div_pow n 51

theorem feZero_red : Red feZero := ⟨by decide, by decide, by decide, by decide, by decide⟩

theorem feOne_red : Red feOne := ⟨by decide, by decide, by decide, by decide, by decide⟩

@[simp] theorem feZero_val : feZero.val = 0 := by simp [Fe.val, Fe.nat, feZero]

@[simp] theorem feOne_val : feOne.val = 1 := by simp [Fe.val, Fe.nat, feOne, feZero]

theorem val_eq_of_nat {f : Fe} {n k : Nat} (h : f.nat + k * P = n) : f.val = (n : ZMod P) := by
  rw [← h]
  simp [Fe.val]

theorem Red.loose (h : Red f) : Loose f := by
  obtain ⟨h0, h1, h2, h3, h4⟩ := h
  exact ⟨by omega, by omega, by omega, by omega, by omega⟩

theorem feAdd_spec (hf : Red f) (hg : Red g) :
    ∃ t, feAdd f g = some t ∧ Loose t ∧ t.val = f.val + g.val := by
  obtain ⟨f0, f1, f2, f3, f4⟩ := hf
  obtain ⟨g0, g1, g2, g3, g4⟩ := hg
  unfold feAdd
  rw [u64_eq (by omega), u64_eq (by omega), u64_eq (by omega), u64_eq (by omega), u64_eq (by omega)]
  refine ⟨_, rfl, ⟨?_, ?_, ?_, ?_, ?_⟩, ?_⟩
  · simp only
    omega
  · simp only
    omega
  · simp only
    omega
  · simp only
    omega
  · simp only
    omega
  · rw [Fe.val, Fe.val, Fe.val, ← Nat.cast_add]
    congr 1
    simp only [Fe.nat]
    ring

theorem feSub_spec (hf : Red f) (hg : Red g) :
    ∃ t, feSub f g = some t ∧ Loose t ∧ t.val = f.val - g.val := by
  obtain ⟨f0, f1, f2, f3, f4⟩ := hf
  obtain ⟨g0, g1, g2, g3, g4⟩ := hg
  unfold feSub
  rw [u64_eq (by omega), u64_eq (by omega), u64_eq (by omega), u64_eq (by omega), u64_eq (by omega)]
  simp only [Option.bind_eq_bind, Option.bind_some]
  rw [sub64_eq (by omega), sub64_eq (by omega), sub64_eq (by omega), sub64_eq (by omega),
    sub64_eq (by omega)]
  refine ⟨_, rfl, ⟨?_, ?_, ?_, ?_, ?_⟩, ?_⟩
  · simp only
    omega
  · simp only
    omega
  · simp only
    omega
  · simp only
    omega
  · simp only
    omega
  · -- The limbs added are those of twice the modulus.
    rw [eq_sub_iff_add_eq, Fe.val, Fe.val, ← Nat.cast_add]
    refine (@val_eq_of_nat f _ 2 ?_).symm
    simp only [Fe.nat, P]
    omega

theorem feCarry_spec {h : Fe} (hl : Loose h) : Computes (feCarry h) h.val := by
  obtain ⟨h0, h1, h2, h3, h4⟩ := hl
  obtain ⟨a0, a1, a2, a3, a4⟩ := h
  dsimp only at h0 h1 h2 h3 h4
  unfold feCarry
  simp only [shift_51, and_mask]
  rw [u64_eq (by omega)]
  simp only [Option.bind_eq_bind, Option.bind_some]
  generalize hb1 : a1 + a0 / 2 ^ 51 = b1
  rw [u64_bind (by omega)]
  generalize hb2 : a2 + b1 / 2 ^ 51 = b2
  rw [u64_bind (by omega)]
  generalize hb3 : a3 + b2 / 2 ^ 51 = b3
  rw [u64_bind (by omega)]
  generalize hb4 : a4 + b3 / 2 ^ 51 = b4
  rw [u64_bind (by omega)]
  generalize hb0 : a0 % 2 ^ 51 + b4 / 2 ^ 51 * 19 = b0
  rw [u64_eq (by omega)]
  refine ⟨_, rfl, ⟨?_, ?_, ?_, ?_, ?_⟩, ?_⟩
  · simp only
    omega
  · simp only
    omega
  · simp only
    omega
  · simp only
    omega
  · simp only
    omega
  · refine @val_eq_of_nat _ (Fe.nat ⟨a0, a1, a2, a3, a4⟩) (b4 / 2 ^ 51) ?_
    simp only [Fe.nat, P]
    omega

/-! ## Products -/

def Columns.nat (t : Columns) : Nat :=
  t.t0 + 2 ^ 51 * t.t1 + 2 ^ 102 * t.t2 + 2 ^ 153 * t.t3 + 2 ^ 204 * t.t4

theorem foldColumns_spec {t : Columns} (h0 : t.t0 < 2 ^ 109) (h1 : t.t1 < 2 ^ 109)
    (h2 : t.t2 < 2 ^ 109) (h3 : t.t3 < 2 ^ 109) (h4 : t.t4 < 2 ^ 109) :
    ∃ f, foldColumns t = some f ∧ f.h0 < 2 ^ 51 ∧ f.h1 < 2 ^ 52 ∧ f.h2 < 2 ^ 51 ∧ f.h3 < 2 ^ 51 ∧
      f.h4 < 2 ^ 51 ∧ (t.t4 < 2 ^ 90 → f.h1 ≤ 2 ^ 51) ∧ f.val = (t.nat : ZMod P) := by
  obtain ⟨a0, a1, a2, a3, a4⟩ := t
  dsimp only at h0 h1 h2 h3 h4
  unfold foldColumns
  simp only [shift_51, and_mask]
  rw [u64_eq (by omega)]
  simp only [Option.bind_eq_bind, Option.bind_some]
  generalize hb1 : a1 + a0 / 2 ^ 51 = b1
  rw [u128_bind (by omega), u64_bind (by omega)]
  generalize hb2 : a2 + b1 / 2 ^ 51 = b2
  rw [u128_bind (by omega), u64_bind (by omega)]
  generalize hb3 : a3 + b2 / 2 ^ 51 = b3
  rw [u128_bind (by omega), u64_bind (by omega)]
  generalize hb4 : a4 + b3 / 2 ^ 51 = b4
  rw [u128_bind (by omega), u64_bind (by omega)]
  generalize hb0 : a0 % 2 ^ 51 + b4 / 2 ^ 51 * 19 = b0
  rw [u64_bind (by omega), u64_eq (by omega)]
  refine ⟨_, rfl, ?_, ?_, ?_, ?_, ?_, ?_, ?_⟩
  · simp only
    omega
  · simp only
    omega
  · simp only
    omega
  · simp only
    omega
  · simp only
    omega
  · simp only
    omega
  · refine @val_eq_of_nat _ (Columns.nat ⟨a0, a1, a2, a3, a4⟩) (b4 / 2 ^ 51) ?_
    simp only [Fe.nat, Columns.nat, P]
    omega

theorem product_columns (f g : Fe) :
    f.nat * g.nat +
      19 * ((f.h1 * g.h4 + f.h2 * g.h3 + f.h3 * g.h2 + f.h4 * g.h1) +
        2 ^ 51 * (f.h2 * g.h4 + f.h3 * g.h3 + f.h4 * g.h2) +
        2 ^ 102 * (f.h3 * g.h4 + f.h4 * g.h3) + 2 ^ 153 * (f.h4 * g.h4)) =
    Columns.nat {
      t0 := f.h0 * g.h0 + 19 * (f.h1 * g.h4 + f.h2 * g.h3 + f.h3 * g.h2 + f.h4 * g.h1)
      t1 := f.h0 * g.h1 + f.h1 * g.h0 + 19 * (f.h2 * g.h4 + f.h3 * g.h3 + f.h4 * g.h2)
      t2 := f.h0 * g.h2 + f.h1 * g.h1 + f.h2 * g.h0 + 19 * (f.h3 * g.h4 + f.h4 * g.h3)
      t3 := f.h0 * g.h3 + f.h1 * g.h2 + f.h2 * g.h1 + f.h3 * g.h0 + 19 * (f.h4 * g.h4)
      t4 := f.h0 * g.h4 + f.h1 * g.h3 + f.h2 * g.h2 + f.h3 * g.h1 + f.h4 * g.h0 } +
      2 ^ 255 * ((f.h1 * g.h4 + f.h2 * g.h3 + f.h3 * g.h2 + f.h4 * g.h1) +
        2 ^ 51 * (f.h2 * g.h4 + f.h3 * g.h3 + f.h4 * g.h2) +
        2 ^ 102 * (f.h3 * g.h4 + f.h4 * g.h3) + 2 ^ 153 * (f.h4 * g.h4)) := by
  simp only [Fe.nat, Columns.nat]
  ring

theorem feMul_spec (hf : Red f) (hg : Red g) :
    Computes (feMul f g) (f.val * g.val) := by
  have hle : ∀ {a b : Nat}, a ≤ 2 ^ 51 → b ≤ 2 ^ 51 → a * b ≤ 2 ^ 102 := by
    intro a b ha hb
    exact (Nat.mul_le_mul ha hb).trans (by decide)
  have hcolumns := product_columns f g
  obtain ⟨f0, f1, f2, f3, f4⟩ := hf
  obtain ⟨g0, g1, g2, g3, g4⟩ := hg
  have h00 := hle f0 g0
  have h01 := hle f0 g1
  have h02 := hle f0 g2
  have h03 := hle f0 g3
  have h04 := hle f0 g4
  have h10 := hle f1 g0
  have h11 := hle f1 g1
  have h12 := hle f1 g2
  have h13 := hle f1 g3
  have h14 := hle f1 g4
  have h20 := hle f2 g0
  have h21 := hle f2 g1
  have h22 := hle f2 g2
  have h23 := hle f2 g3
  have h24 := hle f2 g4
  have h30 := hle f3 g0
  have h31 := hle f3 g1
  have h32 := hle f3 g2
  have h33 := hle f3 g3
  have h34 := hle f3 g4
  have h40 := hle f4 g0
  have h41 := hle f4 g1
  have h42 := hle f4 g2
  have h43 := hle f4 g3
  have h44 := hle f4 g4
  unfold feMul mulColumns
  rw [u128_eq (by omega), u128_eq (by omega), u128_eq (by omega), u128_eq (by omega),
    u128_eq (by omega)]
  simp only [Option.bind_eq_bind, Option.bind_some, Option.pure_def]
  generalize ht : (Columns.mk _ _ _ _ _) = t at hcolumns ⊢
  obtain ⟨out, hout, o0, o1, o2, o3, o4, -, hval⟩ := @foldColumns_spec t (by subst ht; simp only; omega)
    (by subst ht; simp only; omega) (by subst ht; simp only; omega) (by subst ht; simp only; omega)
    (by subst ht; simp only; omega)
  rw [hout]
  simp only [Option.bind_some, shift_51, and_mask]
  rw [u64_eq (by omega)]
  refine ⟨_, rfl, ⟨?_, ?_, ?_, ?_, ?_⟩, ?_⟩
  · simp only
    omega
  · simp only
    omega
  · simp only
    omega
  · simp only
    omega
  · simp only
    omega
  · have hcarry : Fe.val { out with h1 := out.h1 % 2 ^ 51, h2 := out.h2 + out.h1 / 2 ^ 51 } =
        out.val := by
      simp only [Fe.val, Fe.nat]
      congr 1
      omega
    rw [hcarry, hval, Fe.val, Fe.val, ← Nat.cast_mul]
    have hfield := congrArg (fun n : Nat => (n : ZMod P)) hcolumns
    simp only [Nat.cast_add _ (2 ^ 255 * _), Nat.cast_add _ (19 * _), Nat.cast_mul (2 ^ 255),
      Nat.cast_mul 19, Nat.cast_pow, Nat.cast_ofNat, two_pow_255] at hfield
    exact (add_right_cancel hfield).symm

theorem feSq_spec (hf : Red f) : Computes (feSq f) (f.val ^ 2) := by
  rw [sq]
  exact feMul_spec hf hf

theorem u128_scaled (h : a ≤ 2 ^ 51) : u128 (a * 121665) = some (a * 121665) :=
  u128_eq (by omega)

theorem scaled_columns (f : Fe) (k : Nat) :
    Columns.nat ⟨f.h0 * k, f.h1 * k, f.h2 * k, f.h3 * k, f.h4 * k⟩ = k * f.nat := by
  simp only [Columns.nat, Fe.nat]
  ring

theorem feMul121665_spec (hf : Red f) : Computes (feMul121665 f) (121665 * f.val) := by
  obtain ⟨h0, h1, h2, h3, h4⟩ := hf
  unfold feMul121665
  rw [u128_scaled h0, u128_scaled h1, u128_scaled h2, u128_scaled h3, u128_scaled h4]
  -- One bind at a time: the simplifier's step would make the kernel multiply out the columns.
  rw [Option.bind_eq_bind, Option.bind_some, Option.bind_some, Option.bind_some, Option.bind_some,
    Option.bind_some]
  obtain ⟨out, hout, o0, o1, o2, o3, o4, hsmall, hval⟩ := @foldColumns_spec
    ⟨f.h0 * 121665, f.h1 * 121665, f.h2 * 121665, f.h3 * 121665, f.h4 * 121665⟩
    (by simp only; omega) (by simp only; omega) (by simp only; omega) (by simp only; omega)
    (by simp only; omega)
  refine ⟨out, hout, ⟨o0.le, hsmall (by simp only; omega), o2.le, o3.le, o4.le⟩, ?_⟩
  rw [hval, scaled_columns, Nat.cast_mul]
  rfl

/-! ## The swap -/

theorem cswapLimb_zero (a b : Nat) : cswapLimb a b 0 = (a, b) := by
  simp [cswapLimb]

theorem cswapLimb_one (ha : a < 2 ^ 64) (hb : b < 2 ^ 64) : cswapLimb a b 1 = (b, a) := by
  have hx : a ^^^ b < 2 ^ 64 := Nat.xor_lt_two_pow ha hb
  have hmask : (2 ^ 64 - 1) % 2 ^ 64 &&& (a ^^^ b) = a ^^^ b := by
    rw [Nat.mod_eq_of_lt (by decide), Nat.and_comm, Nat.and_two_pow_sub_one_eq_mod,
      Nat.mod_eq_of_lt hx]
  simp only [cswapLimb, hmask]
  rw [Nat.xor_xor_cancel_left, Nat.xor_comm a b, Nat.xor_xor_cancel_left]

theorem feCswap_false (a b : Fe) : feCswap a b 0 = (a, b) := by
  simp [feCswap, cswapLimb_zero]

theorem feCswap_true {a b : Fe} (ha : Red a) (hb : Red b) : feCswap a b 1 = (b, a) := by
  obtain ⟨a0, a1, a2, a3, a4⟩ := ha
  obtain ⟨b0, b1, b2, b3, b4⟩ := hb
  simp only [feCswap]
  rw [cswapLimb_one (by omega) (by omega), cswapLimb_one (by omega) (by omega),
    cswapLimb_one (by omega) (by omega), cswapLimb_one (by omega) (by omega),
    cswapLimb_one (by omega) (by omega)]

end Zelr.Curve
