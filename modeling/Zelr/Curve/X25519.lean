import Zelr.Base.Little
import Zelr.Curve.Fe

/-!
# X25519, following RFC 7748

`x25519.c`: bytes to a field element and back, the inversion, the ladder and the exchange itself.
A key is its thirty-two bytes. Where the machine's arithmetic would overflow there is no answer.
-/

namespace Zelr.Curve

abbrev Key := { bs : Bytes // bs.length = 32 }

/-! ## The program -/

def keyWord (s : Bytes) (i : Nat) : Nat :=
  (List.range 8).foldl (fun w j => w ||| (byteAt s (i * 8 + j)).toNat <<< (j * 8)) 0

def feFrombytes (s : Bytes) : Fe where
  h0 := keyWord s 0 &&& MASK51
  h1 := (keyWord s 0 >>> 51 ||| (keyWord s 1 <<< 13) % 2 ^ 64) &&& MASK51
  h2 := (keyWord s 1 >>> 38 ||| (keyWord s 2 <<< 26) % 2 ^ 64) &&& MASK51
  h3 := (keyWord s 2 >>> 25 ||| (keyWord s 3 <<< 39) % 2 ^ 64) &&& MASK51
  h4 := (keyWord s 3 >>> 12) &&& MASK51

/-- The end of `fe_tobytes`: the limbs as words, and the words as bytes. -/
def packLimbs (t : Fe) : Bytes :=
  let w0 := t.h0 ||| (t.h1 <<< 51) % 2 ^ 64
  let w1 := t.h1 >>> 13 ||| (t.h2 <<< 38) % 2 ^ 64
  let w2 := t.h2 >>> 26 ||| (t.h3 <<< 25) % 2 ^ 64
  let w3 := t.h3 >>> 39 ||| (t.h4 <<< 12) % 2 ^ 64
  [w0, w1, w2, w3].flatMap fun w => (List.range 8).map fun j => UInt8.ofNat (w >>> (j * 8))

/-- `q` is one when the number is the modulus or more, and the modulus is then taken off. -/
def feTobytes (f : Fe) : Option Bytes := do
  let t ← feCarry f
  let q := (← u64 (t.h0 + 19)) >>> 51
  let q := (← u64 (t.h1 + q)) >>> 51
  let q := (← u64 (t.h2 + q)) >>> 51
  let q := (← u64 (t.h3 + q)) >>> 51
  let q := (← u64 (t.h4 + q)) >>> 51
  let t0 ← u64 (t.h0 + 19 * q)
  let t1 ← u64 (t.h1 + t0 >>> 51)
  let t2 ← u64 (t.h2 + t1 >>> 51)
  let t3 ← u64 (t.h3 + t2 >>> 51)
  let t4 ← u64 (t.h4 + t3 >>> 51)
  return packLimbs ⟨t0 &&& MASK51, t1 &&& MASK51, t2 &&& MASK51, t3 &&& MASK51, t4 &&& MASK51⟩

def feSqTimes : Nat → Fe → Option Fe
  | 0, t => some t
  | n + 1, t => do feSqTimes n (← feSq t)

/-- The inverse, as `z` to the power `p - 2`, by an addition chain. -/
def feInvert (z : Fe) : Option Fe := do
  let z2 ← feSq z
  let t ← feSq z2
  let t ← feSq t
  let z9 ← feMul t z
  let z11 ← feMul z9 z2
  let t ← feSq z11
  let z2_5_0 ← feMul t z9
  let t ← feSqTimes 4 (← feSq z2_5_0)
  let z2_10_0 ← feMul t z2_5_0
  let t ← feSqTimes 9 (← feSq z2_10_0)
  let z2_20_0 ← feMul t z2_10_0
  let t ← feSqTimes 19 (← feSq z2_20_0)
  let t ← feMul t z2_20_0
  let t ← feSqTimes 10 t
  let z2_50_0 ← feMul t z2_10_0
  let t ← feSqTimes 49 (← feSq z2_50_0)
  let z2_100_0 ← feMul t z2_50_0
  let t ← feSqTimes 99 (← feSq z2_100_0)
  let t ← feMul t z2_100_0
  let t ← feSqTimes 50 t
  let t ← feMul t z2_50_0
  let t ← feSqTimes 5 t
  feMul t z11

/-- The running points of the ladder, and whether they stand the other way about. -/
structure Rails where
  x2 : Fe
  z2 : Fe
  x3 : Fe
  z3 : Fe
  swap : Nat
  deriving DecidableEq, Repr

def scalarBit (scalar : Bytes) (pos : Nat) : Nat :=
  (byteAt scalar (pos >>> 3)).toNat >>> (pos &&& 7) &&& 1

def ladderStep (scalar : Bytes) (x1 : Fe) (pos : Nat) (s : Rails) : Option Rails := do
  let bit := scalarBit scalar pos
  let swap := s.swap ^^^ bit
  let (x2, x3) := feCswap s.x2 s.x3 swap
  let (z2, z3) := feCswap s.z2 s.z3 swap
  let a ← feCarry (← feAdd x2 z2)
  let aa ← feSq a
  let b ← feCarry (← feSub x2 z2)
  let bb ← feSq b
  let e ← feCarry (← feSub aa bb)
  let c ← feCarry (← feAdd x3 z3)
  let d ← feCarry (← feSub x3 z3)
  let da ← feMul d a
  let cb ← feMul c b
  let t ← feCarry (← feAdd da cb)
  let x3 ← feSq t
  let t ← feCarry (← feSub da cb)
  let t ← feSq t
  let z3 ← feMul x1 t
  let x2 ← feMul aa bb
  let t ← feMul121665 e
  let t ← feCarry (← feAdd t aa)
  let z2 ← feMul e t
  return ⟨x2, z2, x3, z3, bit⟩

def ladderFrom (scalar : Bytes) (x1 : Fe) : Nat → Rails → Option Rails
  | 0, s => some s
  | n + 1, s => do ladderFrom scalar x1 n (← ladderStep scalar x1 n s)

def ladder (scalar : Bytes) (x1 : Fe) : Option (Fe × Fe) := do
  let s ← ladderFrom scalar x1 255 ⟨feOne, feZero, x1, feOne, 0⟩
  return ((feCswap s.x2 s.x3 s.swap).1, (feCswap s.z2 s.z3 s.swap).1)

def clamp (secret : Bytes) : Bytes :=
  let k := secret.set 0 (byteAt secret 0 &&& 248)
  let k := k.set 31 (byteAt k 31 &&& 127)
  k.set 31 (byteAt k 31 ||| 64)

def allZero (p : Bytes) : Bool := p.foldl (· ||| ·) 0 == 0

def x25519 (secret peer : Key) : Option (Bool × Bytes) := do
  let k := clamp secret
  let x1 := feFrombytes peer
  let (x2, z2) ← ladder k x1
  let zi ← feInvert z2
  let x2 ← feMul x2 zi
  let out ← feTobytes x2
  if allZero out then
    return (false, List.replicate 32 0)
  return (true, out)

/-! ## Bytes in and out -/

theorem keyWord_eq (s : Bytes) (i : Nat) : keyWord s i = littleNat s / 2 ^ (64 * i) % 2 ^ 64 := by
  have hpow : (2 : Nat) ^ (64 * i) = 256 ^ (i * 8) := by
    rw [show (256 : Nat) = 2 ^ 8 from rfl, ← pow_mul]
    congr 1
    omega
  -- The bytes read so far are the low end of the word.
  have hfold : ∀ n, (List.range n).foldl
      (fun w j => w ||| (byteAt s (i * 8 + j)).toNat <<< (j * 8)) 0 =
      littleNat s / 256 ^ (i * 8) % 256 ^ n := by
    intro n
    induction n with
    | zero => simp [Nat.mod_one]
    | succ n ih =>
      have hn : (256 : Nat) ^ n = 2 ^ (n * 8) := by
        rw [show (256 : Nat) = 2 ^ 8 from rfl, ← pow_mul, mul_comm]
      have hlt : littleNat s / 256 ^ (i * 8) % 256 ^ n < 2 ^ (n * 8) := by
        rw [← hn]
        exact Nat.mod_lt _ (Nat.pow_pos (by decide))
      rw [List.range_succ, List.foldl_append, ih, List.foldl_cons, List.foldl_nil,
        or_shiftLeft_eq _ hlt, ← hn, byteAt_littleNat, pow_add, ← Nat.div_div_eq_div_mul,
        Nat.mod_pow_succ]
  rw [hpow]
  exact hfold 8

theorem keyWord_lt (s : Bytes) (i : Nat) : keyWord s i < 2 ^ 64 := by
  rw [keyWord_eq]
  exact Nat.mod_lt _ (by decide)

theorem feFrombytes_red (s : Bytes) : Red (feFrombytes s) := by
  simp only [feFrombytes, and_mask]
  exact ⟨(Nat.mod_lt _ (by decide)).le, (Nat.mod_lt _ (by decide)).le,
    (Nat.mod_lt _ (by decide)).le, (Nat.mod_lt _ (by decide)).le, (Nat.mod_lt _ (by decide)).le⟩

theorem feFrombytes_nat (s : Key) : (feFrombytes s).nat = littleNat s % 2 ^ 255 := by
  have hlt : littleNat s < 2 ^ 256 := by
    have hlt := littleNat_lt s
    rwa [s.2] at hlt
  have e0 := keyWord_eq s 0
  have e1 := keyWord_eq s 1
  have e2 := keyWord_eq s 2
  have e3 := keyWord_eq s 3
  have l0 := keyWord_lt s 0
  have l1 := keyWord_lt s 1
  have l2 := keyWord_lt s 2
  simp only [feFrombytes, and_mask, Fe.nat, Nat.shiftRight_eq_div_pow]
  rw [@or_shiftLeft_mod_eq _ 13 (keyWord s 1) 51 (by omega),
    @or_shiftLeft_mod_eq _ 26 (keyWord s 2) 38 (by omega),
    @or_shiftLeft_mod_eq _ 39 (keyWord s 3) 25 (by omega)]
  omega

theorem packLimbs_eq {t : Fe} (h0 : t.h0 < 2 ^ 51) (h1 : t.h1 < 2 ^ 51) (h2 : t.h2 < 2 ^ 51)
    (h3 : t.h3 < 2 ^ 51) (_ : t.h4 < 2 ^ 51) : packLimbs t = littleBytes 32 t.nat := by
  have hword : ∀ w, (List.range 8).map (fun j => UInt8.ofNat (w >>> (j * 8))) = littleBytes 8 w := by
    intro w
    apply List.map_congr_left
    intro j _
    rw [Nat.shiftRight_eq_div_pow, mul_comm, pow_mul]
    rfl
  have hsplit : littleBytes 32 t.nat = littleBytes 8 (t.nat % 2 ^ 64) ++
      littleBytes 8 (t.nat / 2 ^ 64 % 2 ^ 64) ++ littleBytes 8 (t.nat / 2 ^ 128 % 2 ^ 64) ++
      littleBytes 8 (t.nat / 2 ^ 192 % 2 ^ 64) := by
    have hmod := littleBytes_mod 8
    rw [show (256 : Nat) ^ 8 = 2 ^ 64 from rfl] at hmod
    rw [hmod, hmod, hmod, hmod, littleBytes_add 24 8, littleBytes_add 16 8, littleBytes_add 8 8]
    rfl
  rw [hsplit]
  simp only [packLimbs, List.flatMap_cons, List.flatMap_nil, hword, List.append_nil,
    List.append_assoc]
  rw [Nat.shiftRight_eq_div_pow t.h1, Nat.shiftRight_eq_div_pow t.h2, Nat.shiftRight_eq_div_pow t.h3]
  rw [@or_shiftLeft_mod_eq _ 51 t.h1 13 h0, @or_shiftLeft_mod_eq _ 38 t.h2 26 (by omega),
    @or_shiftLeft_mod_eq _ 25 t.h3 39 (by omega), @or_shiftLeft_mod_eq _ 12 t.h4 52 (by omega)]
  have w0 : t.h0 + 2 ^ 51 * (t.h1 % 2 ^ 13) = t.nat % 2 ^ 64 := by
    simp only [Fe.nat]
    omega
  have w1 : t.h1 / 2 ^ 13 + 2 ^ 38 * (t.h2 % 2 ^ 26) = t.nat / 2 ^ 64 % 2 ^ 64 := by
    simp only [Fe.nat]
    omega
  have w2 : t.h2 / 2 ^ 26 + 2 ^ 25 * (t.h3 % 2 ^ 39) = t.nat / 2 ^ 128 % 2 ^ 64 := by
    simp only [Fe.nat]
    omega
  have w3 : t.h3 / 2 ^ 39 + 2 ^ 12 * (t.h4 % 2 ^ 52) = t.nat / 2 ^ 192 % 2 ^ 64 := by
    simp only [Fe.nat]
    omega
  rw [w0, w1, w2, w3]

theorem reduce_once {n q : Nat} (hn : n < 2 * P) (hq : (n + 19) / 2 ^ 255 = q) :
    n % P = (n + 19 * q) % 2 ^ 255 := by
  simp only [P] at hn ⊢
  obtain hlt | hge := Nat.lt_or_ge n (2 ^ 255 - 19)
  · obtain rfl : q = 0 := by omega
    omega
  · obtain rfl : q = 1 := by omega
    rw [Nat.mod_eq_sub_mod hge, Nat.mod_eq_of_lt (by omega)]
    omega

theorem feTobytes_spec {f : Fe} (hf : Red f) : feTobytes f = some (littleBytes 32 f.val.val) := by
  obtain ⟨t, ht, hred, hval⟩ := feCarry_spec hf.loose
  obtain ⟨h0, h1, h2, h3, h4⟩ := hred
  have hreduced : f.val.val = t.nat % P := by
    rw [← hval, Fe.val, ZMod.val_natCast]
  rw [hreduced]
  unfold feTobytes
  rw [ht]
  simp only [Option.bind_eq_bind, Option.bind_some, shift_51, and_mask]
  rw [u64_bind (by omega), u64_bind (by omega), u64_bind (by omega), u64_bind (by omega), u64_bind (by omega)]
  -- The carry out of the top when nineteen is added says whether the modulus is to come off.
  have hq : (t.h4 + (t.h3 + (t.h2 + (t.h1 + (t.h0 + 19) / 2 ^ 51) / 2 ^ 51) / 2 ^ 51) / 2 ^ 51) /
      2 ^ 51 = (t.nat + 19) / 2 ^ 255 := by
    simp only [Fe.nat]
    omega
  rw [hq]
  have htop : t.nat < 2 * P := by
    simp only [Fe.nat, P]
    omega
  generalize hqv : (t.nat + 19) / 2 ^ 255 = q
  have hq1 : q ≤ 1 := by
    simp only [P] at htop
    omega
  rw [u64_bind (by omega)]
  generalize ha0 : t.h0 + 19 * q = a0
  rw [u64_bind (by omega)]
  generalize ha1 : t.h1 + a0 / 2 ^ 51 = a1
  rw [u64_bind (by omega)]
  generalize ha2 : t.h2 + a1 / 2 ^ 51 = a2
  rw [u64_bind (by omega)]
  generalize ha3 : t.h3 + a2 / 2 ^ 51 = a3
  rw [u64_bind (by omega)]
  generalize ha4 : t.h4 + a3 / 2 ^ 51 = a4
  refine congrArg some (Eq.trans (packLimbs_eq ?_ ?_ ?_ ?_ ?_) (congrArg _ ?_))
  · exact Nat.mod_lt _ (by decide)
  · exact Nat.mod_lt _ (by decide)
  · exact Nat.mod_lt _ (by decide)
  · exact Nat.mod_lt _ (by decide)
  · exact Nat.mod_lt _ (by decide)
  · rw [reduce_once htop hqv]
    simp only [Fe.nat]
    omega

/-! ## The inversion -/

section Computing

variable {x y : ZMod P} {r : Option Fe}

theorem Computes.bind {k : Fe → Option Fe} (h : Computes r x)
    (hk : ∀ f, Red f → f.val = x → Computes (k f) y) : Computes (r >>= k) y := by
  obtain ⟨f, rfl, hred, hval⟩ := h
  exact hk f hred hval

theorem Computes.andThen {α : Type} {k : Fe → Option α} {q : α → Prop} (h : Computes r x)
    (hk : ∀ f, Red f → f.val = x → ∃ a, k f = some a ∧ q a) : ∃ a, (r >>= k) = some a ∧ q a := by
  obtain ⟨f, rfl, hred, hval⟩ := h
  exact hk f hred hval

end Computing

theorem feSqTimes_spec (n : Nat) {f : Fe} (hf : Red f) : Computes (feSqTimes n f) (f.val ^ 2 ^ n) := by
  induction n generalizing f with
  | zero => exact ⟨f, rfl, hf, by rw [pow_zero, pow_one]⟩
  | succ n ih =>
    rw [feSqTimes]
    refine (feSq_spec hf).bind fun g hg hgv => ?_
    have hrest := ih hg
    rwa [hgv, ← pow_mul, ← pow_succ'] at hrest

/-- The chain ends at the power two below the modulus. -/
theorem feInvert_spec {z : Fe} (hz : Red z) : Computes (feInvert z) (z.val ^ (P - 2)) := by
  unfold feInvert
  refine (feSq_spec hz).bind fun z2 hz2 ez2 => ?_
  refine (feSq_spec hz2).bind fun t4 ht4 et4 => ?_
  refine (feSq_spec ht4).bind fun t8 ht8 et8 => ?_
  refine (feMul_spec ht8 hz).bind fun z9 hz9 ez9 => ?_
  refine (feMul_spec hz9 hz2).bind fun z11 hz11 ez11 => ?_
  refine (feSq_spec hz11).bind fun t22 ht22 et22 => ?_
  refine (feMul_spec ht22 hz9).bind fun z2_5_0 h5 e5 => ?_
  refine (feSq_spec h5).bind fun s5 hs5 es5 => ?_
  refine (feSqTimes_spec 4 hs5).bind fun t5 ht5 et5 => ?_
  refine (feMul_spec ht5 h5).bind fun z2_10_0 h10 e10 => ?_
  refine (feSq_spec h10).bind fun s10 hs10 es10 => ?_
  refine (feSqTimes_spec 9 hs10).bind fun t10 ht10 et10 => ?_
  refine (feMul_spec ht10 h10).bind fun z2_20_0 h20 e20 => ?_
  refine (feSq_spec h20).bind fun s20 hs20 es20 => ?_
  refine (feSqTimes_spec 19 hs20).bind fun t20 ht20 et20 => ?_
  refine (feMul_spec ht20 h20).bind fun z2_40_0 h40 e40 => ?_
  refine (feSqTimes_spec 10 h40).bind fun t40 ht40 et40 => ?_
  refine (feMul_spec ht40 h10).bind fun z2_50_0 h50 e50 => ?_
  refine (feSq_spec h50).bind fun s50 hs50 es50 => ?_
  refine (feSqTimes_spec 49 hs50).bind fun t50 ht50 et50 => ?_
  refine (feMul_spec ht50 h50).bind fun z2_100_0 h100 e100 => ?_
  refine (feSq_spec h100).bind fun s100 hs100 es100 => ?_
  refine (feSqTimes_spec 99 hs100).bind fun t100 ht100 et100 => ?_
  refine (feMul_spec ht100 h100).bind fun z2_200_0 h200 e200 => ?_
  refine (feSqTimes_spec 50 h200).bind fun t200 ht200 et200 => ?_
  refine (feMul_spec ht200 h50).bind fun z2_250_0 h250 e250 => ?_
  refine (feSqTimes_spec 5 h250).bind fun t250 ht250 et250 => ?_
  obtain ⟨out, hout, hred, hval⟩ := feMul_spec ht250 hz11
  refine ⟨out, hout, hred, hval.trans ?_⟩
  -- Each name is the power of `z` that it says.
  have p9 : z9.val = z.val ^ 9 := by
    rw [ez9, et8, et4, ez2]
    ring
  have p11 : z11.val = z.val ^ 11 := by
    rw [ez11, p9, ez2]
    ring
  have p5 : z2_5_0.val = z.val ^ (2 ^ 5 - 1) := by
    rw [e5, et22, p11, p9, ← pow_mul, ← pow_add]
    rfl
  have p10 : z2_10_0.val = z.val ^ (2 ^ 10 - 1) := by
    rw [e10, et5, es5, p5, ← pow_mul, ← pow_mul, ← pow_add]
    rfl
  have p20 : z2_20_0.val = z.val ^ (2 ^ 20 - 1) := by
    rw [e20, et10, es10, p10, ← pow_mul, ← pow_mul, ← pow_add]
    rfl
  have p40 : z2_40_0.val = z.val ^ (2 ^ 40 - 1) := by
    rw [e40, et20, es20, p20, ← pow_mul, ← pow_mul, ← pow_add]
    rfl
  have p50 : z2_50_0.val = z.val ^ (2 ^ 50 - 1) := by
    rw [e50, et40, p40, p10, ← pow_mul, ← pow_add]
    rfl
  have p100 : z2_100_0.val = z.val ^ (2 ^ 100 - 1) := by
    rw [e100, et50, es50, p50, ← pow_mul, ← pow_mul, ← pow_add]
    rfl
  have p200 : z2_200_0.val = z.val ^ (2 ^ 200 - 1) := by
    rw [e200, et100, es100, p100, ← pow_mul, ← pow_mul, ← pow_add]
    rfl
  have p250 : z2_250_0.val = z.val ^ (2 ^ 250 - 1) := by
    rw [e250, et200, p200, p50, ← pow_mul, ← pow_add]
    rfl
  rw [et250, p250, p11, ← pow_mul, ← pow_add]
  rfl

end Zelr.Curve
