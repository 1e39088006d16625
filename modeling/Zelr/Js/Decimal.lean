import Mathlib.Data.Nat.Size
import Zelr.Base.Bytes
import Zelr.Js.Big

/-!
# Decimals

`jsnum.h`: the double a decimal stands for, worked out in whole numbers of up to 4096 bits. A double
that is not below zero is its bit pattern, a number; the `u64`s on the way never wrap, and are numbers
too.
-/

namespace Zelr.Js

def JN_LIMBS : Nat := 128

def JN_DIGITS : Nat := 780

def JN_INF : Nat := 0x7FF0000000000000

/-! ## Whole numbers of any size -/

/-- `jbig`: `w` is its first `n` limbs. `lost` is not in the source: something above the last limb was
dropped. -/
@[ext] structure Jbig where
  w : Limbs
  lost : Bool
  deriving DecidableEq, Repr

def Jbig.fit (lost : Bool) (w : Limbs) : Jbig :=
  if w.length ≤ JN_LIMBS then ⟨w, lost⟩ else ⟨w.take JN_LIMBS, true⟩

def jbSet (v : Nat) : Jbig := ⟨stripLimbs [UInt32.ofNat v, UInt32.ofNat (v >>> 32)], false⟩

def jbTrim (b : Jbig) : Jbig := ⟨stripLimbs b.w, b.lost⟩

/-- The pass is that of `jsb_mag_muladd`. -/
def jbMul (b : Jbig) (m : UInt32) : Jbig := .fit b.lost (jsbMagMuladd b.w m 0)

def addFrom : Limbs → Nat → Limbs
  | [], carry => if carry ≠ 0 then [UInt32.ofNat carry] else []
  | x :: a, carry =>
    if carry = 0 then x :: a
    else
      let t := x.toNat + carry
      UInt32.ofNat t :: addFrom a (t >>> 32)

def jbAdd (b : Jbig) (a : UInt32) : Jbig := .fit b.lost (addFrom b.w a.toNat)

def jbMulPow (b : Jbig) (base k : Nat) : Jbig :=
  let big : UInt32 := if base = 5 then 1220703125 else 1000000000
  let step := if base = 5 then 13 else 9
  let b := (jbMul · big)^[k / step] b
  let r := base ^ (k % step)
  if r > 1 then jbMul b (UInt32.ofNat r) else b

def jbShl (b : Jbig) (s : Nat) : Jbig :=
  if b.w = [] ∨ s = 0 then b
  else
    let words := s / 32
    let bits := s % 32
    let n := b.w.length + words + 1
    let limb (i : Nat) : UInt32 :=
      let hi := if words ≤ i then b.w.getD (i - words) 0 else 0
      let lo := if words + 1 ≤ i then b.w.getD (i - words - 1) 0 else 0
      if bits ≠ 0 then hi <<< UInt32.ofNat bits ||| lo >>> UInt32.ofNat (32 - bits) else hi
    jbTrim ⟨(List.range (min n JN_LIMBS)).map limb, b.lost || JN_LIMBS < n⟩

/-- The pass is that of a `BigInt` moved down one bit. -/
def jbShr1 (b : Jbig) : Jbig := jbTrim ⟨shrRow 1 b.w, b.lost⟩

def jbBits (b : Jbig) : Nat :=
  if b.w = [] then 0 else (b.w.length - 1) * 32 + (b.w.getD (b.w.length - 1) 0).toNat.size

/-- The limbs are compared as those of a `BigInt` are. -/
def jbCmp (a b : Jbig) : Ordering := jsbMagCmp a.w b.w

def subFrom : Limbs → Limbs → Nat → Limbs
  | [], _, _ => []
  | x :: a, b, borrow =>
    let take := (b.headD 0).toNat + borrow
    if take ≤ x.toNat then UInt32.ofNat (x.toNat - take) :: subFrom a b.tail 0
    else UInt32.ofNat (x.toNat + 0x100000000 - take) :: subFrom a b.tail 1

def jbSub (a b : Jbig) : Jbig := jbTrim ⟨subFrom a.w b.w 0, a.lost⟩

def jbTop (b : Jbig) : Nat × Bool :=
  let len := jbBits b
  let bitAt (k : Nat) : Nat :=
    if k < len then ((b.w.getD ((len - 1 - k) / 32) 0).toNat >>> ((len - 1 - k) % 32)) &&& 1 else 0
  let r := (List.range 64).foldl (fun r k => r <<< 1 ||| bitAt k) 0
  let low := len - 64
  let wi := low / 32
  let bi := low % 32
  let sticky := 64 < len ∧ ((b.w.take wi).any (· ≠ 0) ∨
    bi ≠ 0 ∧ (b.w.getD wi 0).toNat &&& (1 <<< bi - 1) ≠ 0)
  (r, decide sticky)

/-! ## To a double -/

/-- `hi` has its top bit set; `sticky` says whether something below its last bit was cut off. -/
def jnRound (hi : Nat) (e : Int) (sticky : Bool) : Nat :=
  let top := e + 63
  if top > 1023 then JN_INF
  else
    let shift := if top < -1022 then 11 + (-1022 - top).toNat else 11
    if top < -1022 ∧ shift > 64 then 0
    else
      let keep := if shift = 64 then 0 else hi >>> shift
      let rest := if shift = 64 then hi else hi &&& (1 <<< shift - 1)
      let half := 1 <<< (shift - 1)
      let keep := if rest > half ∨ rest = half ∧ (sticky ∨ keep &&& 1 ≠ 0) then keep + 1 else keep
      if top < -1022 then keep
      else if keep = 1 <<< 53 then
        if top + 1 > 1023 then JN_INF
        else (top + 1 + 1023).toNat <<< 52 ||| (keep >>> 1) &&& 0xFFFFFFFFFFFFF
      else (top + 1023).toNat <<< 52 ||| keep &&& 0xFFFFFFFFFFFFF

structure Fpu where
  mul : Nat → Nat → Nat
  div : Nat → Nat → Nat

def doubleOf (v : Nat) : Nat :=
  if v = 0 then 0 else (v.log2 + 1023) <<< 52 ||| (v <<< 52 >>> v.log2) &&& 0xFFFFFFFFFFFFF

def JN_POW10 (k : Nat) : Nat := doubleOf (10 ^ k)

def digitsNum (dg : Bytes) : Nat := dg.foldl (fun v c => v * 10 + (c.toNat - '0'.toNat)) 0

def digitChunks : Nat → Bytes → Jbig → Jbig
  | 0, _, b => b
  | turns + 1, dg, b =>
    if dg = [] then b
    else
      let now := dg.take 9
      digitChunks turns (dg.drop 9)
        (jbAdd (jbMul b (UInt32.ofNat (10 ^ now.length))) (UInt32.ofNat (digitsNum now)))

structure Work where
  D : Jbig
  P : Jbig
  Q : Jbig

def divTurn (s : Work) : Work :=
  let Q := jbShl s.Q 1
  if jbCmp s.D s.P ≠ .lt then ⟨jbSub s.D s.P, jbShr1 s.P, jbAdd Q 1⟩ else ⟨s.D, jbShr1 s.P, Q⟩

/-- What `jn_from_digits` does once the zeros at the end are gone, and whether a work number had too little room, which
the source does not ask. -/
def jnKept (fpu : Fpu) (dg : Bytes) (exp10 : Int) (sticky : Bool) : Nat × Bool :=
  let nd := dg.length
  if nd = 0 then (0, false)
  else
    let top := nd + exp10
    if top > 310 then (JN_INF, false)
    else if top < -324 then (0, false)
    else if nd ≤ 15 ∧ sticky = false ∧ -22 ≤ exp10 ∧ exp10 ≤ 22 then
      let x := doubleOf (digitsNum dg)
      (if 0 ≤ exp10 then fpu.mul x (JN_POW10 exp10.toNat) else fpu.div x (JN_POW10 (-exp10).toNat),
        false)
    else
      let D := digitChunks nd dg (jbSet 0)
      if 0 ≤ exp10 then
        let D := jbMulPow D 10 exp10.toNat
        let hi := jbTop D
        (jnRound hi.1 (jbBits D - 64) (hi.2 || sticky), D.lost)
      else
        let P := jbMulPow (jbSet 1) 10 (-exp10).toNat
        let s : Int := jbBits P - jbBits D + 66
        let D := if 0 ≤ s then jbShl D s.toNat else D
        let P := if 0 ≤ s then P else jbShl P (-s).toNat
        let w := divTurn^[69] ⟨D, jbShl P 68, jbSet 0⟩
        let hi := jbTop w.Q
        (jnRound hi.1 (jbBits w.Q - 64 - s) (hi.2 || sticky || w.D.w ≠ []),
          w.D.lost || w.P.lost || w.Q.lost)

def jnFromDigits (fpu : Fpu) (dg : Bytes) (exp10 : Int) (sticky : Bool) : Nat × Bool :=
  let kept := dg.rdropWhile (· = '0'.toUInt8)
  jnKept fpu kept (exp10 + (dg.length - kept.length : Nat)) sticky

/-! ## From a double -/

def jbDivSmall (b : Jbig) (d : UInt32) : Jbig × UInt32 :=
  let row := jsbMagDivsmall b.w d
  (⟨row.1, b.lost⟩, row.2)

def bumpFrom : Bytes → Bytes × Bool
  | [] => ([], true)
  | x :: c =>
    if x < '9'.toUInt8 then ((x + 1) :: c, false)
    else
      let r := bumpFrom c
      ('0'.toUInt8 :: r.1, r.2)

def jnBump (c : Bytes) : Bytes × Bool :=
  let r := bumpFrom c.reverse
  if r.2 then (r.1.reverse.set 0 '1'.toUInt8, true) else (r.1.reverse, false)

def trimZeros (c : Bytes) : Bytes :=
  let kept := c.rdropWhile (· = '0'.toUInt8)
  if kept = [] then c.take 1 else kept

/-- So many digits of `r`, last first. -/
def chunkRev : Nat → Nat → Bytes
  | 0, _ => []
  | k + 1, r => UInt8.ofNat ('0'.toNat + r % 10) :: chunkRev k (r / 10)

def revDigits : Nat → Jbig → Bytes → Bytes
  | 0, _, rev => rev
  | turns + 1, M, rev =>
    if M.w ≠ [] ∧ rev.length + 9 ≤ 800 then
      let r := jbDivSmall M 1000000000
      revDigits turns r.1 (rev ++ chunkRev 9 r.2.toNat)
    else rev

/-- `all`, every digit of a whole number times a power of two, and `first`, the power of ten of the first
of them. -/
def allDigits (m : Nat) (e2 : Int) : Bytes × Int :=
  let M := if 0 ≤ e2 then jbShl (jbSet m) e2.toNat else jbMulPow (jbSet m) 5 (-e2).toNat
  let last := if 0 ≤ e2 then 0 else e2
  let all := (trimZeros (revDigits 88 M [])).reverse
  (all, last + all.length - 1)

def exactDigits (d : Nat) : Bytes × Int :=
  let ef := d >>> 52 &&& 0x7FF
  let m := d &&& 0xFFFFFFFFFFFFF
  if ef ≠ 0 then allDigits (m ||| 1 <<< 52) (ef - 1075) else allDigits m (-1074)

/-- The digits cut to `p` and rounded, then cut the other way, and then one digit more; of seventeen
there are no more turns. -/
def shortestFrom (fpu : Fpu) (d : Nat) (all : Bytes) (first : Int) : Nat → Nat → Bytes × Int
  | 0, _ => (trimZeros (all.take 17), first)
  | turns + 1, p =>
    if p < all.length then
      let cut := all.take p
      let rest := (all.drop (p + 1)).any (· ≠ '0'.toUInt8)
      let next := all.getD p 0
      let up := next > '5'.toUInt8 ∨
        next = '5'.toUInt8 ∧ (rest ∨ (cut.getD (p - 1) 0 - '0'.toUInt8) &&& 1 ≠ 0)
      let exact := next = '0'.toUInt8 ∧ rest = false
      let bump := jnBump cut
      let above := (bump.1, if bump.2 then first + 1 else first)
      let c := if up then above else (cut, first)
      let alt := if up ∨ exact then (cut, first) else above
      if (jnFromDigits fpu c.1 (c.2 - p + 1) false).1 = d then (trimZeros c.1, c.2)
      else if ¬ exact ∧ (jnFromDigits fpu alt.1 (alt.2 - p + 1) false).1 = d then (trimZeros alt.1, alt.2)
      else shortestFrom fpu d all first turns (p + 1)
    else (trimZeros (all.take 17), first)

/-- The digits, and the power of ten of the first. -/
def jsShortest (fpu : Fpu) (d : Nat) : Bytes × Int :=
  let all := exactDigits d
  shortestFrom fpu d all.1 all.2 17 1

end Zelr.Js
