import Mathlib.Data.Nat.Digits.Defs
import Mathlib.Data.UInt
import Zelr.Base.Little

/-!
# Big integers

The integers of `rsa.c`: limbs of sixty-four bits, little end first. The list is the limbs in use.
-/

namespace Zelr.Rsa

abbrev Bn := List UInt64

def LIMBS : Nat := 64

def bnVal (a : Bn) : Nat := Nat.ofDigits (2 ^ 64) (a.map UInt64.toNat)

/-! ## The operations -/

/-- Big end first bytes into limbs, one byte at a time. -/
def bnFromBytes (b : Bytes) (want : Nat) : Option Bn :=
  if want > LIMBS then none
  else if b.length > want * 8 then none
  else some <| (List.range b.length).foldl (fun v i =>
    let pos := b.length - 1 - i
    v.modify (pos / 8) (· ||| (byteAt b i).toUInt64 <<< UInt64.ofNat (pos % 8 * 8)))
    (List.replicate want 0)

def bnToBytes (a : Bn) (len : Nat) : Bytes :=
  (List.range len).map fun i =>
    let pos := len - 1 - i
    if pos / 8 < a.length then (a.getD (pos / 8) 0 >>> UInt64.ofNat (pos % 8 * 8)).toUInt8 else 0

def geFromTop : List UInt64 → List UInt64 → Bool
  | x :: a, y :: b => if x ≠ y then decide (x > y) else geFromTop a b
  | _, _ => true

def bnGe (a b : Bn) : Bool := geFromTop a.reverse b.reverse

def subRow : Bn → Bn → UInt64 → Bn
  | x :: a, y :: b, borrow =>
    let d := x - y - borrow
    let borrow := if x < y + borrow ∨ borrow ≠ 0 ∧ y + borrow = 0 then 1 else 0
    d :: subRow a b borrow
  | a, _, _ => a

def bnSub (a b : Bn) : Bn := subRow a b 0

def dblRow : Bn → UInt64 → Bn × UInt64
  | [], carry => ([], carry)
  | x :: a, carry =>
    let rest := dblRow a (x >>> 63)
    ((x <<< 1 ||| carry) :: rest.1, rest.2)

def bnDblMod (a n : Bn) : Bn :=
  let d := dblRow a 0
  if d.2 ≠ 0 ∨ bnGe d.1 n then bnSub d.1 n else d.1

/-- `-n^-1 mod 2^64`, by Newton's method. -/
def n0Inverse (n0 : UInt64) : UInt64 :=
  0 - Nat.iterate (fun inv => inv * (2 - n0 * inv)) 6 1

def mulRow (b : UInt64) : Bn → Bn → UInt64 → Bn × UInt64
  | x :: a, t :: ts, carry =>
    let p := x.toNat * b.toNat + t.toNat + carry.toNat
    let rest := mulRow b a ts (UInt64.ofNat (p >>> 64))
    (UInt64.ofNat p :: rest.1, rest.2)
  | _, ts, carry => (ts, carry)

/-- One turn of `mont_mul`'s outer loop: `t[0 .. len)` and `t[len]`. -/
def montStep (a n : Bn) (n0inv : UInt64) (t : Bn × UInt64) (bi : UInt64) : Bn × UInt64 :=
  let row := mulRow bi a t.1 0
  let s := t.2.toNat + row.2.toNat
  let top := UInt64.ofNat s
  let carry := UInt64.ofNat (s >>> 64)
  -- The multiple of n that makes the bottom limb vanish, so that everything moves down by a limb.
  let t0 := row.1.headD 0
  let m := t0 * n0inv
  let p := m.toNat * (n.headD 0).toNat + t0.toNat
  let low := mulRow m n.tail row.1.tail (UInt64.ofNat (p >>> 64))
  let s := top.toNat + low.2.toNat
  (low.1 ++ [UInt64.ofNat s], carry + UInt64.ofNat (s >>> 64))

def montRows (a b n : Bn) (n0inv : UInt64) : Bn × UInt64 :=
  b.foldl (montStep a n n0inv) (List.replicate n.length 0, 0)

def montMul (a b n : Bn) (n0inv : UInt64) : Bn :=
  let t := montRows a b n n0inv
  if t.2 ≠ 0 ∨ bnGe t.1 n then bnSub t.1 n else t.1

def bnOne (len : Nat) : Bn := (List.replicate len 0).set 0 1

def topBit (e : UInt32) : Nat → Nat
  | 0 => 0
  | t + 1 => if e.toNat.testBit (t + 1) then t + 1 else topBit e t

def squareMultiply (e : UInt32) (base n : Bn) (n0inv : UInt64) : Nat → Bn → Bn
  | 0, acc => acc
  | i + 1, acc =>
    let sq := montMul acc acc n n0inv
    squareMultiply e base n n0inv i (if e.toNat.testBit i then montMul sq base n n0inv else sq)

def bnModExp (base : Bn) (e : UInt32) (n : Bn) : Bn :=
  let n0inv := n0Inverse (n.headD 0)
  let r2 := Nat.iterate (bnDblMod · n) (2 * n.length * 64) (bnOne n.length)
  let baseM := montMul base r2 n n0inv
  let acc := montMul (bnOne n.length) r2 n n0inv
  let acc := squareMultiply e baseM n n0inv (topBit e 31 + 1) acc
  montMul acc (bnOne n.length) n n0inv

end Zelr.Rsa
