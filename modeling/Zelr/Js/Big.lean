import Zelr.Base.Limbs

/-!
# BigInt

The whole numbers of any size of `jsbig.h`: a sign and a magnitude in limbs. What the source keeps in
two limbs on the way never wraps, and is a number here.
-/

namespace Zelr.Js

def JSB_MAX_LIMBS : Nat := 32768

/-- `jbint`: `n` is how many limbs there are. -/
@[ext] structure Jbint where
  neg : Bool
  d : Limbs
  deriving DecidableEq, Repr

/-- What is thrown is a RangeError, by its text. -/
abbrev Big := Except String

def tooLarge : String := "a BigInt too large for this machine"

def byZero : String := "division of a BigInt by zero"

def negativePower : String := "a BigInt to a negative power"

def jsbNew (n : Nat) : Big Jbint :=
  if n > JSB_MAX_LIMBS then .error tooLarge else .ok ⟨false, List.replicate n 0⟩

def jsbTrim (b : Jbint) : Jbint :=
  let d := stripLimbs b.d
  ⟨if d = [] then false else b.neg, d⟩

def jsbFromU64 (v : UInt64) (neg : Bool) : Big Jbint := do
  let _ ← jsbNew 2
  return jsbTrim ⟨neg, [v.toUInt32, (v >>> 32).toUInt32]⟩

/-- The source's `room` is zero wherever it is called. -/
def jsbCopy (a : Jbint) (neg : Bool) : Big Jbint := do
  let _ ← jsbNew a.d.length
  return ⟨neg, a.d⟩

/-! ## Magnitudes -/

def cmpFromTop : Limbs → Limbs → Ordering
  | x :: a, y :: b => if x ≠ y then (if x < y then .lt else .gt) else cmpFromTop a b
  | _, _ => .eq

def jsbMagCmp (a b : Limbs) : Ordering :=
  if a.length ≠ b.length then (if a.length < b.length then .lt else .gt)
  else cmpFromTop a.reverse b.reverse

def addRow : Limbs → Limbs → Nat → Limbs
  | [], _, c => if c ≠ 0 then [UInt32.ofNat c] else []
  | x :: a, b, c =>
    let c := c + (x.toNat + (b.headD 0).toNat)
    UInt32.ofNat c :: addRow a b.tail (c >>> 32)

def jsbMagAdd (a b : Limbs) : Limbs := if a.length < b.length then addRow b a 0 else addRow a b 0

def subRow : Limbs → Limbs → UInt32 → Limbs
  | [], _, _ => []
  | x :: a, b, borrow =>
    let t := x.toUInt64 - (b.headD 0).toUInt64 - borrow.toUInt64
    t.toUInt32 :: subRow a b.tail (t >>> 63).toUInt32

def jsbMagSub (a b : Limbs) : Limbs := stripLimbs (subRow a b 0)

/-- `r + x * b`, the carry its last limb. -/
def mulRow (x : UInt32) : Limbs → Limbs → Nat → Limbs
  | y :: b, t :: r, c =>
    let c := c + (x.toNat * y.toNat + t.toNat)
    UInt32.ofNat c :: mulRow x b r (c >>> 32)
  | _, _, c => [UInt32.ofNat c]

/-- A row for each limb of `a`, each one limb further up: `r` is the limbs that are not yet final. -/
def mulRows (b : Limbs) : Limbs → Limbs → Limbs
  | [], r => r
  | x :: a, r =>
    let row := mulRow x b r 0
    row.headD 0 :: mulRows b a row.tail

def jsbMagMul (a b : Limbs) : Limbs := stripLimbs (mulRows b a (List.replicate b.length 0))

def jsbMagMuladd (a : Limbs) (m : UInt32) (c : Nat) : Limbs :=
  match a with
  | [] => if c ≠ 0 then [UInt32.ofNat c] else []
  | x :: a =>
    let c := c + x.toNat * m.toNat
    UInt32.ofNat c :: jsbMagMuladd a m (c >>> 32)

def divRow (d : UInt32) : Limbs → Limbs × Nat
  | [] => ([], 0)
  | x :: a =>
    let above := divRow d a
    let cur := above.2 <<< 32 ||| x.toNat
    (UInt32.ofNat (cur / d.toNat) :: above.1, cur % d.toNat)

def jsbMagDivsmall (a : Limbs) (d : UInt32) : Limbs × UInt32 :=
  let row := divRow d a
  (stripLimbs row.1, UInt32.ofNat row.2)

/-- Turns of `jsb_clz`, of which there are at most thirty-one. -/
def clzFrom : Nat → UInt32 → Nat
  | 0, _ => 0
  | turns + 1, x => if x &&& 0x80000000 ≠ 0 then 0 else clzFrom turns (x <<< 1) + 1

def jsbClz (x : UInt32) : Nat := if x = 0 then 32 else clzFrom 31 x

/-- Each limb moved up by `s` bits, the bits out of the one below coming in; the last limb is what
comes out of the top. -/
def shlRow (s : Nat) : Limbs → UInt32 → Limbs
  | [], below => [below]
  | x :: a, below =>
    (x <<< UInt32.ofNat s ||| below) ::
      shlRow s a (if s ≠ 0 then x >>> UInt32.ofNat (32 - s) else 0)

/-- Each limb moved down by `s` bits, the bits out of the one above coming in. -/
def shrRow (s : Nat) : Limbs → Limbs
  | [] => []
  | x :: a =>
    (x >>> UInt32.ofNat s ||| (if s ≠ 0 then a.headD 0 <<< UInt32.ofNat (32 - s) else 0)) ::
      shrRow s a

/-! ## Knuth's long division -/

/-- The estimate brought down while it is seen to be too great. The divisor's top limb has its top
bit, so two turns take `rhat` past a limb. -/
def lowerQhat (v1 v2 u2 : Nat) : Nat → Nat → Nat → Nat
  | 0, qhat, _ => qhat
  | turns + 1, qhat, rhat =>
    if qhat ≥ 2 ^ 32 ∨ qhat * v2 > (rhat <<< 32 ||| u2) then
      if rhat + v1 ≥ 2 ^ 32 then qhat - 1 else lowerQhat v1 v2 u2 turns (qhat - 1) (rhat + v1)
    else qhat

def lowLimb (t : Int) : UInt32 := UInt32.ofNat (t % 2 ^ 32).toNat

/-- `u - qhat * v`, `u` being a limb longer; the last difference is kept with its sign. -/
def mulSubRow (qhat : Nat) : Limbs → Limbs → Int → Limbs × Int
  | x :: u, y :: v, borrow =>
    let p := qhat * y.toNat
    let t := (x.toNat : Int) - borrow - ((p &&& 0xFFFFFFFF : Nat) : Int)
    let rest := mulSubRow qhat u v (((p >>> 32 : Nat) : Int) - t >>> (32 : Nat))
    (lowLimb t :: rest.1, rest.2)
  | x :: _, [], borrow =>
    let t := (x.toNat : Int) - borrow
    ([lowLimb t], t)
  | [], _, borrow => ([], -borrow)

def addBackRow : Limbs → Limbs → Nat → Limbs
  | x :: u, y :: v, k =>
    let k := k + (x.toNat + y.toNat)
    UInt32.ofNat k :: addBackRow u v (k >>> 32)
  | x :: _, [], k => [x + UInt32.ofNat k]
  | [], _, _ => []

/-- One turn of the loop over `j`: the window `u` is `un[j .. j + nv]`. -/
def divStep (v u : Limbs) : UInt32 × Limbs :=
  let nv := v.length
  let num := (u.getD nv 0).toNat <<< 32 ||| (u.getD (nv - 1) 0).toNat
  let v1 := (v.getD (nv - 1) 0).toNat
  let v2 := (v.getD (nv - 2) 0).toNat
  let qhat := lowerQhat v1 v2 (u.getD (nv - 2) 0).toNat 2 (num / v1) (num % v1)
  let row := mulSubRow qhat u v 0
  if row.2 < 0 then (UInt32.ofNat qhat - 1, addBackRow row.1 v 0) else (UInt32.ofNat qhat, row.1)

/-- The loop over `j`, the higher limbs first: `low` is the limbs not yet brought down. -/
def divLoop (v : Limbs) : Limbs → Limbs → Limbs × Limbs
  | [], top => ([], top)
  | x :: low, top =>
    let above := divLoop v low top
    let step := divStep v (x :: above.2.take v.length)
    (step.1 :: above.1, step.2)

def jsbMagDivmod (u v : Limbs) : Limbs × Limbs :=
  let nv := v.length
  let s := jsbClz (v.getD (nv - 1) 0)
  let vn := (shlRow s v 0).take nv
  let un := shlRow s u 0
  let run := divLoop vn (un.take (u.length - nv + 1)) (un.drop (u.length - nv + 1))
  (stripLimbs run.1, stripLimbs ((shrRow s run.2).take nv))

/-! ## The operations -/

def jsbCmp (a b : Jbint) : Ordering :=
  if a.neg ≠ b.neg then (if a.neg then .lt else .gt)
  else if a.neg then (jsbMagCmp a.d b.d).swap else jsbMagCmp a.d b.d

def jsbAddsub (a b : Jbint) (sub : Bool) : Big Jbint := do
  let bneg := if sub then !b.neg && b.d.length != 0 else b.neg
  let _ ← jsbNew (max a.d.length b.d.length + 1)
  if a.neg = bneg then
    return jsbTrim ⟨a.neg, jsbMagAdd a.d b.d⟩
  if jsbMagCmp a.d b.d ≠ .lt then
    return jsbTrim ⟨a.neg, jsbMagSub a.d b.d⟩
  return jsbTrim ⟨bneg, jsbMagSub b.d a.d⟩

def jsbMul (a b : Jbint) : Big Jbint := do
  let _ ← jsbNew (a.d.length + b.d.length)
  return jsbTrim ⟨a.neg ^^ b.neg, jsbMagMul a.d b.d⟩

def jsbDivmod (a b : Jbint) : Big (Jbint × Jbint) := do
  if b.d.length = 0 then throw byZero
  if jsbMagCmp a.d b.d = .lt then
    return (← jsbNew 0, ← jsbCopy a a.neg)
  let _ ← jsbNew a.d.length
  let _ ← jsbNew b.d.length
  let qr :=
    if b.d.length = 1 then
      let t := jsbMagDivsmall a.d (b.d.getD 0 0)
      (t.1, [t.2])
    else jsbMagDivmod a.d b.d
  return (jsbTrim ⟨a.neg ^^ b.neg, qr.1⟩, jsbTrim ⟨a.neg, qr.2⟩)

def jsbBits (a : Jbint) : Nat :=
  if a.d.length ≠ 0 then (a.d.length - 1) * 32 + (32 - jsbClz (a.d.getD (a.d.length - 1) 0)) else 0

/-- Square and multiply, over the bits of `k` from the lowest; `k` has no more than `turns` bits. -/
def powLoop : Nat → Nat → Jbint → Jbint → Big Jbint
  | 0, _, res, _ => return res
  | turns + 1, k, res, base => do
    let res ← if k &&& 1 ≠ 0 then jsbMul res base else pure res
    let k := k >>> 1
    if k = 0 then return res
    powLoop turns k res (← jsbMul base base)

def jsbPow (a e : Jbint) : Big Jbint := do
  if e.neg then throw negativePower
  let one ← jsbFromU64 1 false
  if e.d.length = 0 then return one
  if a.d.length = 0 then return ← jsbNew 0
  let e0 := e.d.getD 0 0
  if a.d.length = 1 ∧ a.d.getD 0 0 = 1 then
    return ← jsbFromU64 1 (a.neg && e0 &&& 1 != 0)
  if e.d.length > 1 ∨ jsbBits a * e0.toNat > JSB_MAX_LIMBS * 32 then throw tooLarge
  powLoop 32 e0.toNat one (← jsbCopy a a.neg)

def negRow : Limbs → Nat → Limbs
  | [], _ => []
  | x :: a, c =>
    let c := c + (~~~x).toNat
    UInt32.ofNat c :: negRow a (c >>> 32)

/-- Two's complement in `len` limbs, `len` being more than the magnitude's. -/
def jsbToTc (b : Jbint) (len : Nat) : Limbs :=
  let tc := b.d ++ List.replicate (len - b.d.length) 0
  if b.neg then negRow tc 1 else tc

def jsbFromTc (tc : Limbs) : Big Jbint := do
  let _ ← jsbNew tc.length
  if tc.getD (tc.length - 1) 0 >>> 31 ≠ 0 then return jsbTrim ⟨true, negRow tc 1⟩
  return jsbTrim ⟨false, tc⟩

/-- `&`, `|` or `^` of two limbs, as 0, 1, 2. -/
def limbOp (op : Nat) (x y : UInt32) : UInt32 :=
  if op = 0 then x &&& y else if op = 1 then x ||| y else x ^^^ y

def jsbBitop (a b : Jbint) (op : Nat) : Big Jbint :=
  let len := max a.d.length b.d.length + 1
  jsbFromTc (List.zipWith (limbOp op) (jsbToTc a len) (jsbToTc b len))

def jsbShiftMag (a : Jbint) (k : Nat) (left : Bool) : Big Jbint := do
  let limbs := k / 32
  let bits := k % 32
  if left then
    let _ ← jsbNew (a.d.length + limbs + 1)
    return jsbTrim ⟨a.neg, List.replicate limbs 0 ++ shlRow bits a.d 0⟩
  if limbs ≥ a.d.length then return ← jsbNew 0
  let _ ← jsbNew (a.d.length - limbs)
  return jsbTrim ⟨a.neg, shrRow bits (a.d.drop limbs)⟩

/-- `a << k`, and `a >> k` as the floor of `a / 2 ^ k`; a negative `k` shifts the other way. -/
def jsbShift (a k : Jbint) (left : Bool) : Big Jbint := do
  let left := if k.neg then !left else left
  let by0 := (k.d.getD 0 0).toNat
  if k.d.length > 1 ∨ left = true ∧ k.d.length ≠ 0 ∧ by0 > JSB_MAX_LIMBS * 32 then
    if left then throw tooLarge
    if a.neg then return ← jsbFromU64 1 true
    return ← jsbNew 0
  if left = true ∨ a.neg = false then
    return ← jsbShiftMag a by0 left
  -- `-x >> k` is `-((x - 1) >> k) - 1`.
  let one ← jsbFromU64 1 false
  let m ← jsbAddsub (← jsbCopy a false) one true
  let s ← jsbShiftMag m by0 false
  let r ← jsbAddsub s one false
  return if r.d.length ≠ 0 then { r with neg := true } else r

/-- The low `bits` bits as they are, and the limbs above them. -/
def cutBits (x : Limbs) (bits : Nat) (mask : UInt32 → UInt32) (above : UInt32) : Limbs :=
  let whole := bits / 32
  let part := bits % 32
  let kept := whole + if part ≠ 0 then 1 else 0
  let x := x.take kept ++ List.replicate (x.length - kept) above
  if part ≠ 0 then x.modify whole mask else x

/-- `BigInt.asUintN` and `asIntN`: `a` modulo `2 ^ bits`, and that read as signed. -/
def jsbAsN (a : Jbint) (bits : Nat) (isSigned : Bool) : Big Jbint := do
  if bits = 0 then return ← jsbNew 0
  let len := max ((bits + 31) / 32 + 1) (a.d.length + 1)
  let part := UInt32.ofNat (bits % 32)
  let x := cutBits (jsbToTc a len) bits (· &&& ((1 <<< part) - 1)) 0
  let top := x.getD ((bits - 1) / 32) 0 >>> UInt32.ofNat ((bits - 1) % 32) &&& 1
  -- Take `2 ^ bits` off: set every bit above as a two's complement sign.
  let x := if isSigned = true ∧ top ≠ 0 then cutBits x bits (· ||| ~~~((1 <<< part) - 1)) 0xFFFFFFFF else x
  jsbFromTc x

/-! ## The language's operators -/

inductive Jop
  | add | sub | mul | div | mod | pow | band | bor | bxor | shl | shr
  deriving DecidableEq, Repr

def jsbBinary (op : Jop) (a b : Jbint) : Big Jbint :=
  match op with
  | .add => jsbAddsub a b false
  | .sub => jsbAddsub a b true
  | .mul => jsbMul a b
  | .div => return (← jsbDivmod a b).1
  | .mod => return (← jsbDivmod a b).2
  | .pow => jsbPow a b
  | .band => jsbBitop a b 0
  | .bor => jsbBitop a b 1
  | .bxor => jsbBitop a b 2
  | .shl => jsbShift a b true
  | .shr => jsbShift a b false

/-- `BigInt.asIntN` and `asUintN`, the number of bits having been read. -/
def jsbAs (bits : Nat) (b : Jbint) (isSigned : Bool) : Big Jbint :=
  if bits > JSB_MAX_LIMBS * 32 then
    if isSigned = false ∧ b.neg = true then throw tooLarge else return b
  else jsbAsN b bits isSigned

/-! ## Text -/

def DIG : List Char := "0123456789abcdefghijklmnopqrstuvwxyz".toList

/-- The largest power of the radix that stays in a limb, and its exponent: `jsb_to_str`'s loop, which
ends within thirty-two turns. -/
def chunkFrom (radix : Nat) : Nat → Nat → Nat → Nat × Nat
  | 0, chunk, k => (chunk, k)
  | turns + 1, chunk, k =>
    if chunk * radix < 0xFFFFFFFF then chunkFrom radix turns (chunk * radix) (k + 1) else (chunk, k)

/-- The digits of one chunk, low first: all `k` of them while there is more above. -/
def chunkDigits (radix : Nat) (more : Bool) : Nat → Nat → List Char
  | 0, _ => []
  | k + 1, r =>
    if more = true ∨ r ≠ 0 then DIG.getD (r % radix) '0' :: chunkDigits radix more k (r / radix) else []

def digitsLoop (radix : Nat) (chunk k : Nat) : Nat → Limbs → List Char
  | 0, _ => []
  | turns + 1, m =>
    if m.length = 0 then []
    else
      let t := jsbMagDivsmall m (UInt32.ofNat chunk)
      chunkDigits radix (t.1.length != 0) k t.2.toNat ++ digitsLoop radix chunk k turns t.1

def jsbToStr (a : Jbint) (radix : Nat) : List Char :=
  if a.d.length = 0 then ['0']
  else
    let c := chunkFrom radix 32 radix 1
    let out := digitsLoop radix c.1 c.2 (32 * a.d.length) a.d
    (out ++ if a.neg then ['-'] else []).reverse

def digitValue (c : Char) : Nat :=
  if '0' ≤ c ∧ c ≤ '9' then c.toNat - '0'.toNat
  else if 'a' ≤ c ∧ c ≤ 'z' then c.toNat - 'a'.toNat + 10
  else if 'A' ≤ c ∧ c ≤ 'Z' then c.toNat - 'A'.toNat + 10
  else 99

def jsbDigit (c : Char) (radix : Nat) : Option Nat :=
  if digitValue c < radix then some (digitValue c) else none

def parseLoop (radix : Nat) : List Char → Limbs → Nat → Option (Limbs × Nat)
  | [], b, got => some (b, got)
  | c :: s, b, got =>
    if c = '_' then parseLoop radix s b got
    else match jsbDigit c radix with
      | none => none
      | some d => parseLoop radix s (jsbMagMuladd b (UInt32.ofNat radix) d) (got + 1)

/-- Nothing when one is not a digit or there are none. -/
def jsbParseDigits (s : List Char) (radix : Nat) (neg : Bool) : Big (Option Jbint) := do
  -- At most six bits a digit, in any radix up to 36.
  let _ ← jsbNew (s.length * 6 / 32 + 2)
  match parseLoop radix s [] 0 with
  | none => return none
  | some (b, got) => return if got = 0 then none else some (jsbTrim ⟨neg, b⟩)

end Zelr.Js
