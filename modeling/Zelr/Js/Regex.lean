import Zelr.Base.Bytes

/-!
# Regular expressions

The matcher of `jsregex.h`. The table of nodes is the tree it holds: `next` is the rest of a list,
`alt` and `alt_next` a list of alternatives. The text is bytes, and `-1` is `none`.
-/

namespace Zelr.Js

def RX_CONTS : Nat := 1024
def RX_STEPS : Nat := 400000
def RX_SEARCH : Nat := 4000000

/-! ## Patterns -/

/-- A class: the code points below 256 a bit each, and ranges past them. -/
structure RxClass where
  bits : List UInt8
  ranges : List (Nat × Nat)
  neg : Bool
  deriving DecidableEq, Repr

/-- `RXN_CHAR`, `RXN_ANY` and `RXN_CLASS`: what takes one character. -/
inductive RxSingle
  | char (ch : Nat)
  | any
  | cls (c : RxClass)
  deriving DecidableEq, Repr

structure RxQuant where
  greedy : Bool
  min : Int
  /-- `-1` for no end -/
  max : Int
  deriving DecidableEq, Repr

/-- A node. Anchors, boundaries and lookarounds are taken once, whatever is written after them. -/
inductive RxNode
  | single (x : RxSingle) (q : RxQuant)
  | bol
  | eol
  | wordb
  | nwordb
  | backref (g : Nat) (q : RxQuant)
  | look (neg behind : Bool) (alt : List (List RxNode)) (wmin wmax : Int)
  | group (cap : Option Nat) (alt : List (List RxNode)) (q : RxQuant)

def onceOnly : RxQuant := ⟨true, 1, 1⟩

def RxQuant.more (q : RxQuant) (done : Nat) : Bool := decide (q.max < 0 ∨ done < q.max)

def RxNode.quant : RxNode → RxQuant
  | .single _ q => q
  | .backref _ q => q
  | .group _ _ q => q
  | _ => onceOnly

/-! ## Characters -/

def rxTail : Nat → Bytes → Nat → Option Nat
  | 0, _, v => some v
  | _, [], _ => none
  | need + 1, d :: p, v =>
    if d &&& 0xC0 ≠ 0x80 then none else rxTail need p (v <<< 6 ||| (d &&& 0x3F).toNat)

/-- One character at the start of `p`: its code point, and how many bytes it is. A byte that does not
begin a whole character is taken as itself. -/
def rxUtf8 (p : Bytes) : Nat × Nat :=
  let c := (byteAt p 0).toNat
  if c < 0x80 then (c, 1)
  else
    let need :=
      if c ≥ 0xF0 ∧ c ≤ 0xF4 then 3 else if c ≥ 0xE0 ∧ c ≤ 0xEF then 2
      else if c ≥ 0xC2 ∧ c ≤ 0xDF then 1 else 0
    if need = 0 ∨ need ≥ p.length then (c, 1)
    else
      let v := c &&& (if need = 1 then 0x1F else if need = 2 then 0x0F else 0x07)
      match rxTail need (p.drop 1) v with
      | none => (c, 1)
      | some v =>
        if (need = 2 ∧ v < 0x800) ∨ (need = 3 ∧ (v < 0x10000 ∨ v > 0x10FFFF)) then (c, 1)
        else (v, need + 1)

def rxFold (c : Nat) : Nat :=
  if ('A'.toNat ≤ c ∧ c ≤ 'Z'.toNat) ∨ (0xC0 ≤ c ∧ c ≤ 0xDE ∧ c ≠ 0xD7) then c + 32 else c

def rxDigit (c : Nat) : Bool := decide ('0'.toNat ≤ c ∧ c ≤ '9'.toNat)

def rxWord (c : Nat) : Bool :=
  rxDigit c || decide ('a'.toNat ≤ c ∧ c ≤ 'z'.toNat) || decide ('A'.toNat ≤ c ∧ c ≤ 'Z'.toNat)
    || c == '_'.toNat

def rxLower (c : Nat) : Nat := if 'A'.toNat ≤ c ∧ c ≤ 'Z'.toNat then c + 32 else c

def rxClsHas (c : RxClass) (cp : Nat) : Bool :=
  let inside :=
    if cp < 256 then (c.bits.getD (cp >>> 3) 0).toNat.testBit (cp &&& 7)
    else c.ranges.any fun r => decide (r.1 ≤ cp ∧ cp ≤ r.2)
  inside != c.neg

/-- The text, and the flags that matching reads. -/
structure RxEnv where
  s : Bytes
  icase : Bool
  multiline : Bool
  dotall : Bool

def RxEnv.len (R : RxEnv) : Nat := R.s.length

def rxAtWord (R : RxEnv) (i : Int) : Bool :=
  decide (0 ≤ i ∧ i < R.len) && rxWord (byteAt R.s i.toNat).toNat

/-- How many bytes one character takes at `pos`, or 0 when it does not match there. -/
def rxOne (R : RxEnv) (x : RxSingle) (pos : Nat) : Nat :=
  if pos ≥ R.len then 0
  else
    let c := (byteAt R.s pos).toNat
    let ck := if c ≥ 0x80 then rxUtf8 (R.s.drop pos) else (c, 1)
    let c := ck.1
    let k := ck.2
    match x with
    | .char ch => if (if R.icase then rxFold c else c) = ch then k else 0
    | .any => if R.dotall = true ∨ (c ≠ 10 ∧ c ≠ 13 ∧ c ≠ 0x2028 ∧ c ≠ 0x2029) then k else 0
    | .cls cls => if rxClsHas cls c then k else 0

/-- The start of the character that ends at `q`, no further back than `lo`: four bytes, then three,
then two, and one. -/
def rxBack (R : RxEnv) (lo : Nat) (q : Int) : Int :=
  if lo + 4 ≤ q ∧ (rxUtf8 (R.s.drop (q - 4).toNat)).2 = 4 then q - 4
  else if lo + 3 ≤ q ∧ (rxUtf8 (R.s.drop (q - 3).toNat)).2 = 3 then q - 3
  else if lo + 2 ≤ q ∧ (rxUtf8 (R.s.drop (q - 2).toNat)).2 = 2 then q - 2
  else q - 1

/-- How long what a group caught is at `pos`, when it is there again: nothing at all when the group took
no part. -/
def rxBackLen (R : RxEnv) (g pos : Nat) (caps : List (Option (Nat × Nat))) : Option Nat :=
  match caps.getD g none with
  | none => some 0
  | some (s, e) =>
    let fold := fun b : UInt8 => if R.icase then rxLower b.toNat else b.toNat
    if e < s then some 0
    else if R.len < pos + (e - s) then none
    else if ((R.s.drop s).take (e - s)).map fold = ((R.s.drop pos).take (e - s)).map fold then some (e - s)
    else none

/-! ## Repetition -/

section Repetition

variable {m : Type → Type} [Monad m]

/-- As many characters as there are, no more than `most`: how many, and where they end. -/
def rxForward (one : Nat → Nat) : Nat → Nat → Nat → Nat × Nat
  | 0, k, q => (k, q)
  | most + 1, k, q =>
    let w := one q
    if w = 0 then (k, q) else rxForward one most (k + 1) (q + w)

/-- What comes next, with a character less each time, `spare` times. -/
def rxGiveBack (next : Int → m Bool) (budget : m Bool) (back : Int → Int) : Nat → Int → m Bool
  | 0, q => do
    if ← next q then return true
    let _ ← budget
    return false
  | spare + 1, q => do
    if ← next q then return true
    if !(← budget) then return false
    rxGiveBack next budget back spare (back q)

/-- What comes next, with a character more each time, `spare` times. -/
def rxTakeMore (next : Int → m Bool) (budget : m Bool) (one : Nat → Nat) : Nat → Nat → m Bool
  | 0, q => do
    if ← next q then return true
    let _ ← budget
    return false
  | spare + 1, q => do
    if ← next q then return true
    if !(← budget) then return false
    let w := one q
    if w = 0 then return false
    rxTakeMore next budget one spare (q + w)

/-- `rx_rep` for one character: counted and given back in a loop. -/
def rxRepSingle (R : RxEnv) (x : RxSingle) (q : RxQuant) (next : Int → m Bool) (budget : m Bool)
    (pos : Nat) : m Bool :=
  let most := if q.max < 0 then R.len - pos else q.max.toNat
  if q.greedy then
    let kq := rxForward (rxOne R x) most 0 pos
    if kq.1 < q.min then return false
    else rxGiveBack next budget (rxBack R pos) (kq.1 - q.min).toNat kq.2
  else
    let kq := rxForward (rxOne R x) q.min.toNat 0 pos
    if kq.1 < q.min then return false
    else rxTakeMore next budget (rxOne R x) (most - kq.1) kq.2

/-- `rx_rep` for anything else, `done` turns being behind it: `again` is one more turn and all that
follows, `next` what follows without one. -/
def rxRepTurn (q : RxQuant) (done : Nat) (again next : m Bool) : m Bool := do
  if done ≥ q.min ∧ q.greedy = false then
    if ← next then return true
  if q.more done then
    if ← again then return true
  if done ≥ q.min ∧ q.greedy = true then
    if ← next then return true
  return false

end Repetition

/-! ## Matching -/

/-- What to do once the thing in hand has matched: a repetition to resume, a capture to close, or a
lookaround that has matched, at a place when it has to end there. -/
inductive RxCont
  | rep (n : RxNode) (next : List RxNode) (parent : Option Nat) (rep : Nat) (place : Nat)
  | close (cap : Nat) (parent : Option Nat) (place : Nat)
  | lookEnd (place : Option Nat)

structure RxState where
  cont : List RxCont
  caps : List (Option (Nat × Nat))
  fin : Option Nat
  steps : Nat
  total : Nat

/-- `none` when the recursion goes deeper than it is let, or before the text. -/
abbrev RxM := StateT RxState Option

/-- A call of one of the four functions that call each other. -/
inductive RxTask
  | run (n : List RxNode) (pos : Nat) (cont : Option Nat)
  | rep (n : RxNode) (next : List RxNode) (pos : Nat) (cont : Option Nat) (done : Nat)
  | atom (n : RxNode) (pos : Nat) (cont : Option Nat)
  | contDo (cont : Option Nat) (pos : Nat)

def rxBudget : RxM Bool := do
  let S ← get
  if S.steps + 1 ≤ RX_STEPS then
    set { S with steps := S.steps + 1, total := S.total + 1 }
    return decide (S.total + 1 ≤ RX_SEARCH)
  set { S with steps := S.steps + 1 }
  return false

def rxPush (f : RxCont) : RxM (Option Nat) := do
  let S ← get
  if S.cont.length ≥ RX_CONTS then return none
  set { S with cont := S.cont ++ [f] }
  return some S.cont.length

def rxDropTo (n : Nat) : RxM Unit := modify fun S => { S with cont := S.cont.take n }

def rxSetCap (i : Nat) (c : Option (Nat × Nat)) : RxM Unit :=
  modify fun S => { S with caps := S.caps.set i c }

section Bodies

variable (R : RxEnv) (call : RxTask → RxM Bool)

def rxContDo (cont : Option Nat) (pos : Nat) : RxM Bool := do
  match cont with
  | none =>
    modify fun S => { S with fin := some pos }
    return true
  | some c =>
    match (← get).cont[c]? with
    | none => return false
    | some (.lookEnd place) => return decide (place = none ∨ place = some pos)
    | some (.close cap parent place) =>
      let save := (← get).caps.getD cap none
      rxSetCap cap (some (place, pos))
      if ← call (.contDo parent pos) then return true
      rxSetCap cap save
      return false
    | some (.rep n next parent rep place) =>
      -- A turn that consumed nothing, having already done its minimum, would go round for ever.
      if pos = place ∧ rep > n.quant.min then return false
      call (.rep n next pos parent rep)

def rxGroupAlts (cap : Option Nat) (pos : Nat) (cont : Option Nat) (save : Nat) :
    List (List RxNode) → RxM Bool
  | [] => do
    rxDropTo save
    return false
  | a :: alts => do
    rxDropTo save
    match cap with
    | none =>
      if ← call (.run a pos cont) then return true
      rxGroupAlts cap pos cont save alts
    | some cap' =>
      match ← rxPush (.close cap' cont pos) with
      | none => return false
      | some f =>
        if ← call (.run a pos (some f)) then return true
        rxGroupAlts cap pos cont save alts

def rxLookAlts (pos f : Nat) : List (List RxNode) → RxM Bool
  | [] => return false
  | a :: alts => do
    rxDropTo (f + 1)
    if ← call (.run a pos (some f)) then return true
    rxLookAlts pos f alts

def rxLookPlaces (f : Nat) (alts : List (List RxNode)) : List Nat → RxM Bool
  | [] => return false
  | k :: ks => do
    if ← rxLookAlts call k f alts then return true
    rxLookPlaces f alts ks

/-- An `int` that ran over. -/
def i32 (z : Int) : Int := z.bmod (2 ^ 32)

def rxBehind (wmin wmax : Int) (pos : Nat) : List Nat :=
  let first := i32 (pos - wmin)
  let last := max 0 (if wmax < 0 then 0 else i32 (pos - i32 (4 * wmax)))
  (List.range (first - last + 1).toNat).map fun (i : Nat) => (first - (i : Int)).toNat

def rxLook (neg behind : Bool) (alt : List (List RxNode)) (wmin wmax : Int) (pos : Nat)
    (cont : Option Nat) : RxM Bool := do
  let S ← get
  match ← rxPush (.lookEnd (if behind then some pos else none)) with
  | none => return false
  | some f =>
    let matched ← rxLookPlaces call f alt (if behind then rxBehind wmin wmax pos else [pos])
    rxDropTo S.cont.length
    if neg then
      modify fun S' => { S' with caps := S.caps }
      if matched then return false
      call (.contDo cont pos)
    else if matched then call (.contDo cont pos)
    else return false

def rxAtom (n : RxNode) (pos : Nat) (cont : Option Nat) : RxM Bool := do
  if !(← rxBudget) then return false
  match n with
  | .single x _ =>
    let k := rxOne R x pos
    if k = 0 then return false
    call (.contDo cont (pos + k))
  | .bol =>
    if pos = 0 then call (.contDo cont pos)
    else if R.multiline = true ∧ (byteAt R.s (pos - 1) = 10 ∨ byteAt R.s (pos - 1) = 13) then
      call (.contDo cont pos)
    else return false
  | .eol =>
    if pos = R.len then call (.contDo cont pos)
    else if R.multiline = true ∧ (byteAt R.s pos = 10 ∨ byteAt R.s pos = 13) then call (.contDo cont pos)
    else return false
  | .wordb =>
    if rxAtWord R (pos - 1) ≠ rxAtWord R pos then call (.contDo cont pos) else return false
  | .nwordb =>
    if rxAtWord R (pos - 1) = rxAtWord R pos then call (.contDo cont pos) else return false
  | .backref g _ =>
    match rxBackLen R g pos (← get).caps with
    | none => return false
    | some n => call (.contDo cont (pos + n))
  | .look neg behind alt wmin wmax => rxLook call neg behind alt wmin wmax pos cont
  | .group cap alt _ => rxGroupAlts call cap pos cont (← get).cont.length alt

def rxAgain (n : RxNode) (next : List RxNode) (pos : Nat) (cont : Option Nat) (done : Nat) : RxM Bool := do
  let save := (← get).cont.length
  match ← rxPush (.rep n next cont (done + 1) pos) with
  | none => return false
  | some f =>
    if ← call (.atom n pos (some f)) then return true
    rxDropTo save
    return false

def rxFrom (next : List RxNode) (cont : Option Nat) (p : Int) : RxM Bool :=
  if p < 0 then fun _ => none else call (.run next p.toNat cont)

def rxRep (n : RxNode) (next : List RxNode) (pos : Nat) (cont : Option Nat) (done : Nat) : RxM Bool := do
  if !(← rxBudget) then return false
  let general : RxM Bool := rxRepTurn n.quant done (rxAgain call n next pos cont done) (call (.run next pos cont))
  match n with
  | .single x q =>
    if done = 0 then rxRepSingle R x q (rxFrom call next cont) rxBudget pos else general
  | _ => general

def rxRun (n : List RxNode) (pos : Nat) (cont : Option Nat) : RxM Bool :=
  match n with
  | [] => call (.contDo cont pos)
  | n :: next => call (.rep n next pos cont 0)

end Bodies

/-- The four functions, calling each other no deeper than they are let. -/
def rxCall (R : RxEnv) : Nat → RxTask → RxM Bool
  | 0, _ => fun _ => none
  | deep + 1, .run n pos cont => rxRun (rxCall R deep) n pos cont
  | deep + 1, .rep n next pos cont done => rxRep R (rxCall R deep) n next pos cont done
  | deep + 1, .atom n pos cont => rxAtom R (rxCall R deep) n pos cont
  | deep + 1, .contDo cont pos => rxContDo (rxCall R deep) cont pos

/-! ## Searching -/

/-- A compiled pattern: the alternatives of the whole, and how many groups there are with it. -/
structure Rx where
  alt : List (List RxNode)
  ncaps : Nat
  icase : Bool
  multiline : Bool
  dotall : Bool
  sticky : Bool

/-- Deeper than the steps and the continuations allow. -/
def rxDeep : Nat := (RX_STEPS + 2) * (RX_CONTS + 4)

def Rx.env (P : Rx) (s : Bytes) : RxEnv := ⟨s, P.icase, P.multiline, P.dotall⟩

def Rx.root (P : Rx) : List RxNode := [.group (some 0) P.alt onceOnly]

def rxFresh (P : Rx) (S : RxState) : RxState :=
  { S with cont := [], steps := 0, caps := List.replicate P.ncaps none, fin := none }

/-- Tries from `start` on, at the start of each character. -/
def rxTry (P : Rx) (s : Bytes) : Nat → Nat → RxState → Option (Option Nat × RxState)
  | 0, _, S => some (none, S)
  | places + 1, start, S =>
    if start > s.length then some (none, S)
    else
      match rxCall (P.env s) rxDeep (.run P.root start none) (rxFresh P S) with
      | none => none
      | some (true, S) => some (some start, { S with caps := S.caps.set 0 (some (start, S.fin.getD 0)) })
      | some (false, S) =>
        if P.sticky = true ∨ S.total > RX_SEARCH then some (none, S)
        else
          let k := if start < s.length then (rxUtf8 (s.drop start)).2 else 1
          rxTry P s places (start + k) S

/-- The first match at or after `start`, or only there for a sticky pattern: where it starts. -/
def rxSearch (P : Rx) (s : Bytes) (start : Nat) : Option (Option Nat × RxState) :=
  rxTry P s (s.length + 1) start ⟨[], [], none, 0, 0⟩

end Zelr.Js
