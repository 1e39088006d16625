import Zelr.Js.Props

/-!
# Map and Set

A table of entries in the order they were added, with a hash over them. What is asked of the
allocator is in the step that asks.
-/

namespace Zelr.Js

open Nodes

/-! ## Values -/

/-- A number is the bits of its double, a symbol its own key, an object its address. -/
inductive Jval
  | undef
  | null
  | bool (b : Bool)
  | num (d : UInt64)
  | str (s : Bytes)
  | obj (addr : UInt64)
  | sym (k : PropKey)
  | hole
  | acc (addr : UInt64)
  | big (b : Jbint)
  deriving DecidableEq

def NEG_ZERO : UInt64 := 0x8000000000000000

def isNan (d : UInt64) : Prop := 0x7FF0000000000000 < d &&& 0x7FFFFFFFFFFFFFFF

def isZero (d : UInt64) : Prop := d = 0 ∨ d = NEG_ZERO

instance (d : UInt64) : Decidable (isNan d) := inferInstanceAs (Decidable (_ < _))
instance (d : UInt64) : Decidable (isZero d) := inferInstanceAs (Decidable (_ ∨ _))

def numEq (a b : UInt64) : Prop := ¬ isNan a ∧ ¬ isNan b ∧ (a = b ∨ isZero a ∧ isZero b)

instance (a b : UInt64) : Decidable (numEq a b) := inferInstanceAs (Decidable (_ ∧ _))

def jsStrictEq : Jval → Jval → Bool
  | .big a, .big b => jsbCmp a b = .eq
  | .undef, .undef => true
  | .null, .null => true
  | .bool a, .bool b => a = b
  | .num a, .num b => numEq a b
  | .str a, .str b => jsStrEq (.string a) (.string b)
  | .sym a, .sym b => a = b
  | .obj a, .obj b => a = b
  | .hole, .hole => true
  | .acc a, .acc b => a = b
  | _, _ => false

def jsSameZero (a b : Jval) : Bool :=
  match a, b with
  | .num c, .num d => if isNan c ∧ isNan d then true else jsStrictEq (.num c) (.num d)
  | _, _ => jsStrictEq a b

def jsbHash (a : Jbint) : UInt32 :=
  a.d.foldl (fun h d => (h ^^^ d) * 16777619) (if a.neg then 0x9E3779B9 else 0x7F4A7C15)

def jmHash : Jval → UInt32
  | .str s => jsHash s
  | .sym k => k.hash
  | .num d =>
    let d := if isZero d then 0 else d
    if isNan d then 0x7FF80000 else (d ^^^ d >>> 32).toUInt32 * 2654435761
  | .bool b => if b then 3 else 5
  | .big b => jsbHash b
  | .obj p => ((p >>> 4) ^^^ (p >>> 20)).toUInt32 * 2654435761
  | .undef => 0 * 7919
  | .null => 1 * 7919
  | .hole => 7 * 7919
  | .acc _ => 8 * 7919

def Jval.zeroed : Jval → Jval
  | .num d => .num (if isZero d then 0 else d)
  | k => k

/-! ## The table -/

structure Jmentry where
  k : Jval
  v : Jval
  hash : UInt32
  next : Option Nat
  gone : Bool
  deriving DecidableEq

structure Jmap where
  e : List Jmentry
  cap : Nat
  live : Nat
  heads : List (Option Nat)
  deriving DecidableEq

def jmNew : Jmap := ⟨[], 0, 0, []⟩

def bucket (h : UInt32) (n : Nat) : Nat := h.toNat &&& (n - 1)

def chainUp (r : List Jmentry × List (Option Nat)) (i : Nat) : List Jmentry × List (Option Nat) :=
  match r.1[i]? with
  | none => r
  | some x =>
    if x.gone then r
    else
      let b := bucket x.hash r.2.length
      (r.1.set i { x with next := r.2.getD b none }, r.2.set b (some i))

def jmRehash (m : Jmap) (want : Nat) (granted : Bool) : Jmap :=
  if granted then
    let r := (List.range m.e.length).foldl chainUp (m.e, List.replicate want none)
    { m with e := r.1, heads := r.2 }
  else m

def Jmap.next (m : Jmap) (i : Nat) : Option Nat := m.e[i]?.bind Jmentry.next

def jmFind (m : Jmap) (k : Jval) : Option Nat :=
  if m.heads = [] then none
  else
    let h := jmHash k
    (follow m.next m.e.length (m.heads.getD (bucket h m.heads.length) none)).find? fun i =>
      m.e[i]?.any fun x => ¬ x.gone ∧ x.hash = h ∧ jsSameZero x.k k

def jmRoom (m : Jmap) (granted : Bool) : Option Jmap :=
  if m.e.length < m.cap then some m
  else if granted then some { m with cap := if m.cap = 0 then 8 else m.cap * 2 }
  else none

def jmSet (m : Jmap) (k v : Jval) (room table : Bool) : Jmap :=
  let k := k.zeroed
  match jmFind m k with
  | some i => { m with e := m.e.modify i fun x => { x with v } }
  | none =>
    match jmRoom m room with
    | none => m
    | some m =>
      let m := if m.heads.length < m.e.length + 1 then
        jmRehash m (if m.heads = [] then 8 else m.heads.length * 2) table else m
      if m.heads = [] then m
      else
        let h := jmHash k
        let b := bucket h m.heads.length
        { m with e := m.e ++ [⟨k, v, h, m.heads.getD b none, false⟩], heads := m.heads.set b (some m.e.length),
                 live := m.live + 1 }

def Jmentry.dropped (x : Jmentry) : Jmentry := { x with gone := true, k := .undef, v := .undef }

def jmDelete (m : Jmap) (k : Jval) : Bool × Jmap :=
  match jmFind m k with
  | none => (false, m)
  | some i => (true, { m with e := m.e.modify i Jmentry.dropped, live := m.live - 1 })

def jmClear (m : Jmap) : Jmap := { m with e := m.e.map Jmentry.dropped, live := 0 }

/-! ## Iterators -/

/-- `each` is the loop of `forEach`. -/
inductive IterKind
  | keys
  | values
  | entries
  | each
  deriving DecidableEq

/-- One that has come to the end has nothing to walk any more. -/
structure MapIter where
  kind : IterKind
  walking : Bool
  pos : Nat
  deriving DecidableEq

inductive Item
  | one (v : Jval)
  | two (a b : Jval)
  deriving DecidableEq

def IterKind.item (isSet : Bool) (k v : Jval) : IterKind → Item
  | .keys => .one k
  | .values => .one v
  | .entries => .two k v
  | .each => .two (if isSet then k else v) k

def passGone (e : List Jmentry) : Nat → Nat → Nat
  | 0, i => i
  | f + 1, i => if e[i]?.any Jmentry.gone then passGone e f (i + 1) else i

def natMapiterNext (m : Jmap) (isSet : Bool) (it : MapIter) : Option Item × MapIter :=
  if it.walking then
    let i := passGone m.e m.e.length it.pos
    match m.e[i]? with
    | none => (none, { it with walking := false })
    | some x => (some (it.kind.item isSet x.k x.v), { it with pos := i + 1 })
  else (none, it)

/-! ## Runs -/

/-- A Map or a Set, and the iterators there are over it. -/
structure Collection where
  isSet : Bool
  m : Jmap
  iters : List MapIter
  deriving DecidableEq

inductive CollAct
  | set (k v : Jval) (room table : Bool)
  | add (k : Jval) (room table : Bool)
  | delete (k : Jval)
  | clear
  | walk (kind : IterKind)
  | next (j : Nat)
  | get (k : Jval)
  | has (k : Jval)
  | size

inductive CollAnswer
  | made
  | value (v : Jval)
  | yes (b : Bool)
  | count (n : Nat)
  | item (x : Option Item)
  deriving DecidableEq

/-- One call. A Set has no `set` and no `get`, a Map no `add`. -/
def CollAct.act (C : Collection) : CollAct → Option (CollAnswer × Collection)
  | .set k v room table => if C.isSet then none else some (.made, { C with m := jmSet C.m k v room table })
  | .add k room table =>
    if C.isSet then some (.made, if jmFind C.m k = none then { C with m := jmSet C.m k k room table } else C) else none
  | .delete k => some (.yes (jmDelete C.m k).1, { C with m := (jmDelete C.m k).2 })
  | .clear => some (.made, { C with m := jmClear C.m })
  | .walk kind => some (.made, { C with iters := C.iters ++ [⟨kind, true, 0⟩] })
  | .next j => do
    let it ← C.iters[j]?
    let r := natMapiterNext C.m C.isSet it
    return (.item r.1, { C with iters := C.iters.set j r.2 })
  | .get k =>
    if C.isSet then none
    else some (.value (((jmFind C.m k).bind fun i => C.m.e[i]?.map Jmentry.v).getD .undef), C)
  | .has k => some (.yes (jmFind C.m k).isSome, C)
  | .size => some (.count C.m.live, C)

def CollAct.step (C : Collection) (a : CollAct) : Option Collection := (a.act C).map Prod.snd

def newCollection (isSet : Bool) : Collection := ⟨isSet, jmNew, []⟩

end Zelr.Js
