import Mathlib.Data.FinEnum
import Zelr.Base.Linked
import Zelr.Base.Ordered
import Zelr.Js.Positions
import Zelr.Js.Work

/-!
# Properties

The properties of an object that is no proxy: a table of chains by the hashes of their keys, and the
order they were made in, both through the same nodes.
-/

namespace Zelr.Js

open Nodes

def JS_BUCKETS : Nat := 4
def JP_ENUM : Nat := 1

/-- A key: a string with its hash, or a symbol, whose hash is its own and has the top bit. -/
structure PropKey where
  bytes : Bytes
  hash : UInt32
  own : hash &&& JS_SYM_BIT = 0 → hash = jsHash bytes
  deriving DecidableEq

def PropKey.string (s : Bytes) : PropKey := ⟨s, jsHash s, fun _ => rfl⟩

/-- `js_sym_new`, for the serial it has come to. -/
def jsSymNew (desc : Bytes) (serial : UInt32) : PropKey :=
  ⟨desc, JS_SYM_BIT ||| (serial &&& ~~~JS_SYM_BIT), fun h => by
    have hbit := congrArg (fun w : UInt32 => w.toNat.testBit 31) h
    simp [JS_SYM_BIT, Nat.testBit_and, Nat.testBit_or] at hbit
    exact absurd (hbit (.inl (by decide))) (by decide)⟩

def jsIsSymKey (k : PropKey) : Prop := k.hash &&& JS_SYM_BIT ≠ 0

instance (k : PropKey) : Decidable (jsIsSymKey k) := inferInstanceAs (Decidable (_ ≠ _))

def jsStrEq (a b : PropKey) : Bool :=
  a.bytes.length = b.bytes.length ∧ a.hash = b.hash ∧ ∀ i < a.bytes.length, byteAt a.bytes i = byteAt b.bytes i

/-- A node: its next in its chain, and its next in the order. -/
structure Jprop (V : Type) where
  key : PropKey
  v : V
  flags : Nat
  next : Option Nat
  onext : Option Nat

structure Jobj where
  buckets : Option (List (Option Nat))
  count : Nat
  ofirst : Option Nat
  olast : Option Nat

/-- An object, and the memory its nodes are in. -/
structure Props (V : Type) where
  mem : Nat → Jprop V
  o : Jobj

variable {V : Type}

namespace Props

def next (S : Props V) (p : Nat) : Option Nat := (S.mem p).next

def onext (S : Props V) (p : Nat) : Option Nat := (S.mem p).onext

def key (S : Props V) (p : Nat) : PropKey := (S.mem p).key

def edit (S : Props V) (p : Nat) (f : Jprop V → Jprop V) : Props V := { S with mem := Function.update S.mem p (f (S.mem p)) }

def setNext (S : Props V) (p : Nat) (q : Option Nat) : Props V := S.edit p fun n => { n with next := q }

/-- What comes after a node in its chain, or first in chain `i` where there is none before. -/
def setChain (S : Props V) (bs : List (Option Nat)) (i : Nat) (before : Option Nat) (q : Option Nat) : Props V :=
  match before with
  | some p => S.setNext p q
  | none => { S with o := { S.o with buckets := some (bs.set i q) } }

def setOrder (S : Props V) (before : Option Nat) (q : Option Nat) : Props V :=
  match before with
  | some p => S.edit p fun n => { n with onext := q }
  | none => { S with o := { S.o with ofirst := q } }

end Props

def slot (k : PropKey) (n : Nat) : Nat := k.hash.toNat &&& (n - 1)

def jsFind (S : Props V) (k : PropKey) : Option Nat := do
  let bs ← S.o.buckets
  (follow S.next S.o.count (bs.getD (slot k bs.length) none)).find? fun p => jsStrEq (S.key p) k

/-! ## Adding -/

def moveChain : Nat → Props V → List (Option Nat) → Option Nat → Props V × List (Option Nat)
  | 0, S, fresh, _ => (S, fresh)
  | _ + 1, S, fresh, none => (S, fresh)
  | f + 1, S, fresh, some p =>
    let k := slot (S.key p) fresh.length
    moveChain f (S.setNext p (fresh.getD k none)) (fresh.set k (some p)) (S.next p)

def jsRehash (S : Props V) (granted : Bool) : Props V :=
  if granted then
    let old := S.o.buckets.getD []
    let want := if S.o.buckets.isSome then old.length * 2 else JS_BUCKETS
    let moved := old.foldl (fun r b => moveChain r.1.o.count r.1 r.2 b) (S, List.replicate want none)
    { moved.1 with o := { moved.1.o with buckets := some moved.2 } }
  else S

def jsLink (S : Props V) (bs : List (Option Nat)) (k : PropKey) (v : V) (flags p : Nat) : Props V :=
  let i := slot k bs.length
  let S := S.edit p fun _ => ⟨k, v, flags, bs.getD i none, none⟩
  let S := S.setOrder S.o.olast (some p)
  { S with o := { S.o with buckets := some (bs.set i (some p)), olast := some p, count := S.o.count + 1 } }

/-- The property, if there is one now. `table` and `node` are what the allocator grants, if it is asked. -/
def jsPutPropFlags (S : Props V) (k : PropKey) (v : V) (flags : Nat) (table : Bool) (node : Option Nat) :
    Option Nat × Props V :=
  match jsFind S k with
  | some p => (some p, S.edit p fun n => { n with v })
  | none =>
    let room := S.o.buckets.isSome ∧ S.o.count + 1 ≤ (S.o.buckets.getD []).length * 3 / 4
    let S := if room then S else jsRehash S table
    match S.o.buckets, node with
    | some bs, some p => (some p, jsLink S bs k v flags p)
    | _, _ => (none, S)

/-! ## Taking out -/

def jsUnorder (S : Props V) (gone : Nat) : Props V :=
  match seek S.onext (· = gone) S.o.count none S.o.ofirst with
  | none => S
  | some (before, q) =>
    let S := S.setOrder before (S.onext q)
    if S.o.olast = some q then { S with o := { S.o with olast := before } } else S

def jsDeleteProp (S : Props V) (k : PropKey) : Bool × Props V :=
  match S.o.buckets with
  | none => (false, S)
  | some bs =>
    let i := slot k bs.length
    match seek S.next (fun p => jsStrEq (S.key p) k) S.o.count none (bs.getD i none) with
    | none => (false, S)
    | some (before, gone) =>
      let S := jsUnorder (S.setChain bs i before (S.next gone)) gone
      (true, { S with o := { S.o with count := S.o.count - 1 } })

/-! ## Listing -/

def jsIndexKey (k : PropKey) : Option Nat :=
  if k.bytes.length = 0 ∨ 10 < k.bytes.length ∨ jsIsSymKey k then none
  else if 1 < k.bytes.length ∧ byteAt k.bytes 0 = '0'.toUInt8 then none
  else if ∀ c ∈ k.bytes, IsDigit c then
    if digitsNum k.bytes < 0xFFFFFFFF then some (digitsNum k.bytes) else none
  else none

/-- `want`: the enumerable ones only, strings, symbols. -/
structure Want where
  enum : Bool
  str : Bool
  sym : Bool

def Want.skips (want : Want) (n : Jprop V) : Prop := want.enum ∧ n.flags &&& JP_ENUM = 0

instance (want : Want) (n : Jprop V) : Decidable (want.skips n) := inferInstanceAs (Decidable (_ ∧ _))

def putBack (S : Props V) (list : List Nat) (v p : Nat) : List Nat :=
  let past := fun q => (jsIndexKey (S.key q)).any fun w => v < w
  list.rdropWhile past ++ p :: list.rtakeWhile past

def jsKeysOf (S : Props V) (want : Want) : List Nat :=
  let order := follow S.onext S.o.count S.o.ofirst
  let kept := order.filter fun p => ¬ want.skips (S.mem p)
  let n := kept.countP fun p => if jsIsSymKey (S.key p) then want.sym else want.str
  if n = 0 then []
  else
    let indices := kept.foldl (fun list p =>
      match jsIndexKey (S.key p) with
      | some v => if want.str then putBack S list v p else list
      | none => list) []
    let strings := kept.filter fun p => ¬ jsIsSymKey (S.key p) ∧ want.str ∧ jsIndexKey (S.key p) = none
    let symbols := if want.sym then kept.filter fun p => jsIsSymKey (S.key p) else []
    indices ++ strings ++ symbols

/-! ## Runs -/

inductive PropAct (V : Type)
  | put (k : PropKey) (v : V) (flags : Nat) (table : Bool) (node : Option Nat)
  | delete (k : PropKey)

def PropAct.step (S : Props V) : PropAct V → Option (Props V)
  | .put k v flags table node => some (jsPutPropFlags S k v flags table node).2
  | .delete k => some (jsDeleteProp S k).2

def noProps (mem : Nat → Jprop V) : Props V := ⟨mem, ⟨none, 0, none, none⟩⟩

end Zelr.Js
