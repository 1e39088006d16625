import Zelr.Base.Bytes
import Zelr.Base.Ring

/-!
# Pipes

`pipe.c` and the waiting of `wait.c` under it. A call of `pipe_read` or `pipe_write` is in flight
from the time it is made until it returns: it runs one turn of its loop, blocks, is released, runs
again.
-/

namespace Zelr.Files

def PIPE_SIZE : Nat := 65536

def PIPE_GIVE_UP_MS : Nat := 10000

def PIPE_POLL_MS : Nat := 200

/-- `pipe_t`, without the two bytes that are only addresses to wait on. -/
structure Pipe where
  buf : Bytes
  head : Nat
  tail : Nat
  count : Nat
  readers : Nat
  writers : Nat
  deriving DecidableEq

def pipeNew : Pipe := ⟨List.replicate PIPE_SIZE 0, 0, 0, 0, 1, 1⟩

def ringIn (p : Pipe) (src : Bytes) (n : Nat) : Option Pipe := do
  let first := if PIPE_SIZE - p.tail < n then PIPE_SIZE - p.tail else n
  let buf ← blit p.buf p.tail (src.take first)
  let buf ← if n > first then blit buf 0 ((src.drop first).take (n - first)) else some buf
  some { p with buf, tail := (p.tail + n) % PIPE_SIZE }

def ringOut (p : Pipe) (n : Nat) : Bytes × Pipe :=
  let first := if PIPE_SIZE - p.head < n then PIPE_SIZE - p.head else n
  let out := (p.buf.drop p.head).take first
  let out := if n > first then out ++ p.buf.take (n - first) else out
  (out, { p with head := (p.head + n) % PIPE_SIZE })

def pipeClose (p : Pipe) (writeEnd : Bool) : Option Pipe :=
  let p := if writeEnd then { p with writers := p.writers - 1 } else { p with readers := p.readers - 1 }
  if p.readers = 0 ∧ p.writers = 0 then none else some p

/-! ## Calls in flight -/

inductive Channel where
  | hasData
  | hasSpace
  deriving DecidableEq

/-- Where a task stands: `wait_on` blocks it on a channel, a wakeup clears the channel, and a deadline
that passes does not. -/
inductive Standing where
  | running
  | blocked (on : Channel)
  | ready (woken : Bool)
  deriving DecidableEq

inductive Doing where
  | reading (len : Nat)
  | writing (src : Bytes) (done : Nat)
  deriving DecidableEq

structure Call where
  doing : Doing
  waited : Nat
  standing : Standing
  deriving DecidableEq

/-- One pipe and the calls on it, a task having at most one. A pipe that is freed is gone. -/
structure Sys where
  pipe : Option Pipe
  calls : Nat → Option Call

/-- What can be seen of a step: a chunk goes into the ring, or a call returns. -/
inductive Event where
  | put (t : Nat) (chunk : Bytes)
  | readReturned (t len : Nat) (data : Bytes)
  | writeReturned (t : Nat) (r : Int)
  deriving DecidableEq

def wakeAll (on : Channel) (calls : Nat → Option Call) : Nat → Option Call := fun t =>
  (calls t).map fun c => if c.standing = .blocked on then { c with standing := .ready true } else c

def Sys.setCall (s : Sys) (t : Nat) (c : Option Call) : Sys := { s with calls := Function.update s.calls t c }

def managed (done : Nat) : Int := if done = 0 then -1 else Int.bmod done (2 ^ 32)

/-- One turn of the loop of `pipe_read`, and what is after the loop. -/
def readTurn (s : Sys) (p : Pipe) (t len waited : Nat) : Sys × List Event :=
  if p.count = 0 then
    if p.writers = 0 then (s.setCall t none, [.readReturned t len []])
    else (s.setCall t (some ⟨.reading len, waited, .blocked .hasData⟩), [])
  else
    let n := if p.count < len then p.count else len
    let (out, p) := ringOut p n
    let p := { p with count := p.count - n }
    (⟨some p, wakeAll .hasSpace (s.setCall t none).calls⟩, [.readReturned t len out])

/-- One turn of the loop of `pipe_write`, and the return when it was the last. -/
def writeTurn (s : Sys) (p : Pipe) (t : Nat) (src : Bytes) (done waited : Nat) : Option (Sys × List Event) :=
  if p.readers = 0 then some (s.setCall t none, [.writeReturned t (managed done)])
  else if p.count = PIPE_SIZE then
    some (s.setCall t (some ⟨.writing src done, waited, .blocked .hasSpace⟩), [])
  else do
    let room := PIPE_SIZE - p.count
    let n := if src.length - done > room then room else src.length - done
    let p ← ringIn p (src.drop done) n
    let p := { p with count := p.count + n }
    let chunk := (src.drop done).take n
    if done + n < src.length then
      some (⟨some p, wakeAll .hasData (s.setCall t (some ⟨.writing src (done + n), 0, .running⟩)).calls⟩,
        [.put t chunk])
    else
      some (⟨some p, wakeAll .hasData (s.setCall t none).calls⟩,
        [.put t chunk, .writeReturned t (Int.bmod (done + n) (2 ^ 32))])

def giveUp (t : Nat) : Doing → Event
  | .reading len => .readReturned t len []
  | .writing _ done => .writeReturned t (managed done)

/-! ## Steps -/

inductive Step where
  | read (t len : Nat)
  | write (t : Nat) (src : Bytes)
  /-- A running call goes once round its loop. -/
  | turn (t : Nat)
  /-- The deadline of a wait passes. -/
  | deadline (t : Nat)
  /-- A released task is scheduled and `wait_on` returns. -/
  | resume (t : Nat)
  | close (writeEnd : Bool)
  deriving DecidableEq

/-- One step; nothing when it cannot be taken. -/
def step (s : Sys) : Step → Option (Sys × List Event)
  | .read t len =>
    match s.pipe, s.calls t with
    | some _, none =>
      if len = 0 then some (s, [.readReturned t 0 []])
      else some (s.setCall t (some ⟨.reading len, 0, .running⟩), [])
    | _, _ => none
  | .write t src =>
    match s.pipe, s.calls t with
    | some _, none =>
      if src.length = 0 then some (s, [.writeReturned t 0])
      else some (s.setCall t (some ⟨.writing src 0, 0, .running⟩), [])
    | _, _ => none
  | .turn t =>
    match s.pipe, s.calls t with
    | some p, some ⟨.reading len, waited, .running⟩ => some (readTurn s p t len waited)
    | some p, some ⟨.writing src done, waited, .running⟩ => writeTurn s p t src done waited
    | _, _ => none
  | .deadline t =>
    match s.calls t with
    | some ⟨doing, waited, .blocked _⟩ => some (s.setCall t (some ⟨doing, waited, .ready false⟩), [])
    | _ => none
  | .resume t =>
    match s.calls t with
    | some ⟨doing, waited, .ready true⟩ => some (s.setCall t (some ⟨doing, waited, .running⟩), [])
    | some ⟨doing, waited, .ready false⟩ =>
      if waited + PIPE_POLL_MS ≥ PIPE_GIVE_UP_MS then some (s.setCall t none, [giveUp t doing])
      else some (s.setCall t (some ⟨doing, waited + PIPE_POLL_MS, .running⟩), [])
    | _ => none
  | .close writeEnd =>
    match s.pipe with
    | some p =>
      let p' := pipeClose p writeEnd
      let gone := if writeEnd then p.writers - 1 = 0 else p.readers - 1 = 0
      let calls := if gone then wakeAll (if writeEnd then .hasData else .hasSpace) s.calls else s.calls
      some (⟨p', calls⟩, [])
    | none => none

end Zelr.Files
