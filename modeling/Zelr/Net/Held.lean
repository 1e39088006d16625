import Mathlib.Data.List.Nodup
import Zelr.Base.Bytes

/-!
# The queue of received frames

`net_receive`, `net_deliver` and `arp_only` of `kernel/net.c`, taken apart into the steps between
which another task or the card may come in. The producer runs with interrupts off and is one step.
A task stands in the middle of as many calls as its handlers have made: a handler that waits calls
`net_deliver` again.
-/

namespace Zelr.Net

def RXQ_FRAMES : Nat := 64
def RXQ_FRAME_MAX : Nat := 1536
/-- `sizeof(eth_t)`. -/
def ETH_LEN : Nat := 14
def ETH_P_ARP : Nat := 0x0806

/-- A slot of the queue. Which frame was last put into it is written down beside it. -/
structure Slot where
  len : Nat
  data : Bytes
  seq : Nat
  deriving DecidableEq, Repr

def frameType (data : Bytes) : Nat := beNat [byteAt data 12, byteAt data 13]

/-- Where one call of `net_deliver`, or of `arp_only` inside it, stands. -/
inductive Place where
  /-- At the start, and once it was turned away. -/
  | start | turnedAway
  /-- In the loop after `n` turns: at its test, with the tail read, with something there, with a
  length worth copying, with the frame copied out, with an empty slot, in `deliver`. -/
  | drain (n : Nat)
  | drainTail (n tail : Nat)
  | drainLen (n tail : Nat)
  | drainCopy (n tail len : Nat)
  | drainRelease (n tail seq : Nat) (frame : Bytes)
  | drainSkip (n tail : Nat)
  | drainDeliver (n : Nat)
  /-- Giving the turn back, in two steps. -/
  | giveBack | forget
  /-- In `arp_only` at slot `i` after `n` turns: at the test, at a slot, at one that is not empty, at
  one with an ARP frame, with its length read, in `handle_arp` with the frame in its slot. -/
  | walkStart
  | walk (i n : Nat)
  | walkLen (i n : Nat)
  | walkType (i n : Nat)
  | walkRead (i n : Nat)
  | walkEmpty (i n len : Nat)
  | walkArp (i n : Nat) (frame : Bytes)
  deriving DecidableEq, Repr

/-- The queue, whose turn it is, and where every task stands, its innermost call first. -/
structure Queue where
  rxq : Nat → Slot
  rxqHead : Nat
  rxqTail : Nat
  rxqDropped : Nat
  rxqDeepest : Nat
  deliverDepth : Nat
  deliverOwner : Option Nat
  calls : Nat → List Place
  /-- Every frame put in the queue, how many slots were given back, and every frame handed to a
  handler with its number among the first. -/
  arrived : List Bytes
  released : Nat
  handled : List (Nat × Bytes)

def Queue.empty : Queue where
  rxq := fun _ => ⟨0, List.replicate RXQ_FRAME_MAX 0, 0⟩
  rxqHead := 0
  rxqTail := 0
  rxqDropped := 0
  rxqDeepest := 0
  deliverDepth := 0
  deliverOwner := none
  calls := fun _ => []
  arrived := []
  released := 0
  handled := []

def netRxQueued (q : Queue) : Nat :=
  if q.rxqHead ≥ q.rxqTail then q.rxqHead - q.rxqTail else RXQ_FRAMES - q.rxqTail + q.rxqHead

def netReceive (q : Queue) (frame : Bytes) : Queue :=
  if frame.length < ETH_LEN ∨ frame.length > RXQ_FRAME_MAX then q
  else
    let head := q.rxqHead
    let next := (head + 1) % RXQ_FRAMES
    if next = q.rxqTail then { q with rxqDropped := q.rxqDropped + 1 }
    else
      let slot : Slot := ⟨frame.length, put (q.rxq head).data 0 frame, q.arrived.length⟩
      let q := { q with rxq := Function.update q.rxq head slot, rxqHead := next, arrived := q.arrived ++ [frame] }
      { q with rxqDeepest := max q.rxqDeepest (netRxQueued q) }

/-- Task `t` goes on, its calls standing as given. -/
def Queue.goOn (q : Queue) (t : Nat) (l : List Place) : Queue := { q with calls := Function.update q.calls t l }

def Queue.release (q : Queue) (tail : Nat) : Queue :=
  { q with rxqTail := (tail + 1) % RXQ_FRAMES, released := q.released + 1 }

def Queue.handle (q : Queue) (seq : Nat) (frame : Bytes) : Queue := { q with handled := q.handled ++ [(seq, frame)] }

def Queue.takeTurn (q : Queue) (t : Nat) : Queue := { q with deliverOwner := some t, deliverDepth := 1 }
def Queue.giveTurn (q : Queue) : Queue := { q with deliverDepth := 0 }
def Queue.forgetOwner (q : Queue) : Queue := { q with deliverOwner := none }

def Queue.emptySlot (q : Queue) (i : Nat) : Queue :=
  { q with rxq := Function.update q.rxq i { q.rxq i with len := 0 } }

/-- What task `t` does next, standing at a place with the calls `rest` around it. Standing in a
handler that is to return. -/
def advance (q : Queue) (t : Nat) (rest : List Place) : Place → Queue
  -- With interrupts off: both are set, or neither.
  | .start => if q.deliverDepth = 0 then (q.takeTurn t).goOn t (.drain 0 :: rest) else q.goOn t (.turnedAway :: rest)
  | .turnedAway => if q.deliverOwner = some t then q.goOn t (.walkStart :: rest) else q.goOn t rest
  | .drain n => if n < RXQ_FRAMES then q.goOn t (.drainTail n q.rxqTail :: rest) else q.goOn t (.giveBack :: rest)
  | .drainTail n tail =>
    if tail = q.rxqHead then q.goOn t (.giveBack :: rest) else q.goOn t (.drainLen n tail :: rest)
  | .drainLen n tail =>
    let len := (q.rxq tail).len
    if ETH_LEN ≤ len ∧ len ≤ RXQ_FRAME_MAX then q.goOn t (.drainCopy n tail len :: rest)
    else q.goOn t (.drainSkip n tail :: rest)
  | .drainCopy n tail len => q.goOn t (.drainRelease n tail (q.rxq tail).seq ((q.rxq tail).data.take len) :: rest)
  | .drainRelease n tail seq frame => ((q.release tail).handle seq frame).goOn t (.drainDeliver n :: rest)
  | .drainSkip n tail => (q.release tail).goOn t (.drain (n + 1) :: rest)
  | .drainDeliver n => q.goOn t (.drain (n + 1) :: rest)
  | .giveBack => q.giveTurn.goOn t (.forget :: rest)
  | .forget => q.forgetOwner.goOn t rest
  | .walkStart => q.goOn t (.walk q.rxqTail 0 :: rest)
  | .walk i n => if i ≠ q.rxqHead ∧ n < RXQ_FRAMES then q.goOn t (.walkLen i n :: rest) else q.goOn t rest
  | .walkLen i n =>
    if (q.rxq i).len < ETH_LEN then q.goOn t (.walk ((i + 1) % RXQ_FRAMES) (n + 1) :: rest)
    else q.goOn t (.walkType i n :: rest)
  | .walkType i n =>
    if frameType (q.rxq i).data ≠ ETH_P_ARP then q.goOn t (.walk ((i + 1) % RXQ_FRAMES) (n + 1) :: rest)
    else q.goOn t (.walkRead i n :: rest)
  | .walkRead i n => q.goOn t (.walkEmpty i n (q.rxq i).len :: rest)
  | .walkEmpty i n len =>
    let frame := (q.rxq i).data.take len
    ((q.emptySlot i).handle (q.rxq i).seq frame).goOn t (.walkArp i n frame :: rest)
  | .walkArp i n _ => q.goOn t (.walk ((i + 1) % RXQ_FRAMES) (n + 1) :: rest)

/-- Whether a place is inside a handler, which may call `net_deliver` again. -/
def Place.inHandler : Place → Bool
  | .drainDeliver _ | .walkArp _ _ _ => true
  | _ => false

def mayCall : List Place → Prop
  | [] => True
  | p :: _ => p.inHandler

inductive Step (q : Queue) : Queue → Prop
  | receive (frame : Bytes) : Step q (netReceive q frame)
  | call (t : Nat) (h : mayCall (q.calls t)) : Step q (q.goOn t (.start :: q.calls t))
  | goOn (t : Nat) {p : Place} {rest : List Place} (h : q.calls t = p :: rest) : Step q (advance q t rest p)

inductive Reachable : Queue → Prop
  | empty : Reachable .empty
  | step {q q' : Queue} (hq : Reachable q) (h : Step q q') : Reachable q'

/-!
## What the queue holds

The slots between the tail and the head hold the frames that were put in and not given back, each
whole or already handled.
-/

def isArp (frame : Bytes) : Bool := frameType frame = ETH_P_ARP

def Handled (q : Queue) (j : Nat) : Prop := j ∈ q.handled.map Prod.fst

/-- The slot of the `j`th frame: its bytes, and its length as long as it is to be handled. -/
structure Holds (q : Queue) (j : Nat) (frame : Bytes) : Prop where
  seq : (q.rxq (j % RXQ_FRAMES)).seq = j
  data : (q.rxq (j % RXQ_FRAMES)).data.take frame.length = frame
  len : (q.rxq (j % RXQ_FRAMES)).len = frame.length ∧ ¬ Handled q j ∨ (q.rxq (j % RXQ_FRAMES)).len = 0 ∧ Handled q j

structure Held (q : Queue) : Prop where
  le : q.released ≤ q.arrived.length
  room : q.arrived.length < q.released + RXQ_FRAMES
  tail : q.rxqTail = q.released % RXQ_FRAMES
  head : q.rxqHead = q.arrived.length % RXQ_FRAMES
  size : ∀ b ∈ q.arrived, ETH_LEN ≤ b.length ∧ b.length ≤ RXQ_FRAME_MAX
  slot : ∀ j b, q.released ≤ j → q.arrived[j]? = some b → Holds q j b
  gone : ∀ j < q.released, Handled q j
  bytes : ∀ e ∈ q.handled, q.arrived[e.1]? = some e.2
  nodup : (q.handled.map Prod.fst).Nodup
  early : ∀ e ∈ q.handled, isArp e.2 = false → e.1 < q.released
  order : ((q.handled.filter fun e => !isArp e.2).map Prod.fst).Pairwise (· < ·)

theorem held_empty : Held .empty where
  le := le_rfl
  room := by decide
  tail := rfl
  head := rfl
  size := fun _ hb => nomatch hb
  slot := fun j b _ hb => by simp [Queue.empty] at hb
  gone := fun j hj => absurd hj (Nat.not_lt_zero j)
  bytes := fun _ he => nomatch he
  nodup := List.nodup_nil
  early := fun _ he => nomatch he
  order := List.Pairwise.nil

variable {q : Queue}

variable {j : Nat} {frame : Bytes}

theorem Handled.lt (h : Held q) (hj : Handled q j) : j < q.arrived.length := by
  obtain ⟨e, he, rfl⟩ := List.mem_map.mp hj
  exact (List.getElem?_eq_some_iff.mp (h.bytes e he)).1

theorem lt_arrived {b : Bytes} (h : q.arrived[j]? = some b) : j < q.arrived.length :=
  (List.getElem?_eq_some_iff.mp h).1

theorem Held.slot_inj (h : Held q) {i : Nat} (hi : q.released ≤ i) (hi' : i ≤ q.arrived.length)
    (hj : q.released ≤ j) (hj' : j ≤ q.arrived.length) (heq : i % RXQ_FRAMES = j % RXQ_FRAMES) : i = j := by
  have hroom := h.room
  simp only [RXQ_FRAMES] at *
  omega

theorem queued_eq (h : Held q) : netRxQueued q = q.arrived.length - q.released := by
  have hle := h.le
  have hroom := h.room
  simp only [netRxQueued, h.tail, h.head, RXQ_FRAMES] at *
  split <;> omega

theorem full_iff (h : Held q) : (q.rxqHead + 1) % RXQ_FRAMES = q.rxqTail ↔ netRxQueued q = RXQ_FRAMES - 1 := by
  have hle := h.le
  have hroom := h.room
  rw [queued_eq h, h.tail, h.head]
  simp only [RXQ_FRAMES] at *
  omega

def Queue.push (q : Queue) (frame : Bytes) : Queue :=
  { q with
    rxq := Function.update q.rxq q.rxqHead ⟨frame.length, put (q.rxq q.rxqHead).data 0 frame, q.arrived.length⟩
    rxqHead := (q.rxqHead + 1) % RXQ_FRAMES, arrived := q.arrived ++ [frame] }

theorem netReceive_cases (q : Queue) (frame : Bytes) :
    ((frame.length < ETH_LEN ∨ RXQ_FRAME_MAX < frame.length) ∧ netReceive q frame = q) ∨
    ((q.rxqHead + 1) % RXQ_FRAMES = q.rxqTail ∧ netReceive q frame = { q with rxqDropped := q.rxqDropped + 1 }) ∨
    (ETH_LEN ≤ frame.length ∧ frame.length ≤ RXQ_FRAME_MAX ∧ (q.rxqHead + 1) % RXQ_FRAMES ≠ q.rxqTail ∧
      ∃ n, netReceive q frame = { q.push frame with rxqDeepest := n }) := by
  unfold netReceive
  split
  · exact .inl ⟨‹_›, rfl⟩
  · rename_i hlen
    rw [not_or, not_lt, not_lt] at hlen
    simp only
    split
    · exact .inr (.inl ⟨‹_›, rfl⟩)
    · exact .inr (.inr ⟨hlen.1, hlen.2, ‹_›, _, rfl⟩)

theorem Held.push (h : Held q) (hlo : ETH_LEN ≤ frame.length) (hhi : frame.length ≤ RXQ_FRAME_MAX)
    (hroom : (q.rxqHead + 1) % RXQ_FRAMES ≠ q.rxqTail) : Held (q.push frame) := by
  have hqueued : netRxQueued q ≠ RXQ_FRAMES - 1 := fun he => hroom ((full_iff h).mpr he)
  rw [queued_eq h] at hqueued
  have hle := h.le
  have hlt := h.room
  have hfree : ¬ Handled q q.arrived.length := fun he => lt_irrefl _ (he.lt h)
  refine {
    le := ?_, room := ?_, tail := h.tail, head := ?_, size := ?_, slot := ?_, gone := h.gone, bytes := ?_
    nodup := h.nodup, early := h.early, order := h.order }
  · simp only [Queue.push, List.length_append, List.length_singleton]
    omega
  · simp only [Queue.push, List.length_append, List.length_singleton, RXQ_FRAMES] at *
    omega
  · simp only [Queue.push, List.length_append, List.length_singleton, h.head]
    exact Nat.mod_add_mod ..
  · intro b hb
    rcases List.mem_append.mp hb with hb | hb
    · exact h.size b hb
    · cases List.mem_singleton.mp hb
      exact ⟨hlo, hhi⟩
  · intro j b hj hb
    have hjlt : j < (q.push frame).arrived.length := lt_arrived hb
    simp only [Queue.push, List.length_append, List.length_singleton] at hjlt
    by_cases hnew : j = q.arrived.length
    · subst hnew
      obtain rfl : frame = b := by simpa [Queue.push] using hb
      constructor <;> simp [Queue.push, h.head, take_put_zero, Handled]
      left
      simpa [Handled] using hfree
    · have hold : q.arrived[j]? = some b := by
        rw [← hb]
        exact (List.getElem?_append_left (by omega)).symm
      have hother : j % RXQ_FRAMES ≠ q.rxqHead := by
        rw [h.head]
        intro he
        exact hnew (h.slot_inj hj (by omega) hle le_rfl he)
      have hslot := h.slot j b hj hold
      constructor <;> simp only [Queue.push, Function.update_of_ne hother]
      · exact hslot.seq
      · exact hslot.data
      · exact hslot.len
  · intro e he
    exact (List.getElem?_append_left ((lt_arrived (h.bytes e he)))).trans (h.bytes e he)

theorem Held.receive (h : Held q) (frame : Bytes) : Held (netReceive q frame) := by
  obtain ⟨-, heq⟩ | ⟨-, heq⟩ | ⟨hlo, hhi, hroom, n, heq⟩ := netReceive_cases q frame <;> rw [heq]
  · exact h
  · exact { h with slot := fun j b hj hb => { h.slot j b hj hb with } }
  · have hpush := h.push hlo hhi hroom
    exact { hpush with slot := fun j b hj hb => { hpush.slot j b hj hb with } }

theorem handled_handle {seq : Nat} : Handled (q.handle seq frame) j ↔ Handled q j ∨ j = seq := by
  simp [Handled, Queue.handle]

theorem Held.nodup_handle (h : Held q) (hj : ¬ Handled q j) (frame : Bytes) :
    ((q.handled ++ [(j, frame)]).map Prod.fst).Nodup := by
  rw [List.map_append]
  refine List.nodup_append.mpr ⟨h.nodup, List.nodup_singleton j, ?_⟩
  rintro i hi i' hi' rfl
  obtain rfl : i = j := List.mem_singleton.mp hi'
  exact hj hi

theorem Held.skip (h : Held q) (hlt : q.released < q.arrived.length) (hdone : Handled q q.released) :
    Held (q.release q.rxqTail) := by
  have hroom := h.room
  refine { h with le := hlt, room := ?_, tail := ?_, slot := ?_, gone := ?_, early := ?_ }
  · simp only [Queue.release]
    omega
  · simp only [Queue.release, h.tail]
    exact Nat.mod_add_mod ..
  · intro j b hj hb
    exact { h.slot j b (Nat.le_of_succ_le hj) hb with }
  · intro j hj
    rcases Nat.lt_succ_iff_lt_or_eq.mp hj with hj | rfl
    · exact h.gone j hj
    · exact hdone
  · intro e he ha
    exact (h.early e he ha).trans (Nat.lt_succ_self _)

theorem Held.take (h : Held q) (hat : q.arrived[q.released]? = some frame)
    (hnot : ¬ Handled q q.released) : Held ((q.release q.rxqTail).handle q.released frame) := by
  have hroom := h.room
  have hlt := lt_arrived hat
  refine {
    le := hlt, room := ?_, tail := ?_, head := h.head, size := h.size, slot := ?_, gone := ?_, bytes := ?_
    nodup := h.nodup_handle hnot frame, early := ?_, order := ?_ }
  · simp only [Queue.release, Queue.handle]
    omega
  · simp only [Queue.release, Queue.handle, h.tail]
    exact Nat.mod_add_mod ..
  · intro j b hj hb
    have hslot := h.slot j b (Nat.le_of_succ_le hj) hb
    have hne : j ≠ q.released := (Nat.lt_of_succ_le hj).ne'
    have hsame : Handled ((q.release q.rxqTail).handle q.released frame) j ↔ Handled q j := by
      rw [handled_handle, or_iff_left hne]
      rfl
    refine ⟨hslot.seq, hslot.data, ?_⟩
    rw [hsame]
    exact hslot.len
  · intro j hj
    rw [handled_handle]
    rcases Nat.lt_succ_iff_lt_or_eq.mp hj with hj | rfl
    · exact .inl (h.gone j hj)
    · exact .inr rfl
  · intro e he
    rcases List.mem_append.mp he with he | he
    · exact h.bytes e he
    · cases List.mem_singleton.mp he
      exact hat
  · intro e he ha
    rcases List.mem_append.mp he with he | he
    · exact (h.early e he ha).trans (Nat.lt_succ_self _)
    · cases List.mem_singleton.mp he
      exact Nat.lt_succ_self _
  · simp only [Queue.release, Queue.handle, List.filter_append, List.map_append]
    refine List.pairwise_append.mpr ⟨h.order, ?_, ?_⟩
    · cases ha : isArp frame <;> simp [ha]
    · -- Every frame before that is not ARP came off the tail.
      intro i hi i' hi'
      obtain ⟨e, he, rfl⟩ := List.mem_map.mp hi
      obtain ⟨e', he', rfl⟩ := List.mem_map.mp hi'
      cases List.mem_singleton.mp (List.mem_filter.mp he').1
      exact h.early e (List.mem_filter.mp he).1 (by simpa using (List.mem_filter.mp he).2)

theorem Held.takeArp (h : Held q) (hj : q.released ≤ j) (hat : q.arrived[j]? = some frame)
    (hnot : ¬ Handled q j) (harp : isArp frame = true) :
    Held ((q.emptySlot (j % RXQ_FRAMES)).handle j frame) := by
  have hjlt := lt_arrived hat
  refine {
    le := h.le, room := h.room, tail := h.tail, head := h.head, size := h.size, slot := ?_, gone := ?_, bytes := ?_
    nodup := h.nodup_handle hnot frame, early := ?_, order := ?_ }
  · intro i b hi hb
    have hslot := h.slot i b hi hb
    by_cases hij : i = j
    · subst hij
      refine ⟨?_, ?_, .inr ⟨?_, ?_⟩⟩
      · simpa [Queue.emptySlot, Queue.handle] using hslot.seq
      · simpa [Queue.emptySlot, Queue.handle] using hslot.data
      · simp [Queue.emptySlot, Queue.handle]
      · exact handled_handle.mpr (.inr rfl)
    · have hother : i % RXQ_FRAMES ≠ j % RXQ_FRAMES := by
        intro he
        exact hij (h.slot_inj hi (lt_arrived hb).le hj hjlt.le he)
      have hsame : Handled ((q.emptySlot (j % RXQ_FRAMES)).handle j frame) i ↔ Handled q i := by
        rw [handled_handle, or_iff_left hij]
        rfl
      have hkept : ((q.emptySlot (j % RXQ_FRAMES)).handle j frame).rxq (i % RXQ_FRAMES) = q.rxq (i % RXQ_FRAMES) :=
        Function.update_of_ne hother ..
      constructor
      · rw [hkept]
        exact hslot.seq
      · rw [hkept]
        exact hslot.data
      · rw [hkept, hsame]
        exact hslot.len
  · intro i hi
    exact handled_handle.mpr (.inl (h.gone i hi))
  · intro e he
    rcases List.mem_append.mp he with he | he
    · exact h.bytes e he
    · cases List.mem_singleton.mp he
      exact hat
  · intro e he ha
    rcases List.mem_append.mp he with he | he
    · exact h.early e he ha
    · cases List.mem_singleton.mp he
      rw [harp] at ha
      cases ha
  · simp only [Queue.emptySlot, Queue.handle, List.filter_append, harp, List.filter_cons_of_neg, Bool.not_true,
      Bool.false_eq_true, not_false_eq_true, List.filter_nil, List.append_nil]
    exact h.order

end Zelr.Net
