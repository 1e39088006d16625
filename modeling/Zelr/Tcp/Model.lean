import Zelr.Base.Bytes
import Zelr.Base.Seq32

/-!
# A TCP connection

One connection of `tcp.c`: its sequence numbers, the one segment in flight, and the receive buffer
with the stretches that arrived past a hole. What goes on the wire is kept in `wire`. A function
answers `none` where the C code would write outside the receive buffer.
-/

namespace Zelr.Tcp

def TH_FIN : UInt8 := 0x01
def TH_SYN : UInt8 := 0x02
def TH_RST : UInt8 := 0x04
def TH_PSH : UInt8 := 0x08
def TH_ACK : UInt8 := 0x10

def RTO_MIN_MS : Nat := 400
def RTO_MAX_MS : Nat := 4000
def MAX_RETRIES : Nat := 6
def RXCAP : Nat := 65536
def TCP_HELD : Nat := 8

inductive TState
  | closed
  | synSent
  | opened
  | closing
  | done
  deriving Repr, DecidableEq

structure Sent where
  seq : U32
  ack : U32
  flags : UInt8
  window : Nat
  data : Bytes
  deriving Repr, DecidableEq

/-- A segment as it came in, its header read. The length of its data is a `u16`. -/
structure Segment where
  seq : U32
  ack : U32
  flags : UInt8
  data : Bytes
  short : data.length < 65536
  deriving Repr, DecidableEq

/-- `tcpc`. The times are in milliseconds, and `clock` is what `timer_ticks` answers. -/
structure Conn where
  state : TState
  sndNxt : U32
  sndUna : U32
  rcvNxt : U32
  gotFin : Bool
  rtData : Bytes
  rtSeq : U32
  rtFlags : UInt8
  rtPending : Bool
  rtSentAt : Nat
  rtTimeoutMs : Nat
  rtTries : Nat
  rxbuf : Bytes
  rxlen : Nat
  /-- `[lo, hi)` by sequence number, past `rcvNxt`; the bytes sit in `rxbuf`, in their place. -/
  held : List (U32 × U32)
  finHeld : Bool
  finAt : U32
  clock : Nat
  wire : List Sent
  deriving Repr, DecidableEq

/-! ## Sending -/

def windowNow (c : Conn) : Nat := min (RXCAP - c.rxlen) 65535

def emit (c : Conn) (seq : U32) (flags : UInt8) (data : Bytes) : Conn :=
  let opts := if flags &&& TH_SYN ≠ 0 then 4 else 0
  if 1500 < 20 + opts + data.length then c
  else { c with wire := c.wire ++ [⟨seq, c.rcvNxt, flags, windowNow c, data⟩] }

def sendReliable (c : Conn) (seq : U32) (flags : UInt8) (data : Bytes) : Conn :=
  if 1400 < data.length then c
  else
    emit { c with
      rtSeq := seq, rtFlags := flags, rtData := data, rtPending := true, rtTries := 0,
      rtTimeoutMs := RTO_MIN_MS, rtSentAt := c.clock } seq flags data

def sendAck (c : Conn) : Conn := emit c c.sndNxt TH_ACK []

def pumpOne (c : Conn) : Conn :=
  if ¬ c.rtPending ∨ c.state = .closed then c
  else if c.clock - c.rtSentAt < c.rtTimeoutMs then c
  else if MAX_RETRIES ≤ c.rtTries then { c with state := .done, rtPending := false }
  else
    emit { c with
      rtTries := c.rtTries + 1, rtTimeoutMs := min (c.rtTimeoutMs * 2) RTO_MAX_MS,
      rtSentAt := c.clock } c.rtSeq c.rtFlags c.rtData

def ackArrived (c : Conn) (ack : U32) : Conn :=
  let c := if 0 < (ack - c.sndUna).toInt then { c with sndUna := ack } else c
  if c.rtPending then
    let covers := c.rtSeq + BitVec.ofNat 32 c.rtData.length +
      (if c.rtFlags &&& (TH_SYN ||| TH_FIN) ≠ 0 then 1 else 0)
    if 0 ≤ (ack - covers).toInt then { c with rtPending := false } else c
  else c

/-! ## Receiving -/

/-- How much of the buffer after `rxlen` is in use. -/
def heldReach (c : Conn) : Nat :=
  c.held.foldl (fun far e => max far (e.2 - c.rcvNxt).toNat) 0

def unhold (held : List (U32 × U32)) (i : Nat) : List (U32 × U32) :=
  (held.set i (held.getLastD (0, 0))).dropLast

/-- The loop of `hold`: `[lo, hi)` grown by every stretch it touches, which is taken out. -/
def holdLoop : Nat → Nat → List (U32 × U32) → U32 → U32 → List (U32 × U32) × U32 × U32
  | 0, _, held, lo, hi => (held, lo, hi)
  | left + 1, i, held, lo, hi =>
    match held[i]? with
    | none => (held, lo, hi)
    | some (l, h) =>
      if (lo - h).toInt ≤ 0 ∧ (l - hi).toInt ≤ 0 then
        holdLoop left i (unhold held i) (if (l - lo).toInt < 0 then l else lo)
          (if 0 < (h - hi).toInt then h else hi)
      else holdLoop left (i + 1) held lo hi

def hold (c : Conn) (lo hi : U32) : Conn :=
  let (held, lo, hi) := holdLoop c.held.length 0 c.held lo hi
  { c with held := if held.length < TCP_HELD then held ++ [(lo, hi)] else held }

/-- What a stretch up to `hi` adds to the bytes that are ready. -/
def reach (c : Conn) (hi : U32) : Conn :=
  let more := hi - c.rcvNxt
  if 0 < more.toInt then { c with rxlen := c.rxlen + more.toNat, rcvNxt := c.rcvNxt + more } else c

/-- The loop of `absorb`, which starts over from the first stretch each time it takes one out. -/
def absorbLoop : Nat → Conn → Conn
  | 0, c => c
  | left + 1, c =>
    match c.held.findIdx? fun e => (e.1 - c.rcvNxt).toInt ≤ 0 with
    | none => c
    | some i =>
      let c := reach c (c.held.getD i (0, 0)).2
      absorbLoop left { c with held := unhold c.held i }

def absorb (c : Conn) : Conn := absorbLoop c.held.length c

/-- The bytes of a segment, `off` past `rcvNxt`, as far as the window goes. -/
def takeAt (c : Conn) (off : Nat) (data : Bytes) : Option Conn :=
  let room := RXCAP - c.rxlen
  if off < room then do
    let n := min data.length (room - off)
    let rxbuf ← blit c.rxbuf (c.rxlen + off) (data.take n)
    let c := { c with rxbuf }
    if off = 0 then
      return absorb { c with rxlen := c.rxlen + n, rcvNxt := c.rcvNxt + BitVec.ofNat 32 n }
    else
      let lo := c.rcvNxt + BitVec.ofNat 32 off
      return hold c lo (lo + BitVec.ofNat 32 n)
  else some c

def take (c : Conn) (seq : U32) (data : Bytes) : Option Conn :=
  let off := (seq - c.rcvNxt).toInt
  if off < 0 then
    -- Sent again, and some or all of it is already here.
    if data.length ≤ off.natAbs then some (sendAck c)
    else (takeAt c 0 (data.drop off.natAbs)).map sendAck
  else (takeAt c off.toNat data).map sendAck

def finArrived (c : Conn) : Conn :=
  let c := sendAck { c with rcvNxt := c.rcvNxt + 1, gotFin := true, finHeld := false }
  if c.state = .opened then
    let ours := c.sndNxt
    sendReliable { c with sndNxt := ours + 1, state := .closing } ours (TH_FIN ||| TH_ACK) []
  else { c with state := .done }

/-- The end of `tcp_input`: a FIN is kept until every byte before it is here. -/
def finIn (c : Conn) (s : Segment) : Conn :=
  let c := if s.flags &&& TH_FIN ≠ 0 ∧ c.gotFin = false then
      let at_ := s.seq + BitVec.ofNat 32 s.data.length
      if 0 ≤ (at_ - c.rcvNxt).toInt ∧ (at_ - c.rcvNxt).toNat ≤ RXCAP then
        { c with finHeld := true, finAt := at_ }
      else c
    else c
  if c.finHeld ∧ c.gotFin = false ∧ c.finAt = c.rcvNxt then finArrived c else c

def tcpInput (c : Conn) (s : Segment) : Option Conn :=
  if s.flags &&& TH_RST ≠ 0 then some { c with state := .done, rtPending := false }
  else if c.state = .synSent then
    if s.flags &&& (TH_SYN ||| TH_ACK) = TH_SYN ||| TH_ACK then
      some (sendAck { c with
        rcvNxt := s.seq + 1, sndNxt := s.ack, sndUna := s.ack, rtPending := false,
        state := .opened })
    else some c
  else
    let c := if s.flags &&& TH_ACK ≠ 0 then ackArrived c s.ack else c
    let taken := if s.data.length ≠ 0 then take c s.seq s.data else some c
    taken.map fun c => finIn c s

/-- `tcp_recv`, once it has waited for bytes: what it hands over. -/
def tcpRecv (c : Conn) (cap : Nat) : Option (Bytes × Conn) :=
  let n := min c.rxlen cap
  if n = 0 then some ([], c)
  else
    let stop := c.rxlen + heldReach c
    let out := c.rxbuf.take n
    if c.rxbuf.length < stop then none
    else
      let moved := if n < stop then blit c.rxbuf 0 ((c.rxbuf.drop n).take (stop - n)) else some c.rxbuf
      moved.map fun rxbuf =>
        let c := { c with rxlen := c.rxlen - n, rxbuf }
        (out, if c.state = .opened then sendAck c else c)

def tcpEnded (c : Conn) : Bool :=
  c.rxlen == 0 && (c.gotFin || c.state == .done || c.state == .closed)

end Zelr.Tcp
