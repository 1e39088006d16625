import Zelr.Base.Bytes

/-!
# A WebSocket, read

`ws_pump` and what it calls, for a connection that is open. A call reports one thing at most.
-/

namespace Zelr.Web

def WS_MESSAGE_MAX : Nat := 8 <<< 20

inductive WsState
  | opened
  | closing
  | closed
  deriving DecidableEq

structure Wsock where
  state : WsState
  /-- what came and is not read yet, and what there is room for -/
  inBuf : Bytes
  inCap : Nat
  /-- a message being put together -/
  msg : Bytes
  msgCap : Nat
  /-- 1 text, 2 binary, 0 none started -/
  msgOp : Nat
  sentClose : Bool
  closeCode : Nat
  /-- the frames that were sent, oldest first -/
  sent : List Bytes
  deriving DecidableEq

inductive Event
  | none
  | message (binary : Bool) (data : Bytes)
  | close (code : Nat) (clean : Bool) (reason : Bytes)
  | error (why : String)
  deriving DecidableEq

/-- What is outside: the sizes `realloc` has memory for, and the masks that are drawn. -/
structure Host where
  memory : Nat → Bool
  mask : Nat → Bytes

/-! ## Memory -/

/-- A capacity that is found, or cannot be had, or is looked for for ever. -/
inductive Grown
  | room (cap : Nat)
  | full
  | forever

def doubled : Nat → Nat → Nat → Option Nat
  | 0, _, _ => none
  | k + 1, c, need => if c < need then doubled k (c * 2 % 2 ^ 32) need else some c

def wsGrow (host : Host) (cap need : Nat) : Grown :=
  if need ≤ cap then .room cap
  else
    match doubled 33 (if cap = 0 then 4096 else cap) need with
    | none => .forever
    | some c => if host.memory c then .room c else .full

/-! ## Sending -/

def masked (mask data : Bytes) : Bytes := data.mapIdx fun i b => b ^^^ byteAt mask (i % 4)

def wsFrame (mask : Bytes) (op : Nat) (data : Bytes) : Bytes :=
  let len := data.length
  let head :=
    if len < 126 then [UInt8.ofNat (0x80 + len)]
    else if len < 65536 then [0xFE, UInt8.ofNat (len / 256), UInt8.ofNat len]
    else 0xFF :: [0, 0, 0, 0] ++ beBytes 4 len
  UInt8.ofNat (0x80 + op) :: head ++ mask ++ masked mask data

def Wsock.frame (host : Host) (w : Wsock) (op : Nat) (data : Bytes) : Wsock :=
  { w with sent := w.sent ++ [wsFrame (host.mask w.sent.length) op data] }

def Wsock.drop (w : Wsock) : Wsock := { w with state := .closed, inBuf := [], inCap := 0, msg := [], msgCap := 0 }

def be16 (n : Nat) : Bytes := [UInt8.ofNat (n / 256), UInt8.ofNat n]

inductive Turn
  | wait
  | happened (e : Event) (w : Wsock)
  | again (w : Wsock)
  | stuck

def wsFail (host : Host) (w : Wsock) (code : Nat) (why : String) : Turn :=
  let w := if w.state = .opened ∧ !w.sentClose then w.frame host 8 (be16 code) else w
  .happened (.error why) { w.drop with closeCode := 1006 }

def outOfMemory : String := "out of memory"

/-! ## Text -/

def utf8Lead (c : UInt8) : Option (Nat × UInt8 × UInt8) :=
  if 0xC2 ≤ c ∧ c ≤ 0xDF then some (1, 0x80, 0xBF)
  else if 0xE0 ≤ c ∧ c ≤ 0xEF then some (2, if c = 0xE0 then 0xA0 else 0x80, if c = 0xED then 0x9F else 0xBF)
  else if 0xF0 ≤ c ∧ c ≤ 0xF4 then some (3, if c = 0xF0 then 0x90 else 0x80, if c = 0xF4 then 0x8F else 0xBF)
  else none

def utf8Rest : Nat → UInt8 → UInt8 → Bytes → Option Bytes
  | 0, _, _, s => some s
  | _ + 1, _, _, [] => none
  | k + 1, lo, hi, d :: s => if d < lo ∨ d > hi then none else utf8Rest k 0x80 0xBF s

theorem utf8Rest_length {k : Nat} {lo hi : UInt8} {s t : Bytes} (h : utf8Rest k lo hi s = some t) : t.length ≤ s.length := by
  induction k generalizing lo hi s with
  | zero =>
    cases h
    exact le_rfl
  | succ k ih =>
    cases s with
    | nil => cases h
    | cons d s =>
      obtain ⟨-, h⟩ := Option.ite_none_left_eq_some.mp h
      exact (ih h).trans (Nat.le_succ _)

def wsUtf8Ok : Bytes → Bool
  | [] => true
  | c :: s =>
    if c < 0x80 then wsUtf8Ok s
    else
      match utf8Lead c with
      | none => false
      | some (k, lo, hi) =>
        match _h : utf8Rest k lo hi s with
        | none => false
        | some t => wsUtf8Ok t
termination_by s => s.length
decreasing_by
  · exact Nat.lt_succ_self _
  · exact Nat.lt_succ_of_le (utf8Rest_length _h)

/-! ## One frame -/

def frameLength (b : Bytes) : Option (Nat × Nat) :=
  let len := (byteAt b 1 &&& 0x7F).toNat
  if len = 126 then if b.length < 4 then none else some (beNat ((b.drop 2).take 2), 4)
  else if len = 127 then if b.length < 10 then none else some (beNat ((b.drop 2).take 8), 10)
  else some (len, 2)

def closeFrame (host : Host) (w : Wsock) (pay : Bytes) : Turn :=
  if pay.length = 1 then wsFail host w 1002 "a close with half a code"
  else
    let code := if pay.length ≥ 2 then (byteAt pay 0).toNat * 256 + (byteAt pay 1).toNat else 1005
    let reason := ((pay.drop 2).take 123).takeWhile (· ≠ 0)
    let w := if w.sentClose then w
      else { w.frame host 8 (if pay.length ≥ 2 then be16 code else []) with sentClose := true }
    .happened (.close code true reason) { w.drop with closeCode := code }

def addPiece (host : Host) (w : Wsock) (fin : Bool) (pay rest : Bytes) : Turn :=
  if w.msg.length + pay.length > WS_MESSAGE_MAX then wsFail host w 1009 "a message too big to keep"
  else
    match wsGrow host w.msgCap (w.msg.length + pay.length + 1) with
    | .forever => .stuck
    | .full => wsFail host w 1009 outOfMemory
    | .room cap =>
      let w := { w with msg := w.msg ++ pay, msgCap := cap }
      if fin then
        let binary : Bool := w.msgOp = 2
        let w := { w with msgOp := 0 }
        if !binary && !wsUtf8Ok w.msg then wsFail host w 1007 "a text message that was not UTF-8"
        else .happened (.message binary w.msg) { w with inBuf := rest }
      else .again { w with inBuf := rest }

/-- A piece of a message, with `rest` behind it. -/
def dataFrame (host : Host) (w : Wsock) (fin : Bool) (op : Nat) (pay rest : Bytes) : Turn :=
  if op = 0 ∧ w.msgOp = 0 then wsFail host w 1002 "a continuation with nothing to continue"
  else if op ≠ 0 ∧ w.msgOp ≠ 0 then wsFail host w 1002 "a new message before the last one ended"
  else addPiece host (if op ≠ 0 then { w with msgOp := op, msg := [] } else w) fin pay rest

def takeFrame (host : Host) (w : Wsock) (fin : Bool) (op : Nat) (pay rest : Bytes) : Turn :=
  if op = 9 then .again { w.frame host 10 pay with inBuf := rest }
  else if op = 8 then closeFrame host w pay
  else if op = 10 then .again { w with inBuf := rest }
  else if op = 0 ∨ op = 1 ∨ op = 2 then dataFrame host w fin op pay rest
  else wsFail host w 1002 "a frame of a kind there is none of"

def oneFrame (host : Host) (w : Wsock) : Turn :=
  if w.inBuf.length < 2 then .wait
  else
    let b0 := byteAt w.inBuf 0
    let fin : Bool := b0 &&& 0x80 ≠ 0
    let op := (b0 &&& 0x0F).toNat
    if b0 &&& 0x70 ≠ 0 then wsFail host w 1002 "a frame used bits no extension was agreed for"
    else if byteAt w.inBuf 1 &&& 0x80 ≠ 0 then wsFail host w 1002 "the server masked a frame"
    else
      match frameLength w.inBuf with
      | none => .wait
      | some (len, start) =>
        if op ≥ 8 ∧ (!fin ∨ len > 125) then wsFail host w 1002 "a control frame that was too long or in pieces"
        else if len > WS_MESSAGE_MAX then wsFail host w 1009 "a message too big to keep"
        else if w.inBuf.length < start + len then .wait
        else takeFrame host w fin op ((w.inBuf.drop start).take len) (w.inBuf.drop (start + len))

def frames (host : Host) : Nat → Wsock → Option (Event × Wsock)
  | 0, w => some (.none, w)
  | k + 1, w =>
    match oneFrame host w with
    | .wait => some (.none, w)
    | .happened e w => some (e, w)
    | .again w => frames host k w
    | .stuck => none

/-! ## The pump -/

/-- What the reads of one call give, then nothing more for now or the end; and whether a close that was sent has had its
five seconds. -/
structure Poll where
  chunks : List Bytes
  eof : Bool
  late : Bool

@[irreducible] def readRoom (len : Nat) : Nat := (len + 16384) % 2 ^ 32

def receive (host : Host) (eof : Bool) : Nat → List Bytes → Wsock → Turn
  | 0, _, w => .again w
  | rounds + 1, chunks, w =>
    match wsGrow host w.inCap (readRoom w.inBuf.length) with
    | .forever => .stuck
    | .full => wsFail host w 1009 outOfMemory
    | .room cap =>
      match chunks with
      | c :: chunks => receive host eof rounds chunks { w with inBuf := w.inBuf ++ c, inCap := cap }
      | [] =>
        if eof ∧ w.inBuf = [] then .happened (.close 1006 false []) { w.drop with closeCode := 1006 }
        else .again { w with inCap := cap }

def wsPump (host : Host) (poll : Poll) (w : Wsock) : Option (Event × Wsock) :=
  if w.state = .closed then some (.none, w)
  else if w.state = .closing ∧ poll.late then some (.close 1006 false [], { w.drop with closeCode := 1006 })
  else
    match receive host poll.eof 64 poll.chunks w with
    | .wait => some (.none, w)
    | .happened e w => some (e, w)
    | .again w => frames host (w.inBuf.length + 1) w
    | .stuck => none

def pumps (host : Host) : List Poll → Wsock → Option (List Event × Wsock)
  | [], w => some ([], w)
  | poll :: polls, w =>
    match wsPump host poll w with
    | none => none
    | some (e, w) => (pumps host polls w).map fun r => (e :: r.1, r.2)

end Zelr.Web
