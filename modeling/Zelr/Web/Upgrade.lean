import Zelr.Crypto.Sha
import Zelr.Web.Received
import Zelr.Web.Url

/-!
# A WebSocket from its first answer on

`ws_pump` for a connection in any state: one that still waits for the answer to its request reads it with `ws_answer`,
and is open from then on.
-/

namespace Zelr.Web

variable {fin : Bool} {pay rest b : Bytes}

/-! ## The key's answer -/

/-- A hash begun: what the blocks so far come to, what is left over, and how many bytes there were. -/
structure WsSha1 where
  h : Crypto.Fips.Five
  buf : Bytes
  total : UInt64

def wsSha1Init : WsSha1 := ⟨⟨0x67452301, 0xEFCDAB89, 0x98BADCFE, 0x10325476, 0xC3D2E1F0⟩, [], 0⟩

def wsSha1Byte (s : WsSha1) (b : UInt8) : WsSha1 :=
  let buf := s.buf ++ [b]
  if buf.length = 64 then { s with h := Crypto.sha1Block s.h buf, buf := [] } else { s with buf }

def wsSha1Add (s : WsSha1) (data : Bytes) : WsSha1 :=
  data.foldl wsSha1Byte { s with total := s.total + UInt64.ofNat data.length }

def wsSha1Zeros : Nat → WsSha1 → WsSha1
  | 0, s => s
  | k + 1, s => if s.buf.length = 56 then s else wsSha1Zeros k (wsSha1Add s [0])

def wsSha1Done (s : WsSha1) : Bytes :=
  let bits := s.total * 8
  let s := wsSha1Zeros 64 (wsSha1Add s [0x80])
  let s := wsSha1Add s (Crypto.lengthBytes bits)
  [s.h.a, s.h.b, s.h.c, s.h.d, s.h.e].flatMap Crypto.wordBytes

def b64Digit (v : Nat) : UInt8 :=
  (ascii "ABCDEFGHIJKLMNOPQRSTUVWXYZabcdefghijklmnopqrstuvwxyz0123456789+/").getD (v % 64) 0

def wsB64 : Bytes → Bytes
  | [] => []
  | [a] =>
    let v := a.toNat * 65536
    [b64Digit (v / 262144), b64Digit (v / 4096), EQUALS, EQUALS]
  | [a, b] =>
    let v := a.toNat * 65536 + b.toNat * 256
    [b64Digit (v / 262144), b64Digit (v / 4096), b64Digit (v / 64), EQUALS]
  | a :: b :: c :: s =>
    let v := a.toNat * 65536 + b.toNat * 256 + c.toNat
    b64Digit (v / 262144) :: b64Digit (v / 4096) :: b64Digit (v / 64) :: b64Digit v :: wsB64 s

def wsAcceptFor (key : Bytes) : Bytes :=
  wsB64 (wsSha1Done (wsSha1Add (wsSha1Add wsSha1Init key) (ascii "258EAFA5-E914-47DA-95CA-C5AB0DC85B11")))

/-! ## The answer's headers -/

def COMMA : UInt8 := 44

def startsSmall : Bytes → Bytes → Bool
  | _, [] => true
  | [], _ :: _ => false
  | c :: s, d :: word => c ||| 32 = d ||| 32 && startsSmall s word

def headerValue (name : Bytes) (cap : Nat) (line : Bytes) : Option Bytes :=
  if startsSmall line name ∧ (line.drop name.length).head? = some COLON then
    some ((((trimmed (line.drop (name.length + 1))).takeWhile fun c => c ≠ CR ∧ c ≠ LF).take (cap - 1)).takeWhile (· ≠ 0))
  else none

def wsHeader (name : Bytes) (cap : Nat) : Bool → Bytes → Option Bytes
  | _, [] => none
  | start, c :: s => (if start then headerValue name cap (c :: s) else none).or (wsHeader name cap (c = LF) s)

def wsHasWord (word : Bytes) : Bool → Bytes → Bool
  | _, [] => false
  | true, c :: s =>
    if c = SPACE ∨ c = COMMA then wsHasWord word true s
    else
      let rest := (c :: s).drop word.length
      startsSmall (c :: s) word && (rest = [] || rest.head? = some COMMA || rest.head? = some SPACE) ||
        wsHasWord word false s
  | false, c :: s => wsHasWord word (c = COMMA) s

def headEnd : Bytes → Option Nat
  | [] => none
  | c :: s => if (c :: s).take 4 = [CR, LF, CR, LF] then some 4 else (headEnd s).map (· + 1)

/-! ## A connection in any state -/

def WS_HEAD_MAX : Nat := 16384

inductive Conn
  /-- the key that was sent, and what has come of the answer -/
  | connecting (key inBuf : Bytes) (inCap : Nat)
  /-- the subprotocol the server chose -/
  | joined (protocol : Bytes) (w : Wsock)

inductive Report
  | opened
  | event (e : Event)

def neverOpen : Conn :=
  .joined [] { state := .closed, inBuf := [], inCap := 0, msg := [], msgCap := 0, msgOp := 0, sentClose := false, closeCode := 1006, sent := [] }

def failed (why : String) : Report × Conn := (.event (.error why), neverOpen)

def wsAnswer (offered key inBuf : Bytes) (inCap : Nat) : Report × Conn :=
  match headEnd inBuf with
  | none =>
    if inBuf.length > WS_HEAD_MAX then failed "the server's answer did not end"
    else (.event .none, .connecting key inBuf inCap)
  | some stop =>
    let head := inBuf.take stop
    let value (name : String) : Option Bytes := wsHeader (ascii name) 128 true head
    if stop < 12 ∨ ¬ wStartsFold inBuf (ascii "HTTP/1.1 101") ∨ byteAt inBuf 12 ≠ SPACE ∧ byteAt inBuf 12 ≠ CR then
      failed "the server did not agree to the upgrade"
    else if ¬ ∃ v ∈ value "Upgrade", wSameFold v (ascii "websocket") then
      failed "the answer did not say Upgrade: websocket"
    else if ¬ ∃ v ∈ value "Connection", wsHasWord (ascii "upgrade") true v then
      failed "the answer did not say Connection: Upgrade"
    else if value "Sec-WebSocket-Accept" ≠ some (wsAcceptFor key) then
      failed "the server's Sec-WebSocket-Accept was not for our key"
    else if ∃ v ∈ value "Sec-WebSocket-Extensions", v ≠ [] then
      failed "the server used an extension that was not offered"
    else
      let protocol := (value "Sec-WebSocket-Protocol").getD []
      if protocol ≠ [] ∧ ¬ wsHasWord protocol true offered then
        failed "the server chose a subprotocol that was not offered"
      else
        (.opened, .joined (wCopy 64 protocol)
          { state := .opened, inBuf := inBuf.drop stop, inCap, msg := [], msgCap := 0, msgOp := 0, sentClose := false, closeCode := 1006, sent := [] })

/-- The reads of one call: what is kept then, and whether the last of them found the end. -/
inductive Reads
  | kept (inBuf : Bytes) (inCap : Nat) (ended : Bool)
  | full
  | forever

def reads (host : Host) (eof : Bool) : Nat → List Bytes → Bytes → Nat → Reads
  | 0, _, inBuf, inCap => .kept inBuf inCap false
  | rounds + 1, chunks, inBuf, inCap =>
    match wsGrow host inCap (readRoom inBuf.length) with
    | .forever => .forever
    | .full => .full
    | .room cap =>
      match chunks with
      | c :: chunks => reads host eof rounds chunks (inBuf ++ c) cap
      | [] => .kept inBuf cap eof

def wsPumpConn (host : Host) (offered : Bytes) (poll : Poll) : Conn → Option (Report × Conn)
  | .joined protocol w => (wsPump host poll w).map fun r => (.event r.1, .joined protocol r.2)
  | .connecting key inBuf inCap =>
    match reads host poll.eof 64 poll.chunks inBuf inCap with
    | .forever => none
    | .full => some (failed outOfMemory)
    | .kept inBuf inCap ended =>
      if ended ∧ inBuf = [] then some (failed "the server closed before answering")
      else some (wsAnswer offered key inBuf inCap)

/-!
## When the server is gone

A call in which `recv` finds the end of the stream, with no complete answer or frame left: whether it reports that the
connection is over.
-/

/-- `recv` finds the end of the stream in this call, when `inBuf` has come and is not read yet. -/
def SeesEnd (host : Host) (poll : Poll) (conn : Conn) (inBuf : Bytes) (inCap : Nat) : Prop :=
  match conn with
  | .connecting _ before cap => reads host poll.eof 64 poll.chunks before cap = .kept inBuf inCap true
  | .joined _ w =>
    w.state ≠ .closed ∧ ¬ (w.state = .closing ∧ poll.late = true) ∧
      reads host poll.eof 64 poll.chunks w.inBuf w.inCap = .kept inBuf inCap true

def FrameHere (b : Bytes) : Prop := 2 ≤ b.length ∧ ∃ len start, frameLength b = some (len, start) ∧ start + len ≤ b.length

def Taken (host : Host) (w w' : Wsock) : Prop := oneFrame host w = .again w'

/-- What is left, when the frames before it have been taken and reported nothing: no whole answer, no whole frame. -/
def LeftOver (host : Host) (conn : Conn) (inBuf : Bytes) (inCap : Nat) (rest : Bytes) : Prop :=
  match conn with
  | .connecting _ _ _ => headEnd inBuf = none ∧ rest = inBuf
  | .joined _ w =>
    ∃ w', Relation.ReflTransGen (Taken host) { w with inBuf, inCap } w' ∧ w'.inBuf = rest ∧ ¬ FrameHere rest

/-- The call reports that the connection is over, and it is. -/
def Reported (r : Option (Report × Conn)) : Prop :=
  ∃ e protocol w, r = some (.event e, .joined protocol w) ∧ e.ends = true ∧ w.state = .closed

def BadHeader (b : Bytes) : Prop :=
  2 ≤ b.length ∧
    (byteAt b 0 &&& 0x70 ≠ 0 ∨ byteAt b 1 &&& 0x80 ≠ 0 ∨
      ∃ len start, frameLength b = some (len, start) ∧
        (8 ≤ (byteAt b 0 &&& 0x0F).toNat ∧ (byteAt b 0 &&& 0x80 = 0 ∨ 125 < len) ∨ WS_MESSAGE_MAX < len))

def RefusedRest (conn : Conn) (rest : Bytes) : Prop :=
  match conn with
  | .connecting _ _ _ => WS_HEAD_MAX < rest.length
  | .joined _ _ => BadHeader rest

/-! ## Turns -/

section
variable {host : Host} {w w' : Wsock} {eof : Bool}

theorem wsFail_ends (w : Wsock) (code : Nat) (why : String) :
    ∃ e w', wsFail host w code why = .happened e w' ∧ e.ends = true ∧ w'.state = .closed :=
  ⟨_, _, rfl, rfl, rfl⟩

theorem oneFrame_unfinished (host : Host) (hpart : ¬ FrameHere w.inBuf) :
    BadHeader w.inBuf ∧ (∃ e w', oneFrame host w = .happened e w' ∧ e.ends = true ∧ w'.state = .closed) ∨
      ¬ BadHeader w.inBuf ∧ oneFrame host w = .wait := by
  unfold oneFrame
  by_cases hshort : w.inBuf.length < 2
  · rw [if_pos hshort]
    exact .inr ⟨fun h => absurd h.1 (by omega), rfl⟩
  have hlong : 2 ≤ w.inBuf.length := by omega
  rw [if_neg hshort]
  dsimp only
  by_cases hbits : byteAt w.inBuf 0 &&& 0x70 ≠ 0
  · rw [if_pos hbits]
    exact .inl ⟨⟨hlong, .inl hbits⟩, wsFail_ends ..⟩
  rw [if_neg hbits]
  by_cases hmask : byteAt w.inBuf 1 &&& 0x80 ≠ 0
  · rw [if_pos hmask]
    exact .inl ⟨⟨hlong, .inr (.inl hmask)⟩, wsFail_ends ..⟩
  rw [if_neg hmask]
  cases hlength : frameLength w.inBuf with
  | none =>
    refine .inr ⟨?_, rfl⟩
    rintro ⟨-, h | h | ⟨len, start, h, -⟩⟩
    · exact hbits h
    · exact hmask h
    · rw [hlength] at h
      cases h
  | some place =>
    obtain ⟨len, start⟩ := place
    have hnot : ¬ start + len ≤ w.inBuf.length := fun hwhole => hpart ⟨hlong, len, start, hlength, hwhole⟩
    dsimp only
    split
    · rename_i hcontrol
      refine .inl ⟨⟨hlong, .inr (.inr ⟨len, start, hlength, .inl ?_⟩)⟩, wsFail_ends ..⟩
      simpa using hcontrol
    · rename_i hcontrol
      split
      · rename_i hbig
        exact .inl ⟨⟨hlong, .inr (.inr ⟨len, start, hlength, .inr hbig⟩)⟩, wsFail_ends ..⟩
      · rename_i hbig
        rw [if_pos (by omega)]
        refine .inr ⟨?_, rfl⟩
        rintro ⟨-, h | h | ⟨len', start', h, hbad⟩⟩
        · exact hbits h
        · exact hmask h
        · rw [hlength] at h
          obtain ⟨rfl, rfl⟩ := Prod.mk.inj (Option.some.inj h)
          rcases hbad with hbad | hbad
          · exact hcontrol (by simpa using hbad)
          · exact hbig hbad

theorem addPiece_again (h : addPiece host w fin pay rest = .again w') : w'.inBuf = rest := by
  unfold addPiece at h
  dsimp only at h
  split at h
  · cases h
  split at h
  · cases h
  · cases h
  split at h
  · split at h <;> cases h
  · cases h
    rfl

theorem takeFrame_again {op : Nat} (h : takeFrame host w fin op pay rest = .again w') :
    w'.inBuf = rest := by
  unfold takeFrame at h
  split at h
  · cases h
    rfl
  split at h
  · -- a close is reported
    unfold closeFrame at h
    split at h <;> cases h
  split at h
  · cases h
    rfl
  split at h
  · unfold dataFrame at h
    split at h
    · cases h
    split at h
    · cases h
    · exact addPiece_again h
  · cases h

theorem two_le_start {len start : Nat} (h : frameLength b = some (len, start)) : 2 ≤ start := by
  unfold frameLength at h
  dsimp only at h
  split at h
  · obtain ⟨-, h⟩ := Option.ite_none_left_eq_some.mp h
    cases h
    decide
  split at h
  · obtain ⟨-, h⟩ := Option.ite_none_left_eq_some.mp h
    cases h
    decide
  · cases h
    exact le_rfl

theorem Taken.shorter (h : Taken host w w') : w'.inBuf.length < w.inBuf.length := by
  unfold Taken oneFrame at h
  dsimp only at h
  split at h
  · cases h
  split at h
  · cases h
  split at h
  · cases h
  split at h
  · cases h
  rename_i len start hlength
  split at h
  · cases h
  split at h
  · cases h
  split at h
  · cases h
  · have hstart := two_le_start hlength
    rw [takeFrame_again h, List.length_drop]
    omega

theorem frames_taken {k : Nat} (h : Relation.ReflTransGen (Taken host) w w') (hk : w.inBuf.length < k) :
    ∃ k', w'.inBuf.length < k' ∧ frames host k w = frames host k' w' := by
  induction h using Relation.ReflTransGen.head_induction_on generalizing k with
  | refl => exact ⟨k, hk, rfl⟩
  | @head v v' hfirst _ ih =>
    obtain ⟨k, rfl⟩ := Nat.exists_eq_add_one_of_ne_zero (Nat.ne_of_gt (Nat.zero_lt_of_lt hk))
    obtain ⟨k', hk', hframes⟩ := ih (k := k) (by have := hfirst.shorter; omega)
    refine ⟨k', hk', ?_⟩
    rw [← hframes, frames]
    unfold Taken at hfirst
    rw [hfirst]

theorem wsFail_read (w : Wsock) (inBuf : Bytes) (inCap code : Nat) (why : String) :
    wsFail host { w with inBuf, inCap } code why = wsFail host w code why := by
  unfold wsFail Wsock.drop
  dsimp only
  split <;> rfl

theorem receive_eq (rounds : Nat) (chunks : List Bytes) (w : Wsock) :
    receive host eof rounds chunks w =
      match reads host eof rounds chunks w.inBuf w.inCap with
      | .forever => .stuck
      | .full => wsFail host w 1009 outOfMemory
      | .kept inBuf inCap ended =>
        if ended ∧ inBuf = [] then .happened (.close 1006 false []) { w.drop with closeCode := 1006 }
        else .again { w with inBuf, inCap } := by
  induction rounds generalizing chunks w with
  | zero => rfl
  | succ rounds ih =>
    rw [receive, reads]
    cases wsGrow host w.inCap (readRoom w.inBuf.length) with
    | forever => rfl
    | full => rfl
    | room cap =>
      cases chunks with
      | nil => rfl
      | cons c chunks =>
        dsimp only
        rw [ih]
        dsimp only
        rw [wsFail_read]
        rfl

end

/-! ## The call -/

section
variable {host : Host} {poll : Poll} {conn : Conn} {inBuf offered rest : Bytes} {inCap : Nat}

theorem wsPump_end {w : Wsock} (hopen : w.state ≠ .closed) (hlate : ¬ (w.state = .closing ∧ poll.late = true))
    (hreads : reads host poll.eof 64 poll.chunks w.inBuf w.inCap = .kept inBuf inCap true) :
    wsPump host poll w =
      if inBuf = [] then some (.close 1006 false [], { w.drop with closeCode := 1006 })
      else frames host (inBuf.length + 1) { w with inBuf, inCap } := by
  unfold wsPump
  rw [if_neg hopen, if_neg hlate, receive_eq, hreads]
  dsimp only
  by_cases hnil : inBuf = []
  · rw [if_pos hnil, if_pos ⟨rfl, hnil⟩]
  · rw [if_neg hnil, if_neg fun h => hnil h.2]

/-- The end is reported exactly when nothing was left when it was found, or what is left is refused for what it is. -/
theorem eof_reported_iff (hend : SeesEnd host poll conn inBuf inCap) (hleft : LeftOver host conn inBuf inCap rest) :
    Reported (wsPumpConn host offered poll conn) ↔ inBuf = [] ∨ RefusedRest conn rest := by
  cases conn with
  | connecting key before cap =>
    obtain ⟨hhead, rfl⟩ := hleft
    change reads host poll.eof 64 poll.chunks before cap = .kept rest inCap true at hend
    unfold wsPumpConn
    dsimp only
    rw [hend]
    dsimp only
    by_cases hnil : rest = []
    · rw [if_pos ⟨rfl, hnil⟩]
      exact iff_of_true ⟨_, _, _, rfl, rfl, rfl⟩ (.inl hnil)
    · rw [if_neg fun h => hnil h.2, or_iff_right hnil, wsAnswer, hhead, RefusedRest]
      dsimp only
      by_cases hbig : rest.length > WS_HEAD_MAX
      · rw [if_pos hbig]
        exact iff_of_true ⟨_, _, _, rfl, rfl, rfl⟩ hbig
      · rw [if_neg hbig]
        refine iff_of_false ?_ hbig
        rintro ⟨e, protocol, w, h, -⟩
        cases h
  | joined protocol w =>
    obtain ⟨hopen, hlate, hreads⟩ := hend
    obtain ⟨w', htaken, rfl, hpart⟩ := hleft
    rw [wsPumpConn, wsPump_end hopen hlate hreads, RefusedRest]
    by_cases hnil : inBuf = []
    · rw [if_pos hnil]
      exact iff_of_true ⟨_, _, _, rfl, rfl, rfl⟩ (.inl hnil)
    · rw [if_neg hnil, or_iff_right hnil]
      obtain ⟨k, hk, hframes⟩ := frames_taken htaken (Nat.lt_succ_self inBuf.length)
      obtain ⟨k, rfl⟩ := Nat.exists_eq_add_one_of_ne_zero (Nat.ne_of_gt (Nat.zero_lt_of_lt hk))
      rw [hframes, frames]
      rcases oneFrame_unfinished host hpart with ⟨hbad, e, v, hturn, hends, hclosed⟩ | ⟨hfine, hturn⟩
      · rw [hturn]
        exact iff_of_true ⟨e, protocol, v, rfl, hends, hclosed⟩ hbad
      · rw [hturn]
        refine iff_of_false ?_ hfine
        rintro ⟨e, protocol, v, h, hends, -⟩
        cases h
        cases hends

end

/-! ### A server that dies in mid-frame -/

def sampleOpen (inBuf : Bytes) : Conn := .joined [] { sampleSock with inBuf, inCap := 20480 }

def sampleEnd : Poll := ⟨[], true, false⟩

theorem sample_end (inBuf : Bytes) (h : inBuf.length ≤ 4) : SeesEnd sampleHost sampleEnd (sampleOpen inBuf) inBuf 20480 := by
  have hroom : readRoom inBuf.length ≤ 20480 := by
    unfold readRoom
    omega
  refine ⟨?_, ?_, ?_⟩
  · intro h
    cases h
  · rintro ⟨h, -⟩
    cases h
  · change reads sampleHost true 64 [] inBuf 20480 = _
    rw [reads, wsGrow, if_pos hroom]

theorem not_frameHere_of_short (h : b.length ≤ 1) : ¬ FrameHere b := fun hframe => by
  have := hframe.1
  omega

theorem eof_reported_sample : Reported (wsPumpConn sampleHost [] sampleEnd (sampleOpen [0x8A, 0, 0xC1, 5])) := by
  have hleft : LeftOver sampleHost (sampleOpen [0x8A, 0, 0xC1, 5]) [0x8A, 0, 0xC1, 5] 20480 [0xC1, 5] := by
    refine ⟨_, .single rfl, rfl, ?_⟩
    rintro ⟨-, len, start, hlen, hle⟩
    cases hlen
    exact absurd hle (by decide)
  exact (eof_reported_iff (sample_end _ (by decide)) hleft).mpr (.inr ⟨by decide, .inl (by decide)⟩)

/-- With one byte of a frame there, the end is not reported. -/
theorem eof_unreported : SeesEnd sampleHost sampleEnd (sampleOpen [0x81]) [0x81] 20480 ∧
    LeftOver sampleHost (sampleOpen [0x81]) [0x81] 20480 [0x81] ∧
    wsPumpConn sampleHost [] sampleEnd (sampleOpen [0x81]) = some (.event .none, sampleOpen [0x81]) ∧
    ¬ Reported (wsPumpConn sampleHost [] sampleEnd (sampleOpen [0x81])) := by
  have hend := sample_end [0x81] (by decide)
  have hnone : wsPumpConn sampleHost [] sampleEnd (sampleOpen [0x81]) = some (.event .none, sampleOpen [0x81]) := by
    obtain ⟨hopen, hlate, hreads⟩ := hend
    rw [sampleOpen, wsPumpConn, wsPump_end hopen hlate hreads]
    rfl
  refine ⟨hend, ⟨_, .refl, rfl, not_frameHere_of_short (by decide)⟩, hnone, ?_⟩
  rw [hnone]
  rintro ⟨e, protocol, w, h, hends, -⟩
  cases h
  cases hends

end Zelr.Web
