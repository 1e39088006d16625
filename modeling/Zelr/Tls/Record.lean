import Zelr.Base.Act
import Zelr.X509.Chain

/-!
# TLS records

One session of `tls.c` and its record layer: records go out sealed and come in over a transport
that hands over some bytes at a time, or nothing in time, or has ended. The cryptography is a
parameter (`Prims`).
-/

namespace Zelr.Tls

def REC_CHANGE_CIPHER : UInt8 := 20
def REC_ALERT : UInt8 := 21
def REC_HANDSHAKE : UInt8 := 22
def REC_APPDATA : UInt8 := 23

def REC_MAX : Nat := 16640
def HS_MAX : Nat := 32768
def GCM_TAG : Nat := 16

/-- What the session calls that is not in `tls.c`, and what the machine has to offer. -/
structure Prims extends X509.Prims where
  hmacSha256 : Bytes → Bytes → Bytes
  hkdfExtract : Bytes → Bytes → Bytes
  hkdfExpandLabel : Bytes → String → Bytes → Nat → Option Bytes
  tls12Prf : Bytes → String → Bytes → Nat → Option Bytes
  /-- key, nonce, what is authenticated, data -/
  gcmSeal : Bytes → Bytes → Bytes → Bytes → Bytes × Bytes
  gcmOpen : Bytes → Bytes → Bytes → Bytes → Bytes → Option Bytes
  x25519 : Bytes → Bytes → Option Bytes
  x25519Public : Bytes → Bytes
  ecPublic : X509.Curve → Bytes → Option Bytes
  ecAgree : X509.Curve → Bytes → Bytes → Option Bytes
  roots : List X509.Root
  now : Nat
  rngReady : Bool
  /-- the bytes of each draw, and how many were asked for -/
  rngBytes : Nat → Nat → Bytes
  expand_length : ∀ {secret label hash n r}, hkdfExpandLabel secret label hash n = some r → r.length = n
  open_length : ∀ {key nonce aad data tag plain},
    gcmOpen key nonce aad data tag = some plain → plain.length = data.length

/-! ## The session -/

/-- What a read from the transport finds. An empty piece is a wait that was not the last. -/
inductive Arrival
  | bytes (b : Bytes)
  | timeout
  | gone
  deriving Repr, DecidableEq

/-- A call of `gcm_seal`, and which of the keys installed for sending it was made under. -/
structure Seal where
  stage : Nat
  key : Bytes
  nonce : Bytes
  deriving Repr, DecidableEq

/-- A handshake message that was sent or taken, or the server's change of cipher. -/
inductive Event
  | sent (msg : Bytes)
  | got (msg : Bytes)
  | changed
  deriving Repr, DecidableEq

/-- `tls_t`. `transcript` is all that went into the hash. The last five fields are not in the
source: what the transport and the allocator answer, and what has been done. -/
structure Session where
  opened : Bool := false
  handshakeDone : Bool := false
  ended : Bool := false
  priv : Bytes := []
  pub : Bytes := []
  clientRandom : Bytes := []
  sessionId : Bytes := []
  group : Nat := 0
  p256Priv : Bytes := []
  p256Pub : Bytes := []
  peerShare : Bytes := []
  retried : Bool := false
  cookie : Bytes := []
  v12 : Bool := false
  suite : Nat := 0
  serverRandom : Bytes := []
  ems : Bool := false
  master : Bytes := []
  ccsOk : Bool := false
  sSealed : Bool := false
  transcript : Bytes := []
  hsSecret : Bytes := []
  cHs : Bytes := []
  sHs : Bytes := []
  cApp : Bytes := []
  sApp : Bytes := []
  cGcm : Bytes := []
  sGcm : Bytes := []
  cIv : Bytes := []
  sIv : Bytes := []
  cSeq : UInt64 := 0
  sSeq : UInt64 := 0
  keysAreApp : Bool := false
  canSeal : Bool := false
  alerted : Bool := false
  /-- `rec`: one record's worth, with room for a header in front -/
  record : Bytes := List.replicate (REC_MAX + 64) 0
  /-- the first `hs_len` bytes of `hs` -/
  hs : Bytes := []
  hsPos : Nat := 0
  head : Bytes := List.replicate 5 0
  /-- `have` -/
  haveLen : Nat := 0
  /-- the first `app_len` bytes of `app` -/
  app : Bytes := []
  appPos : Nat := 0
  host : Bytes := []
  error : String := ""
  described : String := ""
  leaf : Option X509.Cert := none
  ders : List Bytes := []
  drawn : Nat := 0
  net : List Arrival := []
  /-- what calls that can fail answer, in turn; after these they all succeed -/
  answers : List Bool := []
  wire : List Bytes := []
  seals : List Seal := []
  stage : Nat := 0
  log : List Event := []

open Act

def ask : Act Session Bool := fun z => (some (z.answers.headD true), { z with answers := z.answers.tail })

def failWith {α : Type} (why : String) : Act Session α := do
  modify fun z => { z with error := why }
  stop

def note (e : Event) : Act Session Unit := modify fun z => { z with log := z.log ++ [e] }

/-! ## Reading and writing over TCP -/

inductive Took
  | bytes (b : Bytes)
  | late
  | gone
  deriving Repr, DecidableEq

def takeSome (want : Nat) : List Arrival → Took × List Arrival
  | [] => (.late, [])
  | .timeout :: net => (.late, net)
  | .gone :: net => (.gone, .gone :: net)
  | .bytes b :: net =>
    if b.length ≤ want then (.bytes b, net) else (.bytes (b.take want), .bytes (b.drop want) :: net)

def netSize : List Arrival → Nat
  | [] => 0
  | .bytes b :: net => b.length + 1 + netSize net
  | _ :: net => 1 + netSize net

def recLen (head : Bytes) : Nat := (byteAt head 3).toNat * 256 + (byteAt head 4).toNat

inductive Fill
  | whole
  | late
  | stopped
  deriving Repr, DecidableEq

/-- The loop of `fill_record`; every turn takes something from the transport or ends it. -/
def fillLoop : Nat → Session → Fill × Session
  | 0, z => (.late, z)
  | left + 1, z =>
    if z.haveLen < 5 then
      match takeSome (5 - z.haveLen) z.net with
      | (.gone, net) => (.stopped, { z with net })
      | (.late, net) => (.late, { z with net })
      | (.bytes b, net) =>
        fillLoop left { z with
          net, head := put z.head z.haveLen b, haveLen := z.haveLen + b.length }
    else
      let n := recLen z.head
      if n = 0 ∨ REC_MAX < n then (.whole, z)
      else if n ≤ z.haveLen - 5 then (.whole, z)
      else
        match takeSome (n - (z.haveLen - 5)) z.net with
        | (.gone, net) => (.stopped, { z with net })
        | (.late, net) => (.late, { z with net })
        | (.bytes b, net) =>
          fillLoop left { z with
            net, record := put z.record (z.haveLen - 5) b, haveLen := z.haveLen + b.length }

/-- `fill_record`: what did arrive is kept for the next read. -/
def fillRecord : Act Session Fill := fun z =>
  let filled := fillLoop (netSize z.net + 1) z
  (some filled.1, filled.2)

def writeAll (data : Bytes) : Act Session Unit := do
  let ok ← ask
  if ok then modify fun z => { z with wire := z.wire ++ [data] } else stop

/-! ## Sending -/

def xorBytes (a b : Bytes) : Bytes := List.zipWith (· ^^^ ·) a b

/-- `nonce_for`: the fixed part, with the record's number over its last eight bytes. -/
def nonceFor (iv : Bytes) (seq : UInt64) : Bytes :=
  iv.take 4 ++ xorBytes (iv.drop 4) (beBytes 8 seq.toNat)

def header (type : UInt8) (len : Nat) : Bytes := [type, 3, 3] ++ beBytes 2 len

def aad12 (seq : UInt64) (type : UInt8) (len : Nat) : Bytes :=
  beBytes 8 seq.toNat ++ [type, 3, 3] ++ beBytes 2 len

def sendPlainRecord (type : UInt8) (data : Bytes) : Act Session Unit :=
  if REC_MAX < data.length then stop
  else do
    let out := header type data.length ++ data
    modify fun z => { z with record := put z.record 0 out }
    writeAll out

section Crypto

variable (K : Prims)

/-- `gcm_seal` under our key, and the number it used up. -/
def sealOurs (nonce aad data : Bytes) : Act Session Bytes := do
  let z ← get
  let (cipher, tag) := K.gcmSeal z.cGcm nonce aad data
  modify fun z => { z with
    seals := z.seals ++ [⟨z.stage, z.cGcm, nonce⟩], cSeq := z.cSeq + 1 }
  return cipher ++ tag

def sendSealed12 (type : UInt8) (data : Bytes) : Act Session Unit :=
  if REC_MAX < data.length + 8 + GCM_TAG then stop
  else do
    let z ← get
    let sentNonce := beBytes 8 z.cSeq.toNat
    let body ← sealOurs K (z.cIv.take 4 ++ sentNonce) (aad12 z.cSeq type data.length) data
    let out := header type (8 + data.length + GCM_TAG) ++ sentNonce ++ body
    modify fun z => { z with record := put z.record 0 out }
    writeAll out

def sendSealed13 (innerType : UInt8) (data : Bytes) : Act Session Unit :=
  if REC_MAX < data.length + 1 + GCM_TAG then stop
  else do
    let z ← get
    let head := header REC_APPDATA (data.length + 1 + GCM_TAG)
    let body ← sealOurs K (nonceFor z.cIv z.cSeq) head (data ++ [innerType])
    let out := head ++ body
    modify fun z => { z with record := put z.record 0 out }
    writeAll out

def sendEncrypted (innerType : UInt8) (data : Bytes) : Act Session Unit := do
  let z ← get
  if z.v12 then sendSealed12 K innerType data else sendSealed13 K innerType data

/-! ## Saying why -/

inductive Alert
  | unexpectedMessage
  | badRecordMac
  | recordOverflow
  | handshakeFailure
  | badCertificate
  | certificateExpired
  | illegalParameter
  | unknownCa
  | decodeError
  | decryptError
  | protocolVersion
  | internalError
  | missingExtension
  deriving Repr, DecidableEq

def Alert.code : Alert → UInt8
  | .unexpectedMessage => 10
  | .badRecordMac => 20
  | .recordOverflow => 22
  | .handshakeFailure => 40
  | .badCertificate => 42
  | .certificateExpired => 45
  | .illegalParameter => 47
  | .unknownCa => 48
  | .decodeError => 50
  | .decryptError => 51
  | .protocolVersion => 70
  | .internalError => 80
  | .missingExtension => 109

/-- `send_alert`: one fatal alert, and whether it went out is not asked. -/
def sendAlert (desc : Alert) : Act Session Unit := do
  let z ← get
  if z.alerted then return
  else
    modify fun z => { z with alerted := true }
    let _ ← attempt <|
      if z.canSeal then sendEncrypted K REC_ALERT [2, desc.code]
      else sendPlainRecord REC_ALERT [2, desc.code]

/-- `refuse`, and the return that follows it. -/
def refuse {α : Type} (why : String) (desc : Alert) : Act Session α := do
  sendAlert K desc
  failWith why

def refuseIf (bad : Bool) (why : String) (desc : Alert) : Act Session Unit :=
  if bad then refuse K why desc else pure ()

/-! ## Receiving -/

/-- A record as its readers see it: its type, and how much of `record` is its data. -/
abbrev Rec := UInt8 × Nat

/-- `sealed_alert`: a close ends the conversation, any other is the server refusing it. -/
def sealedAlert (len : Nat) : Act Session Rec := do
  let z ← get
  if 2 ≤ len ∧ byteAt z.record 0 = 1 then
    modify fun z => { z with ended := true }
    return (REC_ALERT, 0)
  else
    modify fun z => { z with alerted := true }
    failWith "the server closed the connection with an alert"

/-- What `gcm_open` leaves of data that does not authenticate, and the refusal. -/
def forged {α : Type} (off body : Nat) : Act Session α := do
  modify fun z => { z with record := put z.record off (List.replicate body 0) }
  refuse K "a record did not authenticate" .badRecordMac

def open12 (n : Nat) : Act Session Rec := do
  refuseIf K (n < 8 + GCM_TAG) "the server sent a record too short to be real" .decodeError
  let z ← get
  let body := n - 8 - GCM_TAG
  let type := byteAt z.head 0
  match K.gcmOpen z.sGcm (z.sIv.take 4 ++ z.record.take 8) (aad12 z.sSeq type body)
      ((z.record.drop 8).take body) ((z.record.drop (8 + body)).take GCM_TAG) with
  | none => forged K 8 body
  | some plain =>
    modify fun z => { z with sSeq := z.sSeq + 1, record := put (put z.record 8 plain) 0 plain }
    if type = REC_ALERT then sealedAlert body else return (type, body)

def unpad (plain : Bytes) : Bytes := (plain.reverse.dropWhile (· = 0)).reverse

theorem unpad_length (plain : Bytes) : (unpad plain).length ≤ plain.length := by
  unfold unpad
  rw [List.length_reverse]
  exact (List.dropWhile_sublist _).length_le.trans (by simp)

def open13 (n : Nat) : Act Session Rec := do
  refuseIf K (n < GCM_TAG + 1) "the server sent a record too short to be real" .decodeError
  let z ← get
  let body := n - GCM_TAG
  match K.gcmOpen z.sGcm (nonceFor z.sIv z.sSeq) z.head (z.record.take body)
      ((z.record.drop body).take GCM_TAG) with
  | none => forged K 0 body
  | some plain =>
    modify fun z => { z with sSeq := z.sSeq + 1, record := put z.record 0 plain }
    let inner := unpad plain
    refuseIf K (inner == []) "a record had nothing in it" .unexpectedMessage
    let type := inner.getLastD 0
    let len := inner.length - 1
    if type = REC_ALERT then sealedAlert len else return (type, len)

def changeCipher (n : Nat) : Act Session Rec := do
  let z ← get
  if z.v12 then
    refuseIf K (!z.ccsOk || z.sSealed || n != 1 || byteAt z.record 0 != 1)
      "the server changed cipher out of turn" .unexpectedMessage
    modify fun z => { z with sSealed := true, log := z.log ++ [.changed] }
    return (REC_CHANGE_CIPHER, 0)
  else return (REC_CHANGE_CIPHER, 0)

/-- The rest of `read_record`, once a whole record is here. -/
def takeRecord (encrypted : Bool) : Act Session Rec := do
  let z ← get
  let n := recLen z.head
  refuseIf K (n == 0 || REC_MAX < n) "the server sent a record of an impossible size" .recordOverflow
  modify fun z => { z with haveLen := 0 }
  let type := byteAt z.head 0
  let encrypted := if z.v12 then z.sSealed else encrypted
  if type = REC_CHANGE_CIPHER then changeCipher K n
  else if type = REC_ALERT ∧ encrypted = false then
    modify fun z => { z with alerted := true }
    failWith "the server refused the connection"
  else if encrypted = false then return (type, n)
  else if z.v12 then open12 K n
  else open13 K n

def stoppedWhy (z : Session) : String :=
  if z.haveLen < 5 then "the connection stopped" else "the connection stopped mid record"

/-- `read_record`: nothing when the time ran out before a record was whole. -/
def readRecord (encrypted : Bool) : Act Session (Option Rec) := do
  let fill ← fillRecord
  let z ← get
  match fill with
  | .stopped => failWith (stoppedWhy z)
  | .late => return none
  | .whole =>
    let r ← takeRecord K encrypted
    return some r

end Crypto

end Zelr.Tls
