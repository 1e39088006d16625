import Zelr.Tls.Record

/-!
# The TLS handshake

`tls_connect`: the hello, the server's answer, and then the flight of TLS 1.3 or of TLS 1.2. Each
handshake message that is sent or taken joins `log`.
-/

namespace Zelr.Tls

open Act

def HS_CLIENT_HELLO : UInt8 := 1
def HS_SERVER_HELLO : UInt8 := 2
def HS_ENCRYPTED_EXT : UInt8 := 8
def HS_CERTIFICATE : UInt8 := 11
def HS_SERVER_KEY_EXCH : UInt8 := 12
def HS_CERT_REQUEST : UInt8 := 13
def HS_SERVER_DONE : UInt8 := 14
def HS_CERT_VERIFY : UInt8 := 15
def HS_CLIENT_KEY_EXCH : UInt8 := 16
def HS_FINISHED : UInt8 := 20
def HS_KEY_UPDATE : UInt8 := 24
def HS_MESSAGE_HASH : UInt8 := 254

def SUITE_AES128_GCM_SHA256 : Nat := 0x1301
def SUITE_ECDHE_ECDSA_AES128_GCM : Nat := 0xc02b
def SUITE_ECDHE_RSA_AES128_GCM : Nat := 0xc02f
def GROUP_X25519 : Nat := 0x001d
def GROUP_SECP256R1 : Nat := 0x0017
def COOKIE_MAX : Nat := 1024

def be16 (p : Bytes) (i : Nat) : Nat := (byteAt p i).toNat * 256 + (byteAt p (i + 1)).toNat

def be24 (p : Bytes) (i : Nat) : Nat := (byteAt p i).toNat * 65536 + be16 p (i + 1)

/-- A handshake message of ours: its type, its length in three bytes, its body. -/
def framed (type : UInt8) (body : Bytes) : Bytes := type :: beBytes 3 body.length ++ body

/-! ## The transcript -/

def hashIn (msg : Bytes) : Act Session Unit := modify fun z => { z with transcript := z.transcript ++ msg }

section Crypto

variable (K : Prims)

/-- `transcript_restart`: the first hello stands in the transcript as its hash. -/
def transcriptRestart (request : Bytes) : Act Session Unit := modify fun z => { z with
  transcript := [HS_MESSAGE_HASH, 0, 0, 32] ++ K.sha256 z.transcript ++ request }

def transcriptHash (z : Session) : Bytes := K.sha256 z.transcript

/-! ## Reassembling handshake messages -/

structure Msg where
  type : UInt8
  body : Bytes
  whole : Bytes
  deriving Repr, DecidableEq

/-- The loop of `hs_fill`; the first argument bounds the records it can find. -/
def hsFillLoop (encrypted : Bool) : Nat → Act Session Unit
  | 0 => do
    let z ← get
    failWith (stoppedWhy z)
  | left + 1 => do
    let r ← readRecord K encrypted
    let z ← get
    match r with
    | none => failWith (stoppedWhy z)
    | some (type, len) =>
      if type = REC_CHANGE_CIPHER then hsFillLoop encrypted left
      else if type ≠ REC_HANDSHAKE then
        refuse K "the server sent something other than a handshake message" .unexpectedMessage
      else if HS_MAX < z.hs.length + len then
        refuse K "the handshake is too big to hold" .internalError
      else modify fun z => { z with hs := z.hs ++ z.record.take len }

def hsFill (encrypted : Bool) : Act Session Unit := fun z =>
  hsFillLoop K encrypted (netSize z.net + 1) z

def hsWhole (avail : Bytes) : Option Msg :=
  let n := be24 avail 1
  if 4 ≤ avail.length ∧ 4 + n ≤ avail.length then
    some ⟨byteAt avail 0, (avail.drop 4).take n, avail.take (4 + n)⟩
  else none

/-- The loop of `hs_next`, bounded as `hsFillLoop` is. -/
def hsNextLoop (encrypted : Bool) : Nat → Act Session Msg
  | 0 => do
    let z ← get
    failWith (stoppedWhy z)
  | left + 1 => do
    let z ← get
    let avail := z.hs.drop z.hsPos
    if 4 ≤ avail.length ∧ HS_MAX < be24 avail 1 then
      refuse K "a handshake message claims an impossible size" .decodeError
    else
      match hsWhole avail with
      | some m => do
        modify fun z => { z with hsPos := z.hsPos + m.whole.length }
        note (.got m.whole)
        return m
      | none => do
        modify fun z => { z with hs := z.hs.drop z.hsPos, hsPos := 0 }
        hsFill K encrypted
        hsNextLoop encrypted left

def hsNext (encrypted : Bool) : Act Session Msg := fun z =>
  hsNextLoop K encrypted (netSize z.net + 1) z

/-! ## The key schedule -/

def setOurKeys (secret : Bytes) : Act Session Unit := do
  let key ← ofOption (K.hkdfExpandLabel secret "key" [] 16)
  let iv ← ofOption (K.hkdfExpandLabel secret "iv" [] 12)
  modify fun z => { z with cGcm := key, cIv := iv, cSeq := 0, canSeal := true, stage := z.stage + 1 }

def setTheirKeys (secret : Bytes) : Act Session Unit := do
  let key ← ofOption (K.hkdfExpandLabel secret "key" [] 16)
  let iv ← ofOption (K.hkdfExpandLabel secret "iv" [] 12)
  modify fun z => { z with sGcm := key, sIv := iv, sSeq := 0 }

def orRefuse {α : Type} (m : Act Session α) (why : String) (desc : Alert) : Act Session α := do
  let r ← attempt m
  match r with
  | some a => return a
  | none => refuse K why desc

def derive (secret : Bytes) (label : String) (hash : Bytes) : Act Session Bytes :=
  orRefuse K (ofOption (K.hkdfExpandLabel secret label hash 32)) "the key schedule failed" .internalError

/-! ## The client hello -/

def extension (kind : Nat) (body : Bytes) : Bytes := beBytes 2 kind ++ beBytes 2 body.length ++ body

def serverName (host : Bytes) : Bytes :=
  extension 0x0000 (beBytes 2 (host.length + 3) ++ [0] ++ beBytes 2 host.length ++ host)

def signatureAlgorithms : Bytes :=
  extension 0x000d (beBytes 2 10 ++ beBytes 2 0x0403 ++ beBytes 2 0x0804 ++ beBytes 2 0x0503 ++
    beBytes 2 0x0401 ++ beBytes 2 0x0501)

def keyShare (z : Session) : Bytes :=
  let share := if z.group = GROUP_SECP256R1 then z.p256Pub else z.pub
  extension 0x0033 (beBytes 2 (share.length + 4) ++ beBytes 2 z.group ++ beBytes 2 share.length ++ share)

def buildClientHello (z : Session) (cap : Nat) : Option Bytes :=
  let start := [3, 3] ++ z.clientRandom ++ [32] ++ z.sessionId ++ beBytes 2 6 ++
    beBytes 2 SUITE_AES128_GCM_SHA256 ++ beBytes 2 SUITE_ECDHE_ECDSA_AES128_GCM ++
    beBytes 2 SUITE_ECDHE_RSA_AES128_GCM ++ [1, 0]
  let exts := serverName z.host ++
    extension 0x002b ([4] ++ beBytes 2 0x0304 ++ beBytes 2 0x0303) ++
    extension 0x000b [1, 0] ++ extension 0x0017 [] ++ extension 0xff01 [0] ++
    extension 0x000a (beBytes 2 4 ++ beBytes 2 GROUP_X25519 ++ beBytes 2 GROUP_SECP256R1) ++
    signatureAlgorithms ++ keyShare z
  let cookie := if z.cookie = [] then [] else extension 0x002c (beBytes 2 z.cookie.length ++ z.cookie)
  if cap < 512 then none
  else if z.cookie ≠ [] ∧ cap < start.length + 2 + exts.length + 6 + z.cookie.length then none
  else some (start ++ beBytes 2 (exts ++ cookie).length ++ exts ++ cookie)

def orFail {α : Type} (m : Act Session α) (why : String) : Act Session α := do
  let r ← attempt m
  match r with
  | some a => return a
  | none => failWith why

def alloc (why : String) : Act Session Unit := do
  let ok ← ask
  if ok then pure () else failWith why

def sendClientHello : Act Session Unit := do
  let z ← get
  match buildClientHello z (REC_MAX - 4) with
  | none => failWith "could not build the greeting"
  | some body =>
    let hello := framed HS_CLIENT_HELLO body
    modify fun z => { z with record := put z.record 0 hello }
    hashIn hello
    note (.sent hello)
    alloc "not enough memory"
    orFail (sendPlainRecord REC_HANDSHAKE hello) "could not send the greeting"

/-! ## The server hello -/

def RETRY : Bytes := [
  0xcf, 0x21, 0xad, 0x74, 0xe5, 0x9a, 0x61, 0x11, 0xbe, 0x1d, 0x8c, 0x02,
  0x1e, 0x65, 0xb8, 0x91, 0xc2, 0xa2, 0x11, 0x16, 0x7a, 0xbb, 0x8c, 0x5e,
  0x07, 0x9e, 0x09, 0xe2, 0xc8, 0xa8, 0x33, 0x9c]

def downgraded (random : Bytes) : Bool :=
  (random.drop 24).take 7 == ascii "DOWNGRD" && (byteAt random 31 == 0 || byteAt random 31 == 1)

def parseExts : Nat → Bytes → Option (List (Nat × Bytes))
  | 0, _ => some []
  | left + 1, p =>
    if p.length < 4 then some []
    else
      let n := be16 p 2
      if p.length < 4 + n then none
      else (parseExts left (p.drop (4 + n))).map ((be16 p 0, (p.drop 4).take n) :: ·)

def extOf (exts : List (Nat × Bytes)) (kind : Nat) : Option Bytes :=
  (exts.reverse.find? fun e => e.1 = kind).map Prod.snd

def helloExts (rest : Bytes) : Act Session (List (Nat × Bytes)) :=
  if rest.length < 2 then return []
  else do
    let extLen := be16 rest 0
    refuseIf K (rest.length < 2 + extLen) "the server hello is malformed" .decodeError
    match parseExts extLen ((rest.drop 2).take extLen) with
    | none => refuse K "an extension runs past the message" .decodeError
    | some exts => return exts

def serverHello12 (retry : Bool) (legacy : Nat) (random sid : Bytes) (suite : Nat)
    (exts : List (Nat × Bytes)) : Act Session Bool := do
  let z ← get
  refuseIf K retry "the server did not agree to TLS 1.3" .protocolVersion
  refuseIf K z.retried "the server asked to start again and then answered as TLS 1.2" .illegalParameter
  refuseIf K (legacy != 0x0303) "the server does not do TLS 1.2 or 1.3" .protocolVersion
  refuseIf K (downgraded random) "the server can do TLS 1.3 and was made to answer as an older one"
    .illegalParameter
  refuseIf K (suite != SUITE_ECDHE_ECDSA_AES128_GCM && suite != SUITE_ECDHE_RSA_AES128_GCM)
    "the server chose a cipher this does not have" .illegalParameter
  refuseIf K (sid.length == 32 && sid == z.sessionId)
    "the server tried to resume a session this never had" .illegalParameter
  refuseIf K ((extOf exts 0x0017).any fun e => e.length != 0) "the server hello is malformed" .decodeError
  refuseIf K ((extOf exts 0xff01).any fun e => e.length != 1 || byteAt e 0 != 0)
    "the server's renegotiation extension is not empty" .handshakeFailure
  modify fun z => { z with
    v12 := true, suite, ems := (extOf exts 0x0017).isSome, serverRandom := random }
  return false

def helloRetry (share cookie : Option Bytes) : Act Session Bool := do
  let z ← get
  refuseIf K (share.any fun s => s.length != 2) "the request to start again is malformed" .decodeError
  let wanted := be16 (share.getD []) 0
  refuseIf K (cookie.any fun c => c.length < 3 || c.length != 2 + be16 c 0) "the cookie is malformed"
    .decodeError
  refuseIf K (cookie.any fun c => COOKIE_MAX < c.length - 2)
    "the server's cookie is too big to hold" .internalError
  modify fun z => { z with cookie := (cookie.map fun c => c.drop 2).getD z.cookie }
  refuseIf K (share.isSome && wanted != GROUP_SECP256R1)
    (if wanted = z.group then "the server asked for the key share it was sent"
      else "the server wants a key exchange group this does not have") .illegalParameter
  let z ← get
  refuseIf K (share.isNone && z.cookie == [])
    "the server asked to start again and changed nothing" .illegalParameter
  modify fun z => { z with group := if share.isSome then wanted else z.group }
  return true

def helloShare (share : Option Bytes) : Act Session Bool := do
  let z ← get
  match share with
  | none => refuse K "the server sent no key share" .missingExtension
  | some q =>
    refuseIf K (q.length < 4) "the key share is malformed" .decodeError
    let klen := be16 q 2
    let wantLen := if z.group = GROUP_SECP256R1 then 65 else 32
    refuseIf K (be16 q 0 != z.group || klen != wantLen || q.length != klen + 4)
      "the server chose a key exchange this does not have" .illegalParameter
    modify fun z => { z with peerShare := q.drop 4 }
    return false

def serverHello13 (retry : Bool) (version sid : Bytes) (suite : Nat) (exts : List (Nat × Bytes)) :
    Act Session Bool := do
  let z ← get
  refuseIf K (version.length != 2) "the version extension is malformed" .decodeError
  refuseIf K (be16 version 0 != 0x0304) "the server does not do TLS 1.3" .protocolVersion
  refuseIf K (sid.length != 32 || sid != z.sessionId) "the server answered a hello this did not send"
    .illegalParameter
  refuseIf K (suite != SUITE_AES128_GCM_SHA256) "the server chose a cipher this does not have"
    .illegalParameter
  if retry then helloRetry K (extOf exts 0x0033) (extOf exts 0x002c)
  else helloShare K (extOf exts 0x0033)

/-- `parse_server_hello`: whether it is a request to start again. -/
def parseServerHello (p : Bytes) : Act Session Bool := do
  refuseIf K (p.length < 38) "the server hello is too short" .decodeError
  let random := (p.drop 2).take 32
  let retry := random == RETRY
  let sid := (byteAt p 34).toNat
  refuseIf K (p.length < 35 + sid + 3) "the server hello is malformed" .decodeError
  let sidAt := (p.drop 35).take sid
  let suite := be16 p (35 + sid)
  refuseIf K (byteAt p (37 + sid) != 0) "the server chose compression" .illegalParameter
  let exts ← helloExts K (p.drop (38 + sid))
  match extOf exts 0x002b with
  | none => serverHello12 K retry (be16 p 0) random sidAt suite exts
  | some version => serverHello13 K retry version sidAt suite exts

/-! ## What the server signs -/

/-- `signed_by`: nothing for a scheme this cannot check. -/
def signedBy (leaf : X509.Cert) (scheme : Nat) (sig h256 h384 : Bytes) (v12 : Bool) : Option Bool :=
  if scheme = 0x0403 ∨ scheme = 0x0503 then
    let wide := scheme = 0x0503
    match leaf.key with
    | .rsa _ _ => some false
    | .ec curve point =>
      if v12 = false ∧ curve ≠ (if wide then .p384 else .p256) then some false
      else
        match X509.x509EcdsaSplit ⟨sig, 0, sig.length⟩ with
        | none => some false
        | some (r, s) => some (K.ecVerify curve point (if wide then h384 else h256) r s)
  else if scheme = 0x0804 then
    match leaf.key with
    | .ec _ _ => some false
    | .rsa n e => some (K.rsaVerifyPss n e sig h256)
  else if scheme = 0x0401 ∨ scheme = 0x0501 then
    if v12 = false then none
    else
      match leaf.key with
      | .ec _ _ => some false
      | .rsa n e => some (K.rsaVerifyPkcs1 n e sig (if scheme = 0x0501 then h384 else h256))
  else none

def certVerifyInput (hashBefore : Bytes) : Bytes :=
  List.replicate 64 0x20 ++ ascii "TLS 1.3, server CertificateVerify" ++ [0] ++ hashBefore

/-- The answer of `signed_by` on a message, or the refusal. -/
def checkSigned (leaf : X509.Cert) (scheme : Nat) (sig signed : Bytes) (v12 : Bool) (wrong : String) :
    Act Session Unit :=
  match signedBy K leaf scheme sig (K.sha256 signed) (K.sha384 signed) v12 with
  | none => refuse K "the server signed with something this cannot check" .illegalParameter
  | some false => refuse K wrong .decryptError
  | some true => pure ()

def checkCertVerify (p : Bytes) (leaf : X509.Cert) (hashBefore : Bytes) : Act Session Unit := do
  refuseIf K (p.length < 4) "the signature message is too short" .decodeError
  refuseIf K (4 + be16 p 2 != p.length) "the signature message is malformed" .decodeError
  checkSigned K leaf (be16 p 0) (p.drop 4) (certVerifyInput hashBefore) false
    "the server's signature over the handshake is wrong"

/-! ## The order of the server's messages -/

/-- `tls_flight_step`: the step after one that took the message, or why it is refused. -/
def tlsFlightStep (step : Nat) (type : UInt8) : Except String Nat :=
  match [HS_ENCRYPTED_EXT, HS_CERTIFICATE, HS_CERT_VERIFY, HS_FINISHED][step]? with
  | none => .error "the server kept talking after its handshake was over"
  | some next =>
    if type = next then .ok (step + 1)
    else if type = HS_FINISHED then .error "the server never proved it holds the certificate's key"
    else .error "the server sent its handshake out of order"

/-! ## The certificates -/

/-- The loop of `read_chain`; a certificate takes at least three bytes. -/
def chainLoop (withExts : Bool) : Nat → Bytes → List Bytes → Act Session (List Bytes)
  | 0, _, ders => return ders
  | left + 1, body, ders =>
    if body.length < 3 ∨ X509.X509_MAX_CHAIN ≤ ders.length then return ders
    else do
      let clen := be24 body 0
      let rest := body.drop 3
      refuseIf K (rest.length < clen) "a certificate runs past the list" .decodeError
      refuseIf K (HS_MAX < (ders.map List.length).sum + clen) "the certificates are too big" .internalError
      let ders := ders ++ [rest.take clen]
      let rest := rest.drop clen
      if withExts then
        if rest.length < 2 then return ders
        else chainLoop withExts left (rest.drop (2 + be16 rest 0)) ders
      else chainLoop withExts left rest ders

def readChain (list : Bytes) (withExts : Bool) : Act Session Unit := do
  let ders ← chainLoop K withExts list.length list []
  refuseIf K (ders == []) "the server sent no certificate" .decodeError
  match X509.x509Parse (ders.headD []) with
  | none => refuse K "the server's certificate could not be read" .badCertificate
  | some leaf => modify fun z => { z with ders, leaf := some leaf }

def x509Reason : X509.Verdict → String
  | .ok => "ok"
  | .badParse => "the certificate could not be read"
  | .badSignature => "a signature in the chain is wrong"
  | .notYetValid => "the certificate is not valid yet"
  | .expired => "the certificate has expired"
  | .untrusted => "no trusted authority signed this"
  | .wrongName => "the certificate is for another site"
  | .notACa => "a certificate in the chain may not sign others"
  | .unsupported => "the certificate uses something unsupported"

def alertForChain : X509.Verdict → Alert
  | .expired | .notYetValid => .certificateExpired
  | .untrusted => .unknownCa
  | _ => .badCertificate

def verifyHost : Act Session Unit := do
  let z ← get
  let r := X509.x509VerifyChain K.toPrims K.roots z.ders z.host K.now
  refuseIf K (r != .ok) (x509Reason r) (alertForChain r)

/-! ## Keys for this connection -/

def draw (n : Nat) : Act Session Bytes := do
  let z ← get
  modify fun z => { z with drawn := z.drawn + 1 }
  return K.rngBytes z.drawn n

/-- `p256_key`: a key, drawn until it is a scalar in range. -/
def p256Key : Nat → Act Session Unit
  | 0 => refuse K "could not make a P-256 key" .internalError
  | tries + 1 => do
    let priv ← draw K 32
    match K.ecPublic .p256 priv with
    | some pub => modify fun z => { z with p256Priv := priv, p256Pub := pub }
    | none => do
      modify fun z => { z with p256Priv := priv }
      p256Key tries

def P256_TRIES : Nat := 16

/-! ## TLS 1.2 -/

inductive Step12
  | wantCert
  | wantKex
  | wantReqOrDone
  | wantDone
  deriving Repr, DecidableEq

structure Kex where
  group : Nat
  peer : Bytes
  asked : Bool
  deriving Repr, DecidableEq

def certificate12 (body : Bytes) : Act Session Unit := do
  refuseIf K (body.length < 3) "the certificate message is malformed" .decodeError
  refuseIf K (3 + be24 body 0 != body.length) "the certificate list is malformed" .decodeError
  readChain K (body.drop 3) false

def shareLen (group : Nat) : Nat :=
  if group = GROUP_X25519 then 32 else if group = GROUP_SECP256R1 then 65 else 0

def suiteFits (suite : Nat) (leaf : X509.Cert) : Bool :=
  match leaf.key with
  | .ec _ _ => suite == SUITE_ECDHE_ECDSA_AES128_GCM
  | .rsa _ _ => suite != SUITE_ECDHE_ECDSA_AES128_GCM

def serverKeyExchange (body : Bytes) : Act Session (Nat × Bytes) := do
  refuseIf K (body.length < 4 || byteAt body 0 != 3) "the server's key exchange is not one this has"
    .handshakeFailure
  let group := be16 body 1
  let plen := (byteAt body 3).toNat
  refuseIf K (shareLen group == 0) "the server chose a key exchange this does not have" .illegalParameter
  let params := 4 + plen
  refuseIf K (plen != shareLen group || body.length < params + 4)
    "the server's key exchange is malformed" .decodeError
  refuseIf K (params + 4 + be16 body (params + 2) != body.length)
    "the server's key exchange is malformed" .decodeError
  let z ← get
  let leaf ← ofOption z.leaf
  refuseIf K (!suiteFits z.suite leaf) "the server's certificate does not fit the cipher it chose"
    .illegalParameter
  checkSigned K leaf (be16 body params) (body.drop (params + 4))
    (z.clientRandom ++ z.serverRandom ++ body.take params) true
    "the server's signature over its key is wrong"
  return (group, (body.drop 4).take plen)

def expect12 (step : Step12) (type : UInt8) : Act Session Unit :=
  match step with
  | .wantCert =>
    refuseIf K (type != HS_CERTIFICATE) "the server sent no certificate" .unexpectedMessage
  | .wantKex =>
    refuseIf K (type != HS_SERVER_KEY_EXCH) "the server sent no key exchange" .unexpectedMessage
  | .wantReqOrDone =>
    refuseIf K (type != HS_CERT_REQUEST && type != HS_SERVER_DONE)
      "the server sent its handshake out of order" .unexpectedMessage
  | .wantDone =>
    refuseIf K (type != HS_SERVER_DONE) "the server sent its handshake out of order" .unexpectedMessage

def read12 (kex : Kex) (m : Msg) : Act Session (Option Step12 × Kex) :=
  if m.type = HS_CERTIFICATE then do
    certificate12 K m.body
    return (some .wantKex, kex)
  else if m.type = HS_SERVER_KEY_EXCH then do
    let (group, peer) ← serverKeyExchange K m.body
    return (some .wantReqOrDone, { kex with group, peer })
  else if m.type = HS_CERT_REQUEST then return (some .wantDone, { kex with asked := true })
  else do
    refuseIf K (m.body.length != 0) "the server's hello done is malformed" .decodeError
    return (none, kex)

def flight12 : Nat → Step12 → Kex → Act Session Kex
  | 0, _, _ => stop
  | left + 1, step, kex => do
    let m ← hsNext K false
    expect12 K step m.type
    let (next, kex) ← read12 K kex m
    hashIn m.whole
    match next with
    | none => return kex
    | some step => flight12 left step kex

def agree12 (kex : Kex) : Act Session (Bytes × Bytes) := do
  modify fun z => { z with group := kex.group }
  if kex.group = GROUP_SECP256R1 then
    p256Key K P256_TRIES
    let z ← get
    let pms ← orRefuse K (ofOption (K.ecAgree .p256 z.p256Priv kex.peer))
      "the server's key share is not usable" .illegalParameter
    return (z.p256Pub, pms)
  else
    let z ← get
    let pms ← orRefuse K (ofOption (K.x25519 z.priv kex.peer))
      "the server's key share is not usable" .illegalParameter
    return (z.pub, pms)

def sendHandshake (msg : Bytes) (why : String) : Act Session Unit := do
  hashIn msg
  note (.sent msg)
  orFail (sendPlainRecord REC_HANDSHAKE msg) why

def sendNoCertificate (asked : Bool) : Act Session Unit :=
  if asked then
    sendHandshake [HS_CERTIFICATE, 0, 0, 3, 0, 0, 0] "could not send the certificate list"
  else pure ()

def keys12 (pms : Bytes) : Act Session Unit := do
  let z ← get
  let made := do
    let master ← if z.ems then K.tls12Prf pms "extended master secret" (transcriptHash K z) 48
      else K.tls12Prf pms "master secret" (z.clientRandom ++ z.serverRandom) 48
    let block ← K.tls12Prf master "key expansion" (z.serverRandom ++ z.clientRandom) 40
    return (master, block)
  let (master, block) ← orRefuse K (ofOption made) "the key schedule failed" .internalError
  modify fun z => { z with
    master, cGcm := block.take 16, sGcm := (block.drop 16).take 16, cIv := (block.drop 32).take 4,
    sIv := (block.drop 36).take 4, cSeq := 0, sSeq := 0, stage := z.stage + 1 }

def verifyData12 (label : String) : Act Session Bytes := do
  let z ← get
  orRefuse K (ofOption (K.tls12Prf z.master label (transcriptHash K z) 12)) "the key schedule failed"
    .internalError

def ourFinished12 : Act Session Unit := do
  orFail (sendPlainRecord REC_CHANGE_CIPHER [1]) "could not send the change of cipher"
  modify fun z => { z with canSeal := true }
  let data ← verifyData12 K "client finished"
  let msg := [HS_FINISHED, 0, 0, 12] ++ data
  hashIn msg
  note (.sent msg)
  orFail (sendEncrypted K REC_HANDSHAKE msg) "could not send the finished message"
  modify fun z => { z with ccsOk := true }

def theirFinished12 : Act Session Unit := do
  let m ← hsNext K false
  let z ← get
  refuseIf K (!z.sSealed || m.type != HS_FINISHED) "the server sent its handshake out of order"
    .unexpectedMessage
  let want ← verifyData12 K "server finished"
  refuseIf K (m.body.length != 12 || want != m.body) "the server's finished message is wrong" .decryptError

def openSession (version : String) : Act Session Unit := modify fun z => { z with
  keysAreApp := true, opened := true, handshakeDone := true, error := "",
  described := version ++ (if z.group = GROUP_SECP256R1 then ", p-256" else ", x25519") ++ ", aes-128-gcm" }

def handshake12 : Act Session Unit := do
  let kex ← flight12 K 4 .wantCert ⟨0, [], false⟩
  verifyHost K
  let (ours, pms) ← agree12 K kex
  sendNoCertificate kex.asked
  sendHandshake (framed HS_CLIENT_KEY_EXCH (UInt8.ofNat ours.length :: ours)) "could not send the key exchange"
  keys12 K pms
  ourFinished12 K
  theirFinished12 K
  openSession "TLS 1.2"

/-! ## TLS 1.3 -/

def certificate13 (body : Bytes) : Act Session Unit := do
  refuseIf K (body.length < 1) "the certificate message is malformed" .decodeError
  let ctx := (byteAt body 0).toNat
  refuseIf K (body.length < 1 + ctx + 3) "the certificate message is malformed" .decodeError
  let list := be24 body (1 + ctx)
  refuseIf K (body.length < 1 + ctx + 3 + list) "the certificate list is malformed" .decodeError
  readChain K ((body.drop (1 + ctx + 3)).take list) true

def finished13 (body : Bytes) : Act Session Unit := do
  let z ← get
  let fkey ← derive K z.sHs "finished" []
  let mac := K.hmacSha256 fkey (transcriptHash K z)
  refuseIf K (body.length != 32 || mac != body) "the server's finished message is wrong" .decryptError

def read13 (m : Msg) : Act Session Unit :=
  if m.type = HS_ENCRYPTED_EXT then pure ()
  else if m.type = HS_CERTIFICATE then certificate13 K m.body
  else if m.type = HS_CERT_VERIFY then do
    let z ← get
    let leaf ← ofOption z.leaf
    checkCertVerify K m.body leaf (transcriptHash K z)
  else finished13 K m.body

def flight13 : Nat → Nat → Act Session Unit
  | 0, _ => stop
  | left + 1, step => do
    let m ← hsNext K true
    match tlsFlightStep step m.type with
    | .error why => refuse K why .unexpectedMessage
    | .ok next => do
      read13 K m
      hashIn m.whole
      if m.type = HS_FINISHED then pure () else flight13 left next

def handshakeKeys13 : Act Session Unit := do
  let z ← get
  let agreed := if z.group = GROUP_SECP256R1 then K.ecAgree .p256 z.p256Priv z.peerShare
    else K.x25519 z.priv z.peerShare
  let shared ← orRefuse K (ofOption agreed) "the server's key share is not usable" .illegalParameter
  let early := K.hkdfExtract [] (List.replicate 32 0)
  let derived ← derive K early "derived" (K.sha256 [])
  let hsSecret := K.hkdfExtract derived shared
  let th := transcriptHash K z
  let cHs ← derive K hsSecret "c hs traffic" th
  let sHs ← derive K hsSecret "s hs traffic" th
  modify fun z => { z with hsSecret, cHs, sHs }
  orRefuse K (setTheirKeys K sHs) "could not set up decryption" .internalError
  orRefuse K (setOurKeys K cHs) "could not set up encryption" .internalError

def finish13 : Act Session Unit := do
  let z ← get
  let th := transcriptHash K z
  let fkey ← derive K z.cHs "finished" []
  let msg := [HS_FINISHED, 0, 0, 32] ++ K.hmacSha256 fkey th
  note (.sent msg)
  orFail (sendEncrypted K REC_HANDSHAKE msg) "could not send the finished message"
  let derived ← derive K z.hsSecret "derived" (K.sha256 [])
  let master := K.hkdfExtract derived (List.replicate 32 0)
  let cApp ← derive K master "c ap traffic" th
  let sApp ← derive K master "s ap traffic" th
  modify fun z => { z with cApp, sApp }
  orRefuse K (setOurKeys K cApp) "could not set up the connection keys" .internalError
  orRefuse K (setTheirKeys K sApp) "could not set up the connection keys" .internalError

def handshake13 : Act Session Unit := do
  handshakeKeys13 K
  flight13 K 4 0
  verifyHost K
  finish13 K
  openSession "TLS 1.3"

/-! ## Connecting -/

def restartKey (group : Nat) : Act Session Unit :=
  if group = GROUP_SECP256R1 then p256Key K P256_TRIES else pure ()

def helloLoop : Nat → Act Session Unit
  | 0 => stop
  | left + 1 => do
    let m ← hsNext K false
    refuseIf K (m.type != HS_SERVER_HELLO) "the server did not answer with a hello" .unexpectedMessage
    let retry ← parseServerHello K m.body
    if retry then
      let z ← get
      refuseIf K z.retried "the server asked to start again twice" .unexpectedMessage
      modify fun z => { z with retried := true }
      transcriptRestart K m.whole
      restartKey K z.group
      sendClientHello
      helloLoop left
    else hashIn m.whole

def keptHost (host : Bytes) : Bytes := (host.takeWhile (· ≠ 0)).take 255

def drawKeys : Act Session Unit := do
  let priv ← draw K 32
  let clientRandom ← draw K 32
  let sessionId ← draw K 32
  modify fun z => { z with
    priv, clientRandom, sessionId, pub := K.x25519Public priv, group := GROUP_X25519, transcript := [] }

def connectOn (host : Bytes) : Act Session Unit := do
  modify fun z => { z with host := keptHost host }
  if keptHost host = [] then failWith "no host name to check a certificate against"
  else if K.rngReady = false then
    failWith "this machine has no source of randomness, so no key can be made"
  else
    drawKeys K
    sendClientHello
    helloLoop K 2
    let z ← get
    if z.v12 then handshake12 K else handshake13 K

/-- `tls_connect`: everything resets but the buffers. -/
def tlsConnect (host : Bytes) : Act Session Unit := do
  modify fun z => { record := z.record, net := z.net, answers := z.answers }
  alloc "not enough memory for a connection"
  connectOn K host

end Crypto

end Zelr.Tls
