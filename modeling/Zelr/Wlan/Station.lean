import Zelr.Wlan.Wpa

/-!
# The station

`kernel/wlan.c`: a station moved on by the frames its radio hears, by time and by who asks it to
join, to leave or to send. The lists at the end of the state are not the kernel's: they write down
what the station did.
-/

namespace Zelr.Wlan

/-! ## What is known -/

inductive State where
  | idle | scanning | auth | assoc | handshake | connected | failed
  deriving DecidableEq, Repr

/-- How a network is protected: not at all, as this does it, in another way. -/
inductive Secure where
  | unprotected | psk | other
  deriving DecidableEq, Repr

structure Bss where
  bssid : Bytes
  ssid : Bytes
  channel : Nat
  signal : Int
  secure : Secure
  rsn : Bytes
  deriving DecidableEq, Repr

def Bss.zero : Bss := ⟨List.replicate 6 0, [], 0, 0, .unprotected, []⟩

def WLAN_SSID_MAX : Nat := 32
def WLAN_BSS_MAX : Nat := 16
def WLAN_RETRY_POLLS : Nat := 20
def WLAN_TRIES : Nat := 4
def WLAN_HANDSHAKE_POLLS : Nat := 300
def WLAN_DWELL : Nat := 12

def OUI : Bytes := [0x00, 0x0F, 0xAC]

def OUR_RSN : Bytes :=
  [0x30, 20, 1, 0, 0x00, 0x0F, 0xAC, 4, 1, 0, 0x00, 0x0F, 0xAC, 4, 1, 0, 0x00, 0x0F, 0xAC, 2, 0, 0]

structure Station where
  /-- The radio's address, when one is attached. -/
  radio : Option Bytes
  state : State
  why : String
  bss : List Bss
  dropped : Nat
  rxCount : Nat
  txCount : Nat
  cur : Bss
  pmk : Bytes
  ptk : Bytes
  tkAes : Bytes
  gtkAes : Bytes
  keysIn : Bool
  groupIn : Bool
  anonce : Bytes
  snonce : Bytes
  replaySeen : Nat
  haveReplay : Bool
  txPn : Nat
  rxPn : Fin 16 → Nat
  rxGpn : Nat
  seq : Nat
  timer : Nat
  tries : Nat
  scanCh : Nat
  scanDwell : Nat
  /-- How many nonces were drawn. -/
  draws : Nat
  /-- Frames given to the radio, Ethernet frames given to the network stack. -/
  air : List Bytes
  up : List Bytes
  /-- The station's nonce and the temporal key of each handshake begun. -/
  handshakes : List (Bytes × Bytes)
  /-- The key and the packet number of each call of `ccmp_encrypt`. -/
  sealed : List (Bytes × Nat)
  /-- Each protected frame decrypted and passed on, and the key it was decrypted under. -/
  passed : List (Bytes × Bytes)

def Station.zero : Station where
  radio := none
  state := .idle
  why := "not joined"
  bss := []
  dropped := 0
  rxCount := 0
  txCount := 0
  cur := Bss.zero
  pmk := List.replicate PMK_LEN 0
  ptk := List.replicate PTK_LEN 0
  tkAes := []
  gtkAes := []
  keysIn := false
  groupIn := false
  anonce := List.replicate NONCE_LEN 0
  snonce := List.replicate NONCE_LEN 0
  replaySeen := 0
  haveReplay := false
  txPn := 0
  rxPn := fun _ => 0
  rxGpn := 0
  seq := 0
  timer := 0
  tries := 0
  scanCh := 0
  scanDwell := 0
  draws := 0
  air := []
  up := []
  handshakes := []
  sealed := []
  passed := []

-- `rng` is the source of nonces: what the `n`th draw gives.
variable (C : Primitives) (rng : Nat → Bytes)

def Station.mac (st : Station) : Bytes := st.radio.getD (List.replicate 6 0)

def fail (st : Station) (w : String) : Station :=
  { st with state := .failed, why := w, keysIn := false, groupIn := false }

def drop (st : Station) : Station := { st with dropped := st.dropped + 1 }

def wlanAttach (st : Station) (r : Option Bytes) : Station :=
  { st with
    radio := r, state := .idle, why := "not joined", bss := [], keysIn := false, groupIn := false
    dropped := 0 }

/-! ## Frames out -/

def tx (st : Station) (f : Bytes) : Station := { st with air := st.air ++ [f] }

def seqBytes (st : Station) : Bytes := [UInt8.ofNat (st.seq * 16), UInt8.ofNat (st.seq / 16)]

def nextSeq (st : Station) : Station := { st with seq := (st.seq + 1) % 0x1000 }

def mgmtHead (st : Station) (subtype : UInt8) (da bssid : Bytes) : Bytes :=
  [subtype <<< 4, 0, 0, 0] ++ da ++ st.mac ++ bssid ++ seqBytes st

def putIe (id : UInt8) (data : Bytes) : Bytes := id :: UInt8.ofNat data.length :: data

def putRates : Bytes :=
  putIe 1 [0x82, 0x84, 0x8B, 0x96, 0x0C, 0x12, 0x18, 0x24] ++ putIe 50 [0x30, 0x48, 0x60, 0x6C]

def sendProbe (st : Station) : Station :=
  let bcast := List.replicate 6 0xFF
  tx (nextSeq st) (mgmtHead st 4 bcast bcast ++ putIe 0 [] ++ putRates)

def sendAuth (st : Station) : Station :=
  tx (nextSeq st) (mgmtHead st 11 st.cur.bssid st.cur.bssid ++ [0, 0, 1, 0, 0, 0])

def sendAssoc (st : Station) : Station :=
  let protect : Bool := st.cur.secure ≠ .unprotected
  let cap := 0x01 ||| (if protect then 0x10 else 0)
  tx (nextSeq st) (mgmtHead st 0 st.cur.bssid st.cur.bssid ++ [cap, 0, 10, 0] ++ putIe 0 st.cur.ssid ++ putRates
    ++ (if protect then OUR_RSN else []))

def BODY_MAX : Nat := 1600

def dataHeader (st : Station) (da : Bytes) : Bytes :=
  [0x08, 0x01, 0, 0] ++ st.cur.bssid ++ st.mac ++ da ++ seqBytes st

def llcBody (type : UInt16) (payload : Bytes) : Bytes :=
  ([0xAA, 0xAA, 0x03, 0, 0, 0, (type >>> 8).toUInt8, type.toUInt8] : Bytes) ++ payload

def sendData (st : Station) (da : Bytes) (type : UInt16) (payload : Bytes) (plain : Bool) : Station × Bool :=
  if (payload.length + 8) % 2 ^ 32 > BODY_MAX then (st, false)
  else
    let h := dataHeader st da
    let body := llcBody type payload
    let st := nextSeq st
    if st.keysIn && !plain then
      let pn := (st.txPn + 1) % 2 ^ 64
      let f := ccmpEncrypt C st.tkAes pn 0 h body
      (tx { st with txPn := pn, sealed := st.sealed ++ [(st.tkAes, pn)] } f, true)
    else (tx st (h ++ body), true)

def wlanSendEth (st : Station) (eth : Bytes) : Station × Bool :=
  if st.state ≠ .connected ∨ eth.length < 14 then (st, false)
  else
    let st := { st with txCount := st.txCount + 1 }
    sendData C st (eth.take 6) ((byteAt eth 12).toUInt16 <<< 8 ||| (byteAt eth 13).toUInt16) (eth.drop 14) false

/-! ## Finding networks -/

def elements : Nat → Bytes → List Bytes
  | n + 1, id :: len :: rest =>
    if len.toNat ≤ rest.length then
      (id :: len :: rest.take len.toNat) :: elements n (rest.drop len.toNat)
    else []
  | _, _ => []

def elementsOf (l : Bytes) : List Bytes := elements l.length l

/-- Whether one of `n` suites from `p` on, before `stop`, is the OUI's of this kind; and where they end. -/
def suites (ie : Bytes) (stop : Nat) (kind : UInt8) : Nat → Nat → Bool × Nat
  | 0, p => (false, p)
  | n + 1, p =>
    if p + 4 ≤ stop then
      let (found, q) := suites ie stop kind n (p + 4)
      (found || (slice ie p 3 = OUI && byteAt ie (p + 3) = kind), q)
    else (false, p)

def le16 (b : Bytes) (p : Nat) : Nat := (byteAt b p).toNat + (byteAt b (p + 1)).toNat * 256

def rsnOurs (ie : Bytes) : Bool :=
  if ie.length < 20 then false
  else
    let stop := 2 + (byteAt ie 1).toNat
    if byteAt ie 2 ≠ 1 ∨ byteAt ie 3 ≠ 0 then false
    else if slice ie 4 3 ≠ OUI ∨ byteAt ie 7 ≠ 4 then false
    else
      let (ccmp, p) := suites ie stop 4 (le16 ie 8) 10
      if !ccmp || p + 2 > stop then false
      else (suites ie stop 2 (le16 ie p) (p + 2)).1

def heardElement (b : Bss) (el : Bytes) : Bss :=
  let id := byteAt el 0
  let v := el.drop 2
  if id = 0 ∧ v.length ≤ WLAN_SSID_MAX then { b with ssid := v.takeWhile (· ≠ 0) }
  else if id = 3 ∧ v.length ≥ 1 then { b with channel := (byteAt v 0).toNat }
  else if id = 48 ∧ el.length ≤ 64 then { b with rsn := el }
  else b

def bssOf (f : Bytes) (signal : Int) : Bss :=
  let b := (elementsOf (f.drop 36)).foldl heardElement { Bss.zero with bssid := slice f 16 6, signal := signal }
  let privacy := byteAt f 34 &&& 0x10 ≠ 0
  { b with
    secure := if ¬privacy then .unprotected else if b.rsn ≠ [] ∧ rsnOurs b.rsn then .psk else .other }

def keepBss : List Bss → Bss → List Bss
  | [], b => [b]
  | a :: as, b => if a.bssid = b.bssid then b :: as else a :: keepBss as b

def heardBss (st : Station) (f : Bytes) (signal : Int) : Station :=
  if f.length < 36 then st
  else
    let b := bssOf f signal
    if b.ssid = [] then st
    else if (st.bss.any fun a => a.bssid = b.bssid) ∨ st.bss.length < WLAN_BSS_MAX then
      { st with bss := keepBss st.bss b }
    else st

def wlanScan (st : Station) : Station :=
  if st.radio = none then st
  else
    sendProbe { st with bss := [], state := .scanning, why := "looking for networks", scanCh := 1, scanDwell := 0 }

/-! ## Joining -/

def loudest (ssid : Bytes) (l : List Bss) : Option Bss :=
  l.foldl (fun k b =>
    if b.ssid = ssid then
      match k with
      | none => some b
      | some a => if b.signal > a.signal then some b else some a
    else k) none

def wlanJoin (st : Station) (ssid : Bytes) (passphrase : Option Bytes) : Station × Bool :=
  if st.radio = none then (st, false)
  else
    match loudest ssid st.bss with
    | none => ({ st with why := "no such network was heard" }, false)
    | some b =>
      if b.secure = .other then
        ({ st with why := "that network is protected in a way this does not do" }, false)
      else
        (sendAuth { st with
          cur := b, keysIn := false, groupIn := false, haveReplay := false, txPn := 0, rxPn := fun _ => 0, rxGpn := 0
          pmk := if b.secure = .psk then wpaPmk C (passphrase.getD []) b.ssid else st.pmk
          state := .auth, why := "joining", timer := 0, tries := 1 }, true)

def wlanLeave (st : Station) : Station :=
  let st := if st.radio ≠ none ∧ (st.state = .connected ∨ st.state = .handshake ∨ st.state = .assoc) then
      tx (nextSeq st) (mgmtHead st 12 st.cur.bssid st.cur.bssid ++ [3, 0])
    else st
  { st with state := .idle, why := "not joined", keysIn := false, groupIn := false }

/-! ## The handshake -/

def keyInfo (e : Bytes) : UInt16 := (byteAt e 5).toUInt16 <<< 8 ||| (byteAt e 6).toUInt16
def keyReplay (e : Bytes) : Nat := beNat (slice e 9 8)

def KI_VERSION : UInt16 := 2
def KI_PAIRWISE : UInt16 := 0x0008
def KI_ACK : UInt16 := 0x0080
def KI_MIC : UInt16 := 0x0100
def KI_SECURE : UInt16 := 0x0200
def KI_ENCRYPTED : UInt16 := 0x1000

def keyFrame (info : UInt16) (replay : Nat) (nonce data : Bytes) : Bytes :=
  ([2, 3] : Bytes) ++ len16 (EAPOL_MIN_LEN + data.length - 4)
    ++ ([2, (info >>> 8).toUInt8, info.toUInt8, 0, 0] : Bytes) ++ beBytes 8 replay
    ++ nonce ++ List.replicate 48 0 ++ len16 data.length ++ data

def noNonce : Bytes := List.replicate NONCE_LEN 0

def sendKey (st : Station) (info : UInt16) (replay : Nat) (nonce data : Bytes) : Station :=
  (sendData C st st.cur.bssid 0x888E (wpaSign C (kckOf st.ptk) (keyFrame info replay nonce data)) true).1

def keyMsg1 (st : Station) (e : Bytes) : Station :=
  let anonce := slice e 17 NONCE_LEN
  let snonce := rng st.draws
  let ptk := wpaPtk C st.pmk st.cur.bssid st.mac anonce snonce
  let st := { st with
    anonce := anonce, snonce := snonce, ptk := ptk, replaySeen := keyReplay e, haveReplay := true
    draws := st.draws + 1, handshakes := st.handshakes ++ [(snonce, tkOf ptk)] }
  { sendKey C st (KI_VERSION ||| KI_PAIRWISE ||| KI_MIC) (keyReplay e) snonce OUR_RSN with timer := 0 }

def keyData (e : Bytes) : Option Bytes :=
  let dlen := (byteAt e 97).toNat * 256 + (byteAt e 98).toNat
  if EAPOL_MIN_LEN + dlen > e.length ∨ dlen > 256 then none else some (slice e 99 dlen)

def isGtk (el : Bytes) : Bool := byteAt el 0 = 0xDD && slice el 2 3 = OUI && byteAt el 5 = 1

/-- What the third message's elements have said so far. -/
structure Offer where
  rsnSame : Bool
  gtk : Bytes

def offerElement (rsn : Bytes) (o : Offer) (el : Bytes) : Offer :=
  if byteAt el 0 = 48 then { o with rsnSame := el = rsn }
  else if isGtk el ∧ 6 ≤ (byteAt el 1).toNat ∧ (byteAt el 1).toNat ≤ 38 then { o with gtk := el.drop 8 }
  else o

def isPadding (el : Bytes) : Bool := byteAt el 0 = 0xDD && byteAt el 1 = 0

def offerOf (rsn data : Bytes) : Offer :=
  ((elementsOf data).takeWhile fun el => !isPadding el).foldl (offerElement rsn) ⟨false, []⟩

/-- What comes of a third message: nothing, the end of joining, or the group key to put in. -/
inductive Verdict where
  | dropped
  | failed (w : String)
  | taken (gtk : Bytes)
  deriving DecidableEq, Repr

def msg3Verdict (st : Station) (e : Bytes) : Verdict :=
  if !st.haveReplay ∨ keyReplay e ≤ st.replaySeen then .dropped
  else if slice e 17 NONCE_LEN ≠ st.anonce then .dropped
  else if !wpaCheckMic C (kckOf st.ptk) e then .dropped
  else
    match if keyInfo e &&& KI_ENCRYPTED = 0 then none else keyData e with
    | none => .failed "the network's third message was not as it should be"
    | some wrapped =>
      match wpaUnwrapGtk C (kekOf st.ptk) wrapped with
      | none => .failed "the network's group key would not come out"
      | some data =>
        let o := offerOf st.cur.rsn data
        if !o.rsnSame then .failed "the network's handshake did not offer what its beacon did"
        else if o.gtk.length ≠ 16 then .failed "the network sent no group key this can use"
        else .taken o.gtk

def install (st : Station) (gtk : Bytes) : Station :=
  { st with
    tkAes := tkOf st.ptk, gtkAes := gtk, keysIn := true, groupIn := true, state := .connected, why := "joined" }

def keyMsg3 (st : Station) (e : Bytes) : Station :=
  match msg3Verdict C st e with
  | .dropped => drop st
  | .failed w => fail st w
  | .taken gtk =>
    let st := { st with replaySeen := keyReplay e }
    install (sendKey C st (KI_VERSION ||| KI_PAIRWISE ||| KI_MIC ||| KI_SECURE) (keyReplay e) noNonce []) gtk

def groupData (st : Station) (e : Bytes) : Option Bytes :=
  if keyReplay e ≤ st.replaySeen ∨ !wpaCheckMic C (kckOf st.ptk) e then none
  else (keyData e).bind (wpaUnwrapGtk C (kekOf st.ptk))

def groupElement (st : Station) (el : Bytes) : Station :=
  if isGtk el ∧ byteAt el 1 = 22 then { st with gtkAes := slice el 8 16, rxGpn := 0 } else st

def keyGroup (st : Station) (e : Bytes) : Station :=
  match groupData C st e with
  | none => drop st
  | some data =>
    let st := (elementsOf data).foldl groupElement st
    let st := { st with replaySeen := keyReplay e }
    sendKey C st (KI_VERSION ||| KI_MIC ||| KI_SECURE) (keyReplay e) noNonce []

/-- Which of the handshake's messages an EAPOL frame is, in the state the station is in. -/
inductive KeyMessage where
  | first | third | group
  deriving DecidableEq, Repr

def keyMessage (st : Station) (e : Bytes) : Option KeyMessage :=
  if e.length < EAPOL_MIN_LEN ∨ byteAt e 1 ≠ 3 ∨ byteAt e 4 ≠ 2 then none
  else
    let info := keyInfo e
    if info &&& 7 ≠ KI_VERSION ∨ info &&& KI_ACK = 0 then none
    else if info &&& KI_PAIRWISE ≠ 0 then
      if info &&& KI_MIC = 0 then
        if st.state = .handshake ∨ st.state = .connected then some .first else none
      else if st.state = .handshake then some .third else none
    else if st.state = .connected ∧ info &&& KI_MIC ≠ 0 then some .group else none

def eapol (st : Station) (e : Bytes) : Station :=
  match keyMessage st e with
  | none => st
  | some .first => keyMsg1 C rng st e
  | some .third => keyMsg3 C st e
  | some .group => keyGroup C st e

/-! ## Frames in -/

def reason (code : Nat) : String :=
  match code with
  | 2 => "the network no longer knew us"
  | 3 => "the network sent us away: it is going down"
  | 4 => "the network let us go for being quiet"
  | 6 | 7 => "the network did not expect what we sent"
  | 8 => "the network says we left"
  | 15 => "the network gave up on the handshake: the password is not the network's"
  | 23 => "the network refused the keys"
  | _ => "the network let us go"

def isGroup (f : Bytes) : Bool := byteAt f 4 &&& 1 ≠ 0
def tidOf (f : Bytes) : Fin 16 :=
  if byteAt f 0 &&& 0x80 ≠ 0 then Fin.ofNat 16 (byteAt f (ccmpHdrLen f - 2)).toNat else 0

def rxKey (st : Station) (f : Bytes) : Bytes := if isGroup f then st.gtkAes else st.tkAes
def rxIn (st : Station) (f : Bytes) : Bool := if isGroup f then st.groupIn else st.keysIn
def lastPn (st : Station) (f : Bytes) : Nat := if isGroup f then st.rxGpn else st.rxPn (tidOf f)

def pass (st : Station) (f : Bytes) (pn : Nat) : Station :=
  let st := { st with passed := st.passed ++ [(rxKey st f, f)] }
  if isGroup f then { st with rxGpn := pn } else { st with rxPn := Function.update st.rxPn (tidOf f) pn }

def openFrame (st : Station) (f : Bytes) : Station × Option Bytes :=
  if !isProtected f then (st, some (f.drop (ccmpHdrLen f)))
  else if !rxIn st f then (drop st, none)
  else
    match ccmpDecrypt C (rxKey st f) f (ccmpHdrLen f) with
    | none => (drop st, none)
    | some (body, pn) => if pn ≤ lastPn st f then (drop st, none) else (pass st f pn, some body)

def llcType (body : Bytes) : Option UInt16 :=
  if body.length < 8 ∨ body.take 3 ≠ [0xAA, 0xAA, 0x03] then none
  else some ((byteAt body 6).toUInt16 <<< 8 ||| (byteAt body 7).toUInt16)

def bodyIn (st : Station) (f body : Bytes) : Station :=
  match llcType body with
  | none => st
  | some type =>
    if type = 0x888E then eapol C rng st (body.drop 8)
    else if !isProtected f && st.keysIn then drop st
    else if st.state ≠ .connected then st
    else { st with rxCount := st.rxCount + 1, up := st.up ++ [slice f 4 6 ++ slice f 16 6 ++ body.drop 6] }

def fromOurs (st : Station) (f : Bytes) : Bool :=
  ccmpHdrLen f ≠ 0 && byteAt f 1 &&& 3 = 2 && slice f 10 6 = st.cur.bssid

def dataIn (st : Station) (f : Bytes) : Station :=
  if fromOurs st f then
    match openFrame C st f with
    | (st, none) => st
    | (st, some body) => bodyIn C rng st f body
  else st

def mgmtIn (st : Station) (f : Bytes) (signal : Int) : Station :=
  let toUs : Bool := slice f 4 6 = st.mac
  let fromCur : Bool := slice f 10 6 = st.cur.bssid
  match (byteAt f 0 >>> 4).toNat with
  | 8 | 5 => heardBss st f signal
  | 11 =>
    if st.state = .auth ∧ toUs ∧ fromCur ∧ f.length ≥ 30 ∧ byteAt f 26 = 2 then
      if le16 f 28 ≠ 0 then fail st "the network would not let us in"
      else sendAssoc { st with state := .assoc, timer := 0, tries := 1 }
    else st
  | 1 =>
    if st.state = .assoc ∧ toUs ∧ fromCur ∧ f.length ≥ 30 then
      if le16 f 26 ≠ 0 then fail st "the network would not take us"
      else if st.cur.secure ≠ .unprotected then { st with timer := 0, state := .handshake, why := "agreeing on keys" }
      else { st with timer := 0, state := .connected, why := "joined" }
    else st
  | 10 | 12 =>
    if toUs ∧ fromCur ∧ f.length ≥ 26 ∧ st.state ≠ .idle ∧ st.state ≠ .scanning then fail st (reason (le16 f 24))
    else st
  | _ => st

def wlanRx (st : Station) (f : Bytes) (signal : Int) : Station :=
  if st.radio = none ∨ f.length < 24 then st
  else if frameType f = 2 then dataIn C rng st f
  else if frameType f = 0 then mgmtIn st f signal
  else st

/-! ## Time -/

def wlanPoll (st : Station) : Station :=
  if st.radio = none then st
  else
    let st := { st with timer := st.timer + 1 }
    match st.state with
    | .scanning =>
      let st := { st with scanDwell := st.scanDwell + 1 }
      if st.scanDwell < WLAN_DWELL then st
      else
        let st := { st with scanDwell := 0, scanCh := st.scanCh + 1 }
        if st.scanCh > 13 then { st with state := .idle, why := "not joined" } else sendProbe st
    | .auth =>
      if st.timer < WLAN_RETRY_POLLS then st
      else if st.tries + 1 > WLAN_TRIES then fail { st with tries := st.tries + 1 } "the network did not answer"
      else sendAuth { st with tries := st.tries + 1, timer := 0 }
    | .assoc =>
      if st.timer < WLAN_RETRY_POLLS then st
      else if st.tries + 1 > WLAN_TRIES then fail { st with tries := st.tries + 1 } "the network did not take us"
      else sendAssoc { st with tries := st.tries + 1, timer := 0 }
    | .handshake =>
      if st.timer > WLAN_HANDSHAKE_POLLS then
        fail st "the network did not finish agreeing on keys: a wrong password looks like this"
      else st
    | _ => st

/-! ## Runs -/

inductive Op where
  | attach (r : Option Bytes)
  | scan
  | join (ssid : Bytes) (passphrase : Option Bytes)
  | leave
  | rx (f : Bytes) (signal : Int)
  | poll
  | send (eth : Bytes)
  deriving DecidableEq, Repr

def step (st : Station) : Op → Station
  | .attach r => wlanAttach st r
  | .scan => wlanScan st
  | .join ssid passphrase => (wlanJoin C st ssid passphrase).1
  | .leave => wlanLeave st
  | .rx f signal => wlanRx C rng st f signal
  | .poll => wlanPoll st
  | .send eth => (wlanSendEth C st eth).1

def run (st : Station) (ops : List Op) : Station := ops.foldl (step C rng) st

end Zelr.Wlan
