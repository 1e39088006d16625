import Zelr.Base.Bytes

/-!
# CCMP

`kernel/ccmp.c`: CCM with an eight byte MIC, and the 802.11 frame around it. The block cipher is a
parameter, so is everything else of `kernel/crypto.c` that the wireless code is built on.
-/

namespace Zelr.Wlan

/-- What `kernel/crypto.c` gives the wireless code. A key stands for its schedule. -/
structure Primitives where
  pbkdf2Sha1 : Bytes → Bytes → Nat → Nat → Bytes
  hmacSha1 : Bytes → Bytes → Bytes
  aesEncryptBlock : Bytes → Bytes → Bytes
  aesUnwrapKey : Bytes → Bytes → Option Bytes

variable (C : Primitives)

/-! ## CCM -/

def xorBytes (a b : Bytes) : Bytes := a.zipWith (· ^^^ ·) b

def blocks : Nat → Bytes → List Bytes
  | 0, _ => []
  | n + 1, m => (m.take 16 ++ List.replicate (16 - m.length) 0) :: blocks n (m.drop 16)

def blockCount (len : Nat) : Nat := (len + 15) / 16

def len16 (n : Nat) : Bytes := beBytes 2 n

def ccmMac (a nonce aad msg : Bytes) : Bytes :=
  let b0 := (if aad.length ≠ 0 then 0x40 else 0) ||| 0x19
  let x := C.aesEncryptBlock a (b0 :: nonce ++ len16 msg.length)
  let mix := fun x b => C.aesEncryptBlock a (xorBytes b x)
  let head := len16 aad.length ++ aad
  let x := if aad.length ≠ 0 then (blocks (blockCount head.length) head).foldl mix x else x
  (blocks (blockCount msg.length) msg).foldl mix x

/-- Counter block `i`. -/
def ccmCtr (a nonce : Bytes) (i : Nat) : Bytes :=
  C.aesEncryptBlock a (1 :: nonce ++ len16 i)

/-- Sixteen bytes at a time against counter block `i` and the ones after it. -/
def cryptFrom (a nonce : Bytes) : Nat → Nat → Bytes → Bytes
  | 0, _, _ => []
  | n + 1, i, m => xorBytes (m.take 16) (ccmCtr C a nonce i) ++ cryptFrom a nonce n (i + 1) (m.drop 16)

def ccmCrypt (a nonce m : Bytes) : Bytes := cryptFrom C a nonce (blockCount m.length) 1 m

def CCMP_HDR_LEN : Nat := 8
def CCMP_MIC_LEN : Nat := 8

def ccmEncrypt (a nonce aad m : Bytes) : Bytes × Bytes :=
  (ccmCrypt C a nonce m,
    (xorBytes (ccmMac C a nonce aad m) (ccmCtr C a nonce 0)).take CCMP_MIC_LEN)

def ccmDecrypt (a nonce aad c mic : Bytes) : Option Bytes :=
  let m := ccmCrypt C a nonce c
  if mic = (xorBytes (ccmMac C a nonce aad m) (ccmCtr C a nonce 0)).take CCMP_MIC_LEN then some m else none

/-! ## The frame -/

/-- Bits of the frame control: the type, whether there is a QoS field, both DS bits. -/
def frameType (f : Bytes) : UInt8 := (byteAt f 0 >>> 2) &&& 3
def toFromDs (f : Bytes) : Bool := byteAt f 1 &&& 3 = 3
def isProtected (f : Bytes) : Bool := byteAt f 1 &&& 0x40 ≠ 0

/-- How long the header is, 0 for something too short to be one. -/
def ccmpHdrLen (f : Bytes) : Nat :=
  if f.length < 24 then 0
  else
    let n := if frameType f = 2 then
        24 + (if toFromDs f then 6 else 0) + (if (byteAt f 0 >>> 4) &&& 8 ≠ 0 then 2 else 0)
      else 24
    if n ≤ f.length then n else 0

def slice (f : Bytes) (off len : Nat) : Bytes := (f.drop off).take len

def pnBytes (pn : Nat) : Bytes := beBytes 6 pn

def ccmpAadNonce (h : Bytes) (hdrLen pn : Nat) : Bytes × Bytes :=
  let data := frameType h = 2
  let qos : Bool := data ∧ byteAt h 0 &&& 0x80 ≠ 0
  let a4 : Bool := data ∧ toFromDs h
  let fc0 := if data then byteAt h 0 &&& 0x8F else byteAt h 0
  let fc1 := (byteAt h 1 &&& 0xC7) ||| 0x40
  let fc1 := if qos then fc1 &&& 0x7F else fc1
  let addr4 := if a4 then slice h 24 6 else []
  let hasTid : Bool := qos ∧ hdrLen ≥ (if a4 then 32 else 26)
  let tid := if hasTid then byteAt h (if a4 then 30 else 24) &&& 0x0F else 0
  (fc0 :: fc1 :: slice h 4 18 ++ [byteAt h 22 &&& 0x0F, 0] ++ addr4 ++ (if hasTid then [tid, 0] else []),
    (tid ||| (if frameType h = 0 then 0x10 else 0)) :: slice h 10 6 ++ pnBytes pn)

def ccmpHeader (pn keyId : Nat) : Bytes :=
  [UInt8.ofNat pn, UInt8.ofNat (pn / 2 ^ 8), 0, (0x20 : UInt8) ||| (UInt8.ofNat (keyId % 4) <<< 6),
    UInt8.ofNat (pn / 2 ^ 16), UInt8.ofNat (pn / 2 ^ 24), UInt8.ofNat (pn / 2 ^ 32), UInt8.ofNat (pn / 2 ^ 40)]

def ccmpEncrypt (tk : Bytes) (pn keyId : Nat) (hdr body : Bytes) : Bytes :=
  let h := put hdr 1 [byteAt hdr 1 ||| 0x40]
  let (aad, nonce) := ccmpAadNonce h hdr.length pn
  let (c, mic) := ccmEncrypt C tk nonce aad body
  h ++ ccmpHeader pn keyId ++ c ++ mic

/-- The packet number in the CCMP header behind `hdr_len` bytes. -/
def packetNumber (f : Bytes) (hdrLen : Nat) : Nat :=
  let ch := f.drop hdrLen
  beNat [byteAt ch 7, byteAt ch 6, byteAt ch 5, byteAt ch 4, byteAt ch 1, byteAt ch 0]

def ccmpDecrypt (tk f : Bytes) (hdrLen : Nat) : Option (Bytes × Nat) :=
  if f.length < hdrLen + CCMP_HDR_LEN + CCMP_MIC_LEN ∨ !isProtected f then none
  else if byteAt f (hdrLen + 3) &&& 0x20 = 0 then none
  else
    let p := packetNumber f hdrLen
    let (aad, nonce) := ccmpAadNonce f hdrLen p
    let n := f.length - hdrLen - CCMP_HDR_LEN - CCMP_MIC_LEN
    let c := slice f (hdrLen + CCMP_HDR_LEN) n
    (ccmDecrypt C tk nonce aad c (slice f (f.length - CCMP_MIC_LEN) CCMP_MIC_LEN)).map fun m => (m, p)

theorem ccmpDecrypt_pn {tk f m : Bytes} {hdrLen p : Nat} (h : ccmpDecrypt C tk f hdrLen = some (m, p)) :
    p = packetNumber f hdrLen := by
  simp only [ccmpDecrypt] at h
  split at h
  · cases h
  · split at h
    · cases h
    · simp only [Option.map_eq_some_iff, Prod.mk.injEq] at h
      obtain ⟨_, _, _, rfl⟩ := h
      rfl

/-!
## The key arithmetic of a protected network

`kernel/wpa.c`: the keys out of the password, both ends' addresses and their nonces, and the
signature on a message of the handshake.
-/

def PMK_LEN : Nat := 32
def PTK_LEN : Nat := 48
def KCK_LEN : Nat := 16
def KEK_LEN : Nat := 16
def TK_LEN : Nat := 16
def NONCE_LEN : Nat := 32
def MIC_LEN : Nat := 16
def SHA1_SIZE : Nat := 20
def EAPOL_MIC_OFFSET : Nat := 81
def EAPOL_MIN_LEN : Nat := 99

def wpaPmk (passphrase ssid : Bytes) : Bytes := C.pbkdf2Sha1 passphrase ssid 4096 PMK_LEN

/-- The blocks of the expansion from one counter on, until there are `out_len` bytes. -/
def prfFrom (key label data : Bytes) : Nat → UInt8 → Nat → Bytes
  | 0, _, _ => []
  | n + 1, counter, outLen =>
    if outLen = 0 then []
    else
      let block := C.hmacSha1 key (label ++ [0] ++ data ++ [counter])
      let take := min outLen SHA1_SIZE
      block.take take ++ prfFrom key label data n (counter + 1) (outLen - take)

def wpaPrf (key label data : Bytes) (outLen : Nat) : Bytes := prfFrom C key label data outLen 0 outLen

/-- `memcmp` of two runs of one length: whether the first is not the larger. -/
def notAbove : Bytes → Bytes → Bool
  | a :: as, b :: bs => if a = b then notAbove as bs else a < b
  | _, _ => true

def appendOrdered (a b : Bytes) : Bytes := if notAbove a b then a ++ b else b ++ a

def wpaPtk (pmk aa spa anonce snonce : Bytes) : Bytes :=
  wpaPrf C pmk (ascii "Pairwise key expansion") (appendOrdered aa spa ++ appendOrdered anonce snonce) PTK_LEN

/-! The three keys a PTK is, end to end. -/

def kckOf (ptk : Bytes) : Bytes := ptk.take KCK_LEN
def kekOf (ptk : Bytes) : Bytes := slice ptk KCK_LEN KEK_LEN
def tkOf (ptk : Bytes) : Bytes := slice ptk (KCK_LEN + KEK_LEN) TK_LEN

/-! ## Signing a message -/

def micOf (kck frame : Bytes) : Bytes :=
  let copy := frame.take 256
  let copy := if copy.length ≥ EAPOL_MIC_OFFSET + MIC_LEN then put copy EAPOL_MIC_OFFSET (List.replicate MIC_LEN 0) else copy
  (C.hmacSha1 kck copy).take MIC_LEN

def wpaCheckMic (kck frame : Bytes) : Bool :=
  frame.length ≥ EAPOL_MIN_LEN ∧ micOf C kck frame = slice frame EAPOL_MIC_OFFSET MIC_LEN

def wpaSign (kck frame : Bytes) : Bytes :=
  if frame.length < EAPOL_MIN_LEN then frame else put frame EAPOL_MIC_OFFSET (micOf C kck frame)

def wpaUnwrapGtk (kek wrapped : Bytes) : Option Bytes :=
  if wrapped.length < 24 ∨ wrapped.length % 8 ≠ 0 then none
  else if wrapped.length > 128 then none
  else C.aesUnwrapKey kek wrapped

end Zelr.Wlan
