import Zelr.Base.Bytes

/-!
# The DER reader

`der_t` is a pointer and an end; here it is the buffer with two offsets, so that what a reader
hands out is a slice of the buffer it was given.
-/

namespace Zelr.X509

variable {d d' : Der} {tag : UInt8} {c : Slice} {host : Bytes}

structure Der where
  buf : Bytes
  p : Nat
  stop : Nat
  deriving Repr, DecidableEq

def derInit (s : Slice) : Der := ⟨s.buf, s.off, s.off + s.len⟩

def derDone (d : Der) : Bool := d.stop ≤ d.p

/-- The content of `n` bytes at `p`, once the header has been read. -/
def derTake (d : Der) (tag : UInt8) (p n : Nat) : Option (UInt8 × Slice × Der) :=
  if d.stop - p < n then none
  else some (tag, ⟨d.buf, p, n⟩, { d with p := p + n })

/-- One element: its tag, its content, and the reader on the element after it. -/
def derRead (d : Der) : Option (UInt8 × Slice × Der) :=
  if d.stop - d.p < 2 then none
  else
    let tag := byteAt d.buf d.p
    let n := (byteAt d.buf (d.p + 1)).toNat
    let p := d.p + 2
    if n = 0x80 then none
    else if n &&& 0x80 ≠ 0 then
      let count := n &&& 0x7f
      if 4 < count then none
      else if d.stop - p < count then none
      else
        let n := beNat (Slice.bytes ⟨d.buf, p, count⟩)
        -- Only a length of one byte is checked for being written too long.
        if count = 1 ∧ n < 0x80 then none
        else derTake d tag (p + count) n
    else derTake d tag p n

def derExpect (d : Der) (want : UInt8) : Option (Slice × Der) :=
  match derRead d with
  | none => none
  | some (tag, c, d') => if tag = want then some (c, d') else none

def derEnter (d : Der) (want : UInt8) : Option (Der × Der) :=
  match derExpect d want with
  | none => none
  | some (c, d') => some (derInit c, d')

def DER_BOOL : UInt8 := 0x01
def DER_INT : UInt8 := 0x02
def DER_BITS : UInt8 := 0x03
def DER_OCTET : UInt8 := 0x04
def DER_OID : UInt8 := 0x06
def DER_UTC : UInt8 := 0x17
def DER_GEN : UInt8 := 0x18
def DER_SEQ : UInt8 := 0x30

theorem derTake_eq_some {t : UInt8} {p n : Nat}
    (h : derTake d tag p n = some (t, c, d')) :
    t = tag ∧ c = ⟨d.buf, p, n⟩ ∧ d' = { d with p := p + n } := by
  unfold derTake at h
  split at h
  · cases h
  · simp only [Option.some.injEq, Prod.mk.injEq] at h
    exact ⟨h.1.symm, h.2.1.symm, h.2.2.symm⟩

theorem derRead_advances
    (h : derRead d = some (tag, c, d')) : d.p + 2 ≤ d'.p ∧ d'.stop = d.stop ∧ d.p + 2 ≤ d.stop := by
  unfold derRead at h
  dsimp only at h
  split_ifs at h with hlen
  · obtain ⟨-, -, rfl⟩ := derTake_eq_some h
    exact ⟨by simp only; omega, rfl, by omega⟩
  · obtain ⟨-, -, rfl⟩ := derTake_eq_some h
    exact ⟨by simp only; omega, rfl, by omega⟩

def derItems (d : Der) : List (UInt8 × Slice) :=
  if derDone d then []
  else
    match _ : derRead d with
    | none => []
    | some (tag, c, d') => (tag, c) :: derItems d'
termination_by d.stop - d.p
decreasing_by
  have := derRead_advances ‹_›
  omega

/-!
## One certificate

`x509_parse` and what is asked of a certificate once it has been read: whether a key made its
signature, and whether it is for a host. The hashes and the two signature checks are parameters
(`Prims`); nothing about a chain depends on how they are computed.
-/

/-! ## What a certificate is read into -/

inductive Curve
  | p256
  | p384
  deriving Repr, DecidableEq

/-- `ec_field_bytes`. -/
def ecFieldBytes : Curve → Nat
  | .p256 => 32
  | .p384 => 48

/-- `key_type` with the key that goes with it. -/
inductive Key
  | rsa (n : Bytes) (e : Nat)
  | ec (curve : Curve) (point : Bytes)
  deriving Repr, DecidableEq

inductive SigAlg
  | none
  | rsaSha256
  | rsaSha384
  | rsaSha512
  | rsaPss
  | ecdsaSha256
  | ecdsaSha384
  deriving Repr, DecidableEq

/-- `x509_t`. A pointer with its length is a slice of the bytes the certificate was read from. -/
structure Cert where
  tbs : Slice
  sigAlg : SigAlg
  sig : Slice
  issuer : Slice
  subject : Slice
  notBefore : Nat
  notAfter : Nat
  key : Key
  isCa : Bool
  hasBasicConstraints : Bool
  /-- -1 when unset -/
  pathLen : Int
  san : Option Slice
  deriving Repr, DecidableEq

/-! ## Object identifiers -/

def OID_RSA : Bytes := [0x2a,0x86,0x48,0x86,0xf7,0x0d,0x01,0x01,0x01]
def OID_RSA_SHA256 : Bytes := [0x2a,0x86,0x48,0x86,0xf7,0x0d,0x01,0x01,0x0b]
def OID_RSA_SHA384 : Bytes := [0x2a,0x86,0x48,0x86,0xf7,0x0d,0x01,0x01,0x0c]
def OID_RSA_SHA512 : Bytes := [0x2a,0x86,0x48,0x86,0xf7,0x0d,0x01,0x01,0x0d]
def OID_RSA_PSS : Bytes := [0x2a,0x86,0x48,0x86,0xf7,0x0d,0x01,0x01,0x0a]
def OID_EC_KEY : Bytes := [0x2a,0x86,0x48,0xce,0x3d,0x02,0x01]
def OID_P256 : Bytes := [0x2a,0x86,0x48,0xce,0x3d,0x03,0x01,0x07]
def OID_P384 : Bytes := [0x2b,0x81,0x04,0x00,0x22]
def OID_ECDSA_SHA256 : Bytes := [0x2a,0x86,0x48,0xce,0x3d,0x04,0x03,0x02]
def OID_ECDSA_SHA384 : Bytes := [0x2a,0x86,0x48,0xce,0x3d,0x04,0x03,0x03]
def OID_BASIC_CONSTRAINTS : Bytes := [0x55,0x1d,0x13]
def OID_SAN : Bytes := [0x55,0x1d,0x11]

def sigAlgFromOid (oid : Bytes) : SigAlg :=
  if oid = OID_RSA_SHA256 then .rsaSha256
  else if oid = OID_RSA_SHA384 then .rsaSha384
  else if oid = OID_RSA_SHA512 then .rsaSha512
  else if oid = OID_RSA_PSS then .rsaPss
  else if oid = OID_ECDSA_SHA256 then .ecdsaSha256
  else if oid = OID_ECDSA_SHA384 then .ecdsaSha384
  else .none

/-! ## Time -/

/-- `n` decimal digits at `i`. -/
def digits (p : Bytes) (i n : Nat) : Option Nat :=
  (List.range n).foldl
    (fun v k => v.bind fun v =>
      let c := (byteAt p (i + k)).toNat
      if c < 48 ∨ 57 < c then none else some (v * 10 + (c - 48)))
    (some 0)

def parseYear (tag : UInt8) (p : Bytes) : Option (Nat × Nat) :=
  if tag = DER_UTC then
    if p.length < 11 then none
    else (digits p 0 2).map fun yy => (2, if yy < 50 then 2000 + yy else 1900 + yy)
  else if tag = DER_GEN then
    if p.length < 13 then none
    else (digits p 0 4).map fun year => (4, year)
  else none

def parseSeconds (p : Bytes) (i : Nat) : Option Nat :=
  if i + 2 ≤ p.length ∧ 48 ≤ byteAt p i ∧ byteAt p i ≤ 57 then digits p i 2 else some 0

def parseTime (tag : UInt8) (p : Bytes) : Option Nat := do
  let (i, year) ← parseYear tag p
  if p.length < i + 8 then none
  let mon ← digits p i 2
  let day ← digits p (i + 2) 2
  let hour ← digits p (i + 4) 2
  let min ← digits p (i + 6) 2
  let sec ← parseSeconds p (i + 8)
  if mon < 1 ∨ 12 < mon ∨ day < 1 ∨ 31 < day then none
  if 23 < hour ∨ 59 < min ∨ 60 < sec then none
  return year * 10000000000 + mon * 100000000 + day * 1000000 + hour * 10000 + min * 100 + sec

/-! ## The public key -/

def dropZeros (bs : Bytes) : Bytes := bs.dropWhile (· = 0)

def RSA_MAX_BYTES : Nat := 512

def parseRsaKey (bits : Slice) : Option Key := do
  let (seq, _) ← derEnter (derInit bits) DER_SEQ
  let (n, seq) ← derExpect seq DER_INT
  let (e, _) ← derExpect seq DER_INT
  let n := dropZeros n.bytes
  if n.length = 0 ∨ RSA_MAX_BYTES < n.length then none
  if n.length < 128 then none
  let e := dropZeros e.bytes
  if e.length = 0 ∨ 4 < e.length then none
  let ev := beNat e
  if ev < 3 ∨ ev % 2 = 0 then none
  return .rsa n ev

def parseEcKey (alg : Der) (bits : Slice) : Option Key := do
  let (curve, _) ← derExpect alg DER_OID
  let curve ← if curve.bytes = OID_P256 then some Curve.p256
    else if curve.bytes = OID_P384 then some Curve.p384
    else none
  let want := 1 + 2 * ecFieldBytes curve
  if bits.len ≠ want ∨ byteAt bits.buf bits.off ≠ 0x04 then none
  return .ec curve bits.bytes

/-- `SEQUENCE { SEQUENCE { algorithm .. }, BIT STRING }` -/
def parseSpki (s : Slice) : Option Key := do
  let (spki, _) ← derEnter (derInit s) DER_SEQ
  let (alg, spki) ← derEnter spki DER_SEQ
  let (oid, alg) ← derExpect alg DER_OID
  let (bits, _) ← derExpect spki DER_BITS
  if bits.len < 2 ∨ byteAt bits.buf bits.off ≠ 0 then none
  let bits : Slice := { bits with off := bits.off + 1, len := bits.len - 1 }
  if oid.bytes = OID_RSA then parseRsaKey bits
  else if oid.bytes = OID_EC_KEY then parseEcKey alg bits
  else none

/-! ## Extensions -/

structure Exts where
  isCa : Bool := false
  hasBasicConstraints : Bool := false
  pathLen : Int := -1
  san : Option Slice := none
  deriving Repr, DecidableEq

def parsePathLen (inner : Der) : Int :=
  match derExpect inner DER_INT with
  | some (v, _) => if v.len ≠ 0 ∧ v.len ≤ 2 then (beNat v.bytes : Int) else -1
  | none => -1

def parseCaFlag (inner : Der) : Option (Bool × Der) :=
  if derDone inner then some (false, inner)
  else do
    let (t, v, after) ← derRead inner
    if t = DER_BOOL then some (v.len == 1 && byteAt v.buf v.off != 0, after)
    else some (false, inner)

def parseBasicConstraints (value : Slice) (out : Exts) : Option Exts := do
  let (inner, _) ← derEnter (derInit value) DER_SEQ
  let (isCa, inner) ← parseCaFlag inner
  let pathLen := if derDone inner then -1 else parsePathLen inner
  return { out with hasBasicConstraints := true, isCa := isCa, pathLen := pathLen }

def parseExtValue (ext : Der) : Option Slice := do
  let (tag, c, after) ← derRead ext
  if tag = DER_BOOL then
    let (tag, c, _) ← derRead after
    if tag = DER_OCTET then some c else none
  else if tag = DER_OCTET then some c else none

def parseExtension (ext : Der) (out : Exts) : Option Exts := do
  let (oid, ext) ← derExpect ext DER_OID
  let c ← parseExtValue ext
  if oid.bytes = OID_BASIC_CONSTRAINTS then parseBasicConstraints c out
  else if oid.bytes = OID_SAN then some { out with san := some c }
  else some out

def parseExtensions : Nat → Der → Exts → Option Exts
  | 0, _, out => some out
  | left + 1, exts, out =>
    if derDone exts then some out
    else do
      let (ext, exts) ← derEnter exts DER_SEQ
      let out ← parseExtension ext out
      parseExtensions left exts out

def parseTrailer : Nat → Der → Exts → Option Exts
  | 0, _, out => some out
  | left + 1, tbs, out =>
    if derDone tbs then some out
    else do
      let (tag, c, tbs) ← derRead tbs
      if tag = 0xa3 then
        let (exts, _) ← derEnter (derInit c) DER_SEQ
        let out ← parseExtensions (exts.stop - exts.p) exts out
        parseTrailer left tbs out
      else parseTrailer left tbs out

/-! ## A whole certificate -/

def between (before after : Der) : Slice := ⟨before.buf, before.p, after.p - before.p⟩

def skipVersion (tbs : Der) : Option Der := do
  let (tag, _, after) ← derRead tbs
  return if tag = 0xa0 then after else tbs

def x509Parse (der : Bytes) : Option Cert := do
  let (cert, _) ← derEnter (derInit ⟨der, 0, der.length⟩) DER_SEQ
  let tbsStart := cert
  let (tbs, cert) ← derEnter cert DER_SEQ
  let tbsSlice := between tbsStart cert
  let (outerAlg, cert) ← derEnter cert DER_SEQ
  let (oid, _) ← derExpect outerAlg DER_OID
  let (sig, _) ← derExpect cert DER_BITS
  if sig.len < 2 ∨ byteAt sig.buf sig.off ≠ 0 then none
  -- inside the signed part
  let tbs ← skipVersion tbs
  let (_, tbs) ← derExpect tbs DER_INT
  let (innerAlg, tbs) ← derEnter tbs DER_SEQ
  let (ioid, _) ← derExpect innerAlg DER_OID
  if ioid.bytes ≠ oid.bytes then none
  let issuerStart := tbs
  let (_, tbs) ← derExpect tbs DER_SEQ
  let issuer := between issuerStart tbs
  let (validity, tbs) ← derEnter tbs DER_SEQ
  let (t1, v1, validity) ← derRead validity
  let (t2, v2, _) ← derRead validity
  let notBefore ← parseTime t1 v1.bytes
  let notAfter ← parseTime t2 v2.bytes
  let subjectStart := tbs
  let (_, tbs) ← derExpect tbs DER_SEQ
  let subject := between subjectStart tbs
  let spkiStart := tbs
  let (_, tbs) ← derExpect tbs DER_SEQ
  let key ← parseSpki (between spkiStart tbs)
  let exts ← parseTrailer (tbs.stop - tbs.p) tbs {}
  return {
    tbs := tbsSlice
    sigAlg := sigAlgFromOid oid.bytes
    sig := { sig with off := sig.off + 1, len := sig.len - 1 }
    issuer, subject, notBefore, notAfter, key
    isCa := exts.isCa
    hasBasicConstraints := exts.hasBasicConstraints
    pathLen := exts.pathLen
    san := exts.san }

/-! ## Checking a signature -/

/-- The hashes and signature checks the certificate code calls. -/
structure Prims where
  sha256 : Bytes → Bytes
  sha384 : Bytes → Bytes
  sha512 : Bytes → Bytes
  rsaVerifyPkcs1 : Bytes → Nat → Bytes → Bytes → Bool
  rsaVerifyPss : Bytes → Nat → Bytes → Bytes → Bool
  ecVerify : Curve → Bytes → Bytes → Bytes → Bytes → Bool

def hashFor (P : Prims) : SigAlg → Bytes → Option Bytes
  | .rsaSha256, data | .rsaPss, data | .ecdsaSha256, data => some (P.sha256 data)
  | .rsaSha384, data | .ecdsaSha384, data => some (P.sha384 data)
  | .rsaSha512, data => some (P.sha512 data)
  | .none, _ => none

/-- `SEQUENCE { r INTEGER, s INTEGER }`, both without leading zeros. -/
def x509EcdsaSplit (sig : Slice) : Option (Bytes × Bytes) := do
  let (seq, _) ← derEnter (derInit sig) DER_SEQ
  let (r, seq) ← derExpect seq DER_INT
  let (s, seq) ← derExpect seq DER_INT
  if ¬ derDone seq then none
  let r := dropZeros r.bytes
  let s := dropZeros s.bytes
  if r.length = 0 ∨ s.length = 0 then none
  return (r, s)

def x509SignedBy (P : Prims) (child issuer : Cert) : Bool :=
  match hashFor P child.sigAlg child.tbs.bytes with
  | none => false
  | some h =>
    match child.sigAlg, issuer.key with
    | .rsaSha256, .rsa n e | .rsaSha384, .rsa n e | .rsaSha512, .rsa n e =>
      P.rsaVerifyPkcs1 n e child.sig.bytes h
    | .rsaPss, .rsa n e => P.rsaVerifyPss n e child.sig.bytes h
    | .ecdsaSha256, .ec curve point | .ecdsaSha384, .ec curve point =>
      match x509EcdsaSplit child.sig with
      | none => false
      | some (r, s) => P.ecVerify curve point h r s
    | _, _ => false

/-! ## Names -/

def lower (c : UInt8) : UInt8 := if 65 ≤ c ∧ c ≤ 90 then c + 32 else c

def sameFold : Bytes → Bytes → Bool
  | [], host => host.isEmpty
  | _ :: _, [] => false
  | a :: name, b :: host => lower a == lower b && sameFold name host

def oneNameMatches (name host : Bytes) : Bool :=
  if name.length = 0 then false
  else if 2 ≤ name.length ∧ byteAt name 0 = 42 ∧ byteAt name 1 = 46 then
    let dot := host.dropWhile (· ≠ 46)
    if dot = [] then false
    else if dot.length = host.length then false
    else sameFold (name.drop 2) (dot.drop 1)
  else sameFold name host

def DNS_NAME : UInt8 := 0x82

/-- The loop of `x509_host_matches`; the first argument bounds its turns. -/
def anyNameMatches : Nat → Der → Bytes → Bool
  | 0, _, _ => false
  | left + 1, names, host =>
    if derDone names then false
    else
      match derRead names with
      | none => false
      | some (tag, c, names) =>
        if tag = DNS_NAME && oneNameMatches c.bytes host then true
        else anyNameMatches left names host

def x509HostMatches (cert : Cert) (host : Bytes) : Bool :=
  if host = [] then false
  else
    match cert.san with
    | none => false
    | some san =>
      if san.len = 0 then false
      else
        match derEnter (derInit san) DER_SEQ with
        | none => false
        | some (names, _) => anyNameMatches (names.stop - names.p) names host

def sanItems (cert : Cert) : List (UInt8 × Slice) :=
  match cert.san with
  | none => []
  | some san =>
    match derEnter (derInit san) DER_SEQ with
    | none => []
    | some (names, _) => derItems names

theorem anyNameMatches_item {left : Nat} {names : Der}
    (h : anyNameMatches left names host = true) :
    ∃ c, (DNS_NAME, c) ∈ derItems names ∧ oneNameMatches c.bytes host = true := by
  induction left generalizing names with
  | zero => simp [anyNameMatches] at h
  | succ left ih =>
    unfold anyNameMatches at h
    split at h
    · cases h
    · next hmore =>
      cases hread : derRead names with
      | none => simp [hread] at h
      | some item =>
        obtain ⟨tag, c, names'⟩ := item
        have hitems : derItems names = (tag, c) :: derItems names' := by
          rw [derItems, if_neg hmore]
          split
          · next hnone => simp [hread] at hnone
          · next hsome =>
            simp only [hread, Option.some.injEq, Prod.mk.injEq] at hsome
            obtain ⟨rfl, rfl, rfl⟩ := hsome
            rfl
        simp only [hread] at h
        split at h
        · next hmatch =>
          simp only [Bool.and_eq_true, decide_eq_true_eq] at hmatch
          obtain ⟨rfl, hm⟩ := hmatch
          exact ⟨c, by simp [hitems], hm⟩
        · obtain ⟨c', hc', hm⟩ := ih h
          exact ⟨c', by simp [hitems, hc'], hm⟩

theorem x509HostMatches_name {cert : Cert} (h : x509HostMatches cert host = true) :
    ∃ c, (DNS_NAME, c) ∈ sanItems cert ∧ oneNameMatches c.bytes host = true := by
  unfold x509HostMatches at h
  split at h
  · cases h
  · unfold sanItems
    cases hsan : cert.san with
    | none => simp [hsan] at h
    | some san =>
      simp only [hsan] at h ⊢
      split at h
      · cases h
      · cases henter : derEnter (derInit san) DER_SEQ with
        | none => simp [henter] at h
        | some r =>
          simp only [henter] at h ⊢
          exact anyNameMatches_item h

end Zelr.X509
