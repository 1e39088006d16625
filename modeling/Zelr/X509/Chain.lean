import Zelr.X509.Cert
import Mathlib.Data.List.Chain
import Mathlib.Data.List.Nodup

/-!
# The chain

`x509_verify_chain` walks from the leaf up through whatever the server sent, by names, until it
meets a root of the store.
-/

namespace Zelr.X509

variable {chain : List (Option Cert)} {used : List Bool} {top : Cert} {k now : Nat} {below : Option Cert}

inductive Verdict
  | ok
  | badParse
  | badSignature
  | notYetValid
  | expired
  | untrusted
  | wrongName
  | notACa
  | unsupported
  deriving Repr, DecidableEq

def X509_MAX_CHAIN : Nat := 8

/-! ## The root store -/

structure Root where
  der : Bytes
  subOff : Nat
  subLen : Nat
  deriving Repr, DecidableEq

def rootsFind (roots : List Root) (subject : Bytes) : Option Bytes :=
  if subject = [] then none
  else
    (roots.find? fun r =>
      r.subLen = subject.length ∧ Slice.bytes ⟨r.der, r.subOff, r.subLen⟩ = subject).map Root.der

/-! ## The walk -/

/-- Why the dates refuse the certificate. With no clock, `now` is zero and they cannot. -/
def datesOk (c : Cert) (now : Nat) : Option Verdict :=
  if now = 0 then none
  else if now < c.notBefore then some .notYetValid
  else if c.notAfter < now then some .expired
  else none

/-- The first unused certificate whose subject is the issuer of `top`. -/
def findParent (chain : List (Option Cert)) (used : List Bool) (top : Cert) : Option (Nat × Cert) :=
  (List.range chain.length).findSome? fun k =>
    if used.getD k true then none
    else
      match chain.getD k none with
      | none => none
      | some c =>
        if c.subject.len = top.issuer.len ∧ c.subject.bytes = top.issuer.bytes then some (k, c)
        else none

/-- How the walk ends: at a certificate and the one whose parent it is, or refused. -/
inductive Walk
  | stop (below : Option Cert) (top : Cert)
  | refused (why : Verdict)
  deriving Repr, DecidableEq

/-- The loop of `verify_with`. Each turn uses up one certificate, so the number sent bounds it. -/
def walk (P : Prims) (roots : List Root) (chain : List (Option Cert)) (now : Nat) :
    Nat → List Bool → Cert → Option Cert → Nat → Walk
  | 0, _, top, below, _ => .stop below top
  | left + 1, used, top, below, depth =>
    if (rootsFind roots top.subject.bytes).isSome then .stop below top
    -- Nothing sits above a self-signed certificate.
    else if top.subject.len = top.issuer.len ∧ top.subject.bytes = top.issuer.bytes then
      .stop below top
    else
      match findParent chain used top with
      | none => .stop below top
      | some (k, parent) =>
        -- The store's own copy is believed, and the one that was sent is set aside.
        if (rootsFind roots parent.subject.bytes).isSome then .stop (some top) parent
        else if ¬ parent.hasBasicConstraints ∨ ¬ parent.isCa then .refused .notACa
        else if 0 ≤ parent.pathLen ∧ parent.pathLen < depth then .refused .notACa
        else
          match datesOk parent now with
          | some why => .refused why
          | none =>
            if x509SignedBy P top parent then
              walk P roots chain now left (used.set k true) parent (some top) (depth + 1)
            else .refused .badSignature

def checkAnchor (P : Prims) (root : Bytes) (child : Cert) : Verdict :=
  match x509Parse root with
  | none => .badParse
  | some anchor =>
    if ¬ anchor.hasBasicConstraints ∨ ¬ anchor.isCa then .notACa
    else if x509SignedBy P child anchor then .ok
    else .badSignature

/-- What follows the loop of `verify_with`. -/
def verifyTop (P : Prims) (roots : List Root) (unreadable : Bool) (below : Option Cert)
    (top : Cert) : Verdict :=
  match rootsFind roots top.subject.bytes with
  | some root =>
    match below with
    | none => .untrusted
    | some child => checkAnchor P root child
  | none =>
    match rootsFind roots top.issuer.bytes with
    | none => if unreadable then .badParse else .untrusted
    | some root => checkAnchor P root top

def verifyWith (P : Prims) (roots : List Root) (ders : List Bytes) (host : Bytes) (now : Nat) :
    Verdict :=
  match ders.map x509Parse with
  | [] | none :: _ => .badParse
  | chain@(some leaf :: rest) =>
    let unreadable := rest.any Option.isNone
    -- The leaf is in it, and what could not be read is nobody's parent.
    let used := true :: rest.map Option.isNone
    if ¬ x509HostMatches leaf host then .wrongName
    else
      match datesOk leaf now with
      | some why => why
      | none =>
        match walk P roots chain now chain.length used leaf none 0 with
        | .refused why => why
        | .stop below top => verifyTop P roots unreadable below top

def x509VerifyChain (P : Prims) (roots : List Root) (ders : List Bytes) (host : Bytes)
    (now : Nat) : Verdict :=
  if ders.length = 0 ∨ X509_MAX_CHAIN < ders.length then .badParse
  else verifyWith P roots ders host now

/-! ## What an answer of `ok` means -/

/-- A path of sent certificates from the leaf to one that a root of the store signed. Each
certificate stands with its place among those sent. -/
structure TrustPath (P : Prims) (roots : List Root) (ders : List Bytes) (host : Bytes) (now : Nat)
    (path : List (Nat × Cert)) : Prop where
  starts : (path.map Prod.fst).head? = some 0
  distinct : (path.map Prod.fst).Nodup
  sent : ∀ i c, (i, c) ∈ path → ∃ der, ders[i]? = some der ∧ x509Parse der = some c
  linked : (path.map Prod.snd).IsChain fun child parent =>
    child.issuer.bytes = parent.subject.bytes ∧ x509SignedBy P child parent = true
  /-- `j` intermediates lie below the certificate at place `j + 1`. -/
  authorities : ∀ (j i : Nat) (c : Cert), path[j + 1]? = some (i, c) →
    c.hasBasicConstraints = true ∧ c.isCa = true ∧ (0 ≤ c.pathLen → (j : Int) ≤ c.pathLen)
  dates : now ≠ 0 → ∀ i c, (i, c) ∈ path → c.notBefore ≤ now ∧ now ≤ c.notAfter
  anchored : ∃ i last, path.getLast? = some (i, last) ∧
    ∃ root anchor, rootsFind roots last.issuer.bytes = some root ∧
      x509Parse root = some anchor ∧ anchor.hasBasicConstraints = true ∧ anchor.isCa = true ∧
      x509SignedBy P last anchor = true
  named : ∃ leaf, path.head? = some (0, leaf) ∧
    ∃ c, (DNS_NAME, c) ∈ sanItems leaf ∧ oneNameMatches c.bytes host = true

variable {c : Cert}

theorem findParent_eq_some
    (h : findParent chain used top = some (k, c)) :
    used.getD k true = false ∧ chain.getD k none = some c ∧
      c.subject.bytes = top.issuer.bytes := by
  unfold findParent at h
  obtain ⟨j, -, hj⟩ := List.exists_of_findSome?_eq_some h
  split at hj
  · cases hj
  · next hused =>
    split at hj
    · cases hj
    · next c' hc' =>
      split at hj
      · next hname =>
        simp only [Option.some.injEq, Prod.mk.injEq] at hj
        obtain ⟨rfl, rfl⟩ := hj
        exact ⟨by simpa using hused, hc', hname.2⟩
      · cases hj

theorem datesOk_eq_none (h : datesOk c now = none) (hnow : now ≠ 0) :
    c.notBefore ≤ now ∧ now ≤ c.notAfter := by
  unfold datesOk at h
  rw [if_neg hnow] at h
  split_ifs at h with h1 h2
  omega

theorem datesOk_ne_ok (c : Cert) (now : Nat) : datesOk c now ≠ some .ok := by
  unfold datesOk
  split_ifs <;> simp

theorem walk_ne_refused_ok (P : Prims) (roots : List Root) (chain : List (Option Cert))
    (now left : Nat) (used : List Bool) (child : Cert) (below : Option Cert) (depth : Nat) :
    walk P roots chain now left used child below depth ≠ .refused .ok := by
  induction left generalizing used child below depth with
  | zero => simp [walk]
  | succ left ih =>
    unfold walk
    split
    · simp
    split
    · simp
    split
    · simp
    next k parent _ =>
    split_ifs
    · simp
    · simp
    · simp
    all_goals
      split
      · next why hdates =>
        rintro ⟨rfl⟩
        exact datesOk_ne_ok parent now hdates
      · first | exact ih _ _ _ _ | simp

/-- What the walk checks of the certificates it climbs through, above `child`. -/
def Climb (P : Prims) (chain : List (Option Cert)) (now : Nat) :
    List Bool → Cert → Nat → List (Nat × Cert) → Prop
  | _, _, _, [] => True
  | used, child, depth, (k, c) :: rest =>
    used.getD k true = false ∧ chain.getD k none = some c ∧
    (child.issuer.bytes = c.subject.bytes ∧ x509SignedBy P child c = true) ∧
    (c.hasBasicConstraints = true ∧ c.isCa = true ∧ (0 ≤ c.pathLen → (depth : Int) ≤ c.pathLen)) ∧
    datesOk c now = none ∧ Climb P chain now (used.set k true) c (depth + 1) rest

/-- The last certificate of a climb that starts at `child`. -/
def topOf (child : Cert) : List (Nat × Cert) → Cert
  | [] => child
  | (_, c) :: rest => topOf c rest

/-- Where the walk stops, having climbed to `last`: at a certificate with a name of the store over
`last`, or at `last` itself. -/
def StopsAt (roots : List Root) (last : Cert) (below : Option Cert) (top : Cert) : Prop :=
  (below = some last ∧ last.issuer.bytes = top.subject.bytes ∧
    (rootsFind roots top.subject.bytes).isSome) ∨
  (top = last ∧ (rootsFind roots top.subject.bytes = none ∨ below = none))

theorem walk_climbs {P : Prims} {roots : List Root} {left : Nat}
    {child : Cert} {below₀ : Option Cert} {depth : Nat}
    (hstart : rootsFind roots child.subject.bytes = none ∨ below₀ = none)
    (h : walk P roots chain now left used child below₀ depth = .stop below top) :
    ∃ ups, Climb P chain now used child depth ups ∧ StopsAt roots (topOf child ups) below top := by
  induction left generalizing used child below₀ depth with
  | zero =>
    simp only [walk, Walk.stop.injEq] at h
    obtain ⟨rfl, rfl⟩ := h
    exact ⟨[], trivial, Or.inr ⟨rfl, hstart⟩⟩
  | succ left ih =>
    have here : Walk.stop below₀ child = .stop below top → ∃ ups,
        Climb P chain now used child depth ups ∧ StopsAt roots (topOf child ups) below top := by
      intro heq
      simp only [Walk.stop.injEq] at heq
      obtain ⟨rfl, rfl⟩ := heq
      exact ⟨[], trivial, Or.inr ⟨rfl, hstart⟩⟩
    unfold walk at h
    split at h
    · exact here h
    split at h
    · exact here h
    cases hfind : findParent chain used child with
    | none =>
      simp only [hfind] at h
      exact here h
    | some found =>
      obtain ⟨k, parent⟩ := found
      obtain ⟨hused, hchain, hname⟩ := findParent_eq_some hfind
      simp only [hfind] at h
      split at h
      · next hroot =>
        -- The parent has a name of the store: the chain ends under it.
        simp only [Walk.stop.injEq] at h
        obtain ⟨rfl, rfl⟩ := h
        exact ⟨[], trivial, Or.inl ⟨rfl, hname.symm, hroot⟩⟩
      next hroot =>
      split at h
      · cases h
      next hca =>
      split at h
      · cases h
      next hpath =>
      cases hdates : datesOk parent now with
      | some why => simp [hdates] at h
      | none =>
        simp only [hdates] at h
        split at h
        · next hsig =>
          obtain ⟨ups, hclimb, hstop⟩ := ih (Or.inl (by simpa using hroot)) h
          refine ⟨(k, parent) :: ups, ⟨hused, hchain, ⟨hname.symm, hsig⟩, ?_, hdates, hclimb⟩, hstop⟩
          simp only [not_or, not_not] at hca
          refine ⟨hca.1, hca.2, ?_⟩
          intro h0
          by_contra hlt
          exact hpath ⟨h0, by omega⟩
        · cases h

section Climbing

variable {P : Prims} {roots : List Root} {chain : List (Option Cert)} {now : Nat}

variable {child : Cert} {depth : Nat} {ups : List (Nat × Cert)} {used : List Bool}

section
variable (h : Climb P chain now used child depth ups)
include h

theorem climb_fresh :
    (ups.map Prod.fst).Nodup ∧ ∀ k ∈ ups.map Prod.fst, used.getD k true = false := by
  induction ups generalizing used child depth with
  | nil => simp
  | cons up rest ih =>
    obtain ⟨k, c⟩ := up
    obtain ⟨hused, -, -, -, -, hrest⟩ := h
    obtain ⟨hnodup, hfresh⟩ := ih hrest
    have hlen : k < used.length := by
      by_contra hk
      rw [List.getD_eq_getElem?_getD, List.getElem?_eq_none (by omega)] at hused
      cases hused
    have hother : ∀ j ∈ rest.map Prod.fst, j ≠ k ∧ used.getD j true = false := by
      intro j hj
      have hset := hfresh j hj
      rw [List.getD_eq_getElem?_getD, List.getElem?_set] at hset
      by_cases hjk : k = j
      · rw [if_pos hjk, if_pos hlen] at hset
        cases hset
      · rw [if_neg hjk, ← List.getD_eq_getElem?_getD] at hset
        exact ⟨fun hj => hjk hj.symm, hset⟩
    simp only [List.map_cons, List.nodup_cons, List.mem_cons]
    refine ⟨⟨fun hk => (hother k hk).1 rfl, hnodup⟩, ?_⟩
    rintro j (rfl | hj)
    · exact hused
    · exact (hother j hj).2

theorem climb_mem :
    ∀ k c, (k, c) ∈ ups → chain.getD k none = some c ∧ datesOk c now = none := by
  induction ups generalizing used child depth with
  | nil => simp
  | cons up rest ih =>
    obtain ⟨k, c⟩ := up
    obtain ⟨-, hchain, -, -, hdates, hrest⟩ := h
    intro j d hjd
    rcases List.mem_cons.mp hjd with heq | hjd
    · simp only [Prod.mk.injEq] at heq
      obtain ⟨rfl, rfl⟩ := heq
      exact ⟨hchain, hdates⟩
    · exact ih hrest j d hjd

theorem climb_linked :
    (child :: ups.map Prod.snd).IsChain fun child parent =>
      child.issuer.bytes = parent.subject.bytes ∧ x509SignedBy P child parent = true := by
  induction ups generalizing used child depth with
  | nil => simp
  | cons up rest ih =>
    obtain ⟨k, c⟩ := up
    obtain ⟨-, -, hlink, -, -, hrest⟩ := h
    rw [List.map_cons, List.isChain_cons_cons]
    exact ⟨hlink, ih hrest⟩

theorem climb_authorities
    (j i : Nat) (c : Cert) (hj : ups[j]? = some (i, c)) :
    c.hasBasicConstraints = true ∧ c.isCa = true ∧
      (0 ≤ c.pathLen → ((depth + j : Nat) : Int) ≤ c.pathLen) := by
  induction ups generalizing used child depth j with
  | nil => simp at hj
  | cons up rest ih =>
    obtain ⟨k, d⟩ := up
    obtain ⟨-, -, -, hca, -, hrest⟩ := h
    cases j with
    | zero =>
      simp only [List.getElem?_cons_zero, Option.some.injEq, Prod.mk.injEq] at hj
      obtain ⟨rfl, rfl⟩ := hj
      exact hca
    | succ j =>
      rw [List.getElem?_cons_succ] at hj
      have := ih hrest j hj
      rwa [show depth + (j + 1) = depth + 1 + j by omega]

end

theorem topOf_getLast (i : Nat) (child : Cert) (ups : List (Nat × Cert)) :
    ∃ j, ((i, child) :: ups).getLast? = some (j, topOf child ups) := by
  induction ups generalizing i child with
  | nil => exact ⟨i, rfl⟩
  | cons up rest ih =>
    obtain ⟨k, c⟩ := up
    obtain ⟨j, hj⟩ := ih k c
    exact ⟨j, by rw [List.getLast?_cons_cons, hj]; rfl⟩

theorem checkAnchor_ok {root : Bytes} (h : checkAnchor P root child = .ok) :
    ∃ anchor, x509Parse root = some anchor ∧ anchor.hasBasicConstraints = true ∧
      anchor.isCa = true ∧ x509SignedBy P child anchor = true := by
  unfold checkAnchor at h
  cases hparse : x509Parse root with
  | none => simp [hparse] at h
  | some anchor =>
    simp only [hparse] at h
    split_ifs at h with hca hsig
    simp only [not_or, not_not] at hca
    exact ⟨anchor, rfl, hca.1, hca.2, hsig⟩

theorem verifyTop_ok {unreadable : Bool} {last : Cert}
    (hstop : StopsAt roots last below top)
    (h : verifyTop P roots unreadable below top = .ok) :
    ∃ root, rootsFind roots last.issuer.bytes = some root ∧ checkAnchor P root last = .ok := by
  unfold verifyTop at h
  cases hroot : rootsFind roots top.subject.bytes with
  | some root =>
    simp only [hroot] at h
    rcases hstop with ⟨rfl, hname, -⟩ | ⟨-, hnone | rfl⟩
    · exact ⟨root, by rw [hname, hroot], h⟩
    · rw [hroot] at hnone; cases hnone
    · cases h
  | none =>
    simp only [hroot] at h
    cases hissuer : rootsFind roots top.issuer.bytes with
    | none =>
      simp only [hissuer] at h
      split at h <;> cases h
    | some root =>
      simp only [hissuer] at h
      rcases hstop with ⟨-, -, hsome⟩ | ⟨rfl, -⟩
      · rw [hroot] at hsome; cases hsome
      · exact ⟨root, hissuer, h⟩

end Climbing

theorem sent_of_chain {ders : List Bytes}
    (h : (ders.map x509Parse).getD k none = some c) :
    ∃ der, ders[k]? = some der ∧ x509Parse der = some c := by
  rw [List.getD_eq_getElem?_getD, List.getElem?_map] at h
  cases hk : ders[k]? with
  | none => simp [hk] at h
  | some der => exact ⟨der, rfl, by simpa [hk] using h⟩

theorem x509VerifyChain_ok (P : Prims) (roots : List Root) (ders : List Bytes) (host : Bytes)
    (now : Nat) (h : x509VerifyChain P roots ders host now = .ok) :
    ∃ path, TrustPath P roots ders host now path := by
  unfold x509VerifyChain at h
  split at h
  · cases h
  unfold verifyWith at h
  split at h
  · cases h
  · cases h
  next chain leaf rest hchain =>
  dsimp only at h
  split at h
  · cases h
  next hhost =>
  cases hdates : datesOk leaf now with
  | some why =>
    simp only [hdates] at h
    exact absurd (h ▸ hdates) (datesOk_ne_ok leaf now)
  | none =>
    simp only [hdates] at h
    cases hwalk : walk P roots (some leaf :: rest) now (some leaf :: rest).length
        (true :: rest.map Option.isNone) leaf none 0 with
    | refused why =>
      simp only [hwalk] at h
      exact absurd (h ▸ hwalk) (walk_ne_refused_ok _ _ _ _ _ _ _ _ _)
    | stop below top =>
      simp only [hwalk] at h
      obtain ⟨ups, hclimb, hstop⟩ := walk_climbs (Or.inr rfl) hwalk
      obtain ⟨root, hroot, hanchor⟩ := verifyTop_ok hstop h
      obtain ⟨anchor, hparse, hbc, hca, hsig⟩ := checkAnchor_ok hanchor
      obtain ⟨hnodup, hfresh⟩ := climb_fresh hclimb
      obtain ⟨j, hlast⟩ := topOf_getLast 0 leaf ups
      have hmem : ∀ i c, (i, c) ∈ (0, leaf) :: ups →
          (ders.map x509Parse).getD i none = some c ∧ datesOk c now = none := by
        intro i c hic
        rw [hchain]
        rcases List.mem_cons.mp hic with heq | hic
        · simp only [Prod.mk.injEq] at heq
          obtain ⟨rfl, rfl⟩ := heq
          exact ⟨rfl, hdates⟩
        · exact climb_mem hclimb i c hic
      refine ⟨(0, leaf) :: ups, rfl, ?_, ?_, climb_linked hclimb, ?_, ?_, ?_, ?_⟩
      · rw [List.map_cons, List.nodup_cons]
        refine ⟨fun h0 => ?_, hnodup⟩
        cases hfresh 0 h0
      · intro i c hic
        exact sent_of_chain (hmem i c hic).1
      · intro j i c hj
        have := climb_authorities hclimb j i c hj
        rwa [Nat.zero_add] at this
      · intro hnow i c hic
        exact datesOk_eq_none (hmem i c hic).2 hnow
      · exact ⟨j, topOf leaf ups, hlast, root, anchor, hroot, hparse, hbc, hca, hsig⟩
      · refine ⟨leaf, rfl, x509HostMatches_name ?_⟩
        simpa using hhost

/-! ### A chain that is accepted

Two certificates, sent in the wrong order with a stranger's between them, under a root of the
store. Signatures are taken as good. -/

def tlv (tag : UInt8) (content : Bytes) : Bytes :=
  if content.length < 128 then tag :: UInt8.ofNat content.length :: content
  else tag :: 0x81 :: UInt8.ofNat content.length :: content

/-- A certificate of a P-256 key, good from 2020 to 2030. -/
def sampleCert (issuer subject : String) (exts : Bytes) : Bytes :=
  let alg := tlv DER_SEQ (tlv DER_OID OID_ECDSA_SHA256)
  let dates := tlv DER_UTC (ascii "200101000000Z") ++ tlv DER_UTC (ascii "300101000000Z")
  let point : Bytes := 0 :: 4 :: List.replicate 64 7
  let spki := tlv DER_SEQ (tlv DER_SEQ (tlv DER_OID OID_EC_KEY ++ tlv DER_OID OID_P256) ++
    tlv DER_BITS point)
  let sig := tlv DER_SEQ (tlv DER_INT [1] ++ tlv DER_INT [2])
  tlv DER_SEQ (tlv DER_SEQ (tlv DER_INT [1] ++ alg ++ tlv DER_SEQ (ascii issuer) ++
    tlv DER_SEQ dates ++ tlv DER_SEQ (ascii subject) ++ spki ++ tlv 0xa3 (tlv DER_SEQ exts)) ++
    alg ++ tlv DER_BITS (0 :: sig))

def sampleSan (host : String) : Bytes :=
  tlv DER_SEQ (tlv DER_OID OID_SAN ++ tlv DER_OCTET (tlv DER_SEQ (tlv DNS_NAME (ascii host))))

def sampleCa : Bytes :=
  tlv DER_SEQ (tlv DER_OID OID_BASIC_CONSTRAINTS ++
    tlv DER_OCTET (tlv DER_SEQ (tlv DER_BOOL [0xff] ++ tlv DER_INT [0])))

def sampleChain : List Bytes :=
  [sampleCert "ca" "site" (sampleSan "*.b.c"), sampleCert "x" "y" [], sampleCert "root" "ca" sampleCa]

/-- The subject name stands after two headers, the serial number, the algorithm, the issuer
and the dates. -/
def sampleRoot : Root :=
  let der := sampleCert "root" "root" sampleCa
  ⟨der, 59, 6⟩

def samplePrims : Prims where
  sha256 := id
  sha384 := id
  sha512 := id
  rsaVerifyPkcs1 _ _ _ _ := true
  rsaVerifyPss _ _ _ _ := true
  ecVerify _ _ _ _ _ := true

theorem sampleChain_trusted :
    ∃ path, TrustPath samplePrims [sampleRoot] sampleChain (ascii "a.b.c") 20250607080910 path :=
  x509VerifyChain_ok _ _ _ _ _ (by decide +kernel)

end Zelr.X509
