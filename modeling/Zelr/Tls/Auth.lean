import Mathlib.Data.List.TakeWhile
import Zelr.Tls.Frame

/-!
# A connection is to whom it says

What holds once `tls_connect` has answered: which messages the server sent, in which order, what it
signed, and that the chain it sent was accepted for the host that was asked for.
-/

namespace Zelr.Tls

open Act

variable {hash ch : Bytes} {label : String} {encrypted withExts : Bool} {leaf : X509.Cert} {step : Nat}
  {exts : List (Nat × Bytes)} {share : Option Bytes}

section Auth

variable {K : Prims} {z z' : Session}

/-! ## Steps that answered -/

variable {desc : Alert} {why : String} {α : Type} {u : Unit} {secret body msg p : Bytes} {I : Session → Prop}
  {m : Msg} {left : Nat} {type : UInt8} {r : Bool} {kex kex' : Kex} {msgs : List Bytes}

theorem refuse_ne {a : α} :
    (refuse K why desc : Act Session α) z ≠ (some a, z') := by
  rw [refuse_eq]
  simp

theorem refuseIf_ok {bad : Bool} :
    refuseIf K bad why desc z = (some u, z') ↔ bad = false ∧ z = z' := by
  unfold refuseIf
  cases bad
  · simp
  · simp [refuse_ne]

theorem refuseIf_bind_ok {bad : Bool} {f : Unit → Act Session α} {a : α} :
    (refuseIf K bad why desc >>= f) z = (some a, z') ↔ bad = false ∧ f () z = (some a, z') := by
  simp only [bind_eq_some, refuseIf_ok]
  constructor
  · rintro ⟨_, _, ⟨hgood, rfl⟩, h⟩
    exact ⟨hgood, h⟩
  · rintro ⟨hgood, h⟩
    exact ⟨(), z, ⟨hgood, rfl⟩, h⟩

theorem failWith_ne {a : α} :
    (failWith why : Act Session α) z ≠ (some a, z') := by
  simp [failWith, bind_apply]

theorem orRefuse_ok {m : Act Session α} {a : α} :
    orRefuse K m why desc z = (some a, z') ↔ m z = (some a, z') := by
  unfold orRefuse
  rw [bind_of_some (attempt_apply m z)]
  cases hm : (m z).1 with
  | none =>
    refine ⟨fun h => absurd h refuse_ne, fun h => ?_⟩
    rw [h] at hm
    cases hm
  | some b => simp [Prod.ext_iff, hm]

theorem orFail_ok {m : Act Session α} {a : α} :
    orFail m why z = (some a, z') ↔ m z = (some a, z') := by
  unfold orFail
  rw [bind_of_some (attempt_apply m z)]
  cases hm : (m z).1 with
  | none =>
    refine ⟨fun h => absurd h failWith_ne, fun h => ?_⟩
    rw [h] at hm
    cases hm
  | some b => simp [Prod.ext_iff, hm]

theorem derive_ok {key : Bytes} :
    derive K secret label hash z = (some key, z') ↔
      K.hkdfExpandLabel secret label hash 32 = some key ∧ z = z' := by
  unfold derive
  rw [orRefuse_ok]
  simp

/-! ## What reading keeps -/

/-- What the checks of the handshake are about. -/
structure SameCore (z z' : Session) : Prop where
  transcript : z'.transcript = z.transcript
  host : z'.host = z.host
  clientRandom : z'.clientRandom = z.clientRandom
  serverRandom : z'.serverRandom = z.serverRandom
  leaf : z'.leaf = z.leaf
  ders : z'.ders = z.ders
  sHs : z'.sHs = z.sHs
  master : z'.master = z.master
  v12 : z'.v12 = z.v12
  ccsOk : z'.ccsOk = z.ccsOk
  retried : z'.retried = z.retried

theorem SameCore.refl (z : Session) : SameCore z z := ⟨rfl, rfl, rfl, rfl, rfl, rfl, rfl, rfl, rfl, rfl, rfl⟩

theorem sendEncrypted_keeps
    (hI : ∀ z record answers wire seals cSeq, I z → I { z with record, answers, wire, seals, cSeq })
    (type : UInt8) (data : Bytes) : Preserves I (sendEncrypted K type data) := by
  have hseal : ∀ nonce aad data, Preserves I (sealOurs K nonce aad data) := fun nonce aad data =>
    Preserves.bind Preserves.get fun _ => Preserves.bind
      (Preserves.modify fun _ h => hI _ _ _ _ _ _ h) fun _ => Preserves.pure _
  have hwrite : ∀ data, Preserves I (writeAll data) := fun data =>
    Preserves.bind (fun _ h => hI _ _ _ _ _ _ h) fun _ =>
      Preserves.ite (Preserves.modify fun _ h => hI _ _ _ _ _ _ h) Preserves.stop
  have hrecord : ∀ out : Bytes, Preserves I (modify fun z => { z with record := put z.record 0 out }) :=
    fun out => Preserves.modify fun _ h => hI _ _ _ _ _ _ h
  refine Preserves.bind Preserves.get fun z => Preserves.ite ?_ ?_
  · refine Preserves.ite Preserves.stop (Preserves.bind Preserves.get fun _ => ?_)
    exact Preserves.bind (hseal _ _ _) fun _ => Preserves.bind (hrecord _) fun _ => hwrite _
  · refine Preserves.ite Preserves.stop (Preserves.bind Preserves.get fun _ => ?_)
    exact Preserves.bind (hseal _ _ _) fun _ => Preserves.bind (hrecord _) fun _ => hwrite _

theorem sendPlainRecord_keeps
    (hI : ∀ z record answers wire, I z → I { z with record, answers, wire })
    (type : UInt8) (data : Bytes) : Preserves I (sendPlainRecord type data) := by
  refine Preserves.ite Preserves.stop (Preserves.bind (Preserves.modify fun _ h => hI _ _ _ _ h) fun _ => ?_)
  exact Preserves.bind (fun _ h => hI _ _ _ _ h) fun _ =>
    Preserves.ite (Preserves.modify fun _ h => hI _ _ _ _ h) Preserves.stop

theorem sendAlert_keeps
    (hI : ∀ z record answers wire seals cSeq alerted, I z →
      I { z with record, answers, wire, seals, cSeq, alerted })
    (desc : Alert) : Preserves I (sendAlert K desc) := by
  refine Preserves.bind Preserves.get fun z => Preserves.ite (Preserves.pure _) ?_
  refine Preserves.bind (Preserves.modify fun _ h => hI _ _ _ _ _ _ _ h) fun _ =>
    Preserves.bind (Preserves.attempt (Preserves.ite ?_ ?_)) fun _ => Preserves.pure _
  · exact sendEncrypted_keeps (fun _ _ _ _ _ _ h => hI _ _ _ _ _ _ _ h) _ _
  · exact sendPlainRecord_keeps (fun _ _ _ _ h => hI _ _ _ _ _ _ _ h) _ _

theorem sameCore_blind (z : Session) : Blind K (SameCore z) where
  reading := fun _ _ _ _ _ _ _ _ _ _ _ _ _ h => { h with }
  changed := fun _ _ _ _ h => { h with }
  alert := sendAlert_keeps fun _ _ _ _ _ _ _ h => { h with }

theorem sameCore_outlives (z : Session) : Outlives (SameCore z) := fun _ _ h => { h with }

def OnlyChange (z z' : Session) : Prop :=
  z'.v12 = z.v12 ∧ z'.ccsOk = z.ccsOk ∧
    ((z'.sSealed = z.sSealed ∧ z'.log = z.log) ∨
      (z.v12 = true ∧ z.ccsOk = true ∧ z.sSealed = false ∧ z'.sSealed = true ∧
        z'.log = z.log ++ [.changed]))

theorem onlyChange_blind (z : Session) : Blind K (OnlyChange z) where
  reading := fun _ _ _ _ _ _ _ _ _ _ _ _ _ h => h
  changed := by
    rintro z' hv12 hccs hsealed ⟨hv, hc, ⟨hs, hlog⟩ | ⟨-, -, -, hs, -⟩⟩
    · exact ⟨hv, hc, .inr ⟨hv ▸ hv12, hc ▸ hccs, hs ▸ hsealed, rfl, by rw [hlog]⟩⟩
    · rw [hsealed] at hs
      cases hs
  alert := sendAlert_keeps fun _ _ _ _ _ _ _ h => h

theorem OnlyChange.trans {z'' : Session} (h : OnlyChange z z') (h' : OnlyChange z' z'') :
    OnlyChange z z'' := by
  obtain ⟨hv, hc, hone⟩ := h
  obtain ⟨hv', hc', hone'⟩ := h'
  refine ⟨hv'.trans hv, hc'.trans hc, ?_⟩
  rcases hone with ⟨hs, hlog⟩ | ⟨h1, h2, h3, hs, hlog⟩
  · rw [hv, hc, hs, hlog] at hone'
    exact hone'
  · rcases hone' with ⟨hs', hlog'⟩ | ⟨-, -, h3', -, -⟩
    · exact .inr ⟨h1, h2, h3, hs'.trans hs, hlog'.trans hlog⟩
    · rw [hs] at h3'
      cases h3'

/-! ## A message that was taken -/

theorem hsWhole_eq {avail : Bytes} (h : hsWhole avail = some m) :
    m.type = byteAt m.whole 0 ∧ m.body = m.whole.drop 4 := by
  unfold hsWhole at h
  dsimp only at h
  split at h
  · next hlen =>
    cases h
    obtain ⟨a, rest, rfl⟩ := List.exists_cons_of_length_pos (by omega : 0 < avail.length)
    refine ⟨?_, ?_⟩
    · rw [Nat.add_comm, List.take_succ_cons]
      rfl
    · rw [List.drop_take, Nat.add_sub_cancel_left]
  · cases h

/-- A message was taken: perhaps after a change of cipher, it is the newest in the log. -/
structure Taken (z : Session) (m : Msg) (z' : Session) : Prop where
  core : SameCore z z'
  type : m.type = byteAt m.whole 0
  body : m.body = m.whole.drop 4
  log : ∃ z1, OnlyChange z z1 ∧ z'.sSealed = z1.sSealed ∧ z'.log = z1.log ++ [.got m.whole]

theorem hsNextLoop_taken
    (h : hsNextLoop K encrypted left z = (some m, z')) :
    m.type = byteAt m.whole 0 ∧ m.body = m.whole.drop 4 ∧
      ∃ z1, OnlyChange z z1 ∧ z'.sSealed = z1.sSealed ∧ z'.log = z1.log ++ [.got m.whole] := by
  induction left generalizing z with
  | zero =>
    simp only [hsNextLoop, bind_eq_some, failWith_ne, and_false, exists_false] at h
  | succ left ih =>
    unfold hsNextLoop at h
    rw [bind_get] at h
    split_ifs at h
    · exact absurd h refuse_ne
    · cases hwhole : hsWhole (z.hs.drop z.hsPos) with
      | some m' =>
        rw [hwhole] at h
        simp only [note, bind_modify, pure_apply, Prod.mk.injEq, Option.some.injEq] at h
        obtain ⟨rfl, rfl⟩ := h
        obtain ⟨htype, hbody⟩ := hsWhole_eq hwhole
        exact ⟨htype, hbody, z, ⟨rfl, rfl, .inl ⟨rfl, rfl⟩⟩, rfl, rfl⟩
      | none =>
        rw [hwhole] at h
        simp only [bind_modify, bind_eq_some] at h
        obtain ⟨u, z2, hfill, hnext⟩ := h
        have hchange : OnlyChange z z2 := by
          refine (hsFill_preserves (onlyChange_blind z) encrypted).of_eq hfill ?_
          exact ⟨rfl, rfl, .inl ⟨rfl, rfl⟩⟩
        obtain ⟨htype, hbody, z3, hchange', hrest⟩ := ih hnext
        exact ⟨htype, hbody, z3, hchange.trans hchange', hrest⟩

theorem hsNext_taken (h : hsNext K encrypted z = (some m, z')) :
    Taken z m z' := by
  obtain ⟨htype, hbody, hlog⟩ := hsNextLoop_taken h
  exact ⟨(hsNext_preserves (sameCore_blind z) (sameCore_outlives z) encrypted).of_eq h
    (SameCore.refl z), htype, hbody, hlog⟩

theorem Taken.no_change (h : Taken z m z') (hno : z.v12 = false ∨ z.ccsOk = false) :
    z'.sSealed = z.sSealed ∧ z'.log = z.log ++ [.got m.whole] := by
  obtain ⟨z1, ⟨-, -, hone⟩, hs, hlog⟩ := h.log
  rcases hone with ⟨hs1, hlog1⟩ | ⟨hv, hc, -⟩
  · exact ⟨hs.trans hs1, by rw [hlog, hlog1]⟩
  · simp [hv, hc] at hno

/-! ## The chain that was sent -/

def sentCerts (withExts : Bool) : Nat → Bytes → List Bytes
  | 0, _ => []
  | left + 1, body =>
    if body.length < 3 then []
    else
      let clen := be24 body 0
      let rest := body.drop 3
      let after := rest.drop clen
      rest.take clen ::
        if withExts then
          if after.length < 2 then [] else sentCerts withExts left (after.drop (2 + be16 after 0))
        else sentCerts withExts left after

theorem chainLoop_ok {ders ders' : List Bytes}
    (h : chainLoop K withExts left body ders z = (some ders', z')) :
    z = z' ∧ ders' = ders ++ (sentCerts withExts left body).take (X509.X509_MAX_CHAIN - ders.length) := by
  induction left generalizing body ders with
  | zero =>
    simp only [chainLoop, pure_apply, Prod.mk.injEq, Option.some.injEq] at h
    simp [sentCerts, h.1.symm, h.2]
  | succ left ih =>
    unfold chainLoop at h
    by_cases hstop : body.length < 3 ∨ X509.X509_MAX_CHAIN ≤ ders.length
    · rw [if_pos hstop] at h
      simp only [pure_apply, Prod.mk.injEq, Option.some.injEq] at h
      refine ⟨h.2, ?_⟩
      rcases hstop with hshort | hfull
      · simp [sentCerts, hshort, h.1]
      · rw [Nat.sub_eq_zero_of_le hfull, List.take_zero, List.append_nil, h.1]
    · rw [if_neg hstop] at h
      obtain ⟨hlong, hroom⟩ := not_or.mp hstop
      simp only [refuseIf_bind_ok] at h
      obtain ⟨-, -, h⟩ := h
      set cert := (body.drop 3).take (be24 body 0) with hcert
      have hmore : X509.X509_MAX_CHAIN - ders.length =
          (X509.X509_MAX_CHAIN - (ders ++ [cert]).length) + 1 := by
        rw [List.length_append, List.length_singleton]
        omega
      rw [sentCerts, if_neg hlong, hmore, List.take_succ_cons, ← hcert]
      split_ifs at h ⊢ with hexts hend
      · simp only [pure_apply, Prod.mk.injEq, Option.some.injEq] at h
        exact ⟨h.2, by simp [h.1]⟩
      · obtain ⟨hz, hders⟩ := ih h
        exact ⟨hz, by rw [hders]; simp⟩
      · obtain ⟨hz, hders⟩ := ih h
        exact ⟨hz, by rw [hders]; simp⟩

/-- A certificate message was read into a leaf and the chain it came with. -/
structure ChainRead (withExts : Bool) (list : Bytes) (z : Session) : Prop where
  ders : z.ders = (sentCerts withExts list.length list).take X509.X509_MAX_CHAIN
  leaf : ∃ leaf, z.leaf = some leaf ∧ X509.x509Parse (z.ders.headD []) = some leaf

theorem readChain_ok {list : Bytes}
    (h : readChain K list withExts z = (some u, z')) :
    ChainRead withExts list z' ∧ ∃ ders leaf, z' = { z with ders, leaf } := by
  unfold readChain at h
  simp only [bind_eq_some, refuseIf_ok] at h
  obtain ⟨ders, z1, hloop, -, z2, ⟨-, rfl⟩, h⟩ := h
  obtain ⟨rfl, hders⟩ := chainLoop_ok hloop
  cases hleaf : X509.x509Parse (ders.headD []) with
  | none =>
    rw [hleaf] at h
    exact absurd h refuse_ne
  | some leaf =>
    rw [hleaf] at h
    simp only [modify_apply, Prod.mk.injEq] at h
    obtain ⟨-, rfl⟩ := h
    refine ⟨⟨by simpa using hders, leaf, rfl, hleaf⟩, ders, some leaf, rfl⟩

theorem verifyHost_ok (h : verifyHost K z = (some u, z')) :
    z = z' ∧ X509.x509VerifyChain K.toPrims K.roots z.ders z.host K.now = .ok := by
  unfold verifyHost at h
  rw [bind_get, refuseIf_ok] at h
  obtain ⟨hok, rfl⟩ := h
  exact ⟨rfl, by simpa using hok⟩

theorem checkSigned_ok {scheme : Nat} {sig signed : Bytes} {v12 : Bool}
    {wrong : String} (h : checkSigned K leaf scheme sig signed v12 wrong z = (some u, z')) :
    z = z' ∧ signedBy K leaf scheme sig (K.sha256 signed) (K.sha384 signed) v12 = some true := by
  unfold checkSigned at h
  rcases hgood : signedBy K leaf scheme sig (K.sha256 signed) (K.sha384 signed) v12 with _ | _ | _
  · rw [hgood] at h
    exact absurd h refuse_ne
  · rw [hgood] at h
    exact absurd h refuse_ne
  · rw [hgood] at h
    simp only [pure_apply, Prod.mk.injEq] at h
    exact ⟨h.2, rfl⟩

/-! ## TLS 1.3 -/

def certList13 (body : Bytes) : Bytes :=
  let ctx := (byteAt body 0).toNat
  (body.drop (1 + ctx + 3)).take (be24 body (1 + ctx))

theorem certificate13_ok (h : certificate13 K body z = (some u, z')) :
    ChainRead true (certList13 body) z' ∧ ∃ ders leaf, z' = { z with ders, leaf } := by
  unfold certificate13 at h
  simp only [refuseIf_bind_ok] at h
  obtain ⟨-, -, -, h⟩ := h
  exact readChain_ok h

def Signed13 (K : Prims) (leaf : X509.Cert) (body transcript : Bytes) : Prop :=
  let signed := certVerifyInput (K.sha256 transcript)
  signedBy K leaf (be16 body 0) (body.drop 4) (K.sha256 signed) (K.sha384 signed) false = some true

def Finished13 (K : Prims) (sHs body transcript : Bytes) : Prop :=
  ∃ fkey, K.hkdfExpandLabel sHs "finished" [] 32 = some fkey ∧
    body = K.hmacSha256 fkey (K.sha256 transcript)

theorem checkCertVerify_ok
    (h : checkCertVerify K body leaf hash z = (some u, z')) :
    z = z' ∧ signedBy K leaf (be16 body 0) (body.drop 4) (K.sha256 (certVerifyInput hash))
      (K.sha384 (certVerifyInput hash)) false = some true := by
  unfold checkCertVerify at h
  simp only [refuseIf_bind_ok] at h
  obtain ⟨-, -, h⟩ := h
  exact checkSigned_ok h

theorem finished13_ok (h : finished13 K body z = (some u, z')) :
    z = z' ∧ Finished13 K z.sHs body z.transcript := by
  unfold finished13 at h
  simp only [bind_get, bind_eq_some, refuseIf_ok, derive_ok] at h
  obtain ⟨fkey, z1, ⟨hkey, rfl⟩, hmac, rfl⟩ := h
  simp only [Bool.or_eq_false_iff, bne_eq_false_iff_eq] at hmac
  exact ⟨rfl, fkey, hkey, hmac.2.symm⟩

theorem tlsFlightStep_ok {next : Nat} (h : tlsFlightStep step type = .ok next) :
    [HS_ENCRYPTED_EXT, HS_CERTIFICATE, HS_CERT_VERIFY, HS_FINISHED][step]? = some type ∧
      next = step + 1 := by
  unfold tlsFlightStep at h
  split at h
  · cases h
  · next expected hget =>
    split_ifs at h with htype
    · cases h
      exact ⟨by rw [hget, htype], rfl⟩

/-- A message joined the log and the transcript. -/
structure Turn (z : Session) (e : Event) (msg : Bytes) (z' : Session) : Prop where
  log : z'.log = z.log ++ [e]
  transcript : z'.transcript = z.transcript ++ msg
  host : z'.host = z.host
  clientRandom : z'.clientRandom = z.clientRandom
  serverRandom : z'.serverRandom = z.serverRandom
  sHs : z'.sHs = z.sHs
  v12 : z'.v12 = z.v12
  ccsOk : z'.ccsOk = z.ccsOk
  sSealed : z'.sSealed = z.sSealed
  retried : z'.retried = z.retried

theorem Taken.turn {z1 : Session} (h : Taken z m z1) (hno : z.v12 = false ∨ z.ccsOk = false)
    (ders : List Bytes) (leaf : Option X509.Cert) :
    Turn z (.got m.whole) m.whole
      { z1 with ders, leaf, transcript := z1.transcript ++ m.whole } := by
  obtain ⟨hsealed, hlog⟩ := h.no_change hno
  have hcore := h.core
  exact ⟨hlog, by dsimp only; rw [hcore.transcript], hcore.host, hcore.clientRandom,
    hcore.serverRandom, hcore.sHs, hcore.v12, hcore.ccsOk, hsealed, hcore.retried⟩

theorem flight13_turn
    (hstep : [HS_ENCRYPTED_EXT, HS_CERTIFICATE, HS_CERT_VERIFY, HS_FINISHED][step]? = some type)
    (hv12 : z.v12 = false) (h : flight13 K (left + 1) step z = (some u, z')) :
    ∃ m z1 z2, m.type = type ∧ byteAt m.whole 0 = type ∧ m.body = m.whole.drop 4 ∧ SameCore z z1 ∧
      read13 K m z1 = (some (), z2) ∧
      (∀ ders leaf, z2 = { z1 with ders, leaf } →
        Turn z (.got m.whole) m.whole { z2 with transcript := z2.transcript ++ m.whole }) ∧
      (if m.type = HS_FINISHED then pure () else flight13 K left (step + 1) : Act Session Unit)
        { z2 with transcript := z2.transcript ++ m.whole } = (some (), z') := by
  unfold flight13 at h
  rw [bind_eq_some] at h
  obtain ⟨m, z1, hnext, h⟩ := h
  cases hflight : tlsFlightStep step m.type with
  | error why =>
    rw [hflight] at h
    exact absurd h refuse_ne
  | ok next =>
    rw [hflight] at h
    simp only [bind_eq_some, hashIn, bind_modify] at h
    obtain ⟨⟨⟩, z2, hread, h⟩ := h
    obtain ⟨htype, rfl⟩ := tlsFlightStep_ok hflight
    rw [hstep] at htype
    obtain rfl := Option.some.inj htype
    have htaken := hsNext_taken hnext
    refine ⟨m, z1, z2, rfl, htaken.type.symm, htaken.body, htaken.core, hread, ?_, h⟩
    rintro ders leaf rfl
    exact htaken.turn (.inl hv12) ders leaf

theorem flight13_extensions (hv12 : z.v12 = false)
    (h : flight13 K (left + 1) 0 z = (some u, z')) :
    ∃ ee z2, byteAt ee 0 = HS_ENCRYPTED_EXT ∧ Turn z (.got ee) ee z2 ∧ flight13 K left 1 z2 = (some (), z') := by
  obtain ⟨m, z1, z2, htype, hfirst, -, -, hread, hturn, h⟩ := flight13_turn rfl hv12 h
  rw [read13, if_pos htype] at hread
  obtain ⟨-, rfl⟩ := Prod.mk.inj hread
  rw [if_neg (by rw [htype]; decide)] at h
  exact ⟨m.whole, _, hfirst, hturn _ _ rfl, h⟩

theorem flight13_certificate (hv12 : z.v12 = false)
    (h : flight13 K (left + 1) 1 z = (some u, z')) :
    ∃ cert z2, byteAt cert 0 = HS_CERTIFICATE ∧ Turn z (.got cert) cert z2 ∧
      ChainRead true (certList13 (cert.drop 4)) z2 ∧ flight13 K left 2 z2 = (some (), z') := by
  obtain ⟨m, z1, z2, htype, hfirst, hbody, -, hread, hturn, h⟩ := flight13_turn rfl hv12 h
  rw [read13, if_neg (by rw [htype]; decide), if_pos htype] at hread
  obtain ⟨⟨hders, hleaf⟩, ders, leaf, hz2⟩ := certificate13_ok hread
  rw [if_neg (by rw [htype]; decide)] at h
  rw [hbody] at hders
  exact ⟨m.whole, _, hfirst, hturn _ _ hz2, ⟨hders, hleaf⟩, h⟩

theorem flight13_signature (hv12 : z.v12 = false)
    (h : flight13 K (left + 1) 2 z = (some u, z')) :
    ∃ cv z2, byteAt cv 0 = HS_CERT_VERIFY ∧ Turn z (.got cv) cv z2 ∧ z2.leaf = z.leaf ∧ z2.ders = z.ders ∧
      (∀ leaf, z.leaf = some leaf → Signed13 K leaf (cv.drop 4) z.transcript) ∧
      flight13 K left 3 z2 = (some (), z') := by
  obtain ⟨m, z1, z2, htype, hfirst, hbody, hcore, hread, hturn, h⟩ := flight13_turn rfl hv12 h
  have hleaf := hcore.leaf
  rw [read13, if_neg (by rw [htype]; decide), if_neg (by rw [htype]; decide), if_pos htype] at hread
  simp only [bind_get, bind_eq_some, ofOption_apply, Prod.mk.injEq] at hread
  obtain ⟨l, z3, ⟨hl, rfl⟩, hread⟩ := hread
  obtain ⟨rfl, hsigned⟩ := checkCertVerify_ok hread
  rw [if_neg (by rw [htype]; decide)] at h
  refine ⟨m.whole, _, hfirst, hturn _ _ rfl, hleaf, hcore.ders, fun leaf hsent => ?_, h⟩
  rw [hleaf, hsent] at hl
  obtain rfl := Option.some.inj hl
  rw [transcriptHash, hcore.transcript, hbody] at hsigned
  exact hsigned

theorem flight13_finished (hv12 : z.v12 = false)
    (h : flight13 K (left + 1) 3 z = (some u, z')) :
    ∃ fin, byteAt fin 0 = HS_FINISHED ∧ Turn z (.got fin) fin z' ∧ z'.leaf = z.leaf ∧ z'.ders = z.ders ∧
      Finished13 K z.sHs (fin.drop 4) z.transcript := by
  obtain ⟨m, z1, z2, htype, hfirst, hbody, hcore, hread, hturn, h⟩ := flight13_turn rfl hv12 h
  rw [read13, if_neg (by rw [htype]; decide), if_neg (by rw [htype]; decide),
    if_neg (by rw [htype]; decide)] at hread
  obtain ⟨rfl, hfinished⟩ := finished13_ok hread
  rw [if_pos htype] at h
  obtain ⟨-, rfl⟩ := Prod.mk.inj h
  rw [hbody, hcore.sHs, hcore.transcript] at hfinished
  exact ⟨m.whole, hfirst, hturn _ _ rfl, hcore.leaf, hcore.ders, hfinished⟩

/-- The four messages of the server's flight, and what was checked of each. -/
structure Flight13 (K : Prims) (z z' : Session) (ee cert cv fin : Bytes) : Prop where
  log : z'.log = z.log ++ [.got ee, .got cert, .got cv, .got fin]
  types : byteAt ee 0 = HS_ENCRYPTED_EXT ∧ byteAt cert 0 = HS_CERTIFICATE ∧
    byteAt cv 0 = HS_CERT_VERIFY ∧ byteAt fin 0 = HS_FINISHED
  chain : ChainRead true (certList13 (cert.drop 4)) z'
  signed : ∀ leaf, z'.leaf = some leaf → Signed13 K leaf (cv.drop 4) (z.transcript ++ ee ++ cert)
  finished : Finished13 K z'.sHs (fin.drop 4) (z.transcript ++ ee ++ cert ++ cv)
  host : z'.host = z.host
  v12 : z'.v12 = z.v12

theorem flight13_ok (hv12 : z.v12 = false) (h : flight13 K 4 0 z = (some u, z')) :
    ∃ ee cert cv fin, Flight13 K z z' ee cert cv fin := by
  obtain ⟨ee, z1, hee, t1, h⟩ := flight13_extensions hv12 h
  obtain ⟨cert, z2, hcert, t2, hchain, h⟩ := flight13_certificate (t1.v12.trans hv12) h
  obtain ⟨cv, z3, hcv, t3, hleaf3, hders3, hsigned, h⟩ :=
    flight13_signature (t2.v12.trans (t1.v12.trans hv12)) h
  obtain ⟨fin, hfin, t4, hleaf4, hders4, hfinished⟩ :=
    flight13_finished (t3.v12.trans (t2.v12.trans (t1.v12.trans hv12))) h
  have hleaf : z'.leaf = z2.leaf := hleaf4.trans hleaf3
  have hders : z'.ders = z2.ders := hders4.trans hders3
  have htr : z2.transcript = z.transcript ++ ee ++ cert := by rw [t2.transcript, t1.transcript]
  refine ⟨ee, cert, cv, fin, ?_, ⟨hee, hcert, hcv, hfin⟩, ?_, ?_, ?_, ?_, ?_⟩
  · rw [t4.log, t3.log, t2.log, t1.log]
    simp
  · exact ⟨hders.trans hchain.ders, by rw [hleaf, hders]; exact hchain.leaf⟩
  · rw [hleaf, ← htr]
    exact hsigned
  · rw [t4.sHs, ← htr, ← t3.transcript]
    exact hfinished
  · rw [t4.host, t3.host, t2.host, t1.host]
  · rw [t4.v12, t3.v12, t2.v12, t1.v12]

/-! ## The hellos -/

/-- A handshake message of ours went out in the clear. -/
structure Said (z : Session) (msg : Bytes) (z' : Session) : Prop where
  turn : Turn z (.sent msg) msg z'
  leaf : z'.leaf = z.leaf
  ders : z'.ders = z.ders
  master : z'.master = z.master

theorem Said.start (z : Session) (msg : Bytes) :
    Said z msg { z with transcript := z.transcript ++ msg, log := z.log ++ [.sent msg] } :=
  ⟨⟨rfl, rfl, rfl, rfl, rfl, rfl, rfl, rfl, rfl, rfl⟩, rfl, rfl, rfl⟩

theorem said_keeps (type : UInt8) (data : Bytes) :
    Preserves (Said z msg) (sendPlainRecord type data) :=
  sendPlainRecord_keeps (fun _ _ _ _ h => { h with turn := { h.turn with } }) type data

theorem sendHandshake_ok
    (h : sendHandshake msg why z = (some u, z')) : Said z msg z' := by
  unfold sendHandshake at h
  simp only [hashIn, note, bind_modify, orFail_ok] at h
  exact (said_keeps _ _).of_eq h (Said.start z msg)

theorem alloc_ok (h : alloc why z = (some u, z')) :
    z' = { z with answers := z.answers.tail } := by
  unfold alloc at h
  simp only [bind_eq_some, ask, Prod.mk.injEq, Option.some.injEq] at h
  obtain ⟨ok, z1, ⟨-, rfl⟩, h⟩ := h
  split_ifs at h
  · exact (Prod.mk.inj h).2.symm
  · exact absurd h failWith_ne

theorem sendClientHello_ok (h : sendClientHello z = (some u, z')) :
    ∃ ch, byteAt ch 0 = HS_CLIENT_HELLO ∧ Said z ch z' := by
  unfold sendClientHello at h
  rw [bind_get] at h
  cases hbody : buildClientHello z (REC_MAX - 4) with
  | none =>
    rw [hbody] at h
    exact absurd h failWith_ne
  | some body =>
    rw [hbody] at h
    simp only [hashIn, note, bind_modify, bind_eq_some, orFail_ok] at h
    obtain ⟨_, z1, halloc, h⟩ := h
    rw [alloc_ok halloc] at h
    refine ⟨framed HS_CLIENT_HELLO body, rfl, (said_keeps _ _).of_eq h ?_⟩
    exact ⟨⟨rfl, rfl, rfl, rfl, rfl, rfl, rfl, rfl, rfl, rfl⟩, rfl, rfl, rfl⟩

structure HelloRead (p : Bytes) (retry : Bool) (z z' : Session) : Prop where
  log : z'.log = z.log
  transcript : z'.transcript = z.transcript
  host : z'.host = z.host
  clientRandom : z'.clientRandom = z.clientRandom
  ccsOk : z'.ccsOk = z.ccsOk
  sSealed : z'.sSealed = z.sSealed
  retried : z'.retried = z.retried
  v12 : z'.v12 = z.v12 ∨ z'.v12 = true ∧ retry = false ∧ z.retried = false ∧
    z'.serverRandom = (p.drop 2).take 32 ∧ downgraded z'.serverRandom = false

theorem serverHello12_ok {sid : Bytes} {legacy suite : Nat}
    {retry : Bool}
    (h : serverHello12 K retry legacy ((p.drop 2).take 32) sid suite exts z = (some r, z')) :
    HelloRead p r z z' := by
  unfold serverHello12 at h
  simp only [bind_get, refuseIf_bind_ok, bind_modify, pure_apply, Prod.mk.injEq, Option.some.injEq] at h
  obtain ⟨-, hretried, -, hdown, -, -, -, -, rfl, rfl⟩ := h
  exact ⟨rfl, rfl, rfl, rfl, rfl, rfl, rfl, .inr ⟨rfl, rfl, hretried, rfl, hdown⟩⟩

theorem helloRetry_ok {cookie : Option Bytes}
    (h : helloRetry K share cookie z = (some r, z')) : HelloRead p r z z' := by
  unfold helloRetry at h
  simp only [bind_get, refuseIf_bind_ok, bind_modify, pure_apply, Prod.mk.injEq] at h
  obtain ⟨-, -, -, -, -, -, rfl⟩ := h
  exact ⟨rfl, rfl, rfl, rfl, rfl, rfl, rfl, .inl rfl⟩

theorem helloShare_ok
    (h : helloShare K share z = (some r, z')) : HelloRead p r z z' := by
  unfold helloShare at h
  rw [bind_get] at h
  cases share with
  | none => exact absurd h refuse_ne
  | some q =>
    simp only [refuseIf_bind_ok, bind_modify, pure_apply, Prod.mk.injEq] at h
    obtain ⟨-, -, -, rfl⟩ := h
    exact ⟨rfl, rfl, rfl, rfl, rfl, rfl, rfl, .inl rfl⟩

theorem helloExts_ok {rest : Bytes}
    (h : helloExts K rest z = (some exts, z')) : z = z' := by
  unfold helloExts at h
  split_ifs at h
  · exact (Prod.mk.inj h).2
  · rw [refuseIf_bind_ok] at h
    obtain ⟨-, h⟩ := h
    cases hexts : parseExts (be16 rest 0) ((rest.drop 2).take (be16 rest 0)) with
    | none =>
      rw [hexts] at h
      exact absurd h refuse_ne
    | some exts' =>
      rw [hexts] at h
      exact (Prod.mk.inj h).2

theorem parseServerHello_ok (h : parseServerHello K p z = (some r, z')) :
    HelloRead p r z z' := by
  unfold parseServerHello at h
  simp only [refuseIf_bind_ok] at h
  obtain ⟨-, -, -, h⟩ := h
  rw [bind_eq_some] at h
  obtain ⟨exts, z1, hexts, h⟩ := h
  obtain rfl := helloExts_ok hexts
  cases hversion : extOf exts 0x002b with
  | none =>
    rw [hversion] at h
    exact serverHello12_ok h
  | some version =>
    rw [hversion] at h
    unfold serverHello13 at h
    simp only [bind_get, refuseIf_bind_ok] at h
    obtain ⟨-, -, -, -, h⟩ := h
    split_ifs at h
    · exact helloRetry_ok h
    · exact helloShare_ok h

/-- How a handshake may begin, and what is in the transcript after it. -/
inductive Hello (K : Prims) : List Event → Bytes → Prop
  | direct (ch sh : Bytes) : Hello K [.sent ch, .got sh] (ch ++ sh)
  | again (ch request ch' sh : Bytes) :
    Hello K [.sent ch, .got request, .sent ch', .got sh]
      ([HS_MESSAGE_HASH, 0, 0, 32] ++ K.sha256 ch ++ request ++ ch' ++ sh)

def randomOf (sh : Bytes) : Bytes := ((sh.drop 4).drop 2).take 32

/-- The hellos are over: which they were, and that a 1.2 answer was not a forced one. -/
structure Greeted (K : Prims) (z z' : Session) : Prop where
  spine : Hello K z'.log z'.transcript
  host : z'.host = z.host
  clientRandom : z'.clientRandom = z.clientRandom
  ccsOk : z'.ccsOk = z.ccsOk
  sSealed : z'.sSealed = z.sSealed
  v12 : z'.v12 = true → ∃ ch sh, z'.log = [.sent ch, .got sh] ∧ z'.transcript = ch ++ sh ∧
    z'.serverRandom = randomOf sh ∧ downgraded (randomOf sh) = false

/-- Nothing the checks are about has moved, and nothing joined the log. -/
structure Still (z z' : Session) : Prop where
  core : SameCore z z'
  log : z'.log = z.log
  sSealed : z'.sSealed = z.sSealed

theorem Still.refl (z : Session) : Still z z := ⟨SameCore.refl z, rfl, rfl⟩

theorem still_blind (hno : z.v12 = false ∨ z.ccsOk = false) : Blind K (Still z) where
  reading := fun _ _ _ _ _ _ _ _ _ _ _ _ _ h => ⟨{ h.core with }, h.log, h.sSealed⟩
  changed := by
    intro z' hv hc _ h
    rw [h.core.v12] at hv
    rw [h.core.ccsOk] at hc
    simp [hv, hc] at hno
  alert := sendAlert_keeps fun _ _ _ _ _ _ _ h => ⟨{ h.core with }, h.log, h.sSealed⟩

theorem p256Key_still (hno : z.v12 = false ∨ z.ccsOk = false) (tries : Nat) :
    Preserves (Still z) (p256Key K tries) :=
  p256Key_keeps (still_blind hno) (fun _ _ _ _ h => ⟨{ h.core with }, h.log, h.sSealed⟩) tries

/-- A server's hello was taken and read, and is not hashed yet. -/
structure Heard (z : Session) (sh : Bytes) (r : Bool) (z' : Session) : Prop where
  log : z'.log = z.log ++ [.got sh]
  read : HelloRead (sh.drop 4) r { z with log := z'.log } z'

theorem helloLoop_turn (hv12 : z.v12 = false)
    (h : helloLoop K (left + 1) z = (some u, z')) :
    ∃ sh r z2, Heard z sh r z2 ∧
      (if r then z2.retried = false ∧ ∃ z3 ch z4,
          Still { z2 with
            retried := true,
            transcript := [HS_MESSAGE_HASH, 0, 0, 32] ++ K.sha256 z2.transcript ++ sh } z3 ∧
          Said z3 ch z4 ∧ helloLoop K left z4 = (some (), z')
        else z' = { z2 with transcript := z2.transcript ++ sh }) := by
  unfold helloLoop at h
  simp only [bind_eq_some, refuseIf_ok] at h
  obtain ⟨m, z1, hnext, _, _, ⟨-, rfl⟩, r, z2, hparse, h⟩ := h
  have htaken := hsNext_taken hnext
  obtain ⟨hsealed, hlog⟩ := htaken.no_change (.inl hv12)
  have hread := parseServerHello_ok hparse
  have hcore := htaken.core
  have hheard : Heard z m.whole r z2 := by
    refine ⟨hread.log.trans hlog, rfl, ?_, ?_, ?_, ?_, ?_, ?_, ?_⟩
    · exact hread.transcript.trans hcore.transcript
    · exact hread.host.trans hcore.host
    · exact hread.clientRandom.trans hcore.clientRandom
    · exact hread.ccsOk.trans hcore.ccsOk
    · exact hread.sSealed.trans hsealed
    · exact hread.retried.trans hcore.retried
    · rw [← htaken.body, ← hcore.v12, ← hcore.retried]
      exact hread.v12
  refine ⟨m.whole, r, z2, hheard, ?_⟩
  cases r with
  | false =>
    obtain ⟨-, rfl⟩ := Prod.mk.inj h
    rfl
  | true =>
    have hv2 : z2.v12 = false := by
      rcases hheard.read.v12 with hv | ⟨-, hr, -⟩
      · exact hv.trans hv12
      · cases hr
    simp only [if_true, bind_get, refuseIf_bind_ok, transcriptRestart, bind_modify] at h
    obtain ⟨hretried, h⟩ := h
    simp only [bind_eq_some] at h
    obtain ⟨_, z3, hkey, _, z4, hhello, h⟩ := h
    obtain ⟨ch, -, hsaid⟩ := sendClientHello_ok hhello
    refine ⟨hretried, z3, ch, z4, ?_, hsaid, h⟩
    unfold restartKey at hkey
    split_ifs at hkey
    · refine (p256Key_still ?_ _).of_eq hkey (Still.refl _)
      exact .inl hv2
    · obtain ⟨-, rfl⟩ := Prod.mk.inj hkey
      exact Still.refl _

theorem helloLoop_ok (hlog : z.log = [.sent ch]) (htr : z.transcript = ch)
    (hv12 : z.v12 = false) (h : helloLoop K 2 z = (some u, z')) :
    Greeted K z z' := by
  obtain ⟨sh, r, z2, ⟨hlog2, hread⟩, h⟩ := helloLoop_turn hv12 h
  rw [hlog] at hlog2
  cases r with
  | false =>
    obtain rfl := h
    refine ⟨?_, hread.host, hread.clientRandom, hread.ccsOk, hread.sSealed, fun hv => ?_⟩
    · dsimp only
      rw [hlog2, hread.transcript.trans htr]
      exact Hello.direct ch sh
    · rcases hread.v12 with hsame | ⟨-, -, -, hrandom, hdown⟩
      · exact absurd (hsame.symm.trans hv) (by simp [hv12])
      · exact ⟨ch, sh, hlog2, by dsimp only; rw [hread.transcript.trans htr], hrandom,
          by rw [randomOf, ← hrandom]; exact hdown⟩
  | true =>
    obtain ⟨-, z3, ch', z4, hstill, hsaid, h⟩ := h
    have hv2 : z2.v12 = false := by
      rcases hread.v12 with hv | ⟨-, hr, -⟩
      · exact hv.trans hv12
      · cases hr
    have hturn := hsaid.turn
    have hv4 : z4.v12 = false := by rw [hturn.v12, hstill.core.v12, hv2]
    have hretried4 : z4.retried = true := by rw [hturn.retried, hstill.core.retried]
    have hlog4 : z4.log = [.sent ch, .got sh, .sent ch'] := by rw [hturn.log, hstill.log, hlog2]; rfl
    have htr4 : z4.transcript = [HS_MESSAGE_HASH, 0, 0, 32] ++ K.sha256 ch ++ sh ++ ch' := by
      rw [hturn.transcript, hstill.core.transcript, hread.transcript, htr]
    obtain ⟨sh', r', z5, ⟨hlog5, hread5⟩, h⟩ := helloLoop_turn hv4 h
    cases r' with
    | true => simp [hread5.retried, hretried4] at h
    | false =>
      obtain rfl := h
      refine ⟨?_, ?_, ?_, ?_, ?_, fun hv => ?_⟩
      · dsimp only
        rw [hlog5, hlog4, hread5.transcript, htr4]
        exact Hello.again ch sh ch' sh'
      · exact hread5.host.trans (hturn.host.trans (hstill.core.host.trans hread.host))
      · exact hread5.clientRandom.trans
          (hturn.clientRandom.trans (hstill.core.clientRandom.trans hread.clientRandom))
      · exact hread5.ccsOk.trans (hturn.ccsOk.trans (hstill.core.ccsOk.trans hread.ccsOk))
      · exact hread5.sSealed.trans (hturn.sSealed.trans (hstill.sSealed.trans hread.sSealed))
      · rcases hread5.v12 with hsame | ⟨-, -, hno, -⟩
        · exact absurd (hsame.symm.trans hv) (by simp [hv4])
        · simp [hretried4] at hno

/-! ## TLS 1.3, whole -/

theorem setOurKeys_ok (h : setOurKeys K secret z = (some u, z')) :
    ∃ key iv, z' = { z with cGcm := key, cIv := iv, cSeq := 0, canSeal := true, stage := z.stage + 1 } := by
  unfold setOurKeys at h
  simp only [bind_eq_some, ofOption_apply, modify_apply, Prod.mk.injEq] at h
  obtain ⟨key, _, ⟨-, rfl⟩, iv, _, ⟨-, rfl⟩, -, rfl⟩ := h
  exact ⟨key, iv, rfl⟩

theorem setTheirKeys_ok (h : setTheirKeys K secret z = (some u, z')) :
    ∃ key iv, z' = { z with sGcm := key, sIv := iv, sSeq := 0 } := by
  unfold setTheirKeys at h
  simp only [bind_eq_some, ofOption_apply, modify_apply, Prod.mk.injEq] at h
  obtain ⟨key, _, ⟨-, rfl⟩, iv, _, ⟨-, rfl⟩, -, rfl⟩ := h
  exact ⟨key, iv, rfl⟩

theorem handshakeKeys13_ok (h : handshakeKeys13 K z = (some u, z')) :
    z'.log = z.log ∧ z'.transcript = z.transcript ∧ z'.host = z.host ∧ z'.v12 = z.v12 := by
  unfold handshakeKeys13 at h
  simp only [bind_get, bind_modify, bind_eq_some, ofOption_apply, Prod.mk.injEq, orRefuse_ok, derive_ok] at h
  obtain ⟨_, _, ⟨-, rfl⟩, _, _, ⟨-, rfl⟩, _, _, ⟨-, rfl⟩, _, _, ⟨-, rfl⟩, _, _, htheirs, hours⟩ := h
  obtain ⟨_, _, rfl⟩ := setTheirKeys_ok htheirs
  obtain ⟨_, _, rfl⟩ := setOurKeys_ok hours
  exact ⟨rfl, rfl, rfl, rfl⟩

theorem finish13_ok (h : finish13 K z = (some u, z')) :
    ∃ ours, z'.log = z.log ++ [.sent ours] ∧ z'.ders = z.ders ∧ z'.leaf = z.leaf ∧ z'.sHs = z.sHs ∧
      z'.v12 = z.v12 := by
  unfold finish13 at h
  simp only [bind_get, note, bind_modify, bind_eq_some, orRefuse_ok, orFail_ok, derive_ok] at h
  obtain ⟨fkey, _, ⟨-, rfl⟩, _, z1, hsend, _, _, ⟨-, rfl⟩, _, _, ⟨-, rfl⟩, _, _, ⟨-, rfl⟩, _, _, hours, htheirs⟩ := h
  obtain ⟨_, _, rfl⟩ := setOurKeys_ok hours
  obtain ⟨_, _, rfl⟩ := setTheirKeys_ok htheirs
  refine ⟨[HS_FINISHED, 0, 0, 32] ++ K.hmacSha256 fkey (transcriptHash K z), ?_⟩
  refine (sendEncrypted_keeps ?_ REC_HANDSHAKE _).of_eq (I := fun z1 : Session =>
    z1.log = z.log ++ [.sent ([HS_FINISHED, 0, 0, 32] ++ K.hmacSha256 fkey (transcriptHash K z))] ∧
      z1.ders = z.ders ∧ z1.leaf = z.leaf ∧ z1.sHs = z.sHs ∧ z1.v12 = z.v12) hsend ⟨rfl, rfl, rfl, rfl, rfl⟩
  exact fun _ _ _ _ _ _ h => h

/-- What is known of the server once a 1.3 handshake is over. -/
structure Authentic13 (K : Prims) (host : Bytes) (z : Session) : Prop where
  messages : ∃ hello transcript ee cert cv fin ours leaf,
    Hello K hello transcript ∧
    z.log = hello ++ [.got ee, .got cert, .got cv, .got fin, .sent ours] ∧
    byteAt ee 0 = HS_ENCRYPTED_EXT ∧ byteAt cert 0 = HS_CERTIFICATE ∧
    byteAt cv 0 = HS_CERT_VERIFY ∧ byteAt fin 0 = HS_FINISHED ∧
    z.ders = (sentCerts true (certList13 (cert.drop 4)).length (certList13 (cert.drop 4))).take
      X509.X509_MAX_CHAIN ∧
    X509.x509Parse (z.ders.headD []) = some leaf ∧
    Signed13 K leaf (cv.drop 4) (transcript ++ ee ++ cert) ∧
    Finished13 K z.sHs (fin.drop 4) (transcript ++ ee ++ cert ++ cv)
  trusted : X509.x509VerifyChain K.toPrims K.roots z.ders host K.now = .ok

theorem handshake13_ok (hhello : Hello K z.log z.transcript) (hv12 : z.v12 = false)
    (h : handshake13 K z = (some u, z')) : z'.v12 = false ∧ Authentic13 K z.host z' := by
  unfold handshake13 at h
  simp only [bind_eq_some] at h
  obtain ⟨_, z1, hkeys, _, z2, hflight, _, z3, hhost, _, z4, hfinish, hopen⟩ := h
  obtain ⟨hlog1, htr1, hhost1, hv1⟩ := handshakeKeys13_ok hkeys
  obtain ⟨ee, cert, cv, fin, flight⟩ := flight13_ok (hv1.trans hv12) hflight
  obtain ⟨rfl, htrusted⟩ := verifyHost_ok hhost
  obtain ⟨ours, hlog4, hders4, hleaf4, hsHs4, hv4⟩ := finish13_ok hfinish
  obtain ⟨-, rfl⟩ := Prod.mk.inj hopen
  obtain ⟨leaf, hleaf, hparse⟩ := flight.chain.leaf
  obtain ⟨hee, hcert, hcv, hfin⟩ := flight.types
  refine ⟨?_, ⟨z.log, z.transcript, ee, cert, cv, fin, ours, leaf, hhello, ?_, hee, hcert, hcv, hfin,
    ?_, ?_, ?_, ?_⟩, ?_⟩
  · exact hv4.trans (flight.v12.trans (hv1.trans hv12))
  · dsimp only
    rw [hlog4, flight.log, hlog1]
    simp
  · dsimp only
    rw [hders4]
    exact flight.chain.ders
  · dsimp only
    rw [hders4]
    exact hparse
  · rw [← htr1]
    exact flight.signed leaf hleaf
  · dsimp only
    rw [hsHs4, ← htr1]
    exact flight.finished
  · dsimp only
    rw [hders4, ← hhost1, ← flight.host]
    exact htrusted

/-! ## TLS 1.2 -/

def Signed12 (K : Prims) (leaf : X509.Cert) (body clientRandom serverRandom : Bytes) : Prop :=
  let params := 4 + (byteAt body 3).toNat
  let signed := clientRandom ++ serverRandom ++ body.take params
  signedBy K leaf (be16 body params) (body.drop (params + 4)) (K.sha256 signed) (K.sha384 signed) true =
    some true

theorem certificate12_ok (h : certificate12 K body z = (some u, z')) :
    ChainRead false (body.drop 3) z' ∧ ∃ ders leaf, z' = { z with ders, leaf } := by
  unfold certificate12 at h
  simp only [refuseIf_bind_ok] at h
  obtain ⟨-, -, h⟩ := h
  exact readChain_ok h

theorem serverKeyExchange_ok {r : Nat × Bytes}
    (h : serverKeyExchange K body z = (some r, z')) :
    z = z' ∧ ∃ leaf, z.leaf = some leaf ∧ Signed12 K leaf body z.clientRandom z.serverRandom := by
  unfold serverKeyExchange at h
  simp only [refuseIf_bind_ok, bind_get] at h
  obtain ⟨-, -, -, -, h⟩ := h
  simp only [bind_eq_some, refuseIf_ok, ofOption_apply, pure_apply, Prod.mk.injEq] at h
  obtain ⟨leaf, _, ⟨hleaf, rfl⟩, _, _, ⟨-, rfl⟩, _, _, hsigned, -, rfl⟩ := h
  obtain ⟨rfl, hgood⟩ := checkSigned_ok hsigned
  exact ⟨rfl, leaf, hleaf, hgood⟩

def Wanted : Step12 → UInt8 → Prop
  | .wantCert, type => type = HS_CERTIFICATE
  | .wantKex, type => type = HS_SERVER_KEY_EXCH
  | .wantReqOrDone, type => type = HS_CERT_REQUEST ∨ type = HS_SERVER_DONE
  | .wantDone, type => type = HS_SERVER_DONE

theorem expect12_ok {step : Step12}
    (h : expect12 K step type z = (some u, z')) : z = z' ∧ Wanted step type := by
  unfold expect12 at h
  cases step <;> simp only [refuseIf_ok] at h <;> refine ⟨h.2, ?_⟩ <;> unfold Wanted
  · simpa using h.1
  · simpa using h.1
  · have hbad := h.1
    simp only [Bool.and_eq_false_iff, bne_eq_false_iff_eq] at hbad
    exact hbad
  · simpa using h.1

theorem flight12_turn {step : Step12} (hccs : z.ccsOk = false)
    (h : flight12 K (left + 1) step kex z = (some kex', z')) :
    ∃ m z1 z2 r, Taken z m z1 ∧ Wanted step m.type ∧
      read12 K kex m z1 = (some r, z2) ∧
      (∀ ders leaf, z2 = { z1 with ders, leaf } →
        Turn z (.got m.whole) m.whole { z2 with transcript := z2.transcript ++ m.whole }) ∧
      (match r.1 with
        | none => pure r.2
        | some step => flight12 K left step r.2 : Act Session Kex)
        { z2 with transcript := z2.transcript ++ m.whole } = (some kex', z') := by
  unfold flight12 at h
  simp only [bind_eq_some, hashIn, bind_modify] at h
  obtain ⟨m, z1, hnext, _, z1', hexpect, r, z2, hread, h⟩ := h
  obtain ⟨rfl, hwanted⟩ := expect12_ok hexpect
  have htaken := hsNext_taken hnext
  refine ⟨m, z1, z2, r, htaken, hwanted, hread, ?_, h⟩
  rintro ders leaf rfl
  exact htaken.turn (.inr hccs) ders leaf

theorem read12_rest {r : Option Step12 × Kex}
    (htype : m.type = HS_CERT_REQUEST ∨ m.type = HS_SERVER_DONE)
    (h : read12 K kex m z = (some r, z')) :
    z = z' ∧ (m.type = HS_CERT_REQUEST ∧ r.1 = some .wantDone ∨ m.type = HS_SERVER_DONE ∧ r.1 = none) := by
  unfold read12 at h
  rcases htype with htype | htype
  · rw [if_neg (by rw [htype]; decide), if_neg (by rw [htype]; decide), if_pos htype] at h
    simp only [pure_apply, Prod.mk.injEq, Option.some.injEq] at h
    exact ⟨h.2, .inl ⟨htype, by rw [← h.1]⟩⟩
  · rw [if_neg (by rw [htype]; decide), if_neg (by rw [htype]; decide), if_neg (by rw [htype]; decide)] at h
    simp only [refuseIf_bind_ok, pure_apply, Prod.mk.injEq, Option.some.injEq] at h
    obtain ⟨-, rfl, rfl⟩ := h
    exact ⟨rfl, .inr ⟨htype, rfl⟩⟩

/-- What a run of messages leaves: they are in the log and the transcript, and the rest is as it was. -/
structure Heard12 (z : Session) (msgs : List Bytes) (z' : Session) : Prop where
  log : z'.log = z.log ++ msgs.map .got
  transcript : z'.transcript = z.transcript ++ msgs.flatten
  host : z'.host = z.host
  clientRandom : z'.clientRandom = z.clientRandom
  serverRandom : z'.serverRandom = z.serverRandom
  leaf : z'.leaf = z.leaf
  ders : z'.ders = z.ders
  v12 : z'.v12 = z.v12
  ccsOk : z'.ccsOk = z.ccsOk
  sSealed : z'.sSealed = z.sSealed

theorem flight12_done (hccs : z.ccsOk = false)
    (h : flight12 K (left + 1) .wantDone kex z = (some kex', z')) :
    ∃ msg, Heard12 z [msg] z' ∧ byteAt msg 0 = HS_SERVER_DONE := by
  obtain ⟨m, z1, z2, r, htaken, htype, hread, hturn, h⟩ := flight12_turn hccs h
  obtain ⟨rfl, ⟨hreq, -⟩ | ⟨-, hend⟩⟩ := read12_rest (.inr htype) hread
  · rw [htype] at hreq
    exact absurd hreq (by decide)
  · rw [hend] at h
    obtain ⟨-, rfl⟩ := Prod.mk.inj h
    have t := hturn _ _ rfl
    refine ⟨m.whole, ⟨t.log, by simpa using t.transcript, t.host, t.clientRandom, t.serverRandom,
      htaken.core.leaf, htaken.core.ders, t.v12, t.ccsOk, t.sSealed⟩, ?_⟩
    rw [← htaken.type]
    exact htype

theorem flight12_rest (hccs : z.ccsOk = false)
    (h : flight12 K (left + 2) .wantReqOrDone kex z = (some kex', z')) :
    ∃ msgs, Heard12 z msgs z' ∧ ((msgs.map fun m => byteAt m 0) = [HS_SERVER_DONE] ∨
      (msgs.map fun m => byteAt m 0) = [HS_CERT_REQUEST, HS_SERVER_DONE]) := by
  obtain ⟨m, z1, z2, r, htaken, htype, hread, hturn, h⟩ := flight12_turn hccs h
  obtain ⟨rfl, ⟨hreq, hnext⟩ | ⟨hdone, hend⟩⟩ := read12_rest htype hread
  · rw [hnext] at h
    have t := hturn _ _ rfl
    obtain ⟨msg, rest, hdone⟩ := flight12_done (t.ccsOk.trans hccs) h
    refine ⟨[m.whole, msg], ⟨?_, ?_, rest.host.trans t.host, rest.clientRandom.trans t.clientRandom,
      rest.serverRandom.trans t.serverRandom, rest.leaf.trans htaken.core.leaf,
      rest.ders.trans htaken.core.ders, rest.v12.trans t.v12, rest.ccsOk.trans t.ccsOk,
      rest.sSealed.trans t.sSealed⟩, .inr ?_⟩
    · rw [rest.log, t.log]
      simp
    · rw [rest.transcript, t.transcript]
      simp
    · rw [← hreq, htaken.type, ← hdone]
      rfl
  · rw [hend] at h
    obtain ⟨-, rfl⟩ := Prod.mk.inj h
    have t := hturn _ _ rfl
    refine ⟨[m.whole], ⟨t.log, by simpa using t.transcript, t.host, t.clientRandom, t.serverRandom,
      htaken.core.leaf, htaken.core.ders, t.v12, t.ccsOk, t.sSealed⟩, .inl ?_⟩
    rw [← hdone, htaken.type]
    rfl

/-- The server's flight of 1.2, and what was checked of it. -/
structure Flight12 (K : Prims) (z z' : Session) (cert kex : Bytes) (rest : List Bytes) : Prop where
  log : z'.log = z.log ++ (cert :: kex :: rest).map .got
  transcript : z'.transcript = z.transcript ++ (cert :: kex :: rest).flatten
  types : byteAt cert 0 = HS_CERTIFICATE ∧ byteAt kex 0 = HS_SERVER_KEY_EXCH ∧
    ((rest.map fun m => byteAt m 0) = [HS_SERVER_DONE] ∨
      (rest.map fun m => byteAt m 0) = [HS_CERT_REQUEST, HS_SERVER_DONE])
  chain : ChainRead false (cert.drop 7) z'
  signed : ∀ leaf, z'.leaf = some leaf → Signed12 K leaf (kex.drop 4) z.clientRandom z.serverRandom
  host : z'.host = z.host
  clientRandom : z'.clientRandom = z.clientRandom
  v12 : z'.v12 = z.v12
  ccsOk : z'.ccsOk = z.ccsOk
  sSealed : z'.sSealed = z.sSealed

theorem flight12_certificate (hccs : z.ccsOk = false)
    (h : flight12 K (left + 1) .wantCert kex z = (some kex', z')) :
    ∃ cert z2, byteAt cert 0 = HS_CERTIFICATE ∧ Turn z (.got cert) cert z2 ∧
      ChainRead false (cert.drop 7) z2 ∧ flight12 K left .wantKex kex z2 = (some kex', z') := by
  obtain ⟨m, z1, z2, r, htaken, htype, hread, hturn, h⟩ := flight12_turn hccs h
  change m.type = HS_CERTIFICATE at htype
  rw [read12, if_pos htype] at hread
  simp only [bind_eq_some, pure_apply, Prod.mk.injEq, Option.some.injEq] at hread
  obtain ⟨_, _, hread, rfl, rfl⟩ := hread
  obtain ⟨⟨hders, hleaf⟩, ders, leaf, hz2⟩ := certificate12_ok hread
  rw [htaken.body, List.drop_drop] at hders
  exact ⟨m.whole, _, htaken.type.symm.trans htype, hturn _ _ hz2, ⟨hders, hleaf⟩, h⟩

theorem flight12_kex (hccs : z.ccsOk = false)
    (h : flight12 K (left + 1) .wantKex kex z = (some kex', z')) :
    ∃ msg z2 kex1, byteAt msg 0 = HS_SERVER_KEY_EXCH ∧ Turn z (.got msg) msg z2 ∧ z2.leaf = z.leaf ∧
      z2.ders = z.ders ∧
      (∀ leaf, z.leaf = some leaf → Signed12 K leaf (msg.drop 4) z.clientRandom z.serverRandom) ∧
      flight12 K left .wantReqOrDone kex1 z2 = (some kex', z') := by
  obtain ⟨m, z1, z2, r, htaken, htype, hread, hturn, h⟩ := flight12_turn hccs h
  change m.type = HS_SERVER_KEY_EXCH at htype
  rw [read12, if_neg (by rw [htype]; decide), if_pos htype] at hread
  simp only [bind_eq_some, pure_apply, Prod.mk.injEq, Option.some.injEq] at hread
  obtain ⟨made, _, hread, rfl, rfl⟩ := hread
  obtain ⟨rfl, l, hl, hsigned⟩ := serverKeyExchange_ok hread
  refine ⟨m.whole, _, _, htaken.type.symm.trans htype, hturn _ _ rfl, htaken.core.leaf,
    htaken.core.ders, fun leaf hsent => ?_, h⟩
  rw [htaken.core.leaf, hsent] at hl
  obtain rfl := Option.some.inj hl
  rw [← htaken.body, ← htaken.core.clientRandom, ← htaken.core.serverRandom]
  exact hsigned

theorem flight12_ok (hccs : z.ccsOk = false)
    (h : flight12 K 4 .wantCert kex z = (some kex', z')) :
    ∃ cert kex rest, Flight12 K z z' cert kex rest := by
  obtain ⟨cert, z1, hcert, t1, hchain, h⟩ := flight12_certificate hccs h
  obtain ⟨msg, z2, kex1, hkex, t2, hleaf, hders, hsigned, h⟩ :=
    flight12_kex (t1.ccsOk.trans hccs) h
  obtain ⟨rest, heard, htypes⟩ := flight12_rest (t2.ccsOk.trans (t1.ccsOk.trans hccs)) h
  refine ⟨cert, msg, rest, ?_, ?_, ⟨hcert, hkex, htypes⟩, ?_, ?_, ?_, ?_, ?_, ?_, ?_⟩
  · rw [heard.log, t2.log, t1.log]
    simp
  · rw [heard.transcript, t2.transcript, t1.transcript]
    simp
  · refine ⟨(heard.ders.trans hders).trans hchain.ders, ?_⟩
    rw [heard.leaf, hleaf, heard.ders, hders]
    exact hchain.leaf
  · rw [heard.leaf, hleaf, ← t1.clientRandom, ← t1.serverRandom]
    exact hsigned
  · rw [heard.host, t2.host, t1.host]
  · rw [heard.clientRandom, t2.clientRandom, t1.clientRandom]
  · rw [heard.v12, t2.v12, t1.v12]
  · rw [heard.ccsOk, t2.ccsOk, t1.ccsOk]
  · rw [heard.sSealed, t2.sSealed, t1.sSealed]

/-! ## Our side of 1.2 -/

/-- We sent some messages, and whom we talk to is as it was. -/
structure Spoken (z : Session) (msgs : List Bytes) (z' : Session) : Prop where
  log : z'.log = z.log ++ msgs.map .sent
  transcript : z'.transcript = z.transcript ++ msgs.flatten
  host : z'.host = z.host
  clientRandom : z'.clientRandom = z.clientRandom
  leaf : z'.leaf = z.leaf
  ders : z'.ders = z.ders
  v12 : z'.v12 = z.v12
  sSealed : z'.sSealed = z.sSealed

theorem Spoken.trans {z1 : Session} {msgs1 : List Bytes} (h : Spoken z msgs z1)
    (h1 : Spoken z1 msgs1 z') : Spoken z (msgs ++ msgs1) z' := by
  refine ⟨?_, ?_, h1.host.trans h.host, h1.clientRandom.trans h.clientRandom, h1.leaf.trans h.leaf,
    h1.ders.trans h.ders, h1.v12.trans h.v12, h1.sSealed.trans h.sSealed⟩
  · rw [h1.log, h.log]
    simp
  · rw [h1.transcript, h.transcript]
    simp

theorem Said.spoken (h : Said z msg z') : Spoken z [msg] z' :=
  ⟨h.turn.log, by simpa using h.turn.transcript, h.turn.host, h.turn.clientRandom, h.leaf, h.ders, h.turn.v12,
    h.turn.sSealed⟩

theorem Still.spoken (h : Still z z') : Spoken z [] z' :=
  ⟨by simpa using h.log, by simpa using h.core.transcript, h.core.host, h.core.clientRandom, h.core.leaf,
    h.core.ders, h.core.v12, h.sSealed⟩

theorem agree12_ok {r : Bytes × Bytes} (hccs : z.ccsOk = false)
    (h : agree12 K kex z = (some r, z')) : Spoken z [] z' ∧ z'.ccsOk = false := by
  unfold agree12 at h
  rw [bind_modify] at h
  have hstill : Still { z with group := kex.group } z' := by
    split_ifs at h
    · simp only [bind_eq_some, bind_get, Prod.mk.injEq, orRefuse_ok, ofOption_apply, pure_apply] at h
      obtain ⟨_, z1, hkey, _, _, ⟨-, rfl⟩, -, rfl⟩ := h
      refine (p256Key_still ?_ _).of_eq hkey (Still.refl _)
      exact .inr hccs
    · simp only [bind_eq_some, bind_get, Prod.mk.injEq, orRefuse_ok, ofOption_apply, pure_apply] at h
      obtain ⟨_, _, ⟨-, rfl⟩, -, rfl⟩ := h
      exact Still.refl _
  exact ⟨{ hstill.spoken with }, hstill.core.ccsOk.trans hccs⟩

theorem sendNoCertificate_ok {asked : Bool} (h : sendNoCertificate asked z = (some u, z')) :
    ∃ msgs, Spoken z msgs z' := by
  unfold sendNoCertificate at h
  split_ifs at h
  · exact ⟨_, (sendHandshake_ok h).spoken⟩
  · obtain ⟨-, rfl⟩ := Prod.mk.inj h
    exact ⟨[], (Still.refl z).spoken⟩

theorem keys12_ok {pms : Bytes} (h : keys12 K pms z = (some u, z')) : Spoken z [] z' := by
  unfold keys12 at h
  simp only [bind_get, bind_eq_some, Prod.mk.injEq, orRefuse_ok, ofOption_apply, modify_apply] at h
  obtain ⟨_, _, ⟨-, rfl⟩, -, rfl⟩ := h
  exact ⟨by simp, by simp, rfl, rfl, rfl, rfl, rfl, rfl⟩

theorem verifyData12_ok {data : Bytes} (h : verifyData12 K label z = (some data, z')) :
    z = z' ∧ K.tls12Prf z.master label (K.sha256 z.transcript) 12 = some data := by
  unfold verifyData12 at h
  rw [bind_get, orRefuse_ok, ofOption_apply, Prod.mk.injEq] at h
  obtain ⟨hdata, rfl⟩ := h
  exact ⟨rfl, hdata⟩

theorem spoken_plain (type : UInt8) (data : Bytes) :
    Preserves (Spoken z msgs) (sendPlainRecord type data) :=
  sendPlainRecord_keeps (fun _ _ _ _ h => { h with }) type data

theorem spoken_sealed (type : UInt8) (data : Bytes) :
    Preserves (Spoken z msgs) (sendEncrypted K type data) :=
  sendEncrypted_keeps (fun _ _ _ _ _ _ h => { h with }) type data

theorem ourFinished12_ok (h : ourFinished12 K z = (some u, z')) :
    ∃ ours, Spoken z [ours] z' ∧ z'.ccsOk = true := by
  unfold ourFinished12 at h
  simp only [bind_eq_some, orFail_ok, hashIn, note, bind_modify, modify_apply, Prod.mk.injEq] at h
  obtain ⟨_, z1, hchange, data, z2, hdata, _, z3, hsend, -, rfl⟩ := h
  obtain ⟨rfl, -⟩ := verifyData12_ok hdata
  have h1 := (spoken_plain _ _).of_eq hchange (Still.refl z).spoken
  refine ⟨[HS_FINISHED, 0, 0, 12] ++ data, ?_, rfl⟩
  have h3 := (spoken_sealed _ _).of_eq hsend (I := Spoken z [[HS_FINISHED, 0, 0, 12] ++ data])
    ⟨by simp [h1.log], by simp [h1.transcript], h1.host, h1.clientRandom, h1.leaf, h1.ders, h1.v12,
      h1.sSealed⟩
  exact { h3 with }

theorem theirFinished12_ok (hsealed : z.sSealed = false)
    (h : theirFinished12 K z = (some u, z')) :
    ∃ fin, z'.log = z.log ++ [.changed, .got fin] ∧ byteAt fin 0 = HS_FINISHED ∧ SameCore z z' ∧
      K.tls12Prf z.master "server finished" (K.sha256 z.transcript) 12 = some (fin.drop 4) := by
  unfold theirFinished12 at h
  simp only [bind_eq_some, bind_get, refuseIf_ok] at h
  obtain ⟨m, z1, hnext, _, _, ⟨hfin, rfl⟩, want, z2, hwant, hsame, rfl⟩ := h
  obtain ⟨rfl, hdata⟩ := verifyData12_ok hwant
  have htaken := hsNext_taken hnext
  simp only [Bool.or_eq_false_iff, Bool.not_eq_false', bne_eq_false_iff_eq] at hfin hsame
  obtain ⟨z3, ⟨-, -, hone⟩, hs, hlog⟩ := htaken.log
  refine ⟨m.whole, ?_, htaken.type.symm.trans hfin.2, htaken.core, ?_⟩
  · rcases hone with ⟨hs3, -⟩ | ⟨-, -, -, -, hlog3⟩
    · rw [hs, hs3, hsealed] at hfin
      exact absurd hfin.1 (by decide)
    · rw [hlog, hlog3]
      simp
  · rw [← htaken.core.master, ← htaken.core.transcript, ← htaken.body, hdata, hsame.2]

/-- What is known of the server once a 1.2 handshake is over. -/
structure Authentic12 (K : Prims) (host : Bytes) (z : Session) : Prop where
  messages : ∃ (ch sh cert kex fin : Bytes) (flight ours : List Bytes) (leaf : X509.Cert),
    z.log = [.sent ch, .got sh, .got cert, .got kex] ++ flight.map .got ++ ours.map .sent ++
      [.changed, .got fin] ∧
    downgraded (randomOf sh) = false ∧
    byteAt cert 0 = HS_CERTIFICATE ∧ byteAt kex 0 = HS_SERVER_KEY_EXCH ∧
    ((flight.map fun m => byteAt m 0) = [HS_SERVER_DONE] ∨
      (flight.map fun m => byteAt m 0) = [HS_CERT_REQUEST, HS_SERVER_DONE]) ∧
    byteAt fin 0 = HS_FINISHED ∧
    z.ders = (sentCerts false (cert.drop 7).length (cert.drop 7)).take X509.X509_MAX_CHAIN ∧
    X509.x509Parse (z.ders.headD []) = some leaf ∧
    Signed12 K leaf (kex.drop 4) z.clientRandom (randomOf sh) ∧
    K.tls12Prf z.master "server finished"
      (K.sha256 (ch ++ sh ++ cert ++ kex ++ flight.flatten ++ ours.flatten)) 12 = some (fin.drop 4)
  trusted : X509.x509VerifyChain K.toPrims K.roots z.ders host K.now = .ok

theorem handshake12_ok {sh : Bytes} (hlog : z.log = [.sent ch, .got sh])
    (htr : z.transcript = ch ++ sh) (hrandom : z.serverRandom = randomOf sh)
    (hdown : downgraded (randomOf sh) = false) (hv12 : z.v12 = true) (hccs : z.ccsOk = false)
    (hsealed : z.sSealed = false) (h : handshake12 K z = (some u, z')) :
    z'.v12 = true ∧ Authentic12 K z.host z' := by
  unfold handshake12 at h
  simp only [bind_eq_some] at h
  obtain ⟨kex, z1, hflight, _, z2, hhost, r, z3, hagree, _, z4, hcert, _, z5, hkey, _, z6, hkeys, _, z7,
    hours, _, z8, htheirs, hopen⟩ := h
  obtain ⟨cert, kexMsg, flight, f⟩ := flight12_ok hccs hflight
  obtain ⟨rfl, htrusted⟩ := verifyHost_ok hhost
  obtain ⟨s3, hccs3⟩ := agree12_ok (f.ccsOk.trans hccs) hagree
  obtain ⟨msgs, s4⟩ := sendNoCertificate_ok hcert
  have s5 := (sendHandshake_ok hkey).spoken
  have s6 := keys12_ok hkeys
  obtain ⟨ours, s7, hccs7⟩ := ourFinished12_ok hours
  have s := (((s3.trans s4).trans s5).trans s6).trans s7
  generalize hsaid : [] ++ msgs ++ _ ++ [] ++ [ours] = said at s
  obtain ⟨fin, hlog8, hfin, hcore8, hdata⟩ := theirFinished12_ok
    (s.sSealed.trans (f.sSealed.trans hsealed)) htheirs
  obtain ⟨-, rfl⟩ := Prod.mk.inj hopen
  obtain ⟨leaf, hleaf, hparse⟩ := f.chain.leaf
  obtain ⟨htcert, htkex, htflight⟩ := f.types
  have hders : z8.ders = z1.ders := hcore8.ders.trans s.ders
  refine ⟨?_, ⟨ch, sh, cert, kexMsg, fin, flight, said, leaf, ?_, hdown, htcert, htkex, htflight, hfin,
    ?_, ?_, ?_, ?_⟩, ?_⟩
  · exact hcore8.v12.trans (s.v12.trans (f.v12.trans hv12))
  · dsimp only
    rw [hlog8, s.log, f.log, hlog]
    simp
  · exact hders.trans f.chain.ders
  · dsimp only
    rw [hders]
    exact hparse
  · dsimp only
    rw [hcore8.clientRandom, s.clientRandom, f.clientRandom, ← hrandom]
    exact f.signed leaf hleaf
  · dsimp only
    rw [hcore8.master, ← hdata, s.transcript, f.transcript, htr]
    simp
  · dsimp only
    rw [hders, ← f.host]
    exact htrusted

/-! ## The whole of it -/

theorem drawKeys_ok (h : drawKeys K z = (some u, z')) :
    z'.log = z.log ∧ z'.transcript = [] ∧ z'.host = z.host ∧ z'.v12 = z.v12 ∧ z'.ccsOk = z.ccsOk ∧
      z'.sSealed = z.sSealed := by
  unfold drawKeys draw at h
  simp only [bind_eq_some, bind_get, bind_modify, modify_apply, pure_apply, Prod.mk.injEq] at h
  obtain ⟨_, _, ⟨-, rfl⟩, _, _, ⟨-, rfl⟩, _, _, ⟨-, rfl⟩, -, rfl⟩ := h
  exact ⟨rfl, rfl, rfl, rfl, rfl, rfl⟩

/-- Whom a session is with, by the version it speaks. -/
def Authentic (K : Prims) (host : Bytes) (z : Session) : Prop :=
  z.v12 = false ∧ Authentic13 K host z ∨ z.v12 = true ∧ Authentic12 K host z

theorem keptHost_eq {host : Bytes} (hname : 0 ∉ host) (hshort : host.length < 256) :
    keptHost host = host := by
  have hall : host.takeWhile (· ≠ 0) = host := by
    refine List.takeWhile_eq_self_iff.2 fun b hb => ?_
    simpa using fun h0 : b = 0 => hname (h0 ▸ hb)
  rw [keptHost, hall]
  exact List.take_of_length_le (by omega)

/-- Whatever the network brings and however it is cut, a connection that opens is to the host. A
host is a C string, and its callers have room for 128 bytes of one. -/
theorem tlsConnect_authentic (K : Prims) (host : Bytes) (z z' : Session) (hname : 0 ∉ host)
    (hshort : host.length < 256) (h : tlsConnect K host z = (some (), z')) : Authentic K host z' := by
  unfold tlsConnect at h
  rw [bind_modify, bind_eq_some] at h
  obtain ⟨_, z1, halloc, h⟩ := h
  obtain rfl := alloc_ok halloc
  unfold connectOn at h
  rw [bind_eq_some] at h
  obtain ⟨_, z2, hkept, h⟩ := h
  obtain ⟨-, rfl⟩ := Prod.mk.inj hkept
  split_ifs at h
  · exact absurd h failWith_ne
  · exact absurd h failWith_ne
  · simp only [bind_eq_some, bind_get] at h
    obtain ⟨_, z3, hdraw, _, z4, hsend, _, z5, hloop, h⟩ := h
    obtain ⟨hlog3, htr3, hhost3, hv3, hccs3, hs3⟩ := drawKeys_ok hdraw
    obtain ⟨ch, -, hsaid⟩ := sendClientHello_ok hsend
    have t := hsaid.turn
    have hlog4 : z4.log = [.sent ch] := by rw [t.log, hlog3]; rfl
    have htr4 : z4.transcript = ch := by rw [t.transcript, htr3]; rfl
    have g := helloLoop_ok hlog4 htr4 (t.v12.trans hv3) hloop
    have hhost : z5.host = host :=
      g.host.trans (t.host.trans (hhost3.trans (keptHost_eq hname hshort)))
    rw [← hhost]
    split_ifs at h with hv12
    · obtain ⟨ch', sh, hlog5, htr5, hrandom, hdown⟩ := g.v12 hv12
      exact .inr (handshake12_ok hlog5 htr5 hrandom hdown hv12
        (g.ccsOk.trans (t.ccsOk.trans hccs3)) (g.sSealed.trans (t.sSealed.trans hs3)) h)
    · rw [Bool.not_eq_true] at hv12
      exact .inl (handshake13_ok g.spine hv12 h)

/-! ### Two servers that are believed

Signatures, MACs and tags are taken as good when they are the ones written here. -/

def samplePrims : Prims where
  toPrims := X509.samplePrims
  hmacSha256 _ _ := List.replicate 32 1
  hkdfExtract salt key := salt.take 1 ++ key.take 1
  hkdfExpandLabel secret label hash n :=
    some (List.replicate n (UInt8.ofNat (secret.length + label.length + hash.length)))
  tls12Prf _ _ _ n := some (List.replicate n 4)
  gcmSeal _ _ _ data := (data, List.replicate GCM_TAG 5)
  gcmOpen _ _ _ data tag := if tag = List.replicate GCM_TAG 5 then some data else none
  x25519 _ share := some share
  x25519Public key := key
  ecPublic _ key := some key
  ecAgree _ _ share := some share
  roots := [X509.sampleRoot]
  now := 20250607080910
  rngReady := true
  rngBytes drawn n := List.replicate n (UInt8.ofNat drawn)
  expand_length h := by
    cases h
    exact List.length_replicate
  open_length h := by
    split at h
    · cases h
      rfl
    · cases h

def sampleSignature : Bytes :=
  let sig := X509.tlv X509.DER_SEQ (X509.tlv X509.DER_INT [1] ++ X509.tlv X509.DER_INT [2])
  [4, 3] ++ beBytes 2 sig.length ++ sig

def plainRecord (type : UInt8) (data : Bytes) : Bytes := header type data.length ++ data

def sealedRecord13 (type : UInt8) (data : Bytes) : Bytes :=
  header REC_APPDATA (data.length + 1 + GCM_TAG) ++ data ++ [type] ++ List.replicate GCM_TAG 5

def sealedRecord12 (type : UInt8) (data : Bytes) : Bytes :=
  header type (8 + data.length + GCM_TAG) ++ List.replicate 8 0 ++ data ++ List.replicate GCM_TAG 5

def sampleHello13 : Bytes :=
  framed HS_SERVER_HELLO ([3, 3] ++ List.replicate 32 9 ++ [32] ++ List.replicate 32 2 ++ [0x13, 0x01, 0] ++
    beBytes 2 46 ++ extension 0x002b [3, 4] ++ extension 0x0033 ([0, 0x1d, 0, 32] ++ List.replicate 32 8))

def sampleFlight13 : Bytes :=
  let list := (X509.sampleChain.map fun der => beBytes 3 der.length ++ der ++ [0, 0]).flatten
  framed HS_ENCRYPTED_EXT [0, 0] ++ framed HS_CERTIFICATE ([0] ++ beBytes 3 list.length ++ list) ++
    framed HS_CERT_VERIFY sampleSignature ++ framed HS_FINISHED (List.replicate 32 1)

/-- Cut in the middle of a record, and a message over two records. -/
def sampleNet13 : List Arrival :=
  [.bytes (plainRecord REC_HANDSHAKE sampleHello13 ++ [REC_APPDATA]),
    .bytes ((sealedRecord13 REC_HANDSHAKE (sampleFlight13.take 100)).drop 1 ++
      sealedRecord13 REC_HANDSHAKE (sampleFlight13.drop 100))]

def sampleFlight12 : Bytes :=
  let list := (X509.sampleChain.map fun der => beBytes 3 der.length ++ der).flatten
  framed HS_SERVER_HELLO ([3, 3] ++ List.replicate 32 9 ++ [0, 0xc0, 0x2b, 0]) ++
    framed HS_CERTIFICATE (beBytes 3 list.length ++ list) ++
    framed HS_SERVER_KEY_EXCH ([3, 0, 0x1d, 32] ++ List.replicate 32 8 ++ sampleSignature) ++
    framed HS_SERVER_DONE []

def sampleNet12 : List Arrival :=
  [.bytes (plainRecord REC_HANDSHAKE sampleFlight12), .bytes (plainRecord REC_CHANGE_CIPHER [1]),
    .bytes (sealedRecord12 REC_HANDSHAKE (framed HS_FINISHED (List.replicate 12 4)))]

def sampleConnected (net : List Arrival) : Session := (tlsConnect samplePrims (ascii "a.b.c") { net }).2

theorem sampleConnected_eq {net : List Arrival}
    (h : (tlsConnect samplePrims (ascii "a.b.c") { net }).1 = some ()) :
    tlsConnect samplePrims (ascii "a.b.c") { net } = (some (), sampleConnected net) := by
  rw [sampleConnected, ← h]

theorem sampleServers_authentic :
    Authentic samplePrims (ascii "a.b.c") (sampleConnected sampleNet13) ∧
      Authentic samplePrims (ascii "a.b.c") (sampleConnected sampleNet12) := by
  have hname : 0 ∉ ascii "a.b.c" := by decide
  refine ⟨tlsConnect_authentic _ _ _ _ hname (by decide) (sampleConnected_eq ?_),
    tlsConnect_authentic _ _ _ _ hname (by decide) (sampleConnected_eq ?_)⟩
  · decide +kernel
  · decide +kernel

end Auth

end Zelr.Tls
