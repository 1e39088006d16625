import Zelr.Tls.Data

/-!
# What reading and refusing leave alone

A statement about a session that does not look at what reading a record touches (`Blind`) is kept
by every function that reads, whatever arrives and however it ends.
-/

namespace Zelr.Tls

open Act

variable {K : Prims} {I : Session → Prop}

/-- Says nothing of the buffers, the transport, the server's numbers, or how it ended, and outlives
a change of cipher and an alert of ours. -/
structure Blind (K : Prims) (I : Session → Prop) : Prop where
  reading : ∀ z record head haveLen net hs hsPos sSeq ended alerted error answers wire,
    I z → I { z with
      record, head, haveLen, net, hs, hsPos, sSeq, ended, alerted, error, answers, wire }
  changed : ∀ z, z.v12 = true → z.ccsOk = true → z.sSealed = false → I z →
    I { z with sSealed := true, log := z.log ++ [.changed] }
  alert : ∀ desc, Preserves I (sendAlert K desc)

/-- The same, but for the handshake's buffer, which reading a record leaves alone. -/
structure Quiet (K : Prims) (I : Session → Prop) : Prop where
  reading : ∀ z record head haveLen net sSeq ended alerted error answers wire,
    I z → I { z with record, head, haveLen, net, sSeq, ended, alerted, error, answers, wire }
  changed : ∀ z, z.v12 = true → z.ccsOk = true → z.sSealed = false → I z →
    I { z with sSealed := true, log := z.log ++ [.changed] }
  alert : ∀ desc, Preserves I (sendAlert K desc)

/-- Outlives a reason to give up, and an alert of ours. -/
structure Curt (K : Prims) (I : Session → Prop) : Prop where
  failed : ∀ z error, I z → I { z with error }
  alert : ∀ desc, Preserves I (sendAlert K desc)

theorem Blind.quiet (hI : Blind K I) : Quiet K I where
  reading := fun _ _ _ _ _ _ _ _ _ _ _ h => hI.reading _ _ _ _ _ _ _ _ _ _ _ _ _ h
  changed := hI.changed
  alert := hI.alert

theorem Quiet.curt (hI : Quiet K I) : Curt K I where
  failed := fun _ _ h => hI.reading _ _ _ _ _ _ _ _ _ _ _ h
  alert := hI.alert

theorem Blind.curt (hI : Blind K I) : Curt K I := hI.quiet.curt

def Outlives (I : Session → Prop) : Prop := ∀ z e, I z → I { z with log := z.log ++ [e] }

section Frame

variable {K : Prims} {I : Session → Prop} {α : Type}

theorem refuse_eq (z : Session) (why : String) (desc : Alert) :
    (refuse K why desc : Act Session α) z = (none, ((refuse K why desc : Act Session α) z).2) := by
  unfold refuse
  rw [bind_apply]
  split <;> rfl

theorem failWith_preserves (hI : Curt K I) (why : String) :
    Preserves I (failWith why : Act Session α) :=
  Preserves.bind (Preserves.modify fun z h => hI.failed z why h) fun _ => Preserves.stop

theorem note_preserves (hI : Outlives I) (e : Event) : Preserves I (note e) :=
  Preserves.modify fun z h => hI z e h

theorem refuse_preserves (hI : Curt K I) (why : String) (desc : Alert) :
    Preserves I (refuse K why desc : Act Session α) :=
  Preserves.bind (hI.alert desc) fun _ => failWith_preserves hI why

theorem refuseIf_preserves (hI : Curt K I) (bad : Bool) (why : String) (desc : Alert) :
    Preserves I (refuseIf K bad why desc) :=
  Preserves.ite (refuse_preserves hI why desc) (Preserves.pure _)

theorem refuseIf_bind (hI : Curt K I) {bad : Bool} {why : String} {desc : Alert} {f : Unit → Act Session α}
    (h : Preserves I (f ())) : Preserves I (refuseIf K bad why desc >>= f) :=
  Preserves.bind (refuseIf_preserves hI bad why desc) fun _ => h

section
variable (hI : Quiet K I)
include hI

theorem ask_preserves : Preserves I ask :=
  fun _ h => hI.reading _ _ _ _ _ _ _ _ _ _ _ h

omit hI in
theorem fillLoop_keeps (hI : ∀ z net head record haveLen, I z → I { z with net, head, record, haveLen })
    (left : Nat) {z : Session} (hz : I z) : I (fillLoop left z).2 := by
  induction left generalizing z with
  | zero => exact hz
  | succ left ih =>
    unfold fillLoop
    dsimp only
    split_ifs
    · split
      · exact hI _ _ _ _ _ hz
      · exact hI _ _ _ _ _ hz
      · exact ih (hI _ _ _ _ _ hz)
    · exact hz
    · exact hz
    · split
      · exact hI _ _ _ _ _ hz
      · exact hI _ _ _ _ _ hz
      · exact ih (hI _ _ _ _ _ hz)

omit hI in
theorem fillRecord_keeps (hI : ∀ z net head record haveLen, I z → I { z with net, head, record, haveLen }) :
    Preserves I fillRecord := fun _ h => fillLoop_keeps hI _ h

theorem fillRecord_preserves : Preserves I fillRecord :=
  fillRecord_keeps fun _ _ _ _ _ h => hI.reading _ _ _ _ _ _ _ _ _ _ _ h

theorem writeAll_preserves (data : Bytes) : Preserves I (writeAll data) := by
  refine Preserves.bind (ask_preserves hI) fun ok => ?_
  exact Preserves.ite (Preserves.modify fun _ h => hI.reading _ _ _ _ _ _ _ _ _ _ _ h)
    Preserves.stop

theorem sendPlainRecord_preserves (type : UInt8) (data : Bytes) :
    Preserves I (sendPlainRecord type data) := by
  refine Preserves.ite Preserves.stop (Preserves.bind ?_ fun _ => writeAll_preserves hI _)
  exact Preserves.modify fun _ h => hI.reading _ _ _ _ _ _ _ _ _ _ _ h

/-! ## Reading a record -/

theorem sealedAlert_preserves (len : Nat) : Preserves I (sealedAlert len) := by
  refine Preserves.bind Preserves.get fun z => ?_
  refine Preserves.ite (Preserves.bind ?_ fun _ => Preserves.pure _)
    (Preserves.bind ?_ fun _ => failWith_preserves hI.curt _)
  all_goals exact Preserves.modify fun _ h => hI.reading _ _ _ _ _ _ _ _ _ _ _ h

theorem forged_preserves (off body : Nat) :
    Preserves I (forged K off body : Act Session α) := by
  refine Preserves.bind ?_ fun _ => refuse_preserves hI.curt _ _
  exact Preserves.modify fun _ h => hI.reading _ _ _ _ _ _ _ _ _ _ _ h

theorem open12_preserves (n : Nat) : Preserves I (open12 K n) := by
  refine refuseIf_bind hI.curt ?_
  refine Preserves.bind Preserves.get fun z => ?_
  dsimp only
  split
  · exact forged_preserves hI _ _
  · refine Preserves.bind ?_ fun _ => Preserves.ite (sealedAlert_preserves hI _) (Preserves.pure _)
    exact Preserves.modify fun _ h => hI.reading _ _ _ _ _ _ _ _ _ _ _ h

theorem open13_preserves (n : Nat) : Preserves I (open13 K n) := by
  refine refuseIf_bind hI.curt ?_
  refine Preserves.bind Preserves.get fun z => ?_
  dsimp only
  split
  · exact forged_preserves hI _ _
  · refine Preserves.bind ?_ fun _ =>
      refuseIf_bind hI.curt (Preserves.ite (sealedAlert_preserves hI _) (Preserves.pure _))
    exact Preserves.modify fun _ h => hI.reading _ _ _ _ _ _ _ _ _ _ _ h

theorem changeCipher_preserves (n : Nat) : Preserves I (changeCipher K n) := by
  intro z hz
  unfold changeCipher
  rw [bind_get]
  split_ifs with hv12
  · unfold refuseIf
    split_ifs with hbad
    · rw [bind_of_none (refuse_eq z _ _)]
      exact refuse_preserves hI.curt _ _ z hz
    · simp only [Bool.or_eq_true, not_or, Bool.not_eq_true, Bool.not_eq_false'] at hbad
      exact hI.changed z hv12 hbad.1.1.1 hbad.1.1.2 hz
  · exact hz

theorem takeRecord_preserves (encrypted : Bool) :
    Preserves I (takeRecord K encrypted) := by
  refine Preserves.bind Preserves.get fun z => refuseIf_bind hI.curt (Preserves.bind ?_ fun _ => ?_)
  · exact Preserves.modify fun _ h => hI.reading _ _ _ _ _ _ _ _ _ _ _ h
  · refine Preserves.ite (changeCipher_preserves hI _) (Preserves.ite ?_ (Preserves.ite
      (Preserves.pure _) (Preserves.ite (open12_preserves hI _) (open13_preserves hI _))))
    refine Preserves.bind ?_ fun _ => failWith_preserves hI.curt _
    exact Preserves.modify fun _ h => hI.reading _ _ _ _ _ _ _ _ _ _ _ h

theorem readRecord_preserves (encrypted : Bool) :
    Preserves I (readRecord K encrypted) := by
  refine Preserves.bind (fillRecord_preserves hI) fun fill => Preserves.bind Preserves.get fun z => ?_
  cases fill with
  | stopped => exact failWith_preserves hI.curt _
  | late => exact Preserves.pure _
  | whole => exact Preserves.bind (takeRecord_preserves hI _) fun _ => Preserves.pure _

end

/-! ## Handshake messages -/

theorem hsFillLoop_preserves (hI : Blind K I) (encrypted : Bool) (left : Nat) :
    Preserves I (hsFillLoop K encrypted left) := by
  induction left with
  | zero => exact Preserves.bind Preserves.get fun _ => failWith_preserves hI.curt _
  | succ left ih =>
    refine Preserves.bind (readRecord_preserves hI.quiet _) fun r => Preserves.bind Preserves.get fun z => ?_
    rcases r with _ | ⟨type, len⟩
    · exact failWith_preserves hI.curt _
    · refine Preserves.ite ih (Preserves.ite (refuse_preserves hI.curt _ _)
        (Preserves.ite (refuse_preserves hI.curt _ _) ?_))
      exact Preserves.modify fun _ h => hI.reading _ _ _ _ _ _ _ _ _ _ _ _ _ h

theorem hsFill_preserves (hI : Blind K I) (encrypted : Bool) : Preserves I (hsFill K encrypted) :=
  fun s hs => hsFillLoop_preserves hI encrypted _ s hs

theorem hsNextLoop_preserves (hI : Blind K I) (hlog : Outlives I) (encrypted : Bool) (left : Nat) :
    Preserves I (hsNextLoop K encrypted left) := by
  induction left with
  | zero => exact Preserves.bind Preserves.get fun _ => failWith_preserves hI.curt _
  | succ left ih =>
    refine Preserves.bind Preserves.get fun z => ?_
    refine Preserves.ite (refuse_preserves hI.curt _ _) ?_
    split
    · refine Preserves.bind ?_ fun _ => Preserves.bind (note_preserves hlog _) fun _ => Preserves.pure _
      exact Preserves.modify fun _ h => hI.reading _ _ _ _ _ _ _ _ _ _ _ _ _ h
    · refine Preserves.bind ?_ fun _ => Preserves.bind ?_ fun _ => ih
      · exact Preserves.modify fun _ h => hI.reading _ _ _ _ _ _ _ _ _ _ _ _ _ h
      · exact hsFill_preserves hI encrypted

theorem hsNext_preserves (hI : Blind K I) (hlog : Outlives I) (encrypted : Bool) :
    Preserves I (hsNext K encrypted) := fun s hs => hsNextLoop_preserves hI hlog encrypted _ s hs

/-! ## Checks -/

section
variable (hI : Curt K I)
include hI

theorem orRefuse_preserves {m : Act Session α} (hm : Preserves I m) (why : String)
    (desc : Alert) : Preserves I (orRefuse K m why desc) := by
  refine Preserves.bind hm.attempt fun r => ?_
  cases r with
  | some a => exact Preserves.pure _
  | none => exact refuse_preserves hI _ _

theorem derive_preserves (secret : Bytes) (label : String) (hash : Bytes) :
    Preserves I (derive K secret label hash) := orRefuse_preserves hI (Preserves.ofOption _) _ _

theorem orFail_preserves {m : Act Session α} (hm : Preserves I m) (why : String) :
    Preserves I (orFail m why) := by
  refine Preserves.bind hm.attempt fun r => ?_
  cases r with
  | some a => exact Preserves.pure _
  | none => exact failWith_preserves hI _

omit hI in
theorem alloc_preserves (hI : Blind K I) (why : String) : Preserves I (alloc why) :=
  Preserves.bind (ask_preserves hI.quiet) fun _ => Preserves.ite (Preserves.pure _) (failWith_preserves hI.curt _)

theorem checkSigned_preserves (leaf : X509.Cert) (scheme : Nat) (sig signed : Bytes)
    (v12 : Bool) (wrong : String) : Preserves I (checkSigned K leaf scheme sig signed v12 wrong) := by
  unfold checkSigned
  split
  · exact refuse_preserves hI _ _
  · exact refuse_preserves hI _ _
  · exact Preserves.pure _

theorem chainLoop_preserves (withExts : Bool) (left : Nat) (body : Bytes)
    (ders : List Bytes) : Preserves I (chainLoop K withExts left body ders) := by
  induction left generalizing body ders with
  | zero => exact Preserves.pure _
  | succ left ih =>
    refine Preserves.ite (Preserves.pure _) ?_
    refine refuseIf_bind hI (refuseIf_bind hI ?_)
    exact Preserves.ite (Preserves.ite (Preserves.pure _) (ih _ _)) (ih _ _)

theorem verifyHost_preserves : Preserves I (verifyHost K) :=
  Preserves.bind Preserves.get fun _ => refuseIf_preserves hI _ _ _

theorem helloExts_preserves (rest : Bytes) : Preserves I (helloExts K rest) := by
  refine Preserves.ite (Preserves.pure _) (refuseIf_bind hI ?_)
  split
  · exact refuse_preserves hI _ _
  · exact Preserves.pure _

theorem expect12_preserves (step : Step12) (type : UInt8) :
    Preserves I (expect12 K step type) := by
  unfold expect12
  cases step <;> exact refuseIf_preserves hI _ _ _

end

end Frame

/-! ## Messages after the handshake -/

/-- Blind, and outlives new keys on either side. -/
structure Rolls (K : Prims) (I : Session → Prop) : Prop extends Blind K I where
  sent : ∀ type data, Preserves I (sendEncrypted K type data)
  ours : ∀ secret, Preserves I (setOurKeys K secret)
  theirs : ∀ secret, Preserves I (setTheirKeys K secret)
  secrets : ∀ z sApp cApp, I z → I { z with sApp, cApp }

section Post

variable {K : Prims} {I : Session → Prop}

theorem keyUpdate_preserves (hI : Rolls K I) (requested : Bool) : Preserves I (keyUpdate K requested) := by
  refine Preserves.bind Preserves.get fun _ => Preserves.bind (Preserves.ofOption _) fun _ =>
    Preserves.bind (Preserves.modify fun _ h => hI.secrets _ _ _ h) fun _ =>
    Preserves.bind (hI.theirs _) fun _ => Preserves.ite ?_ (Preserves.pure _)
  exact Preserves.bind (hI.sent _ _) fun _ => Preserves.bind Preserves.get fun _ =>
    Preserves.bind (Preserves.ofOption _) fun _ =>
    Preserves.bind (Preserves.modify fun _ h => hI.secrets _ _ _ h) fun _ => hI.ours _

theorem postMessage_preserves (hI : Rolls K I) (m : Msg) : Preserves I (postMessage K m) := by
  refine Preserves.bind Preserves.get fun _ => Preserves.ite ?_ (Preserves.pure _)
  iterate 2 refine refuseIf_bind hI.toBlind.curt ?_
  exact orRefuse_preserves hI.toBlind.curt (keyUpdate_preserves hI _) _ _

theorem postLoop_preserves (hI : Rolls K I) (left : Nat) : Preserves I (postLoop K left) := by
  induction left with
  | zero => exact Preserves.pure _
  | succ left ih =>
    refine Preserves.bind Preserves.get fun z => Preserves.ite (refuse_preserves hI.toBlind.curt _ _) ?_
    split
    · exact Preserves.pure _
    · refine Preserves.bind (postMessage_preserves hI _) fun _ => Preserves.bind ?_ fun _ => ih
      exact Preserves.modify fun _ h => hI.reading _ _ _ _ _ _ _ _ _ _ _ _ _ h

theorem postHandshake_preserves (hI : Rolls K I) (data : Bytes) : Preserves I (postHandshake K data) := by
  refine Preserves.bind Preserves.get fun z => refuseIf_bind hI.toBlind.curt ?_
  refine Preserves.bind ?_ fun _ => Preserves.bind (postLoop_preserves hI _) fun _ => ?_
  all_goals exact Preserves.modify fun _ h => hI.reading _ _ _ _ _ _ _ _ _ _ _ _ _ h

end Post

/-! ## The rest of the handshake -/

def ours (z : Session) : List Seal × Nat × Bytes × Bytes × UInt64 × Bool × Bool × Bool × Bool × List Event :=
  (z.seals, z.stage, z.cGcm, z.cIv, z.cSeq, z.canSeal, z.opened, z.v12, z.sSealed, z.log)

/-- Says something of `ours` only, and outlives what the log and an alert add to it. -/
structure Aloof (K : Prims) (I : Session → Prop) : Prop where
  rest : ∀ {z z'}, I z → ours z' = ours z → I z'
  changed : ∀ z, z.v12 = true → z.ccsOk = true → z.sSealed = false → I z →
    I { z with sSealed := true, log := z.log ++ [.changed] }
  log : Outlives I
  alert : ∀ desc, Preserves I (sendAlert K desc)

theorem Aloof.blind (hI : Aloof K I) : Blind K I where
  reading := fun _ _ _ _ _ _ _ _ _ _ _ _ _ h => hI.rest h rfl
  changed := hI.changed
  alert := hI.alert

theorem Aloof.curt (hI : Aloof K I) : Curt K I := hI.blind.curt

section Handshake

variable {K : Prims} {I : Session → Prop}

section
variable (hI : Aloof K I)
include hI

theorem hashIn_preserves (msg : Bytes) : Preserves I (hashIn msg) :=
  Preserves.modify fun _ h => hI.rest h rfl

theorem setTheirKeys_preserves (secret : Bytes) : Preserves I (setTheirKeys K secret) := by
  refine Preserves.bind (Preserves.ofOption _) fun _ => Preserves.bind (Preserves.ofOption _) fun _ => ?_
  exact Preserves.modify fun _ h => hI.rest h rfl

omit hI in
theorem p256Key_keeps (hI : Blind K I)
    (hdraw : ∀ z drawn p256Priv p256Pub, I z → I { z with drawn, p256Priv, p256Pub }) (tries : Nat) :
    Preserves I (p256Key K tries) := by
  induction tries with
  | zero => exact refuse_preserves hI.curt _ _
  | succ tries ih =>
    refine Preserves.bind ?_ fun priv => ?_
    · exact Preserves.bind Preserves.get fun _ => Preserves.bind
        (Preserves.modify fun _ h => hdraw _ _ _ _ h) fun _ => Preserves.pure _
    · split
      · exact Preserves.modify fun _ h => hdraw _ _ _ _ h
      · exact Preserves.bind (Preserves.modify fun _ h => hdraw _ _ _ _ h) fun _ => ih

theorem p256Key_preserves (tries : Nat) : Preserves I (p256Key K tries) :=
  p256Key_keeps hI.blind (fun _ _ _ _ h => hI.rest h rfl) tries

theorem sendClientHello_preserves : Preserves I sendClientHello := by
  refine Preserves.bind Preserves.get fun z => ?_
  split
  · exact failWith_preserves hI.curt _
  · refine Preserves.bind (Preserves.modify fun _ h => hI.rest h rfl) fun _ =>
      Preserves.bind (hashIn_preserves hI _) fun _ => Preserves.bind (note_preserves hI.log _) fun _ =>
      Preserves.bind (alloc_preserves hI.blind _) fun _ => ?_
    exact orFail_preserves hI.curt (sendPlainRecord_preserves hI.blind.quiet _ _) _

theorem serverHello12_preserves (hv12 : ∀ z, I z → I { z with v12 := true })
    (retry : Bool) (legacy : Nat) (random sid : Bytes) (suite : Nat) (exts : List (Nat × Bytes)) :
    Preserves I (serverHello12 K retry legacy random sid suite exts) := by
  refine Preserves.bind Preserves.get fun z => ?_
  iterate 8 refine refuseIf_bind hI.curt ?_
  refine Preserves.bind (Preserves.modify fun z h => ?_) fun _ => Preserves.pure _
  exact hI.rest (hv12 z h) rfl

theorem helloRetry_preserves (share cookie : Option Bytes) :
    Preserves I (helloRetry K share cookie) := by
  refine Preserves.bind Preserves.get fun z => ?_
  iterate 3 refine refuseIf_bind hI.curt ?_
  refine Preserves.bind (Preserves.modify fun _ h => hI.rest h rfl) fun _ => refuseIf_bind hI.curt ?_
  refine Preserves.bind Preserves.get fun _ => refuseIf_bind hI.curt ?_
  exact Preserves.bind (Preserves.modify fun _ h => hI.rest h rfl) fun _ => Preserves.pure _

theorem helloShare_preserves (share : Option Bytes) :
    Preserves I (helloShare K share) := by
  refine Preserves.bind Preserves.get fun z => ?_
  cases share with
  | none => exact refuse_preserves hI.curt _ _
  | some q =>
    iterate 2 refine refuseIf_bind hI.curt ?_
    exact Preserves.bind (Preserves.modify fun _ h => hI.rest h rfl) fun _ => Preserves.pure _

theorem parseServerHello_preserves (hv12 : ∀ z, I z → I { z with v12 := true })
    (p : Bytes) : Preserves I (parseServerHello K p) := by
  unfold parseServerHello
  iterate 3 refine refuseIf_bind hI.curt ?_
  refine Preserves.bind (helloExts_preserves hI.curt _) fun exts => ?_
  split
  · exact serverHello12_preserves hI hv12 _ _ _ _ _ _
  · refine Preserves.bind Preserves.get fun z => ?_
    iterate 4 refine refuseIf_bind hI.curt ?_
    exact Preserves.ite (helloRetry_preserves hI _ _) (helloShare_preserves hI _)

theorem helloLoop_preserves (hv12 : ∀ z, I z → I { z with v12 := true })
    (left : Nat) : Preserves I (helloLoop K left) := by
  induction left with
  | zero => exact Preserves.stop
  | succ left ih =>
    refine Preserves.bind (hsNext_preserves hI.blind hI.log _) fun m => refuseIf_bind hI.curt ?_
    refine Preserves.bind (parseServerHello_preserves hI hv12 _) fun retry => ?_
    refine Preserves.ite ?_ (hashIn_preserves hI _)
    refine Preserves.bind Preserves.get fun z => refuseIf_bind hI.curt ?_
    refine Preserves.bind (Preserves.modify fun _ h => hI.rest h rfl) fun _ =>
      Preserves.bind (Preserves.modify fun _ h => hI.rest h rfl) fun _ =>
      Preserves.bind (Preserves.ite (p256Key_preserves hI _) (Preserves.pure _)) fun _ =>
      Preserves.bind (sendClientHello_preserves hI) fun _ => ih

omit hI in
theorem readChain_keeps (hI : Curt K I) (hchain : ∀ z ders leaf, I z → I { z with ders, leaf })
    (list : Bytes) (withExts : Bool) : Preserves I (readChain K list withExts) := by
  refine Preserves.bind (chainLoop_preserves hI _ _ _ _) fun ders =>
    refuseIf_bind hI ?_
  split
  · exact refuse_preserves hI _ _
  · exact Preserves.modify fun _ h => hchain _ _ _ h

theorem readChain_preserves (list : Bytes) (withExts : Bool) :
    Preserves I (readChain K list withExts) :=
  readChain_keeps hI.curt (fun _ _ _ h => hI.rest h rfl) list withExts

theorem read12_preserves (kex : Kex) (m : Msg) : Preserves I (read12 K kex m) := by
  refine Preserves.ite ?_ (Preserves.ite ?_ (Preserves.ite (Preserves.pure _) ?_))
  · refine Preserves.bind ?_ fun _ => Preserves.pure _
    exact refuseIf_bind hI.curt (refuseIf_bind hI.curt (readChain_preserves hI _ _))
  · refine Preserves.bind ?_ fun _ => Preserves.pure _
    iterate 4 refine refuseIf_bind hI.curt ?_
    refine Preserves.bind Preserves.get fun z => Preserves.bind (Preserves.ofOption _) fun leaf =>
      refuseIf_bind hI.curt ?_
    exact Preserves.bind (checkSigned_preserves hI.curt _ _ _ _ _ _) fun _ => Preserves.pure _
  · exact refuseIf_bind hI.curt (Preserves.pure _)

theorem flight12_preserves (left : Nat) (step : Step12) (kex : Kex) :
    Preserves I (flight12 K left step kex) := by
  induction left generalizing step kex with
  | zero => exact Preserves.stop
  | succ left ih =>
    refine Preserves.bind (hsNext_preserves hI.blind hI.log _) fun m =>
      Preserves.bind (expect12_preserves hI.curt _ _) fun _ =>
      Preserves.bind (read12_preserves hI _ _) fun r => Preserves.bind (hashIn_preserves hI _) fun _ => ?_
    cases r.1 with
    | none => exact Preserves.pure _
    | some step => exact ih _ _

theorem agree12_preserves (kex : Kex) : Preserves I (agree12 K kex) := by
  refine Preserves.bind (Preserves.modify fun _ h => hI.rest h rfl) fun _ => Preserves.ite ?_ ?_
  · refine Preserves.bind (p256Key_preserves hI _) fun _ => Preserves.bind Preserves.get fun _ => ?_
    exact Preserves.bind (orRefuse_preserves hI.curt (Preserves.ofOption _) _ _) fun _ => Preserves.pure _
  · refine Preserves.bind Preserves.get fun _ => ?_
    exact Preserves.bind (orRefuse_preserves hI.curt (Preserves.ofOption _) _ _) fun _ => Preserves.pure _

theorem sendHandshake_preserves (msg : Bytes) (why : String) :
    Preserves I (sendHandshake msg why) :=
  Preserves.bind (hashIn_preserves hI _) fun _ => Preserves.bind (note_preserves hI.log _) fun _ =>
    orFail_preserves hI.curt (sendPlainRecord_preserves hI.blind.quiet _ _) _

theorem sendNoCertificate_preserves (asked : Bool) :
    Preserves I (sendNoCertificate asked) :=
  Preserves.ite (sendHandshake_preserves hI _ _) (Preserves.pure _)

theorem verifyData12_preserves (label : String) : Preserves I (verifyData12 K label) :=
  Preserves.bind Preserves.get fun _ => orRefuse_preserves hI.curt (Preserves.ofOption _) _ _

theorem theirFinished12_preserves : Preserves I (theirFinished12 K) :=
  Preserves.bind (hsNext_preserves hI.blind hI.log _) fun _ => Preserves.bind Preserves.get fun _ =>
    refuseIf_bind hI.curt (Preserves.bind (verifyData12_preserves hI _) fun _ => refuseIf_preserves hI.curt _ _ _)

omit hI in
theorem read13_keeps (hI : Curt K I) (hchain : ∀ z ders leaf, I z → I { z with ders, leaf }) (m : Msg) :
    Preserves I (read13 K m) := by
  refine Preserves.ite (Preserves.pure _) (Preserves.ite ?_ (Preserves.ite ?_ ?_))
  · unfold certificate13
    iterate 3 refine refuseIf_bind hI ?_
    exact readChain_keeps hI hchain _ _
  · refine Preserves.bind Preserves.get fun z => Preserves.bind (Preserves.ofOption _) fun leaf => ?_
    unfold checkCertVerify
    iterate 2 refine refuseIf_bind hI ?_
    exact checkSigned_preserves hI _ _ _ _ _ _
  · exact Preserves.bind Preserves.get fun _ => Preserves.bind (derive_preserves hI _ _ _) fun _ =>
      refuseIf_preserves hI _ _ _

theorem read13_preserves (m : Msg) : Preserves I (read13 K m) :=
  read13_keeps hI.curt (fun _ _ _ h => hI.rest h rfl) m

theorem flight13_preserves (left step : Nat) : Preserves I (flight13 K left step) := by
  induction left generalizing step with
  | zero => exact Preserves.stop
  | succ left ih =>
    refine Preserves.bind (hsNext_preserves hI.blind hI.log _) fun m => ?_
    split
    · exact refuse_preserves hI.curt _ _
    · refine Preserves.bind (read13_preserves hI _) fun _ => Preserves.bind (hashIn_preserves hI _) fun _ => ?_
      exact Preserves.ite (Preserves.pure _) (ih _)

theorem drawKeys_preserves : Preserves I (drawKeys K) := by
  have hdraw : ∀ n, Preserves I (draw K n) := fun n => Preserves.bind Preserves.get fun _ =>
    Preserves.bind (Preserves.modify fun _ h => hI.rest h rfl) fun _ => Preserves.pure _
  unfold drawKeys
  iterate 3 refine Preserves.bind (hdraw _) fun _ => ?_
  exact Preserves.modify fun _ h => hI.rest h rfl

end

end Handshake

end Zelr.Tls
