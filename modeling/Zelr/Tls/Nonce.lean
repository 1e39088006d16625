import Mathlib.Data.List.Range
import Zelr.Tls.Auth

/-!
# No nonce twice

Every call of `gcm_seal` is on record (`seals`) with the installation of the sending key it was made
under.
-/

namespace Zelr.Tls

open Act

variable {nonce : UInt64 → Bytes} {K : Prims} {stage n : Nat}

/-! ## Nonces of one key -/

def nonceOf (z : Session) (seq : UInt64) : Bytes :=
  if z.v12 then z.cIv.take 4 ++ beBytes 8 seq.toNat else nonceFor z.cIv seq

theorem beBytes_seq_inj {a b : UInt64} (h : beBytes 8 a.toNat = beBytes 8 b.toNat) : a = b := by
  have hmod : ∀ x : UInt64, x.toNat % 256 ^ 8 = x.toNat := fun x => Nat.mod_eq_of_lt x.toNat_lt
  have hnat := congrArg beNat h
  rw [beNat_beBytes, beNat_beBytes, hmod, hmod] at hnat
  exact UInt64.toNat_inj.mp hnat

variable {key : Bytes} {z : Session}

theorem xorBytes_inj {a b : Bytes} (ha : a.length ≤ key.length) (hab : a.length = b.length)
    (h : xorBytes key a = xorBytes key b) : a = b := by
  induction key generalizing a b with
  | nil =>
    rw [List.length_nil, Nat.le_zero] at ha
    rw [List.length_eq_zero_iff.mp ha, List.length_eq_zero_iff.mp (hab.symm.trans ha)]
  | cons k key ih =>
    cases a with
    | nil => exact (List.length_eq_zero_iff.mp hab.symm).symm
    | cons x a =>
      cases b with
      | nil => cases hab
      | cons y b =>
        simp only [xorBytes, List.zipWith_cons_cons, List.cons.injEq, UInt8.xor_right_inj] at h
        rw [h.1, ih (by simpa using ha) (by simpa using hab) h.2]

theorem nonceFor_inj {iv : Bytes} (hiv : iv.length = 12) : Function.Injective (nonceFor iv) := by
  intro a b h
  refine beBytes_seq_inj (xorBytes_inj ?_ ?_ (List.append_cancel_left h))
  · simp [hiv]
  · simp

theorem nonceOf_inj (h : z.v12 = true ∨ z.cIv.length = 12) :
    Function.Injective (nonceOf z) := by
  unfold nonceOf
  cases hv : z.v12 with
  | true =>
    intro a b hab
    simp only [if_true] at hab
    exact beBytes_seq_inj (List.append_cancel_left hab)
  | false =>
    rw [hv] at h
    simpa using nonceFor_inj (h.resolve_left (by simp))

/-! ## The record of seals -/

/-- The calls made under one installation of the sending key. -/
def sealsOf (stage : Nat) (seals : List Seal) : List Seal := seals.filter fun s => s.stage = stage

/-- The first `n` calls under an installation, numbered from nought. -/
def numbered (stage : Nat) (key : Bytes) (nonce : UInt64 → Bytes) (n : Nat) : List Seal :=
  (List.range n).map fun i => ⟨stage, key, nonce (UInt64.ofNat i)⟩

/-- Every installation's calls are numbered, and the last one's number is `c_seq`. -/
structure Numbered (z : Session) : Prop where
  past : ∀ stage, ∃ key nonce n, Function.Injective nonce ∧
    sealsOf stage z.seals = numbered stage key nonce n
  newest : ∀ s ∈ z.seals, s.stage ≤ z.stage
  inj : Function.Injective (nonceOf z)
  present : ∃ n, sealsOf z.stage z.seals = numbered z.stage z.cGcm (nonceOf z) n ∧
    z.cSeq = UInt64.ofNat n

/-- Nothing has been sealed and nothing can be. -/
structure Clean (z : Session) : Prop where
  seals : z.seals = []
  canSeal : z.canSeal = false
  opened : z.opened = false
  cSeq : z.cSeq = 0

section Steps

variable {K : Prims}

theorem numbered_succ (stage : Nat) (key : Bytes) (nonce : UInt64 → Bytes) (n : Nat) :
    numbered stage key nonce (n + 1) =
      numbered stage key nonce n ++ [⟨stage, key, nonce (UInt64.ofNat n)⟩] := by
  simp [numbered, List.range_succ]

variable {z z' : Session}

theorem Numbered.seal (h : Numbered z) :
    Numbered { z with
      seals := z.seals ++ [⟨z.stage, z.cGcm, nonceOf z z.cSeq⟩], cSeq := z.cSeq + 1 } := by
  obtain ⟨n, hseals, hseq⟩ := h.present
  have hnow : sealsOf z.stage (z.seals ++ [⟨z.stage, z.cGcm, nonceOf z z.cSeq⟩]) =
      numbered z.stage z.cGcm (nonceOf z) (n + 1) := by
    rw [numbered_succ, ← hseals, ← hseq]
    simp [sealsOf]
  refine ⟨fun stage => ?_, fun s hs => ?_, h.inj, n + 1, hnow, ?_⟩
  · by_cases hstage : z.stage = stage
    · subst hstage
      exact ⟨z.cGcm, nonceOf z, n + 1, h.inj, hnow⟩
    · obtain ⟨key, nonce, m, hinj, hpast⟩ := h.past stage
      refine ⟨key, nonce, m, hinj, ?_⟩
      rw [← hpast]
      simp [sealsOf, hstage]
  · rcases List.mem_append.mp hs with hold | hnew
    · exact h.newest s hold
    · rw [List.mem_singleton.mp hnew]
  · dsimp only
    rw [hseq, UInt64.ofNat_add]
    rfl

theorem Numbered.install (h : Numbered z) (hseals : z'.seals = z.seals)
    (hstage : z'.stage = z.stage + 1) (hseq : z'.cSeq = 0) (hinj : Function.Injective (nonceOf z')) :
    Numbered z' := by
  refine ⟨fun stage => hseals ▸ h.past stage, fun s hs => ?_, hinj, 0, ?_, hseq⟩
  · rw [hseals] at hs
    rw [hstage]
    exact Nat.le_succ_of_le (h.newest s hs)
  · rw [hseals, hstage]
    refine List.filter_eq_nil_iff.mpr fun s hs => ?_
    have := h.newest s hs
    simp only [decide_eq_true_eq]
    omega

theorem Clean.numbered (h : Clean z) (hseals : z'.seals = z.seals)
    (hseq : z'.cSeq = 0) (hinj : Function.Injective (nonceOf z')) : Numbered z' := by
  have hnil : z'.seals = [] := hseals.trans h.seals
  refine ⟨fun stage => ⟨[], nonceOf z', 0, hinj, ?_⟩, fun s hs => ?_, hinj, 0, ?_, hseq⟩
  · rw [hnil]
    rfl
  · rw [hnil] at hs
    cases hs
  · rw [hnil]
    rfl

/-! ## Sending -/

theorem sealOurs_numbered (h : Numbered z) {nonce : Bytes} (hnonce : nonce = nonceOf z z.cSeq)
    (aad data : Bytes) : Numbered (sealOurs K nonce aad data z).2 := by
  rw [hnonce]
  exact h.seal

theorem Numbered.rest (h : Numbered z) (hsame : ours z' = ours z) : Numbered z' := by
  simp only [ours, Prod.mk.injEq] at hsame
  obtain ⟨hseals, hstage, hkey, hiv, hseq, -, -, hv12, -⟩ := hsame
  have hnonce : nonceOf z' = nonceOf z := by
    unfold nonceOf
    rw [hv12, hiv]
  obtain ⟨n, hpresent, hnumber⟩ := h.present
  refine ⟨fun stage => hseals ▸ h.past stage, fun s hs => ?_, hnonce ▸ h.inj, n, ?_, hseq.trans hnumber⟩
  · rw [hseals] at hs
    rw [hstage]
    exact h.newest s hs
  · rw [hseals, hstage, hkey, hnonce]
    exact hpresent

theorem writeOut_numbered (out : Bytes) :
    Preserves Numbered (modify (fun z => { z with record := put z.record 0 out }) >>= fun _ => writeAll out) := by
  refine Preserves.bind (Preserves.modify fun _ h => h.rest rfl) fun _ => ?_
  refine Preserves.bind (fun _ h => h.rest rfl) fun _ => ?_
  exact Preserves.ite (Preserves.modify fun _ h => h.rest rfl) Preserves.stop

theorem sendEncrypted_numbered (type : UInt8) (data : Bytes) :
    Preserves Numbered (sendEncrypted K type data) := by
  intro z hz
  unfold sendEncrypted
  rw [bind_get]
  -- the nonce is made from the session before the seal moves its number on
  split_ifs with hv12
  · unfold sendSealed12
    split_ifs
    · exact hz
    · rw [bind_get]
      refine writeOut_numbered _ _ (sealOurs_numbered (K := K) hz ?_ (aad12 z.cSeq type data.length) data)
      simp [nonceOf, hv12]
  · unfold sendSealed13
    split_ifs
    · exact hz
    · rw [bind_get]
      refine writeOut_numbered _ _ (sealOurs_numbered (K := K) hz ?_
        (header REC_APPDATA (data.length + 1 + GCM_TAG)) (data ++ [type]))
      simp [nonceOf, hv12]

theorem sendAlert_numbered (desc : Alert) : Preserves Numbered (sendAlert K desc) := by
  refine Preserves.bind Preserves.get fun z => Preserves.ite (Preserves.pure _) ?_
  refine Preserves.bind (Preserves.modify fun _ h => h.rest rfl) fun _ =>
    Preserves.bind (Preserves.attempt (Preserves.ite (sendEncrypted_numbered _ _) ?_)) fun _ =>
    Preserves.pure _
  exact Preserves.ite Preserves.stop (writeOut_numbered _)

theorem numbered_aloof : Aloof K Numbered where
  rest := Numbered.rest
  changed := fun _ _ _ _ h => ⟨h.past, h.newest, h.inj, h.present⟩
  log := fun _ _ h => ⟨h.past, h.newest, h.inj, h.present⟩
  alert := sendAlert_numbered

/-! ## Before our key -/

theorem Clean.rest (h : Clean z) (hsame : ours z' = ours z) : Clean z' := by
  simp only [ours, Prod.mk.injEq] at hsame
  obtain ⟨hseals, -, -, -, hseq, hcan, hopened, -⟩ := hsame
  exact ⟨hseals.trans h.seals, hcan.trans h.canSeal, hopened.trans h.opened, hseq.trans h.cSeq⟩

theorem sendAlert_clean {I : Session → Prop} (hI : ∀ z, I z → Clean z)
    (hkeep : ∀ z record answers wire alerted, I z → I { z with record, answers, wire, alerted })
    (desc : Alert) : Preserves I (sendAlert K desc) := by
  intro z hz
  unfold sendAlert
  rw [bind_get]
  split_ifs with halerted hcan
  · exact hz
  · rw [(hI z hz).canSeal] at hcan
    cases hcan
  · refine Preserves.bind (Preserves.modify fun _ h => hkeep _ _ _ _ _ h) (fun _ =>
      Preserves.bind (Preserves.attempt ?_) fun _ => Preserves.pure _) z hz
    exact sendPlainRecord_keeps (fun _ _ _ _ h => hkeep _ _ _ _ _ h) _ _

theorem clean_aloof : Aloof K Clean where
  rest := Clean.rest
  changed := fun _ _ _ _ h => { h with }
  log := fun _ _ h => { h with }
  alert := sendAlert_clean (fun _ h => h) fun _ _ _ _ _ h => { h with }

def CleanAs (v : Bool) (z : Session) : Prop := Clean z ∧ z.v12 = v

theorem cleanAs_aloof (v : Bool) : Aloof K (CleanAs v) where
  rest := by
    rintro z z' ⟨h, hv⟩ hsame
    refine ⟨h.rest hsame, ?_⟩
    simp only [ours, Prod.mk.injEq] at hsame
    obtain ⟨-, -, -, -, -, -, -, hv12, -⟩ := hsame
    exact hv12.trans hv
  changed := fun _ _ _ _ h => ⟨{ h.1 with }, h.2⟩
  log := fun _ _ h => ⟨{ h.1 with }, h.2⟩
  alert := sendAlert_clean (fun _ h => h.1) fun _ _ _ _ _ h => ⟨{ h.1 with }, h.2⟩

def Safe (z : Session) : Prop := Clean z ∨ Numbered z

theorem CleanAs.safe {v : Bool} (h : CleanAs v z) : Safe z := .inl h.1

theorem Numbered.safe (h : Numbered z) : Safe z := .inr h

/-! ## Our keys -/

theorem setOurKeys_numbered (secret : Bytes) : Preserves Numbered (setOurKeys K secret) := by
  intro z hz
  unfold setOurKeys
  cases K.hkdfExpandLabel secret "key" [] 16 with
  | none => exact hz
  | some key =>
    cases hiv : K.hkdfExpandLabel secret "iv" [] 12 with
    | none => exact hz
    | some iv => exact hz.install rfl rfl rfl (nonceOf_inj (.inr (K.expand_length hiv)))

theorem setOurKeys_first (v : Bool) (secret : Bytes) :
    Triple (CleanAs v) (setOurKeys K secret) (fun _ => Numbered) (CleanAs v) := by
  intro z hz
  unfold setOurKeys
  cases K.hkdfExpandLabel secret "key" [] 16 with
  | none => exact hz
  | some key =>
    cases hiv : K.hkdfExpandLabel secret "iv" [] 12 with
    | none => exact hz
    | some iv => exact hz.1.numbered rfl rfl (nonceOf_inj (.inr (K.expand_length hiv)))

theorem orRefuse_triple {α : Type} {P E : Session → Prop} {Q : α → Session → Prop} {m : Act Session α}
    (hP : Blind K P) (hPE : ∀ z, P z → E z) (hm : Triple P m Q P) (why : String) (desc : Alert) :
    Triple P (orRefuse K m why desc) Q E := by
  intro z hz
  have hmid := hm z hz
  unfold orRefuse
  rw [bind_of_some (attempt_apply m z)]
  split at hmid
  · next a z' h =>
    rw [h]
    exact hmid
  · next z' h =>
    rw [h]
    dsimp only
    rw [refuse_eq]
    exact hPE _ (refuse_preserves hP.curt why desc z' hmid)

/-! ## The handshake -/

theorem keys12_cleanAs (v : Bool) (pms : Bytes) : Preserves (CleanAs v) (keys12 K pms) := by
  refine Preserves.bind Preserves.get fun z => Preserves.bind ?_ fun made => ?_
  · exact orRefuse_preserves (cleanAs_aloof v).curt (Preserves.ofOption _) _ _
  · exact Preserves.modify fun _ h => ⟨{ h.1 with cSeq := rfl }, h.2⟩

theorem openSession_numbered (version : String) : Preserves Numbered (openSession version) :=
  Preserves.modify fun _ h => ⟨h.past, h.newest, h.inj, h.present⟩

theorem ourFinished12_triple :
    Triple (CleanAs true) (ourFinished12 K) (fun _ => Numbered) Safe := by
  have hC := cleanAs_aloof (K := K) true
  have hI := numbered_aloof (K := K)
  have hplain := orFail_preserves hC.curt (sendPlainRecord_preserves hC.blind.quiet REC_CHANGE_CIPHER [1])
    "could not send the change of cipher"
  refine hplain.bind_triple (fun _ => CleanAs.safe) fun _ =>
    Triple.bind (Q := fun _ => Numbered) (Triple.modify ?_) fun _ => ?_
  · intro z hz
    exact hz.1.numbered rfl hz.1.cSeq (nonceOf_inj (.inl hz.2))
  · refine Preserves.triple ?_ fun _ => Numbered.safe
    refine Preserves.bind (verifyData12_preserves hI _) fun data =>
      Preserves.bind (hashIn_preserves hI _) fun _ => Preserves.bind (note_preserves hI.log _) fun _ =>
      Preserves.bind (orFail_preserves hI.curt (sendEncrypted_numbered _ _) _) fun _ => ?_
    exact Preserves.modify fun _ h => h.rest rfl

theorem handshake12_triple : Triple (CleanAs true) (handshake12 K) (fun _ => Numbered) Safe := by
  have hC := cleanAs_aloof (K := K) true
  have hI := numbered_aloof (K := K)
  have hsafe : ∀ z, CleanAs true z → Safe z := fun _ => CleanAs.safe
  refine (flight12_preserves hC _ _ _).bind_triple hsafe fun kex =>
    (verifyHost_preserves hC.curt).bind_triple hsafe fun _ =>
    (agree12_preserves hC _).bind_triple hsafe fun r =>
    (sendNoCertificate_preserves hC _).bind_triple hsafe fun _ =>
    (sendHandshake_preserves hC _ _).bind_triple hsafe fun _ =>
    (keys12_cleanAs true _).bind_triple hsafe fun _ =>
    Triple.bind ourFinished12_triple fun _ => ?_
  refine Preserves.triple ?_ fun _ => Numbered.safe
  exact Preserves.bind (theirFinished12_preserves hI) fun _ => openSession_numbered _

theorem handshakeKeys13_triple (v : Bool) :
    Triple (CleanAs v) (handshakeKeys13 K) (fun _ => Numbered) Safe := by
  have hC := cleanAs_aloof (K := K) v
  have hsafe : ∀ z, CleanAs v z → Safe z := fun _ => CleanAs.safe
  refine Preserves.get.bind_triple hsafe fun z =>
    (orRefuse_preserves hC.curt (Preserves.ofOption _) _ _).bind_triple hsafe fun shared =>
    (derive_preserves hC.curt _ _ _).bind_triple hsafe fun derived =>
    (derive_preserves hC.curt _ _ _).bind_triple hsafe fun cHs =>
    (derive_preserves hC.curt _ _ _).bind_triple hsafe fun sHs =>
    Triple.bind (Q := fun _ => CleanAs v) (Triple.modify fun _ h => hC.rest h rfl) fun _ =>
    (orRefuse_preserves hC.curt (setTheirKeys_preserves hC _) _ _).bind_triple hsafe fun _ => ?_
  exact orRefuse_triple hC.blind hsafe (setOurKeys_first v _) _ _

theorem finish13_numbered : Preserves Numbered (finish13 K) := by
  have hI := numbered_aloof (K := K)
  refine Preserves.bind Preserves.get fun z => Preserves.bind (derive_preserves hI.curt _ _ _) fun _ =>
    Preserves.bind (note_preserves hI.log _) fun _ =>
    Preserves.bind (orFail_preserves hI.curt (sendEncrypted_numbered _ _) _) fun _ =>
    Preserves.bind (derive_preserves hI.curt _ _ _) fun _ =>
    Preserves.bind (derive_preserves hI.curt _ _ _) fun _ =>
    Preserves.bind (derive_preserves hI.curt _ _ _) fun _ =>
    Preserves.bind (Preserves.modify fun _ h => h.rest rfl) fun _ => ?_
  exact Preserves.bind (orRefuse_preserves hI.curt (setOurKeys_numbered _) _ _) fun _ =>
    orRefuse_preserves hI.curt (setTheirKeys_preserves hI _) _ _

theorem handshake13_triple (v : Bool) :
    Triple (CleanAs v) (handshake13 K) (fun _ => Numbered) Safe := by
  have hI := numbered_aloof (K := K)
  refine Triple.bind (handshakeKeys13_triple v) fun _ => Preserves.triple ?_ fun _ => Numbered.safe
  exact Preserves.bind (flight13_preserves hI _ _) fun _ =>
    Preserves.bind (verifyHost_preserves hI.curt) fun _ =>
    Preserves.bind finish13_numbered fun _ => openSession_numbered _

theorem connectOn_triple (host : Bytes) :
    Triple Clean (connectOn K host) (fun _ => Numbered) Safe := by
  have hC := clean_aloof (K := K)
  have hsafe : ∀ z, Clean z → Safe z := fun _ => .inl
  refine Triple.bind (Q := fun _ => Clean) (Triple.modify fun _ h => hC.rest h rfl) fun _ => ?_
  split_ifs
  · exact fun z hz => hsafe _ (failWith_preserves (α := Unit) hC.curt _ z hz)
  · exact fun z hz => hsafe _ (failWith_preserves (α := Unit) hC.curt _ z hz)
  · refine (drawKeys_preserves hC).bind_triple hsafe fun _ =>
      (sendClientHello_preserves hC).bind_triple hsafe fun _ =>
      (helloLoop_preserves hC (fun _ h => { h with }) _).bind_triple hsafe fun _ => ?_
    intro z hz
    rw [bind_get]
    split_ifs with hv12
    · exact handshake12_triple z ⟨hz, hv12⟩
    · exact handshake13_triple false z ⟨hz, by simpa using hv12⟩

theorem tlsConnect_safe (host : Bytes) (z : Session) : Safe (tlsConnect K host z).2 := by
  have hconnect : Triple (fun _ => True) (tlsConnect K host) (fun _ => Numbered) Safe := by
    refine Triple.bind (Q := fun _ => Clean) (Triple.modify fun _ _ => ⟨rfl, rfl, rfl, rfl⟩) fun _ => ?_
    exact (alloc_preserves (clean_aloof (K := K)).blind _).bind_triple (fun _ => .inl) fun _ =>
      connectOn_triple host
  have := hconnect z trivial
  split at this
  · next h => rw [h]; exact this.safe
  · next h => rw [h]; exact this

/-! ## After the handshake -/

theorem sendLoop_numbered (left : Nat) (data : Bytes) : Preserves Numbered (sendLoop K left data) := by
  induction left generalizing data with
  | zero => exact Preserves.pure _
  | succ left ih =>
    exact Preserves.ite (Preserves.pure _)
      (Preserves.bind (sendEncrypted_numbered _ _) fun _ => ih _)

theorem numbered_rolls : Rolls K Numbered where
  toBlind := numbered_aloof.blind
  sent := sendEncrypted_numbered
  ours := setOurKeys_numbered
  theirs := setTheirKeys_preserves numbered_aloof
  secrets := fun _ _ _ h => h.rest rfl

theorem recvLoop_numbered (cap left : Nat) : Preserves Numbered (recvLoop K cap left) := by
  have hended : Preserves Numbered (modify (fun z => { z with ended := true }) >>= fun _ => pure ([] : Bytes)) :=
    Preserves.bind (Preserves.modify fun _ h => h.rest rfl) fun _ => Preserves.pure _
  induction left with
  | zero => exact Preserves.pure _
  | succ left ih =>
    refine Preserves.bind (Preserves.attempt (readRecord_preserves numbered_aloof.blind.quiet _)) fun r =>
      Preserves.bind Preserves.get fun z => ?_
    rcases r with _ | _ | ⟨type, len⟩
    · exact hended
    · exact Preserves.pure _
    · refine Preserves.ite (Preserves.pure _) (Preserves.ite ih (Preserves.ite ?_ (Preserves.ite ih ?_)))
      · refine Preserves.bind (Preserves.attempt (postHandshake_preserves numbered_rolls _)) fun ok => ?_
        cases ok with
        | none => exact hended
        | some u => exact ih
      · exact Preserves.bind Preserves.get fun _ =>
          Preserves.bind (Preserves.modify fun _ h => h.rest rfl) fun _ => Preserves.pure _

theorem tlsSend_safe (h : Safe z) (data : Bytes) : Safe (tlsSend K data z).2 := by
  rcases h with h | h
  · unfold tlsSend
    rw [bind_get, if_neg (by simp [h.opened])]
    exact .inl h
  · refine .inr (Preserves.bind Preserves.get (fun _ => ?_) z h)
    exact Preserves.ite (sendLoop_numbered _ _) Preserves.stop

theorem tlsRecv_safe (h : Safe z) (cap : Nat) : Safe (tlsRecv K cap z).2 := by
  rcases h with h | h
  · unfold tlsRecv
    rw [bind_get, if_pos h.opened]
    exact .inl h
  · refine .inr (Preserves.bind Preserves.get (fun _ => ?_) z h)
    refine Preserves.ite (Preserves.pure _) (Preserves.ite ?_
      (Preserves.ite (Preserves.pure _) (recvLoop_numbered _ _)))
    exact Preserves.bind (Preserves.modify fun _ h => h.rest rfl) fun _ => Preserves.pure _

theorem tlsAbandon_safe (h : Safe z) : Safe (tlsAbandon z).2 := by
  rcases h with h | h
  · exact .inl ⟨h.seals, h.canSeal, rfl, h.cSeq⟩
  · exact .inr ⟨h.past, h.newest, h.inj, h.present⟩

theorem tlsClose_safe (h : Safe z) : Safe (tlsClose K z).2 := by
  unfold tlsClose sayClose
  rw [bind_get]
  rcases h with h | h
  · rw [h.opened]
    exact tlsAbandon_safe (.inl h)
  · refine .inr (Preserves.bind (Preserves.ite ?_ (Preserves.pure _)) (fun _ => ?_) z h)
    · exact Preserves.bind (Preserves.attempt (sendEncrypted_numbered _ _)) fun _ => Preserves.pure _
    · exact Preserves.modify fun _ h => ⟨h.past, h.newest, h.inj, h.present⟩

end Steps

/-! ## Whole runs -/

/-- The states of a connection: it is made, whatever came of that, and then used in any order over
any transport. -/
inductive Run (K : Prims) : Session → Prop
  | connect (host : Bytes) (z : Session) : Run K (tlsConnect K host z).2
  | arrive {z : Session} (net : List Arrival) (answers : List Bool) : Run K z → Run K { z with net, answers }
  | send {z : Session} (data : Bytes) : Run K z → Run K (tlsSend K data z).2
  | recv {z : Session} (cap : Nat) : Run K z → Run K (tlsRecv K cap z).2
  | close {z : Session} : Run K z → Run K (tlsClose K z).2
  | abandon {z : Session} : Run K z → Run K (tlsAbandon z).2

theorem Run.safe (h : Run K z) : Safe z := by
  induction h with
  | connect host z => exact tlsConnect_safe host z
  | arrive net answers _ ih =>
    rcases ih with ih | ih
    · exact .inl { ih with }
    · exact .inr (ih.rest rfl)
  | send data _ ih => exact tlsSend_safe ih data
  | recv cap _ ih => exact tlsRecv_safe ih cap
  | close _ ih => exact tlsClose_safe ih
  | abandon _ ih => exact tlsAbandon_safe ih

theorem Safe.past (h : Safe z) (stage : Nat) :
    ∃ key nonce n, Function.Injective nonce ∧ sealsOf stage z.seals = numbered stage key nonce n := by
  rcases h with h | h
  · refine ⟨[], fun seq => beBytes 8 seq.toNat, 0, fun _ _ => beBytes_seq_inj, ?_⟩
    rw [h.seals]
    rfl
  · exact h.past stage

theorem numbered_pairwise
    (hinj : Function.Injective nonce) (hn : n ≤ 2 ^ 64) :
    (numbered stage key nonce n).Pairwise fun a b => a.nonce ≠ b.nonce := by
  unfold numbered
  rw [List.pairwise_map]
  refine List.pairwise_iff_getElem.mpr fun i j hi hj hij heq => ?_
  simp only [List.getElem_range, List.length_range] at hi hj heq
  have hnum := congrArg UInt64.toNat (hinj heq)
  rw [UInt64.toNat_ofNat', UInt64.toNat_ofNat', Nat.mod_eq_of_lt (by omega), Nat.mod_eq_of_lt (by omega)]
    at hnum
  omega

/-- In every run, two calls of `gcm_seal` with one key and one nonce were made under two
installations of the sending key, as long as none of these has seen more than 2^64 of them. -/
theorem run_nonces (K : Prims) (z : Session) (hrun : Run K z)
    (hcount : ∀ stage, (sealsOf stage z.seals).length ≤ 2 ^ 64) :
    z.seals.Pairwise fun a b => a.key = b.key → a.nonce = b.nonce → a.stage ≠ b.stage := by
  have hstage : ∀ stage, z.seals.Pairwise fun a b => a.stage = stage → b.stage = stage → a.nonce ≠ b.nonce := by
    intro stage
    obtain ⟨key, nonce, n, hinj, hseals⟩ := hrun.safe.past stage
    have hn : n ≤ 2 ^ 64 := by
      have := hcount stage
      rwa [hseals, numbered, List.length_map, List.length_range] at this
    have hpair : (numbered stage key nonce n).Pairwise _ := numbered_pairwise hinj hn
    rw [← hseals, sealsOf, List.pairwise_filter] at hpair
    simpa using hpair
  refine List.pairwise_iff_getElem.mpr fun i j hi hj hij _ hnonce heq => ?_
  exact List.pairwise_iff_getElem.mp (hstage _) i j hi hj hij heq rfl hnonce

theorem run_nonces_sample :
    (tlsSend samplePrims [7] (sampleConnected sampleNet13)).2.seals.Pairwise
      fun a b => a.key = b.key → a.nonce = b.nonce → a.stage ≠ b.stage := by
  refine run_nonces samplePrims _ (.send _ (.connect _ _)) fun stage => ?_
  refine le_trans (List.length_filter_le _ _) ?_
  decide +kernel

def sendMany (K : Prims) : Nat → Session → Session
  | 0, z => z
  | n + 1, z => (tlsSend K [0] (sendMany K n z)).2

/-- A call was made under a session's key, and it is still open. -/
structure Sealed (z z' : Session) : Prop where
  opened : z'.opened = true
  stage : z'.stage = z.stage
  seals : ∃ nonce, z'.seals = z.seals ++ [⟨z.stage, z.cGcm, nonce⟩]

theorem sealed_out (out : Bytes) :
    Preserves (Sealed z) (modify (fun z => { z with record := put z.record 0 out }) >>= fun _ => writeAll out) := by
  refine Preserves.bind (Preserves.modify fun _ h => { h with }) fun _ => ?_
  refine Preserves.bind (fun _ h => { h with }) fun _ => ?_
  exact Preserves.ite (Preserves.modify fun _ h => { h with }) Preserves.stop

theorem tlsSend_sealed (hopened : z.opened = true) :
    Sealed z (tlsSend K [0] z).2 := by
  have hsent : Sealed z (sendEncrypted K REC_APPDATA [0] z).2 := by
    unfold sendEncrypted
    rw [bind_get]
    split_ifs
    · rw [sendSealed12, if_neg (by decide), bind_get]
      exact sealed_out _ _ ⟨hopened, rfl, _, rfl⟩
    · rw [sendSealed13, if_neg (by decide), bind_get]
      exact sealed_out _ _ ⟨hopened, rfl, _, rfl⟩
  unfold tlsSend
  rw [bind_get, if_pos hopened, List.length_singleton, sendLoop, if_neg (by decide)]
  change Sealed z ((sendEncrypted K REC_APPDATA [0] >>= fun _ => sendLoop K 0 []) z).2
  rw [bind_apply]
  split
  · next h =>
    rw [h] at hsent
    exact hsent
  · next h =>
    rw [h] at hsent
    exact hsent

theorem sendMany_spec (hrun : Run K z) (hopened : z.opened = true) (n : Nat) :
    Run K (sendMany K n z) ∧ (sendMany K n z).opened = true ∧ (sendMany K n z).stage = z.stage ∧
      n ≤ (sealsOf z.stage (sendMany K n z).seals).length := by
  induction n with
  | zero => exact ⟨hrun, hopened, rfl, Nat.zero_le _⟩
  | succ n ih =>
    obtain ⟨hrun', hopened', hstage, hlen⟩ := ih
    have hsealed := tlsSend_sealed (K := K) hopened'
    obtain ⟨nonce, hseals⟩ := hsealed.seals
    refine ⟨.send _ hrun', hsealed.opened, hsealed.stage.trans hstage, ?_⟩
    rw [sendMany, hseals, hstage]
    simpa [sealsOf] using hlen

theorem numbered_not_pairwise (hn : 2 ^ 64 < n) :
    ¬ (numbered stage key nonce n).Pairwise fun a b => ¬ (a.key = b.key ∧ a.nonce = b.nonce) := by
  intro hpair
  have hlen : (numbered stage key nonce n).length = n := by simp [numbered]
  refine List.pairwise_iff_getElem.mp hpair 0 (2 ^ 64) (by omega) (by omega) (by omega) ?_
  simp only [numbered, List.getElem_map, List.getElem_range]
  exact ⟨trivial, rfl⟩

theorem counter_comes_round :
    Run samplePrims (sendMany samplePrims (2 ^ 64 + 1) (sampleConnected sampleNet12)) ∧
      ¬ (sendMany samplePrims (2 ^ 64 + 1) (sampleConnected sampleNet12)).seals.Pairwise
        fun a b => ¬ (a.key = b.key ∧ a.nonce = b.nonce) := by
  have hopened : (sampleConnected sampleNet12).opened = true := by decide +kernel
  generalize hz : sampleConnected sampleNet12 = z at hopened
  have hrun : Run samplePrims z := hz ▸ .connect _ _
  obtain ⟨hmany, -, -, hlen⟩ := sendMany_spec hrun hopened (2 ^ 64 + 1)
  refine ⟨hmany, fun hpair => ?_⟩
  obtain ⟨key, nonce, n, -, hseals⟩ := hmany.safe.past z.stage
  have hn : 2 ^ 64 < n := by
    rw [hseals, numbered, List.length_map, List.length_range] at hlen
    omega
  have hstage := hpair.filter fun s => s.stage = z.stage
  rw [sealsOf] at hseals
  rw [hseals] at hstage
  exact numbered_not_pairwise hn hstage

end Zelr.Tls
