import Zelr.Tls.Auth

/-!
# Where the bytes of the encrypted flight came from

The buffer handshake messages are put together in outlives the change from plaintext records to
sealed ones. What is left in it when the keys are set is read as if it had been sealed.
-/

namespace Zelr.Tls

open Act

/-- What has been put together and not yet been taken as a message. -/
def unread (z : Session) : Bytes := z.hs.drop z.hsPos

def Opened (K : Prims) (key iv content : Bytes) : Prop :=
  ∃ seq head data tag plain, K.gcmOpen key (nonceFor iv seq) head data tag = some plain ∧
    content = plain.take ((unpad plain).length - 1)

/-- A byte was in the buffer before there was a key, or it came out of a record that opened. -/
inductive Origin
  | early
  | opened
  deriving Repr, DecidableEq

/-- What `hs_next` has to take from: what was in the buffer, then what the records bring. -/
def stream (early : Bytes) (records : List Bytes) : List (UInt8 × Origin) :=
  early.map (·, .early) ++ records.flatten.map (·, .opened)

/-- The messages `hs_next` returned on the way from one state to another. -/
def taken (z z' : Session) : List Bytes :=
  (z'.log.drop z.log.length).filterMap fun
    | .got m => some m
    | _ => none

/-- The messages that were taken are the front of a stream whose every byte came out of a record that opened under the
first key. -/
def AllOpened (K : Prims) (z z' : Session) : Prop :=
  ∃ records, (∀ r ∈ records, Opened K z.sGcm z.sIv r) ∧
    (stream (unread z) records).map Prod.fst = (taken z z').flatten ++ unread z' ∧
    ∀ b ∈ (stream (unread z) records).take (taken z z').flatten.length, b.2 = .opened

section Flight

variable (K : Prims)

/-- `tls_connect` up to the keys for the rest of the handshake. -/
def untilKeys (host : Bytes) : Act Session Unit := do
  modify fun z => { record := z.record, net := z.net, answers := z.answers }
  alloc "not enough memory for a connection"
  modify fun z => { z with host := keptHost host }
  if keptHost host = [] then failWith "no host name to check a certificate against"
  else if K.rngReady = false then
    failWith "this machine has no source of randomness, so no key can be made"
  else
    drawKeys K
    sendClientHello
    helloLoop K 2
    let z ← get
    if z.v12 then stop else handshakeKeys13 K

def afterKeys : Act Session Unit := do
  flight13 K 4 0
  verifyHost K
  finish13 K
  openSession "TLS 1.3"

variable {K} {z z' z1 : Session}

theorem tlsConnect_afterKeys {host : Bytes} {u : Unit} (h : untilKeys K host z = (some u, z1)) :
    tlsConnect K host z = afterKeys K z1 ∧ z1.v12 = false := by
  unfold untilKeys at h
  rw [bind_modify] at h
  obtain ⟨_, za, halloc, h⟩ := bind_eq_some.mp h
  rw [bind_modify] at h
  split_ifs at h with hhost hrng
  · exact absurd h failWith_ne
  · exact absurd h failWith_ne
  obtain ⟨_, zb, hdraw, h⟩ := bind_eq_some.mp h
  obtain ⟨_, zc, hsend, h⟩ := bind_eq_some.mp h
  obtain ⟨_, zd, hloop, h⟩ := bind_eq_some.mp h
  rw [bind_get] at h
  split_ifs at h with hv12
  · cases h
  refine ⟨?_, by simpa [hv12] using (handshakeKeys13_ok h).2.2.2⟩
  unfold tlsConnect connectOn
  rw [bind_modify, bind_of_some halloc, bind_modify,
    if_neg hhost, if_neg hrng, bind_of_some hdraw, bind_of_some hsend, bind_of_some hloop,
    bind_get, if_neg hv12]
  unfold handshake13
  rw [bind_of_some h]
  rfl

/-! ## Reading sealed records -/

variable {front : Bool}

/-- Since the keys were set: the messages that joined the log are the front of what was in the buffer and what opened
records brought. `front` when nothing before `hs_pos` is left. -/
structure Spliced (K : Prims) (z1 : Session) (front : Bool) (z : Session) : Prop where
  v12 : z.v12 = false
  key : z.sGcm = z1.sGcm
  iv : z.sIv = z1.sIv
  splice : ∃ msgs records : List Bytes, z.log = z1.log ++ msgs.map Event.got ∧ (∀ m ∈ msgs, m ≠ []) ∧
    (∀ r ∈ records, Opened K z1.sGcm z1.sIv r) ∧
    unread z1 ++ records.flatten = msgs.flatten ++ unread z
  pos : front = true → z.hsPos = 0

theorem Spliced.refl (hv12 : z1.v12 = false) : Spliced K z1 false z1 :=
  ⟨hv12, rfl, rfl, ⟨[], [], by simp, by simp, by simp, by simp⟩, by simp⟩

theorem spliced_curt : Curt K (Spliced K z1 front) where
  failed := fun _ _ h => { h with }
  alert := sendAlert_keeps fun _ _ _ _ _ _ _ h => { h with }

def FromSealed (K : Prims) (z1 : Session) (front : Bool) (r : Rec) (z : Session) : Prop :=
  Spliced K z1 front z ∧ (r.1 = REC_HANDSHAKE → Opened K z1.sGcm z1.sIv (z.record.take r.2))

theorem sealedAlert_spliced (len : Nat) :
    Triple (Spliced K z1 front) (sealedAlert len) (FromSealed K z1 front) (Spliced K z1 front) := by
  intro z hz
  unfold sealedAlert
  rw [bind_get]
  split_ifs
  · exact ⟨{ hz with }, fun h => absurd h (by decide)⟩
  · exact { hz with }

theorem forged_spliced (off body : Nat) :
    Triple (Spliced K z1 front) (forged K off body : Act Session Rec) (FromSealed K z1 front) (Spliced K z1 front) := by
  intro z hz
  unfold forged
  rw [bind_modify, refuse_eq]
  exact refuse_preserves spliced_curt _ _ _ { hz with }

theorem refuseIf_spliced {α : Type} {bad : Bool} {why : String} {desc : Alert} {m : Act Session α}
    {Q : α → Session → Prop} (h : Triple (Spliced K z1 front) m Q (Spliced K z1 front)) :
    Triple (Spliced K z1 front) (do refuseIf K bad why desc; m) Q (Spliced K z1 front) :=
  (refuseIf_preserves spliced_curt bad why desc).bind_triple (fun _ h => h) fun _ => h

theorem open13_spliced (n : Nat) :
    Triple (Spliced K z1 front) (open13 K n) (FromSealed K z1 front) (Spliced K z1 front) := by
  apply refuseIf_spliced
  intro z hz
  rw [bind_get]
  dsimp only
  cases hopen : K.gcmOpen z.sGcm (nonceFor z.sIv z.sSeq) z.head (z.record.take (n - GCM_TAG))
    ((z.record.drop (n - GCM_TAG)).take GCM_TAG) with
  | none => exact forged_spliced _ _ z hz
  | some plain => ?_
  dsimp only
  rw [bind_modify]
  rw [hz.key, hz.iv] at hopen
  set z2 : Session := { z with sSeq := z.sSeq + 1, record := put z.record 0 plain } with hz2
  have hz' : Spliced K z1 front z2 := { hz with }
  have hcontent : Opened K z1.sGcm z1.sIv (z2.record.take ((unpad plain).length - 1)) := by
    have hshort : (unpad plain).length - 1 ≤ plain.length := by
      have := unpad_length plain
      omega
    exact ⟨_, _, _, _, _, hopen, take_put_zero _ _ hshort⟩
  by_cases hempty : (unpad plain == []) = true
  · rw [refuseIf, if_pos hempty, bind_of_none (refuse_eq _ _ _)]
    exact refuse_preserves spliced_curt _ _ _ hz'
  · rw [refuseIf, if_neg hempty, bind_of_some (pure_apply _ _)]
    split_ifs
    · exact sealedAlert_spliced _ _ hz'
    · exact ⟨hz', fun _ => hcontent⟩

theorem changeCipher_spliced (n : Nat) :
    Triple (Spliced K z1 front) (changeCipher K n) (FromSealed K z1 front) (Spliced K z1 front) := by
  intro z hz
  unfold changeCipher
  rw [bind_get, hz.v12]
  exact ⟨hz, fun h => absurd h (by decide)⟩

theorem takeRecord_spliced :
    Triple (Spliced K z1 front) (takeRecord K true) (FromSealed K z1 front) (Spliced K z1 front) := by
  intro z hz
  unfold takeRecord
  rw [bind_get]
  dsimp only
  by_cases hsize : (recLen z.head == 0 || decide (REC_MAX < recLen z.head)) = true
  · rw [refuseIf, if_pos hsize, bind_of_none (refuse_eq _ _ _)]
    exact refuse_preserves spliced_curt _ _ _ hz
  rw [refuseIf, if_neg hsize, bind_of_some (pure_apply _ _), bind_modify]
  have hv12 : ¬ z.v12 = true := by simp [hz.v12]
  simp only [if_neg hv12]
  have hz' : Spliced K z1 front { z with haveLen := 0 } := { hz with }
  split_ifs with hccs halert hplain
  · exact changeCipher_spliced _ _ hz'
  · exact absurd halert.2 not_false
  · exact absurd hplain not_false
  · exact open13_spliced _ _ hz'

theorem readRecord_spliced :
    Triple (Spliced K z1 front) (readRecord K true)
      (fun r z => Spliced K z1 front z ∧ ∀ rec, r = some rec → FromSealed K z1 front rec z) (Spliced K z1 front) := by
  apply (fillRecord_keeps fun _ _ _ _ _ h => { h with }).bind_triple fun _ h => h
  intro fill z hz
  rw [bind_get]
  cases fill with
  | stopped => exact failWith_preserves (α := Option Rec) spliced_curt _ z hz
  | late => exact ⟨hz, fun _ h => nomatch h⟩
  | whole =>
    have htake := takeRecord_spliced z hz
    dsimp only
    rw [bind_apply]
    split at htake
    · next r z' htake' =>
      exact ⟨htake.1, fun _ h => by cases h; exact htake⟩
    · next htake' => exact htake

/-! ## Messages -/

theorem Spliced.filled {r : Bytes} (h : Spliced K z1 true z) (hr : Opened K z1.sGcm z1.sIv r) :
    Spliced K z1 true { z with hs := z.hs ++ r } := by
  obtain ⟨msgs, records, hlog, hne, hopen, hsplice⟩ := h.splice
  refine { h with splice := ⟨msgs, records ++ [r], hlog, hne, ?_, ?_⟩ }
  · intro c hc
    rcases List.mem_append.mp hc with hc | hc
    · exact hopen c hc
    · rw [List.mem_singleton.mp hc]
      exact hr
  · rw [List.flatten_append, ← List.append_assoc, hsplice]
    simp [unread, h.pos rfl]

theorem hsFillLoop_spliced (left : Nat) :
    Preserves (Spliced K z1 true) (hsFillLoop K true left) := by
  induction left with
  | zero => exact Preserves.bind Preserves.get fun _ => failWith_preserves spliced_curt _
  | succ left ih =>
    intro z hz
    have hread := readRecord_spliced z hz
    unfold hsFillLoop
    rw [bind_apply]
    split at hread
    · next r z' hr =>
      obtain ⟨hz', hfrom⟩ := hread
      rw [bind_get]
      rcases r with _ | ⟨type, len⟩
      · exact failWith_preserves spliced_curt _ _ hz'
      dsimp only
      split_ifs with hccs htype hbig
      · exact ih z' hz'
      · exact refuse_preserves spliced_curt _ _ _ hz'
      · exact refuse_preserves spliced_curt _ _ _ hz'
      · exact hz'.filled ((hfrom _ rfl).2 (not_not.mp htype))
    · exact hread

theorem hsWhole_front {avail : Bytes} {m : Msg} (h : hsWhole avail = some m) :
    m.whole ≠ [] ∧ avail = m.whole ++ avail.drop m.whole.length := by
  unfold hsWhole at h
  dsimp only at h
  split_ifs at h with hlen
  cases h
  have htake : (avail.take (4 + be24 avail 1)).length = 4 + be24 avail 1 := by
    rw [List.length_take]
    omega
  refine ⟨fun hnil => ?_, ?_⟩
  · rw [show avail.take (4 + be24 avail 1) = [] from hnil, List.length_nil] at htake
    omega
  · dsimp only
    rw [htake, List.take_append_drop]

theorem Spliced.took {m : Msg} (h : Spliced K z1 false z) (hm : hsWhole (z.hs.drop z.hsPos) = some m) :
    Spliced K z1 false { z with hsPos := z.hsPos + m.whole.length, log := z.log ++ [.got m.whole] } := by
  obtain ⟨msgs, records, hlog, hne, hopen, hsplice⟩ := h.splice
  obtain ⟨hm0, hfront⟩ := hsWhole_front hm
  refine { h with splice := ⟨msgs ++ [m.whole], records, ?_, ?_, hopen, ?_⟩, pos := by simp }
  · simp [hlog]
  · intro c hc
    rcases List.mem_append.mp hc with hc | hc
    · exact hne c hc
    · rw [List.mem_singleton.mp hc]
      exact hm0
  · rw [hsplice, unread, hfront]
    simp [unread]

theorem hsNextLoop_spliced (left : Nat) :
    Preserves (Spliced K z1 false) (hsNextLoop K true left) := by
  induction left with
  | zero => exact Preserves.bind Preserves.get fun _ => failWith_preserves spliced_curt _
  | succ left ih =>
    intro z hz
    unfold hsNextLoop
    rw [bind_get]
    split_ifs
    · exact refuse_preserves spliced_curt _ _ _ hz
    cases hwhole : hsWhole (z.hs.drop z.hsPos) with
    | some m => exact hz.took hwhole
    | none =>
      show Spliced K z1 false ((modify _ >>= fun _ => hsFill K true >>= fun _ => hsNextLoop K true left) z).2
      rw [bind_modify]
      have hfront : Spliced K z1 true { z with hs := z.hs.drop z.hsPos, hsPos := 0 } :=
        { hz with pos := fun _ => rfl }
      have hfill := hsFillLoop_spliced (netSize z.net + 1) _ hfront
      rw [bind_apply]
      split
      · next h =>
        rw [show hsFillLoop K true (netSize z.net + 1) _ = _ from h] at hfill
        exact ih _ { hfill with pos := by simp }
      · next h =>
        rw [show hsFillLoop K true (netSize z.net + 1) _ = _ from h] at hfill
        exact { hfill with pos := by simp }

theorem hsNext_spliced : Preserves (Spliced K z1 false) (hsNext K true) :=
  fun _ h => hsNextLoop_spliced _ _ h

theorem flight13_spliced (left step : Nat) : Preserves (Spliced K z1 false) (flight13 K left step) := by
  induction left generalizing step with
  | zero => exact Preserves.stop
  | succ left ih =>
    refine Preserves.bind hsNext_spliced fun m => ?_
    split
    · exact refuse_preserves spliced_curt _ _
    · refine Preserves.bind (read13_keeps spliced_curt (fun _ _ _ h => { h with }) m) fun _ =>
        Preserves.bind (Preserves.modify fun _ h => { h with }) fun _ => ?_
      exact Preserves.ite (Preserves.pure _) (ih _)

/-! ## The whole flight -/

theorem Spliced.taken_eq (h : Spliced K z1 front z) :
    ∃ records : List Bytes, (∀ r ∈ records, Opened K z1.sGcm z1.sIv r) ∧ (∀ m ∈ taken z1 z, m ≠ []) ∧
      unread z1 ++ records.flatten = (taken z1 z).flatten ++ unread z := by
  obtain ⟨msgs, records, hlog, hne, hopen, hsplice⟩ := h.splice
  have htaken : taken z1 z = msgs := by
    rw [taken, hlog, List.drop_left, List.filterMap_map]
    exact List.filterMap_some
  rw [htaken]
  exact ⟨records, hopen, hne, hsplice⟩

@[simp] theorem stream_bytes (early : Bytes) (records : List Bytes) :
    (stream early records).map Prod.fst = early ++ records.flatten := by
  simp [stream, Function.comp_def]

theorem Spliced.allOpened_iff (h : Spliced K z1 front z) :
    AllOpened K z1 z ↔ unread z1 = [] ∨ taken z1 z = [] := by
  obtain ⟨records, hopen, hne, hsplice⟩ := h.taken_eq
  constructor
  · rintro ⟨records', -, -, hall⟩
    by_contra hnot
    obtain ⟨hleft, htaken⟩ := not_or.mp hnot
    obtain ⟨b, rest, hb⟩ := List.exists_cons_of_ne_nil hleft
    obtain ⟨m, ms, hms⟩ := List.exists_cons_of_ne_nil htaken
    obtain ⟨c, cs, hm⟩ := List.exists_cons_of_ne_nil (hne m (by simp [hms]))
    -- the first byte of the first message is the first that was left
    have := hall (b, .early) (by simp [hb, hms, hm, stream])
    cases this
  · rintro (hleft | htaken)
    · refine ⟨records, hopen, by simpa using hsplice, fun b hb => ?_⟩
      have := List.mem_of_mem_take hb
      rw [stream, hleft, List.map_nil, List.nil_append, List.mem_map] at this
      obtain ⟨x, -, rfl⟩ := this
      rfl
    · exact ⟨records, hopen, by simpa using hsplice, by simp [htaken]⟩

/-- Every byte of the flight is out of a sealed record, unless some were left when the keys were set: then the first
message taken starts with one that came in the clear. -/
theorem flight_opened_iff (K : Prims) (host : Bytes) (z z1 : Session)
    (h : untilKeys K host z = (some (), z1)) :
    tlsConnect K host z = afterKeys K z1 ∧
      (AllOpened K z1 (flight13 K 4 0 z1).2 ↔ unread z1 = [] ∨ taken z1 (flight13 K 4 0 z1).2 = []) := by
  obtain ⟨hconnect, hv12⟩ := tlsConnect_afterKeys h
  exact ⟨hconnect, (flight13_spliced 4 0 z1 (Spliced.refl hv12)).allOpened_iff⟩

def sampleKeyed (net : List Arrival) : Session := (untilKeys samplePrims (ascii "a.b.c") { net }).2

theorem sampleKeyed_eq {net : List Arrival}
    (h : (untilKeys samplePrims (ascii "a.b.c") { net }).1 = some ()) :
    untilKeys samplePrims (ascii "a.b.c") { net } = (some (), sampleKeyed net) := by
  rw [sampleKeyed, ← h]

theorem sampleFlight_opened :
    unread (sampleKeyed sampleNet13) = [] ∧
      AllOpened samplePrims (sampleKeyed sampleNet13) (flight13 samplePrims 4 0 (sampleKeyed sampleNet13)).2 := by
  have hkeyed : (untilKeys samplePrims (ascii "a.b.c") { net := sampleNet13 }).1 = some () := by
    decide +kernel
  have hunread : unread (sampleKeyed sampleNet13) = [] := by decide +kernel
  exact ⟨hunread, (flight_opened_iff _ _ _ _ (sampleKeyed_eq hkeyed)).2.mpr (.inl hunread)⟩

/-- A hello, and in the same plaintext record the first message of the flight. -/
def coalescedNet : List Arrival :=
  [.bytes (plainRecord REC_HANDSHAKE (sampleHello13 ++ framed HS_ENCRYPTED_EXT [0, 0]))]

theorem coalesced_not_opened :
    untilKeys samplePrims (ascii "a.b.c") { net := coalescedNet } = (some (), sampleKeyed coalescedNet) ∧
      taken (sampleKeyed coalescedNet) (flight13 samplePrims 4 0 (sampleKeyed coalescedNet)).2 =
        [framed HS_ENCRYPTED_EXT [0, 0]] ∧
      ¬ AllOpened samplePrims (sampleKeyed coalescedNet)
        (flight13 samplePrims 4 0 (sampleKeyed coalescedNet)).2 := by
  have hkeyed := @sampleKeyed_eq coalescedNet (by decide +kernel)
  have htaken : taken (sampleKeyed coalescedNet) (flight13 samplePrims 4 0 (sampleKeyed coalescedNet)).2 =
      [framed HS_ENCRYPTED_EXT [0, 0]] := by decide +kernel
  have hunread : unread (sampleKeyed coalescedNet) ≠ [] := by decide +kernel
  have hspliced := flight13_spliced 4 0 _ (Spliced.refl (K := samplePrims) (tlsConnect_afterKeys hkeyed).2)
  refine ⟨hkeyed, htaken, fun hall => ?_⟩
  rcases hspliced.allOpened_iff.mp hall with hnone | hnone
  · exact hunread hnone
  · rw [htaken] at hnone
    cases hnone

end Flight

end Zelr.Tls
