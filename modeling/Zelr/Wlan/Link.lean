import Zelr.Wlan.Station
import Zelr.Base.Session

/-!
# What the station does to its keys

Every function of the station moves its keys and counters by steps of one end of a link, and by
nothing else.
-/

namespace Zelr.Wlan

open Session

variable {st' : Station} {e f : Bytes}

variable (C : Primitives) (rng : Nat → Bytes)

def phaseOf : State → Phase
  | .auth | .assoc | .handshake => .joining
  | .connected => .joined
  | .idle | .scanning | .failed => .idle

def linkOf (st : Station) : Link Bytes (Fin 16) Bytes where
  phase := phaseOf st.state
  pending := if st.haveReplay then some (tkOf st.ptk) else none
  tk := if st.keysIn then some st.tkAes else none
  gk := if st.groupIn then some st.gtkAes else none
  tx := st.txPn
  rx := st.rxPn
  rxg := st.rxGpn
  made := st.handshakes.map Prod.snd
  sealed := st.sealed
  taken := st.passed

/-- The pairwise key counts each priority by itself. -/
def counting : Counting (Fin 16) Bytes where
  cls := fun f => if isGroup f then none else some (tidOf f)
  num := fun f => packetNumber f (ccmpHdrLen f)

def lastGroupKey (els : List Bytes) : Option Bytes :=
  ((els.filter fun el => isGtk el && byteAt el 1 = 22).map fun el => slice el 8 16).getLast?

def groupKeyIn (st : Station) (e : Bytes) : Option Bytes :=
  match keyMessage st e with
  | some .third => match msg3Verdict C st e with
    | .taken g => some g
    | _ => none
  | some .group => if st.groupIn then (groupData C st e).bind fun data => lastGroupKey (elementsOf data) else none
  | _ => none

def keyFrameIn (st : Station) (f : Bytes) : Option (Station × Bytes) :=
  if st.radio = none ∨ f.length < 24 ∨ frameType f ≠ 2 ∨ !fromOurs st f then none
  else
    match openFrame C st f with
    | (_, none) => none
    | (st, some body) => if llcType body = some 0x888E then some (st, body.drop 8) else none

variable {C rng} {ok : Link Bytes (Fin 16) Bytes → Bytes → Prop} {st : Station}

abbrev Moves (ok : Link Bytes (Fin 16) Bytes → Bytes → Prop) (st st' : Station) : Prop :=
  Steps counting (2 ^ 64) ok (linkOf st) (linkOf st')

theorem Moves.of_eq (h : linkOf st' = linkOf st) : Moves ok st st' := by
  rw [Moves, h]

/-! ## Frames out -/

theorem fail_moves (w : String) : Moves ok st (fail st w) :=
  .single (Step.clear (s := linkOf st) .idle nofun)

theorem sendData_plain (da : Bytes) (type : UInt16) (payload : Bytes) :
    ∃ air seq, (sendData C st da type payload true).1 = { st with air := air, seq := seq } := by
  simp only [sendData]
  split
  · exact ⟨st.air, st.seq, rfl⟩
  · simp only [Bool.not_true, Bool.and_false, Bool.false_eq_true, if_false]
    exact ⟨_, _, rfl⟩

theorem sendKey_eq (st : Station) (info : UInt16) (replay : Nat) (nonce data : Bytes) :
    ∃ air seq, sendKey C st info replay nonce data = { st with air := air, seq := seq } :=
  sendData_plain ..

theorem sendData_moves (da : Bytes) (type : UInt16) (payload : Bytes) (plain : Bool) :
    Moves ok st (sendData C st da type payload plain).1 := by
  simp only [sendData]
  split
  · exact .refl
  · split
    · rename_i hin
      have hkeys : st.keysIn = true := (Bool.and_eq_true_iff.mp hin).1
      refine .single ?_
      have hk : (linkOf st).tk = some st.tkAes := if_pos hkeys
      exact Step.send hk
    · exact .refl

theorem wlanSendEth_moves (eth : Bytes) : Moves ok st (wlanSendEth C st eth).1 := by
  simp only [wlanSendEth]
  split
  · exact .refl
  · exact (sendData_moves .. : Moves ok { st with txCount := st.txCount + 1 } _)

/-! ## Joining and leaving -/

theorem wlanAttach_moves (r : Option Bytes) : Moves ok st (wlanAttach st r) :=
  .single (Step.clear (s := linkOf st) .idle nofun)

theorem wlanScan_moves : Moves ok st (wlanScan st) := by
  simp only [wlanScan]
  split
  · exact .refl
  · exact .single (Step.move (s := linkOf st) .idle nofun)

theorem wlanJoin_moves (ssid : Bytes) (passphrase : Option Bytes) : Moves ok st (wlanJoin C st ssid passphrase).1 := by
  simp only [wlanJoin]
  split
  · exact .refl
  · split
    · exact .refl
    · split
      · exact .refl
      · exact .single (Step.join (s := linkOf st))

theorem wlanLeave_moves : Moves ok st (wlanLeave st) := by
  have hclear : ∀ st' : Station, linkOf st' = linkOf st →
      Moves ok st { st' with state := .idle, why := "not joined", keysIn := false, groupIn := false } := by
    intro st' h
    refine .trans (Moves.of_eq h) (.single (Step.clear (s := linkOf st') .idle nofun))
  simp only [wlanLeave]
  split
  · exact hclear _ rfl
  · exact hclear _ rfl

theorem wlanPoll_moves : Moves ok st (wlanPoll st) := by
  simp only [wlanPoll]
  split
  · exact .refl
  · split
    · split
      · exact .refl
      · split
        · exact .single (Step.move (s := linkOf st) .idle nofun)
        · exact .refl
    · split
      · exact .refl
      · split
        · exact (fail_moves _ : Moves ok { st with timer := st.timer + 1, tries := st.tries + 1 } _)
        · exact .refl
    · split
      · exact .refl
      · split
        · exact (fail_moves _ : Moves ok { st with timer := st.timer + 1, tries := st.tries + 1 } _)
        · exact .refl
    · split
      · exact (fail_moves _ : Moves ok { st with timer := st.timer + 1 } _)
      · exact .refl
    · exact .refl

/-! ## The handshake -/

theorem keyMsg1_eq (st : Station) (e : Bytes) :
    ∃ air seq, keyMsg1 C rng st e =
      let ptk := wpaPtk C st.pmk st.cur.bssid st.mac (slice e 17 NONCE_LEN) (rng st.draws)
      { st with
        anonce := slice e 17 NONCE_LEN, snonce := rng st.draws, ptk := ptk, replaySeen := keyReplay e, haveReplay := true
        draws := st.draws + 1, handshakes := st.handshakes ++ [(rng st.draws, tkOf ptk)], air := air, seq := seq
        timer := 0 } := by
  obtain ⟨air, seq, heq⟩ := sendKey_eq (C := C) _ (KI_VERSION ||| KI_PAIRWISE ||| KI_MIC) (keyReplay e) (rng st.draws) OUR_RSN
  exact ⟨air, seq, congrArg (fun st : Station => { st with timer := 0 }) heq⟩

theorem keyMsg1_moves (e : Bytes) : Moves ok st (keyMsg1 C rng st e) := by
  obtain ⟨air, seq, heq⟩ := @keyMsg1_eq C rng st e
  refine .single ?_
  rw [heq]
  have hstep : Step counting (2 ^ 64) ok (linkOf st) _ :=
    .derive (tkOf (wpaPtk C st.pmk st.cur.bssid st.mac (slice e 17 NONCE_LEN) (rng st.draws)))
  simpa [linkOf] using hstep

theorem keyMsg3_moves (hstate : st.state = .handshake)
    (hok : ∀ g, msg3Verdict C st e = .taken g → ok (linkOf st) g) : Moves ok st (keyMsg3 C st e) := by
  unfold keyMsg3
  split
  · exact .refl
  · exact fail_moves _
  · rename_i g hv
    obtain ⟨air, seq, heq⟩ := sendKey_eq (C := C) { st with replaySeen := keyReplay e }
      (KI_VERSION ||| KI_PAIRWISE ||| KI_MIC ||| KI_SECURE) (keyReplay e) noNonce []
    have hreplay : st.haveReplay = true := by
      cases hr : st.haveReplay with
      | true => rfl
      | false => simp [msg3Verdict, hr] at hv
    have hp : (linkOf st).phase = .joining := by rw [linkOf, hstate]; rfl
    have hk : (linkOf st).pending = some (tkOf st.ptk) := if_pos hreplay
    refine .single ?_
    simp only [heq]
    exact Step.install g hp hk (hok g hv)

def regroup (st : Station) : Option Bytes → Station
  | none => st
  | some g => { st with gtkAes := g, rxGpn := 0 }

theorem lastGroupKey_append (els : List Bytes) (el : Bytes) :
    lastGroupKey (els ++ [el]) =
      if isGtk el ∧ byteAt el 1 = 22 then some (slice el 8 16) else lastGroupKey els := by
  split <;> simp [lastGroupKey, *]

theorem foldl_groupElement (els : List Bytes) (st : Station) :
    els.foldl groupElement st = regroup st (lastGroupKey els) := by
  induction els using List.reverseRecOn with
  | nil => rfl
  | append_singleton els el ih =>
    rw [List.foldl_append, ih, lastGroupKey_append]
    simp only [List.foldl_cons, List.foldl_nil, groupElement]
    split
    · cases lastGroupKey els <;> rfl
    · rfl

theorem keyGroup_moves
    (hok : st.groupIn = true → ∀ data g, groupData C st e = some data → lastGroupKey (elementsOf data) = some g →
      ok (linkOf st) g) : Moves ok st (keyGroup C st e) := by
  unfold keyGroup
  split
  · exact .refl
  · rename_i data hdata
    simp only [foldl_groupElement]
    obtain ⟨air, seq, heq⟩ := sendKey_eq (C := C)
      { regroup st (lastGroupKey (elementsOf data)) with replaySeen := keyReplay e }
      (KI_VERSION ||| KI_MIC ||| KI_SECURE) (keyReplay e) noNonce []
    rw [heq]
    cases hg : lastGroupKey (elementsOf data) with
    | none => exact .refl
    | some g =>
      refine .single ?_
      have hgk : (linkOf st).gk ≠ none → ok (linkOf st) g := by
        intro hne
        refine hok ?_ data g hdata hg
        by_contra hin
        exact hne (if_neg hin)
      have hstep : Step counting (2 ^ 64) ok (linkOf st) _ := .regroup g hgk
      have hmap : (linkOf st).gk.map (fun _ => g) = if st.groupIn then some g else none := by
        cases hin : st.groupIn <;> simp [linkOf, hin]
      rw [hmap] at hstep
      exact hstep

theorem eapol_moves (hok : ∀ g, groupKeyIn C st e = some g → ok (linkOf st) g) :
    Moves ok st (eapol C rng st e) := by
  have hthird : keyMessage st e = some .third → st.state = .handshake := by
    intro h
    simp only [keyMessage] at h
    split at h
    · cases h
    · split at h
      · cases h
      · split at h
        · split at h
          · split at h <;> cases h
          · split at h
            · assumption
            · cases h
        · split at h <;> cases h
  unfold eapol
  split
  · exact .refl
  · exact keyMsg1_moves e
  · rename_i hm
    refine keyMsg3_moves (hthird hm) ?_
    intro g hg
    exact hok g (by simp only [groupKeyIn, hm, hg])
  · rename_i hm
    refine keyGroup_moves ?_
    intro hin data g hdata hg
    exact hok g (by simp [groupKeyIn, hm, hin, hdata, hg])

/-! ## Frames in -/

theorem openFrame_moves {body : Option Bytes} (h : openFrame C st f = (st', body)) :
    Moves ok st st' := by
  simp only [openFrame] at h
  split at h
  · cases h
    exact .refl
  · split at h
    · cases h
      exact .refl
    · rename_i hin
      split at h
      · cases h
        exact .refl
      · rename_i body' pn hdec
        have hpn := ccmpDecrypt_pn C hdec
        split at h
        · cases h
          exact .refl
        · rename_i hpast
          cases h
          subst hpn
          refine .single ?_
          simp only [rxIn, lastPn, Bool.not_eq_true, Bool.not_eq_false', not_le] at hin hpast
          cases hg : isGroup f with
          | true =>
            rw [hg] at hin hpast
            have hgk : (linkOf st).gk = some st.gtkAes := if_pos hin
            have hcls : counting.cls f = none := if_pos hg
            simp only [pass, rxKey, hg, if_true]
            exact Step.group hgk hcls hpast
          | false =>
            rw [hg] at hin hpast
            have htk : (linkOf st).tk = some st.tkAes := if_pos hin
            have hcls : counting.cls f = some (tidOf f) := by simp [counting, hg]
            simp only [pass, rxKey, hg, Bool.false_eq_true, if_false]
            exact Step.pairwise htk hcls hpast

theorem bodyIn_moves {body : Bytes}
    (hok : llcType body = some 0x888E → ∀ g, groupKeyIn C st (body.drop 8) = some g → ok (linkOf st) g) :
    Moves ok st (bodyIn C rng st f body) := by
  unfold bodyIn
  split
  · exact .refl
  · rename_i type htype
    split
    · rename_i heq
      subst heq
      exact eapol_moves (hok htype)
    · split
      · exact .refl
      · split
        · exact .refl
        · exact .refl

theorem mgmtIn_moves (f : Bytes) (signal : Int) : Moves ok st (mgmtIn st f signal) := by
  have hheard : linkOf (heardBss st f signal) = linkOf st := by
    simp only [heardBss]
    split
    · rfl
    · split
      · rfl
      · split <;> rfl
  simp only [mgmtIn]
  split
  · exact Moves.of_eq hheard
  · exact Moves.of_eq hheard
  · split
    · rename_i hauth
      split
      · exact fail_moves _
      · refine .single (Step.move (s := linkOf st) .joining ?_)
        intro _
        rw [linkOf, hauth.1]
        rfl
    · exact .refl
  · split
    · rename_i hassoc
      split
      · exact fail_moves _
      · split
        · refine .single (Step.move (s := linkOf st) .joining ?_)
          intro _
          rw [linkOf, hassoc.1]
          rfl
        · exact .single (Step.move (s := linkOf st) .joined nofun)
    · exact .refl
  · split
    · exact fail_moves _
    · exact .refl
  · split
    · exact fail_moves _
    · exact .refl
  · exact .refl

theorem wlanRx_moves {signal : Int}
    (hok : ∀ st₁ e, keyFrameIn C st f = some (st₁, e) → ∀ g, groupKeyIn C st₁ e = some g → ok (linkOf st₁) g) :
    Moves ok st (wlanRx C rng st f signal) := by
  unfold wlanRx
  split
  · exact .refl
  · rename_i hhas
    split
    · rename_i htype
      unfold dataIn
      split
      · rename_i hours
        split
        · rename_i st₁ hopen
          exact openFrame_moves hopen
        · rename_i st₁ body hopen
          refine .trans (openFrame_moves hopen) (bodyIn_moves ?_)
          intro hllc g hg
          refine hok st₁ (body.drop 8) ?_ g hg
          rw [not_or] at hhas
          simp [keyFrameIn, hhas, htype, hours, hopen, hllc]
      · exact .refl
    · split
      · exact mgmtIn_moves f signal
      · exact .refl

def Installs (C : Primitives) (ok : Link Bytes (Fin 16) Bytes → Bytes → Prop) (st : Station) : Op → Prop
  | .rx f _ => ∀ p ∈ keyFrameIn C st f, ∀ g ∈ groupKeyIn C p.1 p.2, ok (linkOf p.1) g
  | _ => True

instance [∀ s g, Decidable (ok s g)] : (op : Op) → Decidable (Installs C ok st op)
  | .rx f _ => inferInstanceAs (Decidable (∀ p ∈ keyFrameIn C st f, ∀ g ∈ groupKeyIn C p.1 p.2, ok (linkOf p.1) g))
  | .attach _ | .scan | .join _ _ | .leave | .poll | .send _ => isTrue trivial

theorem step_moves {op : Op} (hok : Installs C ok st op) : Moves ok st (step C rng st op) := by
  cases op with
  | attach r => exact wlanAttach_moves r
  | scan => exact wlanScan_moves
  | join ssid passphrase => exact wlanJoin_moves ssid passphrase
  | leave => exact wlanLeave_moves
  | rx f signal => exact wlanRx_moves fun st₁ e he => hok (st₁, e) he
  | poll => exact wlanPoll_moves
  | send eth => exact wlanSendEth_moves eth

/-- Every step of a run puts in only group keys that meet the condition. -/
def RunInstalls (C : Primitives) (rng : Nat → Bytes) (ok : Link Bytes (Fin 16) Bytes → Bytes → Prop) (st : Station) :
    List Op → Prop
  | [] => True
  | op :: ops => Installs C ok st op ∧ RunInstalls C rng ok (step C rng st op) ops

instance decidableRunInstalls [∀ s g, Decidable (ok s g)] :
    (ops : List Op) → (st : Station) → Decidable (RunInstalls C rng ok st ops)
  | [], _ => isTrue trivial
  | op :: ops, st =>
    have := decidableRunInstalls ops (step C rng st op)
    inferInstanceAs (Decidable (Installs C ok st op ∧ RunInstalls C rng ok (step C rng st op) ops))

theorem run_moves {ops : List Op} (hok : RunInstalls C rng ok st ops) : Moves ok st (run C rng st ops) := by
  induction ops generalizing st with
  | nil => exact .refl
  | cons op ops ih => exact .trans (step_moves hok.1) (ih hok.2)

end Zelr.Wlan
