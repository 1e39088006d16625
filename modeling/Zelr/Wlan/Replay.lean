import Zelr.Wlan.Link

/-!
# No packet number twice

In every run of the station no two frames are encrypted with one temporal key and one packet number.
-/

namespace Zelr.Wlan

open Session

variable (C : Primitives) (rng : Nat → Bytes)

/-- No nonce of ours was drawn twice, and different nonces made different keys. -/
structure FreshKeys (st : Station) : Prop where
  nonces : (st.handshakes.map Prod.fst).Nodup
  keys : ∀ a ∈ st.handshakes, ∀ b ∈ st.handshakes, a.1 ≠ b.1 → a.2 ≠ b.2

instance (st : Station) : Decidable (FreshKeys st) :=
  decidable_of_iff ((st.handshakes.map Prod.fst).Nodup ∧ ∀ a ∈ st.handshakes, ∀ b ∈ st.handshakes, a.1 ≠ b.1 → a.2 ≠ b.2)
    ⟨fun h => ⟨h.1, h.2⟩, fun h => ⟨h.nonces, h.keys⟩⟩

theorem FreshKeys.made_nodup {st : Station} (h : FreshKeys st) : (linkOf st).made.Nodup := by
  have hnonces : st.handshakes.Pairwise fun a b => a.1 ≠ b.1 := List.pairwise_map.mp h.nonces
  exact List.pairwise_map.mpr (hnonces.imp_of_mem fun ha hb hne => h.keys _ ha _ hb hne)

theorem numbered_zero : Numbered (linkOf Station.zero) where
  joining := nofun
  tk_made := fun _ he => nomatch he
  pending_made := fun _ he => nomatch he
  sealed_made := fun _ _ he => nomatch he
  pending_unused := nofun
  tx_eq := fun _ he => nomatch he
  within := fun _ _ he => nomatch he
  nodup := List.nodup_nil

theorem runInstalls_true (st : Station) (ops : List Op) : RunInstalls C rng (fun _ _ => True) st ops := by
  induction ops generalizing st with
  | nil => trivial
  | cons op ops ih =>
    refine ⟨?_, ih _⟩
    cases op with
    | rx f signal => exact fun _ _ _ _ => trivial
    | _ => trivial

/-- **Packet numbers are never reused.** -/
theorem sealed_told_apart (ops : List Op) (hfresh : FreshKeys (run C rng Station.zero ops))
    (hfew : ∀ k, sentUnder (run C rng Station.zero ops).sealed k < 2 ^ 48) :
    ((run C rng Station.zero ops).sealed.map fun e => (e.1, e.2 % 2 ^ 48)).Nodup := by
  have hmoves := run_moves (runInstalls_true C rng Station.zero ops)
  have hsize : ∀ k, sentUnder (linkOf (run C rng Station.zero ops)).sealed k < 2 ^ 64 := by
    intro k
    exact (hfew k).trans (by decide)
  have hnum := numbered_zero.steps hmoves hfresh.made_nodup hsize
  exact hnum.told_apart hfew

/-! ## A network and a run -/

def mixed (seed : Nat) (m : Bytes) : Nat := m.foldl (fun n b => (n * 31 + b.toNat + 1) % 65521) (seed + 1)

def digest (n : Nat) (m : Bytes) : Bytes := (List.range n).map fun i => UInt8.ofNat (mixed i m)

/-- Small stand-ins for the ciphers and the hash. A key is wrapped as a check of eight bytes and itself. -/
def samplePrims : Primitives where
  pbkdf2Sha1 := fun p s _ n => digest n (p ++ s)
  hmacSha1 := fun k m => digest SHA1_SIZE (k ++ m)
  aesEncryptBlock := fun k b => digest 16 (k ++ b)
  aesUnwrapKey := fun k w => if w.take 8 = digest 8 (k ++ w.drop 8) then some (w.drop 8) else none

def sampleRng (n : Nat) : Bytes := beBytes NONCE_LEN (n + 1)

def sampleMac : Bytes := [2, 0, 0, 0, 0, 1]
def sampleAp : Bytes := [2, 0, 0, 0, 0, 9]
def sampleSsid : Bytes := ascii "net"
def samplePass : Bytes := ascii "password"
def sampleGtk : Bytes := List.replicate 16 7
def sampleAnonce : Bytes := List.replicate NONCE_LEN 5

def sampleMgmt (subtype : UInt8) (body : Bytes) : Bytes :=
  [subtype <<< 4, 0, 0, 0] ++ sampleMac ++ sampleAp ++ sampleAp ++ [0, 0] ++ body

def sampleBeacon : Bytes :=
  sampleMgmt 8 (List.replicate 8 0 ++ [0, 0, 0x10, 0] ++ putIe 0 sampleSsid ++ OUR_RSN)
def sampleAuthOk : Bytes := sampleMgmt 11 [0, 0, 2, 0, 0, 0]
def sampleAssocOk : Bytes := sampleMgmt 1 [0, 0, 0, 0, 0, 0]

def sampleHeader (da : Bytes) : Bytes := [0x08, 0x02, 0, 0] ++ da ++ sampleAp ++ sampleAp ++ [0, 0]

/-- What the network and the station work out in the `n`th handshake. -/
def samplePtk (n : Nat) : Bytes :=
  wpaPtk samplePrims (wpaPmk samplePrims samplePass sampleSsid) sampleAp sampleMac sampleAnonce (sampleRng n)

def sampleEapol (e : Bytes) : Bytes := sampleHeader sampleMac ++ llcBody 0x888E e

def sampleFirst (replay : Nat) : Bytes :=
  sampleEapol (keyFrame (KI_VERSION ||| KI_PAIRWISE ||| KI_ACK) replay sampleAnonce [])

def sampleSigned (n : Nat) (info : UInt16) (replay : Nat) (nonce data : Bytes) : Bytes :=
  let wrapped := digest 8 (kekOf (samplePtk n) ++ data) ++ data
  sampleEapol (wpaSign samplePrims (kckOf (samplePtk n)) (keyFrame (info ||| KI_ACK ||| KI_MIC) replay nonce wrapped))

def sampleKde : Bytes := [0xDD, 22] ++ OUI ++ [1, 1, 0] ++ sampleGtk

def sampleThird (n replay : Nat) : Bytes :=
  sampleSigned n (KI_VERSION ||| KI_PAIRWISE ||| KI_ENCRYPTED) replay sampleAnonce
    (OUR_RSN ++ sampleKde ++ [0xDD, 0])

def sampleEth : Bytes := sampleAp ++ sampleMac ++ [8, 0, 1, 2, 3]

/-- Joining the network, two frames sent, the first message of the handshake played again between them;
then joining it once more, and a third frame. -/
def sampleJoins : List Op :=
  [.attach (some sampleMac), .rx sampleBeacon (-40), .join sampleSsid (some samplePass), .rx sampleAuthOk (-40),
    .rx sampleAssocOk (-40), .rx (sampleFirst 1) (-40), .rx (sampleThird 0 2) (-40), .send sampleEth,
    .rx (sampleFirst 3) (-40), .rx (sampleThird 1 4) (-40), .send sampleEth, .leave,
    .join sampleSsid (some samplePass), .rx sampleAuthOk (-40), .rx sampleAssocOk (-40), .rx (sampleFirst 1) (-40),
    .rx (sampleThird 2 2) (-40), .send sampleEth]

theorem sampleJoins_few (k : Bytes) : sentUnder (run samplePrims sampleRng Station.zero sampleJoins).sealed k < 2 ^ 48 := by
  have hlen : (run samplePrims sampleRng Station.zero sampleJoins).sealed.length = 3 := by decide +kernel
  have hle := List.countP_le_length (p := fun e : Bytes × Nat => decide (e.1 = k))
    (l := (run samplePrims sampleRng Station.zero sampleJoins).sealed)
  rw [hlen] at hle
  exact lt_of_le_of_lt hle (by decide)

theorem sealed_told_apart_sample :
    (run samplePrims sampleRng Station.zero sampleJoins).sealed.map Prod.snd = [1, 2, 1] ∧
      ((run samplePrims sampleRng Station.zero sampleJoins).sealed.map fun e => (e.1, e.2 % 2 ^ 48)).Nodup :=
  ⟨by decide +kernel, sealed_told_apart samplePrims sampleRng sampleJoins (by decide +kernel) sampleJoins_few⟩

/-!
## No frame twice

A network that sends a group key again has the station count from zero under it.
-/

theorem once_zero : Once counting (linkOf Station.zero) where
  joining := nofun
  tk_made := fun _ he => nomatch he
  pending_made := fun _ he => nomatch he
  taken_made := fun _ _ _ he => nomatch he
  pending_unused := nofun
  below_rx := fun _ he => nomatch he
  below_rxg := fun _ he => nomatch he
  nodup := List.nodup_nil

/-- **Nothing is passed on twice**, not even a frame changed where its MIC does not cover it. -/
theorem passed_once (ops : List Op) (hfresh : FreshKeys (run C rng Station.zero ops))
    (hgroup : RunInstalls C rng (Untaken counting) Station.zero ops) :
    ((run C rng Station.zero ops).passed.map counting.mark).Nodup := by
  exact (once_zero.steps (run_moves hgroup) hfresh.made_nodup).nodup

/-! ## A group key sent again -/

def sampleGtk2 : Bytes := List.replicate 16 8

/-- A later message with a group key, as the network of the sample signs it. -/
def sampleGroup (replay : Nat) (gtk : Bytes) : Bytes :=
  sampleSigned 0 KI_VERSION replay noNonce ([0xDD, 22] ++ OUI ++ [1, 1, 0] ++ gtk)

/-- The network's first frame to everybody under a group key. -/
def sampleToAll (gtk : Bytes) : Bytes :=
  ccmpEncrypt samplePrims gtk 1 1 (sampleHeader (List.replicate 6 0xFF)) (llcBody 0x0800 [1, 2, 3])

def sampleConnect : List Op :=
  [.attach (some sampleMac), .rx sampleBeacon (-40), .join sampleSsid (some samplePass), .rx sampleAuthOk (-40),
    .rx sampleAssocOk (-40), .rx (sampleFirst 1) (-40), .rx (sampleThird 0 2) (-40)]

/-- A frame heard, the group key changed, the first frame under the new key. -/
def sampleRekeyed : List Op :=
  sampleConnect ++ [.rx (sampleToAll sampleGtk) (-40), .rx (sampleGroup 3 sampleGtk2) (-40),
    .rx (sampleToAll sampleGtk2) (-40)]

theorem passed_once_sample :
    (run samplePrims sampleRng Station.zero sampleRekeyed).up.length = 2 ∧
      ((run samplePrims sampleRng Station.zero sampleRekeyed).passed.map counting.mark).Nodup :=
  ⟨by decide +kernel,
    passed_once samplePrims sampleRng sampleRekeyed (by decide +kernel) (by decide +kernel)⟩

/-- A frame heard, the same group key sent again, and the recording of the frame played back. -/
def sampleReplayed : List Op :=
  sampleConnect ++ [.rx (sampleToAll sampleGtk) (-40), .rx (sampleGroup 3 sampleGtk) (-40),
    .rx (sampleToAll sampleGtk) (-40)]

/-- The recorded frame goes up a second time. -/
theorem sampleReplayed_twice :
    FreshKeys (run samplePrims sampleRng Station.zero sampleReplayed) ∧
      (run samplePrims sampleRng Station.zero sampleReplayed).passed =
        [(sampleGtk, sampleToAll sampleGtk), (sampleGtk, sampleToAll sampleGtk)] ∧
      ¬ (run samplePrims sampleRng Station.zero sampleReplayed).up.Nodup := by
  decide +kernel

/-! ## Messages without a signature -/

/-- The keys, and what the next signed message is checked against. -/
structure Keys where
  pmk : Bytes
  ptk : Bytes
  anonce : Bytes
  replaySeen : Nat
  tkAes : Bytes
  gtkAes : Bytes
  keysIn : Bool
  groupIn : Bool
  deriving DecidableEq

def keysOf (st : Station) : Keys :=
  ⟨st.pmk, st.ptk, st.anonce, st.replaySeen, st.tkAes, st.gtkAes, st.keysIn, st.groupIn⟩

/-- A data frame, and the EAPOL frame in it, when there is one, has no valid signature under the station's key. -/
def Unsigned (st : Station) (f : Bytes) : Prop :=
  frameType f = 2 ∧ ∀ st' e, keyFrameIn C st f = some (st', e) → wpaCheckMic C (kckOf st.ptk) e = false

/-- When the frame brings a first message that is taken, it says what the last one said, and the nonce drawn for it
makes the same key. -/
def Repeats (st : Station) (f : Bytes) : Prop :=
  ∀ st' e, keyFrameIn C st f = some (st', e) → keyMessage st' e = some .first →
    slice e 17 NONCE_LEN = st.anonce ∧ keyReplay e = st.replaySeen ∧
      wpaPtk C st.pmk st.cur.bssid st.mac (slice e 17 NONCE_LEN) (rng st.draws) = st.ptk

/-- The frames of a run, each with its strength, as the radio hears them. -/
def hear (st : Station) (frames : List (Bytes × Int)) : Station :=
  frames.foldl (fun st x => wlanRx C rng st x.1 x.2) st

/-- Every frame has the property when it comes. -/
def Along (P : Station → Bytes → Prop) : Station → List (Bytes × Int) → Prop
  | _, [] => True
  | st, x :: xs => P st x.1 ∧ Along P (wlanRx C rng st x.1 x.2) xs

variable {C rng} {st st' : Station} {f e body : Bytes}

/-! ## One frame -/

structure Opened (st st' : Station) : Prop where
  keys : keysOf st' = keysOf st
  state : st'.state = st.state
  cur : st'.cur = st.cur
  radio : st'.radio = st.radio
  draws : st'.draws = st.draws

theorem Opened.refl (st : Station) : Opened st st := ⟨rfl, rfl, rfl, rfl, rfl⟩

theorem openFrame_opened {r : Option Bytes} (h : openFrame C st f = (st', r)) : Opened st st' := by
  unfold openFrame at h
  split at h
  · cases h
    exact Opened.refl st
  · split at h
    · cases h
      exact ⟨rfl, rfl, rfl, rfl, rfl⟩
    · split at h
      · cases h
        exact ⟨rfl, rfl, rfl, rfl, rfl⟩
      · split at h
        · cases h
          exact ⟨rfl, rfl, rfl, rfl, rfl⟩
        · cases h
          unfold pass
          split
          · exact ⟨rfl, rfl, rfl, rfl, rfl⟩
          · exact ⟨rfl, rfl, rfl, rfl, rfl⟩

theorem bodyIn_opened (h : llcType body ≠ some 0x888E) : Opened st (bodyIn C rng st f body) := by
  unfold bodyIn
  split
  · exact Opened.refl st
  · next type htype =>
    rw [if_neg (by rintro rfl; exact h htype)]
    split
    · exact ⟨rfl, rfl, rfl, rfl, rfl⟩
    · split
      · exact Opened.refl st
      · exact ⟨rfl, rfl, rfl, rfl, rfl⟩

theorem data_frame (signal : Int) (htype : frameType f = 2) :
    (keyFrameIn C st f = none ∧ Opened st (wlanRx C rng st f signal)) ∨
      ∃ st' e, keyFrameIn C st f = some (st', e) ∧ Opened st st' ∧ wlanRx C rng st f signal = eapol C rng st' e := by
  unfold keyFrameIn wlanRx
  by_cases hdeaf : st.radio = none ∨ f.length < 24
  · rw [if_pos (by rcases hdeaf with h | h <;> simp [h]), if_pos hdeaf]
    exact Or.inl ⟨rfl, Opened.refl st⟩
  · rw [if_neg hdeaf, if_pos htype]
    unfold dataIn
    rcases hours : fromOurs st f with _ | _
    · rw [if_pos (by simp)]
      exact Or.inl ⟨rfl, Opened.refl st⟩
    · rw [if_neg (by rw [not_or] at hdeaf; simp [hdeaf.1, hdeaf.2, htype]), if_pos rfl]
      rcases hopen : openFrame C st f with ⟨st', _ | body⟩
      · exact Or.inl ⟨rfl, openFrame_opened hopen⟩
      · have hst' := openFrame_opened hopen
        by_cases hkey : llcType body = some 0x888E
        · refine Or.inr ⟨st', body.drop 8, by simp [hkey], hst', ?_⟩
          simp only [bodyIn, hkey, if_true]
        · refine Or.inl ⟨by simp [hkey], ?_⟩
          have hrest := @bodyIn_opened C rng st' f body hkey
          exact ⟨hrest.keys.trans hst'.keys, hrest.state.trans hst'.state, hrest.cur.trans hst'.cur,
            hrest.radio.trans hst'.radio, hrest.draws.trans hst'.draws⟩

theorem keyMessage_connected (hstate : st.state = .connected) : keyMessage st e ≠ some .third := by
  unfold keyMessage
  simp only [hstate]
  split_ifs <;> simp_all

theorem eapol_unsigned (hstate : st.state = .connected) (hmic : wpaCheckMic C (kckOf st.ptk) e = false) :
    (eapol C rng st e).state = .connected ∧
      keysOf (eapol C rng st e) =
        if keyMessage st e = some .first then
          { keysOf st with
            ptk := wpaPtk C st.pmk st.cur.bssid st.mac (slice e 17 NONCE_LEN) (rng st.draws)
            anonce := slice e 17 NONCE_LEN, replaySeen := keyReplay e }
        else keysOf st := by
  unfold eapol
  rcases hm : keyMessage st e with _ | _ | _ | _
  · exact ⟨hstate, by simp⟩
  · obtain ⟨air, seq, heq⟩ := @keyMsg1_eq C rng st e
    simp only [heq, if_true]
    exact ⟨hstate, rfl⟩
  · exact absurd hm (keyMessage_connected hstate)
  · have hnone : groupData C st e = none := by
      unfold groupData
      rw [if_pos (Or.inr (by rw [hmic]; rfl))]
    simp only [keyGroup, hnone]
    exact ⟨hstate, by simp [keysOf, drop]⟩

theorem unsigned_step (signal : Int) (hstate : st.state = .connected) (hun : Unsigned C st f) :
    (wlanRx C rng st f signal).state = .connected ∧
      (keysOf (wlanRx C rng st f signal) = keysOf st ↔ Repeats C rng st f) := by
  obtain ⟨htype, hmic⟩ := hun
  rcases @data_frame C rng st f signal htype with ⟨hnone, hopened⟩ | ⟨st', e, hkey, hopened, hrx⟩
  · refine ⟨hopened.state.trans hstate, fun _ st' e hkey => ?_, fun _ => hopened.keys⟩
    rw [hnone] at hkey
    cases hkey
  · have hptk : st'.ptk = st.ptk := congrArg Keys.ptk hopened.keys
    have hpmk : st'.pmk = st.pmk := congrArg Keys.pmk hopened.keys
    have hmac : st'.mac = st.mac := by
      unfold Station.mac
      rw [hopened.radio]
    obtain ⟨hstill, hkeys⟩ := @eapol_unsigned C rng st' e (hopened.state.trans hstate) (by rw [hptk]; exact hmic st' e hkey)
    rw [hrx]
    refine ⟨hstill, ?_⟩
    rw [hkeys, hopened.keys, hpmk, hopened.cur, hmac, hopened.draws]
    constructor
    · intro hsame st'' e'' hkey' hfirst
      rw [hkey] at hkey'
      cases hkey'
      rw [if_pos hfirst] at hsame
      exact ⟨congrArg Keys.anonce hsame, congrArg Keys.replaySeen hsame, congrArg Keys.ptk hsame⟩
    · intro hrep
      split
      · next hfirst =>
        obtain ⟨hanonce, hreplay, hptk'⟩ := hrep st' e hkey hfirst
        rw [hptk', hanonce, hreplay]
        rfl
      · rfl

/-! ## A run -/

/-- Frames without a signature leave the keys of a connected station as they are, all the way, exactly when every first
message among them that is taken repeats the one before. -/
theorem keys_kept_iff {frames : List (Bytes × Int)} (hstate : st.state = .connected)
    (hun : Along C rng (Unsigned C) st frames) :
    (∀ n, keysOf (hear C rng st (frames.take n)) = keysOf st) ↔ Along C rng (Repeats C rng) st frames := by
  induction frames generalizing st with
  | nil => exact ⟨fun _ => trivial, fun _ n => by rw [List.take_nil]; rfl⟩
  | cons x xs ih =>
    obtain ⟨hfirst, hrest⟩ := hun
    obtain ⟨hstill, hstep⟩ := @unsigned_step C rng st x.1 x.2 hstate hfirst
    constructor
    · intro hkept
      have hone : keysOf (wlanRx C rng st x.1 x.2) = keysOf st := hkept 1
      exact ⟨hstep.mp hone, (ih hstill hrest).mp fun n => (hkept (n + 1)).trans hone.symm⟩
    · rintro ⟨hrep, hreps⟩ n
      rcases n with _ | n
      · rfl
      · exact ((ih hstill hrest).mpr hreps n).trans (hstep.mpr hrep)

/-! ### A station cut off -/

def sampleConnected : Station := run samplePrims sampleRng Station.zero sampleConnect

/-- A first message in the clear, with a nonce of anybody's and the largest replay counter. -/
def sampleForged : Bytes :=
  sampleEapol (keyFrame (KI_VERSION ||| KI_PAIRWISE ||| KI_ACK) (2 ^ 64 - 1) (List.replicate NONCE_LEN 6) [])

def sampleHear (frames : List Bytes) : Station :=
  hear samplePrims sampleRng sampleConnected (frames.map fun f => (f, -40))

theorem unsigned_of_all (htype : frameType f = 2)
    (h : (keyFrameIn C st f).all (fun r => !wpaCheckMic C (kckOf st.ptk) r.2) = true) : Unsigned C st f := by
  refine ⟨htype, fun st' e hkey => ?_⟩
  rw [hkey] at h
  simpa using h

theorem repeats_of_all (h : (keyFrameIn C st f).all (fun r => decide (slice r.2 17 NONCE_LEN = st.anonce ∧
      keyReplay r.2 = st.replaySeen ∧
      wpaPtk C st.pmk st.cur.bssid st.mac (slice r.2 17 NONCE_LEN) (rng st.draws) = st.ptk)) = true) :
    Repeats C rng st f := by
  intro st' e hkey _
  rw [hkey] at h
  exact of_decide_eq_true h

/-- Nonces from a generator that repeats itself. -/
def stuckRng (_ : Nat) : Bytes := sampleRng 0

def sampleStuck : Station := run samplePrims stuckRng Station.zero sampleConnect

/-- Data in the network's group key changes nothing, nor does a first message that repeats the one before. -/
theorem keys_kept_sample :
    (keyFrameIn samplePrims (wlanRx samplePrims stuckRng sampleStuck (sampleToAll sampleGtk) (-40)) (sampleFirst 2)).any
      (fun r => decide (keyMessage r.1 r.2 = some .first)) = true ∧
    ∀ n, keysOf (hear samplePrims stuckRng sampleStuck
      ([(sampleToAll sampleGtk, -40), (sampleFirst 2, -40)].take n)) = keysOf sampleStuck := by
  have hdata : sampleStuck.state = .connected ∧ frameType (sampleToAll sampleGtk) = 2 ∧
      keyFrameIn samplePrims sampleStuck (sampleToAll sampleGtk) = none := by decide +kernel
  obtain ⟨hstate, htype, hnone⟩ := hdata
  generalize hst : wlanRx samplePrims stuckRng sampleStuck (sampleToAll sampleGtk) (-40) = st
  obtain ⟨htype', hmic, htaken, hsame⟩ : frameType (sampleFirst 2) = 2 ∧ (keyFrameIn samplePrims st (sampleFirst 2)).all (fun r =>
      !wpaCheckMic samplePrims (kckOf st.ptk) r.2) = true ∧ (keyFrameIn samplePrims st (sampleFirst 2)).any (fun r =>
      decide (keyMessage r.1 r.2 = some .first)) = true ∧
      (keyFrameIn samplePrims st (sampleFirst 2)).all (fun r => decide (slice r.2 17 NONCE_LEN = st.anonce ∧
      keyReplay r.2 = st.replaySeen ∧
      wpaPtk samplePrims st.pmk st.cur.bssid st.mac (slice r.2 17 NONCE_LEN) (stuckRng st.draws) = st.ptk)) = true := by
    rw [← hst]
    decide +kernel
  have hun : Along samplePrims stuckRng (Unsigned samplePrims) sampleStuck
      [(sampleToAll sampleGtk, -40), (sampleFirst 2, -40)] :=
    ⟨unsigned_of_all htype (by rw [hnone]; rfl), unsigned_of_all htype' (by rw [hst]; exact hmic), trivial⟩
  exact ⟨htaken, (keys_kept_iff hstate hun).mpr
    ⟨repeats_of_all (by rw [hnone]; rfl), repeats_of_all (by rw [hst]; exact hsame), trivial⟩⟩

/-- After the forged message the network's own group key, which would have been taken, is dropped. -/
theorem forged_cuts_off :
    sampleConnected.state = .connected ∧
      Along samplePrims sampleRng (Unsigned samplePrims) sampleConnected [(sampleForged, -40)] ∧
      (sampleHear [sampleForged]).replaySeen = 2 ^ 64 - 1 ∧
      (sampleHear [sampleForged]).anonce ≠ sampleConnected.anonce ∧
      (sampleHear [sampleForged]).ptk ≠ sampleConnected.ptk ∧
      (sampleHear [sampleGroup 3 sampleGtk2]).gtkAes = sampleGtk2 ∧
      (sampleHear [sampleForged, sampleGroup 3 sampleGtk2]).gtkAes = sampleGtk := by
  have hforged : frameType sampleForged = 2 ∧ (keyFrameIn samplePrims sampleConnected sampleForged).all
      (fun r => !wpaCheckMic samplePrims (kckOf sampleConnected.ptk) r.2) = true := by decide +kernel
  exact ⟨by decide +kernel, ⟨unsigned_of_all hforged.1 hforged.2, trivial⟩, by decide +kernel⟩

end Zelr.Wlan
