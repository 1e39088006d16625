import Mathlib.Data.List.Chain
import Zelr.Tcp.Sending
import Zelr.Tcp.Stream

/-!
# The window a connection promises

What a peer is told it may send is what is free in the buffer, so the edge of it moves only when the
reader takes bytes out or the peer's FIN takes a number of its own.
-/

namespace Zelr.Tcp

variable {isn : U32} {low low' : Nat} {c c' : Conn}

/-! ## Edges -/

/-- The number the window of a segment ends before. -/
def edge (s : Sent) : U32 := s.ack + BitVec.ofNat 32 s.window

/-- The segments that promise a window: a segment with no ACK flag, the SYN, says nothing of what
comes in. -/
def promises (wire : List Sent) : List Sent := wire.filter fun s => s.flags &&& TH_ACK ≠ 0

def Forward (a b : Sent) : Prop := 0 ≤ (edge b - edge a).toInt

/-- What a connection comes to from `tcp_open`, by any steps in any order. -/
inductive Life (iss : U32) : Conn → Traffic → Prop
  | opened (c : Conn) : c.wire = [] → c.rxbuf.length = RXCAP →
      Life iss (tcpOpen c iss) ⟨iss, [.syn], 0, none⟩
  | step {c c' t op} : Life iss c t → step c t op = some c' →
      Life iss c' (t.after (sender c) op (sender c'))

/-! ## The room there is -/

/-- The buffer starts at the number `isn`; what is held past a hole is at position `low` of it or
later, and inside it. -/
structure Fits (isn : U32) (low : Nat) (c : Conn) : Prop where
  cap : c.rxbuf.length = RXCAP
  fits : c.rxlen ≤ RXCAP
  next : c.rcvNxt = seqAt isn c.rxlen
  ahead : ∀ e ∈ c.held, ∃ p q, e = (seqAt isn p, seqAt isn q) ∧ low ≤ p ∧ p ≤ q ∧ q ≤ RXCAP
  slots : c.held.length ≤ TCP_HELD

theorem fits_iff_right :
    Fits isn low c ↔ Right isn c.rxbuf 0 low c := by
  constructor
  · rintro ⟨hcap, hfits, hnext, hahead, hslots⟩
    refine ⟨hcap, hfits, by omega, by rw [Nat.zero_add]; exact hnext, fun k _ _ => rfl, ?_, hslots⟩
    intro e he
    obtain ⟨p, q, rfl, hlow, hpq, hq⟩ := hahead e he
    exact ⟨p, q, rfl, hlow, hpq, by omega, by omega, fun k _ _ => rfl⟩
  · rintro ⟨hcap, hfits, -, hnext, -, hahead, hslots⟩
    rw [Nat.zero_add] at hnext
    refine ⟨hcap, hfits, hnext, ?_, hslots⟩
    intro e he
    obtain ⟨p, q, rfl, hlow, hpq, hq, -⟩ := hahead e he
    exact ⟨p, q, rfl, hlow, hpq, by omega⟩

section Fits

variable {isn : U32} {low : Nat} {c c' : Conn}

theorem Fits.low_le (h : Fits isn low c) (hle : low' ≤ low) : Fits isn low' c := by
  refine { h with ahead := ?_ }
  intro e he
  obtain ⟨p, q, hpq, hp, hrest⟩ := h.ahead e he
  exact ⟨p, q, hpq, by omega, hrest⟩

theorem Fits.congr (h : Fits isn low c) (hsame : SameBytes c c') : Fits isn low c' := by
  obtain ⟨hbuf, hlen, hnext, hheld⟩ := hsame
  exact ⟨by rw [hbuf, h.cap], by rw [hlen]; exact h.fits, by rw [hnext, hlen, h.next],
    by rw [hheld]; exact h.ahead, by rw [hheld]; exact h.slots⟩

theorem Fits.shift {buf : Bytes} {n : Nat} (h : Fits isn low c) (hn : n ≤ low) (hlen : n ≤ c.rxlen)
    (hbuf : buf.length = RXCAP) :
    Fits (seqAt isn n) (low - n) { c with rxlen := c.rxlen - n, rxbuf := buf } := by
  have hseq : ∀ p, n ≤ p → seqAt isn p = seqAt (seqAt isn n) (p - n) := by
    intro p hp
    rw [show p = n + (p - n) by omega, ← seqAt_add, Nat.add_sub_cancel_left]
    rfl
  have hfits := h.fits
  refine ⟨hbuf, by simp only; omega, ?_, ?_, h.slots⟩
  · simp only
    rw [h.next, hseq _ hlen]
  · intro e he
    obtain ⟨p, q, rfl, hp, hpq, hq⟩ := h.ahead e he
    exact ⟨p - n, q - n, by rw [hseq p (by omega), hseq q (by omega)], by omega, by omega, by omega⟩

theorem Fits.next_number (h : Fits isn (c.rxlen + 1) c) :
    Fits (seqAt isn 1) c.rxlen { c with rcvNxt := c.rcvNxt + 1 } := by
  have hseq : ∀ p, 1 ≤ p → seqAt isn p = seqAt (seqAt isn 1) (p - 1) := by
    intro p hp
    rw [show p = 1 + (p - 1) by omega, ← seqAt_add, Nat.add_sub_cancel_left]
    rfl
  refine ⟨h.cap, h.fits, ?_, ?_, h.slots⟩
  · simp only
    rw [h.next, show c.rxlen = c.rxlen + 1 - 1 from rfl, ← hseq (c.rxlen + 1) (by omega)]
    exact seqAt_add isn c.rxlen 1
  · intro e he
    obtain ⟨p, q, rfl, hp, hpq, hq⟩ := h.ahead e he
    exact ⟨p - 1, q - 1, by rw [hseq p (by omega), hseq q (by omega)], by omega, by omega, by omega⟩

theorem Fits.reach_le (h : Fits isn low c) (hlow : c.rxlen ≤ low) :
    c.rxlen + heldReach c ≤ c.rxbuf.length := by
  have hfits := h.fits
  have hreach : heldReach c ≤ RXCAP - c.rxlen := by
    rw [heldReach_le]
    intro e he
    obtain ⟨p, q, rfl, hp, hpq, hq⟩ := h.ahead e he
    rw [h.next, seqAt_ahead isn _ _ (by omega) (by unfold RXCAP at hq; omega)]
    omega
  rw [h.cap]
  omega

end Fits

/-! ## Taking bytes in, whatever they are -/

structure OnlyRx (c c' : Conn) : Prop where
  wire : c'.wire = c.wire
  ends : SameEnds c c'
  flags : c'.rtFlags = c.rtFlags

theorem absorbLoop_only (left : Nat) (c : Conn) :
    OnlyRx c (absorbLoop left c) ∧ (absorbLoop left c).rxbuf = c.rxbuf := by
  induction left generalizing c with
  | zero => exact ⟨⟨rfl, ⟨rfl, rfl, rfl, rfl, rfl⟩, rfl⟩, rfl⟩
  | succ left ih =>
    unfold absorbLoop
    split
    · exact ⟨⟨rfl, ⟨rfl, rfl, rfl, rfl, rfl⟩, rfl⟩, rfl⟩
    · next i _ =>
      obtain ⟨⟨hwire, hends, hflags⟩, hbuf⟩ := ih { reach c (c.held.getD i (0, 0)).2 with
        held := unhold (reach c (c.held.getD i (0, 0)).2).held i }
      have hreach : OnlyRx c (reach c (c.held.getD i (0, 0)).2) ∧
          (reach c (c.held.getD i (0, 0)).2).rxbuf = c.rxbuf := by
        unfold reach
        dsimp only
        split <;> exact ⟨⟨rfl, ⟨rfl, rfl, rfl, rfl, rfl⟩, rfl⟩, rfl⟩
      obtain ⟨⟨hwire', hends', hflags'⟩, hbuf'⟩ := hreach
      exact ⟨⟨hwire.trans hwire', hends'.trans hends, hflags.trans hflags'⟩, hbuf.trans hbuf'⟩

def lowOf (c : Conn) : Nat := if c.gotFin then c.rxlen else c.rxlen + 1

theorem rxlen_le_lowOf (c : Conn) : c.rxlen ≤ lowOf c ∧ lowOf c ≤ c.rxlen + 1 := by
  unfold lowOf
  split <;> omega

/-- Bytes `off` past the next one are put in their place as far as there is room; the ones that are next
are taken, with what they reach of what was held. -/
theorem takeAt_fits {isn : U32} {c : Conn} {off : Nat} {data : Bytes} (h : Fits isn (lowOf c) c) :
    ∃ c', takeAt c off data = some c' ∧ Fits isn (lowOf c') c' ∧ OnlyRx c c' ∧
      c.rxlen ≤ c'.rxlen ∧
      (off = 0 → ∀ i, i < data.length → i < RXCAP - c.rxlen →
        c.rxlen + i < c'.rxlen ∧ c'.rxbuf[c.rxlen + i]? = data[i]?) := by
  have hfits := h.fits
  have hcap := h.cap
  obtain ⟨hlow, hlow'⟩ := rxlen_le_lowOf c
  unfold takeAt
  dsimp only
  by_cases hroom : off < RXCAP - c.rxlen
  · rw [if_pos hroom]
    generalize hn : min data.length (RXCAP - c.rxlen - off) = n
    have hlen : (data.take n).length = n := by
      rw [List.length_take]
      omega
    obtain ⟨out, hout⟩ : ∃ out, blit c.rxbuf (c.rxlen + off) (data.take n) = some out :=
      ⟨_, blit_eq_some (by rw [hlen, hcap]; omega)⟩
    have houtLen : out.length = RXCAP := (blit_length hout).trans hcap
    simp only [hout, Option.bind_eq_bind, Option.bind_some]
    by_cases hzero : off = 0
    · rw [if_pos hzero]
      subst hzero
      have hgrown : Fits isn 0
          { c with rxbuf := out, rxlen := c.rxlen + n, rcvNxt := c.rcvNxt + BitVec.ofNat 32 n } := by
        refine ⟨houtLen, by simp only; omega, by simp only [h.next, seqAt_add], ?_, h.slots⟩
        exact fun e he => (h.low_le (Nat.zero_le _)).ahead e he
      obtain ⟨hright, hgrow, -⟩ := absorbLoop_spec _ (fits_iff_right.mp hgrown) le_rfl
      obtain ⟨honly, hbuf⟩ := absorbLoop_only c.held.length
        { c with rxbuf := out, rxlen := c.rxlen + n, rcvNxt := c.rcvNxt + BitVec.ofNat 32 n }
      rw [Nat.zero_add] at hright
      have hafter : Fits isn ((absorbLoop c.held.length
          { c with rxbuf := out, rxlen := c.rxlen + n, rcvNxt := c.rcvNxt + BitVec.ofNat 32 n }).rxlen + 1)
          (absorbLoop c.held.length
          { c with rxbuf := out, rxlen := c.rxlen + n, rcvNxt := c.rcvNxt + BitVec.ofNat 32 n }) := by
        rw [fits_iff_right, hbuf]
        exact hright
      refine ⟨_, rfl, hafter.low_le (rxlen_le_lowOf _).2, ⟨honly.wire, honly.ends, honly.flags⟩,
        le_trans (Nat.le_add_right _ _) hgrow, ?_⟩
      intro _ i hi hi'
      have hin : i < n := by omega
      refine ⟨lt_of_lt_of_le (by simp only; omega) hgrow, ?_⟩
      unfold absorb
      rw [hbuf]
      simp only
      rw [blit_inside hout (by omega) (by omega), show c.rxlen + i - (c.rxlen + 0) = i by omega,
        List.getElem?_take_of_lt hin]
    · rw [if_neg hzero]
      have hput : Fits isn (lowOf c) { c with rxbuf := out } :=
        ⟨houtLen, h.fits, h.next, h.ahead, h.slots⟩
      have hnew : Stretch isn out out 0 (lowOf c) (c.rcvNxt + BitVec.ofNat 32 off,
          c.rcvNxt + BitVec.ofNat 32 off + BitVec.ofNat 32 n) := by
        refine ⟨c.rxlen + off, c.rxlen + off + n, ?_, by omega, by omega, by omega, by omega,
          fun k _ _ => rfl⟩
        rw [h.next, seqAt_add, seqAt_add]
      have hheld := hold_spec (Nat.zero_le _) (fits_iff_right.mp hput) hnew
      refine ⟨_, rfl, fits_iff_right.mpr hheld, ⟨rfl, ⟨rfl, rfl, rfl, rfl, rfl⟩, rfl⟩, le_rfl, ?_⟩
      intro hno
      exact absurd hno hzero
  · rw [if_neg hroom]
    refine ⟨c, rfl, h, ⟨rfl, ⟨rfl, rfl, rfl, rfl, rfl⟩, rfl⟩, le_rfl, ?_⟩
    intro hzero i _ hi
    omega

/-! ## The last promise -/

/-- A segment from here would not move the edge back. -/
def Ready (c : Conn) : Prop :=
  ∀ l ∈ (promises c.wire).getLast?,
    0 ≤ (c.rcvNxt + BitVec.ofNat 32 (windowNow c) - edge l).toInt

/-- The promises made so far never moved back, and the last one is of what is there now. -/
structure Promised (c : Conn) : Prop where
  chain : (promises c.wire).IsChain Forward
  last : ∀ l ∈ (promises c.wire).getLast?, l.ack = c.rcvNxt ∧ l.window ≤ windowNow c

theorem windowNow_le (c : Conn) : windowNow c ≤ 65535 ∧ windowNow c ≤ RXCAP - c.rxlen := by
  unfold windowNow
  omega

theorem forward_of {ack : U32} {k window window' : Nat} (hle : window ≤ k + window')
    (hsmall : k + window' < 2 ^ 31) :
    0 ≤ (ack + BitVec.ofNat 32 k + BitVec.ofNat 32 window' - (ack + BitVec.ofNat 32 window)).toInt := by
  have hseq : ack + BitVec.ofNat 32 k + BitVec.ofNat 32 window' = seqAt ack (k + window') := by
    rw [← seqAt_add]
    rfl
  rw [hseq, show ack + BitVec.ofNat 32 window = seqAt ack window from rfl,
    seqAt_diff ack _ _ (by omega) (by omega)]
  omega

theorem Promised.ready (h : Promised c) : Ready c := by
  intro l hl
  obtain ⟨hack, hwindow⟩ := h.last l hl
  obtain ⟨hsmall, -⟩ := windowNow_le c
  have hforward := @forward_of c.rcvNxt 0 l.window (windowNow c) (by omega) (by omega)
  unfold edge
  rw [hack]
  simpa using hforward

theorem promises_append (wire : List Sent) (s : Sent) :
    promises (wire ++ [s]) = promises wire ++ if s.flags &&& TH_ACK ≠ 0 then [s] else [] := by
  unfold promises
  rw [List.filter_append]
  split_ifs with hack <;> simp [hack]

theorem emit_wire (c : Conn) (seq : U32) (flags : UInt8) (data : Bytes) :
    (emit c seq flags data).wire = c.wire ∨
      (emit c seq flags data).wire = c.wire ++ [⟨seq, c.rcvNxt, flags, windowNow c, data⟩] := by
  unfold emit
  extract_lets opts
  split_ifs
  · exact Or.inl rfl
  · exact Or.inr rfl

theorem promised_of_emitted {s : Sent} (hchain : (promises c.wire).IsChain Forward)
    (hready : Ready c) (hwire : c'.wire = c.wire ++ [s]) (hack : s.flags &&& TH_ACK ≠ 0)
    (hs : s.ack = c.rcvNxt) (hwindow : s.window = windowNow c) (hnext : c'.rcvNxt = c.rcvNxt)
    (hlen : c'.rxlen = c.rxlen) : Promised c' := by
  have hnow : windowNow c' = windowNow c := by
    unfold windowNow
    rw [hlen]
  refine ⟨?_, ?_⟩
  · rw [hwire, promises_append, if_pos hack, List.isChain_append]
    refine ⟨hchain, List.isChain_singleton s, ?_⟩
    intro l hl s' hs'
    rw [List.head?_cons, Option.mem_some_iff] at hs'
    subst hs'
    have hforward := hready l hl
    unfold Forward
    rw [edge, hs, hwindow]
    exact hforward
  · intro l hl
    rw [hwire, promises_append, if_pos hack, List.getLast?_concat, Option.mem_some_iff] at hl
    subst hl
    exact ⟨hs.trans hnext.symm, by rw [hnow, hwindow]⟩

theorem emit_promised (h : Promised c) (seq : U32) (flags : UInt8) (data : Bytes) :
    Promised (emit c seq flags data) := by
  obtain ⟨⟨-, hlen, hnext, -⟩, -⟩ := emit_same c seq flags data
  have hnow : windowNow (emit c seq flags data) = windowNow c := by
    unfold windowNow
    rw [hlen]
  rcases emit_wire c seq flags data with hwire | hwire
  · exact ⟨by rw [hwire]; exact h.chain, by rw [hwire, hnext, hnow]; exact h.last⟩
  · by_cases hack : flags &&& TH_ACK ≠ 0
    · exact promised_of_emitted h.chain h.ready hwire hack rfl rfl hnext hlen
    · have hsame : promises (emit c seq flags data).wire = promises c.wire := by
        rw [hwire, promises_append, if_neg hack, List.append_nil]
      exact ⟨by rw [hsame]; exact h.chain, by rw [hsame, hnext, hnow]; exact h.last⟩

theorem sendAck_promised {c : Conn} (hchain : (promises c.wire).IsChain Forward) (hready : Ready c) :
    Promised (sendAck c) := by
  have hack : TH_ACK &&& TH_ACK ≠ 0 := by decide
  have hsyn : ¬ TH_ACK &&& TH_SYN ≠ 0 := by decide
  have hwire : (sendAck c).wire = c.wire ++ [⟨c.sndNxt, c.rcvNxt, TH_ACK, windowNow c, []⟩] := by
    simp [sendAck, emit, hsyn]
  obtain ⟨⟨-, hlen, hnext, -⟩, -⟩ := emit_same c c.sndNxt TH_ACK []
  exact promised_of_emitted hchain hready hwire hack rfl rfl hnext hlen

theorem Promised.ready_taken (h : Promised c)
    (hc : Fits isn low c) (hc' : Fits isn low' c') (hwire : c'.wire = c.wire)
    (hle : c.rxlen ≤ c'.rxlen) : Ready c' := by
  intro l hl
  rw [hwire] at hl
  obtain ⟨hack, hwindow⟩ := h.last l hl
  have hfits' := hc'.fits
  have hnext : c'.rcvNxt = c.rcvNxt + BitVec.ofNat 32 (c'.rxlen - c.rxlen) := by
    rw [hc'.next, hc.next, seqAt_add]
    congr 1
    omega
  have hroom : l.window ≤ c'.rxlen - c.rxlen + windowNow c' := by
    unfold windowNow at hwindow ⊢
    omega
  obtain ⟨hsmall, -⟩ := windowNow_le c'
  unfold edge
  rw [hack, hnext]
  exact forward_of hroom (by unfold RXCAP at hfits'; omega)

/-! ## The invariant of a connection's life -/

structure Lasting (c : Conn) : Prop where
  fits : ∃ isn, Fits isn (lowOf c) c
  promised : Promised c
  greeting : c.state = .synSent →
    c.rxlen = 0 ∧ c.held = [] ∧ promises c.wire = [] ∧ c.rtFlags = TH_SYN

section Steps

variable {c c' : Conn} {t : Traffic}

theorem Promised.congr (h : Promised c) (hwire : c'.wire = c.wire) (hnext : c'.rcvNxt = c.rcvNxt)
    (hlen : c'.rxlen ≤ c.rxlen) : Promised c' := by
  have hnow : windowNow c ≤ windowNow c' := by
    unfold windowNow
    omega
  refine ⟨by rw [hwire]; exact h.chain, ?_⟩
  intro l hl
  rw [hwire] at hl
  obtain ⟨hack, hwindow⟩ := h.last l hl
  exact ⟨by rw [hack, hnext], hwindow.trans hnow⟩

section
variable (h : Lasting c)
include h

theorem Lasting.congr (hsame : SameBytes c c') (hfin : c'.gotFin = c.gotFin)
    (hwire : c'.wire = c.wire)
    (hsyn : c'.state = .synSent → c.state = .synSent ∧ c'.rtFlags = c.rtFlags) : Lasting c' := by
  obtain ⟨isn, hfits⟩ := h.fits
  have hlow : lowOf c' = lowOf c := by
    unfold lowOf
    rw [hfin, hsame.2.1]
  refine ⟨⟨isn, by rw [hlow]; exact hfits.congr hsame⟩,
    h.promised.congr hwire hsame.2.2.1 (le_of_eq hsame.2.1), ?_⟩
  intro hs
  obtain ⟨hs', hflags⟩ := hsyn hs
  obtain ⟨h1, h2, h3, h4⟩ := h.greeting hs'
  exact ⟨by rw [hsame.2.1, h1], by rw [hsame.2.2.2, h2], by rw [hwire, h3], by rw [hflags, h4]⟩

theorem Lasting.emit (seq : U32) (flags : UInt8) (data : Bytes)
    (hsyn : c.state = .synSent → flags = TH_SYN) : Lasting (emit c seq flags data) := by
  obtain ⟨hbytes, hstate, hfin, -⟩ := emit_same c seq flags data
  obtain ⟨isn, hfits⟩ := h.fits
  have hlow : lowOf (Tcp.emit c seq flags data) = lowOf c := by
    unfold lowOf
    rw [hfin, hbytes.2.1]
  refine ⟨⟨isn, by rw [hlow]; exact hfits.congr hbytes⟩, emit_promised h.promised seq flags data, ?_⟩
  intro hs
  rw [hstate] at hs
  obtain ⟨h1, h2, h3, h4⟩ := h.greeting hs
  have hflags : (Tcp.emit c seq flags data).rtFlags = c.rtFlags := congrArg Sender.rtFlags (sender_emit c seq flags data)
  have hnone : promises (Tcp.emit c seq flags data).wire = promises c.wire := by
    rcases emit_wire c seq flags data with hwire | hwire
    · rw [hwire]
    · have hno : ¬ TH_SYN &&& TH_ACK ≠ 0 := by decide
      rw [hwire, promises_append, hsyn hs, if_neg hno, List.append_nil]
  exact ⟨by rw [hbytes.2.1, h1], by rw [hbytes.2.2.2, h2], by rw [hnone, h3], by rw [hflags, h4]⟩

theorem Lasting.sendReliable (hsyn : c.state ≠ .synSent) (seq : U32) (flags : UInt8)
    (data : Bytes) : Lasting (sendReliable c seq flags data) := by
  unfold Tcp.sendReliable
  split
  · exact h
  · have hkept : Lasting { c with
        rtSeq := seq, rtFlags := flags, rtData := data, rtPending := true, rtTries := 0,
        rtTimeoutMs := RTO_MIN_MS, rtSentAt := c.clock } :=
      h.congr ⟨rfl, rfl, rfl, rfl⟩ rfl rfl fun hs => absurd hs hsyn
    exact hkept.emit seq flags data fun hs => absurd hs hsyn

theorem Lasting.pumpOne (now : Nat) : Lasting (pumpOne { c with clock := now }) := by
  have hclock : Lasting { c with clock := now } :=
    h.congr ⟨rfl, rfl, rfl, rfl⟩ rfl rfl fun hs => ⟨hs, rfl⟩
  unfold Tcp.pumpOne
  split_ifs
  · exact hclock
  · exact hclock
  · exact h.congr ⟨rfl, rfl, rfl, rfl⟩ rfl rfl fun hs => by cases hs
  · have hkept : Lasting { c with
        rtTries := c.rtTries + 1, rtTimeoutMs := min (c.rtTimeoutMs * 2) RTO_MAX_MS, rtSentAt := now,
        clock := now } :=
      h.congr ⟨rfl, rfl, rfl, rfl⟩ rfl rfl fun hs => ⟨hs, rfl⟩
    exact hkept.emit _ _ _ fun hs => (h.greeting hs).2.2.2

theorem Lasting.take (hsyn : c.state ≠ .synSent) (seq : U32) (data : Bytes) :
    ∃ c', take c seq data = some c' ∧ Lasting c' ∧ c'.state = c.state ∧ c'.gotFin = c.gotFin ∧
      ((seq - c.rcvNxt).toInt ≤ 0 → ∀ i, i + (seq - c.rcvNxt).toInt.natAbs < data.length →
        i < RXCAP - c.rxlen → c.rxlen + i < c'.rxlen ∧
          c'.rxbuf[c.rxlen + i]? = data[i + (seq - c.rcvNxt).toInt.natAbs]?) := by
  obtain ⟨isn, hfits⟩ := h.fits
  -- whatever was taken, the acknowledgement after it keeps the promise
  have hanswer : ∀ {d : Conn}, Fits isn (lowOf d) d → OnlyRx c d → c.rxlen ≤ d.rxlen →
      Lasting (sendAck d) ∧ (sendAck d).state = c.state ∧ (sendAck d).gotFin = c.gotFin ∧
        (sendAck d).rxlen = d.rxlen ∧ (sendAck d).rxbuf = d.rxbuf := by
    intro d hd honly hle
    obtain ⟨hbytes, hstate, hfin, -⟩ := emit_same d d.sndNxt TH_ACK []
    have hlow : lowOf (sendAck d) = lowOf d := by
      unfold lowOf
      rw [show (sendAck d).gotFin = d.gotFin from hfin, show (sendAck d).rxlen = d.rxlen from hbytes.2.1]
    have hstate' : (sendAck d).state = c.state := hstate.trans honly.ends.1
    refine ⟨⟨⟨isn, by rw [hlow]; exact hd.congr hbytes⟩, sendAck_promised ?_ ?_, ?_⟩, hstate',
      hfin.trans honly.ends.2.1, hbytes.2.1, hbytes.1⟩
    · rw [honly.wire]
      exact h.promised.chain
    · exact h.promised.ready_taken hfits hd honly.wire hle
    · exact fun hs => absurd (hstate'.symm.trans hs) hsyn
  have hsame : OnlyRx c c := ⟨rfl, ⟨rfl, rfl, rfl, rfl, rfl⟩, rfl⟩
  unfold Tcp.take
  dsimp only
  split_ifs with hneg hall
  · obtain ⟨hkept, hstate, hfin, -⟩ := hanswer hfits hsame le_rfl
    refine ⟨_, rfl, hkept, hstate, hfin, ?_⟩
    intro _ i hi
    omega
  · obtain ⟨d, hd, hdfits, honly, hle, htaken⟩ := @takeAt_fits isn c 0
      (data.drop (seq - c.rcvNxt).toInt.natAbs) hfits
    obtain ⟨hkept, hstate, hfin, hlen, hbuf⟩ := hanswer hdfits honly hle
    refine ⟨_, by rw [hd]; rfl, hkept, hstate, hfin, ?_⟩
    intro _ i hi hroom
    obtain ⟨hready, hbyte⟩ := htaken rfl i (by rw [List.length_drop]; omega) hroom
    rw [hlen, hbuf, hbyte, List.getElem?_drop]
    exact ⟨hready, by rw [Nat.add_comm]⟩
  · obtain ⟨d, hd, hdfits, honly, hle, htaken⟩ := @takeAt_fits isn c (seq - c.rcvNxt).toInt.toNat data hfits
    obtain ⟨hkept, hstate, hfin, hlen, hbuf⟩ := hanswer hdfits honly hle
    refine ⟨_, by rw [hd]; rfl, hkept, hstate, hfin, ?_⟩
    intro hle i hi hroom
    have hzero : (seq - c.rcvNxt).toInt = 0 := by omega
    obtain ⟨hready, hbyte⟩ := htaken (by rw [hzero]; rfl) i (by omega) hroom
    rw [hlen, hbuf, hbyte, hzero]
    exact ⟨hready, rfl⟩

theorem Lasting.finArrived (hsyn : c.state ≠ .synSent) (hfin : c.gotFin = false) :
    Lasting (finArrived c) := by
  obtain ⟨isn, hfits⟩ := h.fits
  have hlow : lowOf c = c.rxlen + 1 := by simp [lowOf, hfin]
  rw [hlow] at hfits
  have hready : Ready { c with rcvNxt := c.rcvNxt + 1, gotFin := true, finHeld := false } := by
    intro l hl
    obtain ⟨hack, hwindow⟩ := h.promised.last l hl
    obtain ⟨hsmall, -⟩ := windowNow_le c
    unfold edge
    rw [hack]
    exact @forward_of c.rcvNxt 1 l.window (windowNow c) (by omega) (by omega)
  have hpromised := @sendAck_promised { c with rcvNxt := c.rcvNxt + 1, gotFin := true, finHeld := false }
    h.promised.chain hready
  obtain ⟨hbytes, hstate, hgot, -⟩ := emit_same
    { c with rcvNxt := c.rcvNxt + 1, gotFin := true, finHeld := false } c.sndNxt TH_ACK []
  have htold : Lasting (sendAck { c with rcvNxt := c.rcvNxt + 1, gotFin := true, finHeld := false }) := by
    refine ⟨⟨seqAt isn 1, ?_⟩, hpromised, fun hs => absurd (hstate.symm.trans hs) hsyn⟩
    have hshift : Fits (seqAt isn 1) c.rxlen
        { c with rcvNxt := c.rcvNxt + 1, gotFin := true, finHeld := false } :=
      hfits.next_number.congr ⟨rfl, rfl, rfl, rfl⟩
    have hlow' : lowOf (sendAck { c with rcvNxt := c.rcvNxt + 1, gotFin := true, finHeld := false }) =
        c.rxlen := by
      unfold lowOf
      rw [show (sendAck _).gotFin = true from hgot, if_pos rfl]
      exact hbytes.2.1
    rw [hlow']
    exact hshift.congr hbytes
  unfold Tcp.finArrived
  dsimp only
  generalize sendAck { c with rcvNxt := c.rcvNxt + 1, gotFin := true, finHeld := false } = told at htold
  split_ifs with hopen
  · have hclosing : Lasting { told with sndNxt := told.sndNxt + 1, state := .closing } :=
      htold.congr ⟨rfl, rfl, rfl, rfl⟩ rfl rfl fun hs => by cases hs
    exact hclosing.sendReliable (by simp) _ _ _
  · exact htold.congr ⟨rfl, rfl, rfl, rfl⟩ rfl rfl fun hs => by cases hs

theorem Lasting.finIn (hsyn : c.state ≠ .synSent) (s : Segment) : Lasting (finIn c s) := by
  unfold Tcp.finIn
  extract_lets at_ noted
  have hnoted : Lasting noted ∧ noted.state = c.state := by
    unfold noted
    split_ifs
    · exact ⟨h.congr ⟨rfl, rfl, rfl, rfl⟩ rfl rfl fun hs => absurd hs hsyn, rfl⟩
    · exact ⟨h, rfl⟩
    · exact ⟨h, rfl⟩
  split_ifs with hdue
  · exact hnoted.1.finArrived (by rw [hnoted.2]; exact hsyn) hdue.2.1
  · exact hnoted.1

omit h in
theorem ackArrived_wire (c : Conn) (ack : U32) : (ackArrived c ack).wire = c.wire := by
  unfold ackArrived
  extract_lets una covers
  have huna : una.wire = c.wire := by
    unfold una
    split_ifs <;> rfl
  split_ifs <;> exact huna

theorem Lasting.greeted (hsyn : c.state = .synSent) (s : Segment) :
    Lasting (sendAck { c with
      rcvNxt := s.seq + 1, sndNxt := s.ack, sndUna := s.ack, rtPending := false, state := .opened }) := by
  obtain ⟨hlen, hheld, hnone, -⟩ := h.greeting hsyn
  obtain ⟨isn, hfits⟩ := h.fits
  obtain ⟨hbytes, hstate, -⟩ := emit_same { c with
    rcvNxt := s.seq + 1, sndNxt := s.ack, sndUna := s.ack, rtPending := false, state := .opened }
    s.ack TH_ACK []
  have hopen : ∀ low, Fits (s.seq + 1) low { c with
      rcvNxt := s.seq + 1, sndNxt := s.ack, sndUna := s.ack, rtPending := false, state := .opened } := by
    intro low
    refine ⟨hfits.cap, hfits.fits, ?_, ?_, hfits.slots⟩
    · simp only [hlen, seqAt_zero]
    · intro e he
      simp only [hheld, List.not_mem_nil] at he
  refine ⟨⟨s.seq + 1, (hopen _).congr hbytes⟩, sendAck_promised h.promised.chain ?_, ?_⟩
  · intro l hl
    simp only [hnone, List.getLast?_nil] at hl
    cases hl
  · exact fun hs => absurd (hstate.symm.trans hs) (by simp)

theorem Lasting.tcpInput (s : Segment) : ∃ c', tcpInput c s = some c' ∧ Lasting c' := by
  unfold Tcp.tcpInput
  by_cases hrst : s.flags &&& TH_RST ≠ 0
  · rw [if_pos hrst]
    exact ⟨_, rfl, h.congr ⟨rfl, rfl, rfl, rfl⟩ rfl rfl fun hs => by cases hs⟩
  rw [if_neg hrst]
  by_cases hsyn : c.state = .synSent
  · rw [if_pos hsyn]
    split_ifs
    · exact ⟨_, rfl, h.greeted hsyn s⟩
    · exact ⟨c, rfl, h⟩
  rw [if_neg hsyn]
  have hacked : Lasting (if s.flags &&& TH_ACK ≠ 0 then ackArrived c s.ack else c) ∧
      (if s.flags &&& TH_ACK ≠ 0 then ackArrived c s.ack else c).state = c.state := by
    split_ifs
    · obtain ⟨hbytes, hstate, hfin, -⟩ := ackArrived_same c s.ack
      exact ⟨h.congr hbytes hfin (ackArrived_wire c s.ack) fun hs => absurd (hstate.symm.trans hs) hsyn,
        hstate⟩
    · exact ⟨h, rfl⟩
  generalize (if s.flags &&& TH_ACK ≠ 0 then ackArrived c s.ack else c) = d at hacked
  obtain ⟨hd, hstate⟩ := hacked
  have hdsyn : d.state ≠ .synSent := by rw [hstate]; exact hsyn
  dsimp only
  by_cases hdata : s.data.length ≠ 0
  · obtain ⟨e, he, hkept, hestate, -⟩ := hd.take hdsyn s.seq s.data
    rw [if_pos hdata, he]
    exact ⟨_, rfl, hkept.finIn (by rw [hestate]; exact hdsyn) s⟩
  · rw [if_neg hdata]
    exact ⟨_, rfl, hd.finIn hdsyn s⟩

theorem Lasting.tcpRecv (cap : Nat) :
    ∃ out c', tcpRecv c cap = some (out, c') ∧ Lasting c' := by
  obtain ⟨isn, hfits⟩ := h.fits
  obtain ⟨hlow, hlow'⟩ := rxlen_le_lowOf c
  have hstop := hfits.reach_le hlow
  unfold Tcp.tcpRecv
  extract_lets n stop out moved
  split_ifs with hzero hpast
  · exact ⟨[], c, rfl, h⟩
  · exact absurd hpast (Nat.not_lt.mpr hstop)
  · obtain ⟨buf, hmoved, hlen, -⟩ : ∃ buf, moved = some buf ∧ buf.length = c.rxbuf.length ∧
        ∀ i, i + n < stop → buf[i]? = c.rxbuf[i + n]? := shift_spec hstop
    have hn : n ≤ c.rxlen := Nat.min_le_left _ _
    have hshift := @Fits.shift isn (lowOf c) c buf n hfits (by omega) hn (hlen.trans hfits.cap)
    have hlower : lowOf { c with rxlen := c.rxlen - n, rxbuf := buf } = lowOf c - n := by
      unfold lowOf
      dsimp only
      split_ifs <;> omega
    have hsyn : c.state ≠ .synSent := by
      intro hs
      have hempty := (h.greeting hs).1
      omega
    have hkept : Lasting { c with rxlen := c.rxlen - n, rxbuf := buf } :=
      ⟨⟨seqAt isn n, by rw [hlower]; exact hshift⟩,
        h.promised.congr rfl rfl (Nat.sub_le _ _), fun hs => absurd hs hsyn⟩
    rw [hmoved]
    dsimp only [Option.map_some]
    split_ifs with hopen
    · exact ⟨out, _, rfl, hkept.emit _ _ _ fun hs => absurd hs hsyn⟩
    · exact ⟨out, _, rfl, hkept⟩

theorem Lasting.step (t : Traffic) (op : Op) : ∃ c', step c t op = some c' ∧ Lasting c' := by
  cases op with
  | segment s =>
    unfold Tcp.step
    dsimp only
    split_ifs with hclosed
    · exact ⟨c, rfl, h⟩
    · exact h.tcpInput s
  | timer now => exact ⟨_, rfl, h.pumpOne now⟩
  | recv cap =>
    obtain ⟨out, c', hrecv, hkept⟩ := h.tcpRecv cap
    exact ⟨c', by simp [Tcp.step, hrecv], hkept⟩
  | send data =>
    refine ⟨_, rfl, ?_⟩
    unfold tcpSend
    split_ifs with hopen
    · have hsyn : c.state ≠ .synSent := by simp [hopen.1]
      have hkept : Lasting { c with sndNxt := c.sndNxt + BitVec.ofNat 32 data.length } :=
        h.congr ⟨rfl, rfl, rfl, rfl⟩ rfl rfl fun hs => ⟨hs, rfl⟩
      exact hkept.sendReliable hsyn _ _ _
    · exact h
  | sendFailed =>
    refine ⟨_, rfl, ?_⟩
    cases t.call with
    | none => exact h
    | some p => exact h.congr ⟨rfl, rfl, rfl, rfl⟩ rfl rfl fun hs => ⟨hs, rfl⟩
  | close =>
    refine ⟨_, rfl, ?_⟩
    unfold tcpClose
    split_ifs with hopen
    · have hkept : Lasting { c with sndNxt := c.sndNxt + 1, state := .closing } :=
        h.congr ⟨rfl, rfl, rfl, rfl⟩ rfl rfl fun hs => by cases hs
      exact hkept.sendReliable (by simp) _ _ _
    · exact h
  | closed =>
    obtain ⟨isn, hfits⟩ := h.fits
    refine ⟨_, rfl, ⟨c.rcvNxt, hfits.cap, Nat.zero_le _, (seqAt_zero _).symm, ?_, Nat.zero_le _⟩,
      h.promised.congr rfl rfl (Nat.zero_le _), fun hs => by cases hs⟩
    intro e he
    cases he

end

end Steps

theorem tcpOpen_lasting (c : Conn) (iss : U32) (hwire : c.wire = []) (hcap : c.rxbuf.length = RXCAP) :
    Lasting (tcpOpen c iss) := by
  have hnone : promises c.wire = [] := by simp [promises, hwire]
  have hstart : Lasting { c with
      sndNxt := iss + 1, sndUna := iss, rcvNxt := 0, rxlen := 0, held := [], finHeld := false,
      gotFin := false, rtSeq := iss, rtFlags := TH_SYN, rtData := [], rtPending := true, rtTries := 0,
      rtTimeoutMs := RTO_MIN_MS, rtSentAt := c.clock, state := .synSent } := by
    refine ⟨⟨0, hcap, Nat.zero_le _, rfl, ?_, ?_⟩, ⟨?_, ?_⟩, ?_⟩
    · intro e he
      cases he
    · exact Nat.zero_le TCP_HELD
    · simp only [hnone]
      exact List.isChain_nil
    · intro l hl
      simp [hnone] at hl
    · exact fun _ => ⟨rfl, rfl, hnone, rfl⟩
  unfold tcpOpen sendReliable
  rw [if_neg (by simp)]
  exact hstart.emit _ _ _ fun _ => rfl

theorem Life.lasting {iss : U32} {t : Traffic} (h : Life iss c t) : Lasting c := by
  induction h with
  | opened c hwire hcap => exact tcpOpen_lasting c iss hwire hcap
  | @step c c' t op _ hstep ih =>
    obtain ⟨d, hd, hkept⟩ := ih.step t op
    rw [hstep] at hd
    cases hd
    exact hkept

/-- A handshake that was answered, with 100 the number of the peer's SYN. -/
def sampleGreeted : Conn :=
  sendAck { tcpOpen (testOpen 0) 0 with
    rcvNxt := 101, sndNxt := 1, sndUna := 1, rtPending := false, state := .opened }

/-- Two bytes more have come. -/
def sampleServed : Conn :=
  sendAck { sampleGreeted with rxbuf := 7 :: 8 :: List.replicate (RXCAP - 2) 0, rxlen := 2, rcvNxt := 103 }

theorem sampleGreeted_takes : take sampleGreeted 101 [7, 8] = some sampleServed := by
  have hblit : blit sampleGreeted.rxbuf 0 [7, 8] = some (7 :: 8 :: List.replicate (RXCAP - 2) 0) := by
    rw [show sampleGreeted.rxbuf = List.replicate RXCAP 0 from rfl,
      blit_eq_some (by rw [List.length_replicate]; decide), List.drop_replicate]
    rfl
  have hnext : sampleGreeted.rcvNxt = 101 := rfl
  have hready : sampleGreeted.rxlen = 0 := rfl
  have hheld : sampleGreeted.held = [] := rfl
  have hroom : 0 < RXCAP ∧ 2 ≤ RXCAP := by decide
  simp [take, takeAt, hnext, hready, hheld, hblit, hroom, absorb, absorbLoop, sampleServed]

theorem sampleServed_life : ∃ t, Life 0 sampleServed t := by
  have hopened : Life 0 (tcpOpen (testOpen 0) 0) ⟨0, [.syn], 0, none⟩ :=
    Life.opened (testOpen 0) rfl List.length_replicate
  have hgreeted := @Life.step 0 _ sampleGreeted _
    (.segment ⟨100, 1, TH_SYN ||| TH_ACK, [], Nat.zero_lt_succ 65535⟩) hopened rfl
  refine ⟨_, @Life.step 0 _ sampleServed _ (.segment ⟨101, 1, TH_ACK, [7, 8], by decide⟩) hgreeted ?_⟩
  have hfin : finIn sampleServed ⟨101, 1, TH_ACK, [7, 8], by decide⟩ = sampleServed := by
    rw [finIn, if_neg (by decide), if_neg (by decide)]
  rw [step, if_neg (by decide), tcpInput, if_neg (by decide), if_neg (by decide)]
  have hack : ackArrived sampleGreeted 1 = sampleGreeted := by
    rw [ackArrived, if_neg (by decide), if_neg (by decide)]
  simp only [show TH_ACK &&& TH_ACK ≠ 0 by decide, if_true, ne_eq, not_false_eq_true, hack, List.length_cons,
    Nat.succ_ne_zero, sampleGreeted_takes, Option.map_some, hfin]

end Zelr.Tcp
