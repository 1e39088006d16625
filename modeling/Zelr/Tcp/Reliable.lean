import Zelr.Tcp.Sending

/-!
# What the sending side can be relied on for

An acknowledgement counts for something that was sent as long as the peer acknowledges nothing else:
no segment is checked against `snd_nxt`.
-/

namespace Zelr.Tcp

/-! ## Acknowledgements of what was sent -/

/-- The answer to the handshake acknowledges our SYN, a new acknowledgement is of something sent, and
what is taken back has not been acknowledged. -/
def Genuine (iss : U32) (c : Conn) (t : Traffic) : Op → Prop
  | .segment s => s.flags &&& TH_RST = 0 →
    (c.state = .synSent → s.flags &&& (TH_SYN ||| TH_ACK) = TH_SYN ||| TH_ACK → s.ack = iss + 1) ∧
    (c.state ≠ .synSent → s.flags &&& TH_ACK ≠ 0 → 0 < (s.ack - c.sndUna).toInt →
      (s.ack - c.sndUna).toNat ≤ (c.sndNxt - c.sndUna).toNat)
  | .sendFailed => ∀ p, t.call = some p → t.acked ≤ p
  | _ => True

/-- `snd_una` lies between the first number and `snd_nxt`. -/
structure Between (iss : U32) (t : Traffic) : Prop where
  first : t.first = iss
  le : t.acked ≤ t.out.length

section Genuine

variable {iss : U32} {c c' : Conn} {t : Traffic} {s : Segment} {op : Op} {b : Sender}

theorem Between.acks (h : Between iss t) (hn : Numbers (sender c) t) (hb : Acked (sender c) s b)
    (hok : Genuine iss c t (.segment s)) : Between iss (t.acks (sender c) b) := by
  refine ⟨h.first, ?_⟩
  have hle := h.le
  have hroom : (c.sndNxt - c.sndUna).toNat ≤ t.out.length - t.acked := by
    rw [show c.sndNxt = _ from hn.nxt, show c.sndUna = _ from hn.una, seqAt_sub, BitVec.toNat_ofInt]
    omega
  cases hb with
  | bare => simpa [Traffic.acks] using hle
  | ack hsyn hrst hack =>
    by_cases hnew : 0 < (s.ack - c.sndUna).toInt
    · have := (hok hrst).2 hsyn hack hnew
      have hmove : (((sender c).ack s.ack).sndUna - (sender c).sndUna).toNat = (s.ack - c.sndUna).toNat :=
        congrArg (fun x : U32 => (x - c.sndUna).toNat) (if_pos hnew)
      dsimp only [Traffic.acks]
      omega
    · have hstay : ((sender c).ack s.ack).sndUna = (sender c).sndUna := if_neg hnew
      simpa [Traffic.acks, hstay] using hle

theorem Between.moved (h : Between iss t) (hn : Numbers (sender c) t) (hb : Moved c t op b)
    (hok : Genuine iss c t op) : Between iss (t.after (sender c) op b) := by
  cases hb with
  | deaf hclosed =>
    rw [after_same (.inl (by simp [sender, hclosed]))]
    exact h
  | input hne hinput =>
    cases hinput with
    | reset =>
      rw [after_drop]
      exact h
    | greeted hsyn hrst hboth =>
      have hack := (hok hrst).1 hsyn hboth
      rw [after_greet hsyn, hack]
      exact ⟨BitVec.add_sub_cancel _ _, le_refl 1⟩
    | ignored hsyn =>
      rw [after_same (.inr (by simp [sender, hsyn]))]
      exact h
    | taken hacked =>
      rw [after_taken hacked]
      exact h.acks hn hacked hok
    | answered _ _ hacked =>
      have hnext := h.acks hn hacked hok
      rw [after_answered hacked.same.2.1]
      refine ⟨hnext.first, hnext.le.trans ?_⟩
      simp [Traffic.acks]
    | ended hacked =>
      rw [after_finish hacked.same.2.1]
      exact h.acks hn hacked hok
  | waited => exact h
  | gaveUp => exact h
  | read => exact h
  | unsent hnot =>
    rw [after_unsent hnot]
    exact h
  | sent hopen hlen =>
    rw [after_sent hopen hlen]
    exact ⟨h.first, h.le.trans (by simp)⟩
  | noCall hcall =>
    rw [Traffic.after, hcall]
    exact h
  | @takenBack p hcall =>
    rw [after_takenBack hcall]
    refine ⟨h.first, ?_⟩
    rw [List.length_take]
    exact le_min (hok p hcall) h.le
  | notOpen hnot =>
    rw [after_notOpen hnot]
    exact ⟨h.first, h.le⟩
  | closing hopen =>
    rw [after_closing hopen]
    exact ⟨h.first, h.le.trans (by simp)⟩
  | closed => exact h

theorem Moved.opens (hb : Moved c t op b) (hnot : c.state ≠ .opened) (hopen : b.state = .opened) :
    ∃ s, op = .segment s ∧ c.state = .synSent ∧ s.flags &&& TH_RST = 0 ∧
      s.flags &&& (TH_SYN ||| TH_ACK) = TH_SYN ||| TH_ACK := by
  cases hb with
  | @input s b hne hinput =>
    cases hinput with
    | greeted hsyn hrst hboth => exact ⟨s, rfl, hsyn, hrst, hboth⟩
    | taken hacked => exact absurd (hacked.same.1.symm.trans hopen) hnot
    | ignored => exact absurd hopen hnot
    | reset => cases hopen
    | answered => cases hopen
    | ended => cases hopen
  | sent hwas => exact absurd hwas hnot
  | closing hwas => exact absurd hwas hnot
  | gaveUp => cases hopen
  | closed => cases hopen
  | deaf => exact absurd hopen hnot
  | waited => exact absurd hopen hnot
  | read => exact absurd hopen hnot
  | unsent => exact absurd hopen hnot
  | noCall => exact absurd hopen hnot
  | takenBack => exact absurd hopen hnot
  | notOpen => exact absurd hopen hnot

theorem Sends.between (h : Sends (Genuine iss) iss c t) : Between iss t := by
  induction h with
  | start c => exact ⟨rfl, Nat.zero_le _⟩
  | step hrun hok hstep ih => exact ih.moved hrun.numbers (step_moved hstep) hok

/-- As long as the peer acknowledges only what was sent, a connection opens only on an answer to its
own SYN, and `snd_una` stays between the first number and `snd_nxt`. -/
theorem handshake_genuine (iss : U32) (c : Conn) (t : Traffic) (h : Sends (Genuine iss) iss c t) :
    (c.sndUna = seqAt iss t.acked ∧ c.sndNxt = seqAt iss t.out.length ∧ t.acked ≤ t.out.length) ∧
      ∀ op c', Genuine iss c t op → step c t op = some c' → c.state ≠ .opened → c'.state = .opened →
        ∃ s, op = .segment s ∧ c.state = .synSent ∧
          s.flags &&& (TH_SYN ||| TH_ACK) = TH_SYN ||| TH_ACK ∧ s.ack = iss + 1 := by
  have hbetween := h.between
  have hnumbers := h.numbers
  refine ⟨⟨?_, ?_, hbetween.le⟩, fun op c' hok hstep hnot hopen => ?_⟩
  · rw [← hbetween.first]
    exact hnumbers.una
  · rw [← hbetween.first]
    exact hnumbers.nxt
  · obtain ⟨s, rfl, hsyn, hrst, hboth⟩ := (step_moved hstep).opens hnot hopen
    exact ⟨s, rfl, hsyn, hboth, (hok hrst).1 hsyn hboth⟩

/-- A slot nobody has used, short of its receive buffer. -/
def sampleSlot : Conn where
  state := .closed
  sndNxt := 0
  sndUna := 0
  rcvNxt := 0
  gotFin := false
  rtData := []
  rtSeq := 0
  rtFlags := 0
  rtPending := false
  rtSentAt := 0
  rtTimeoutMs := 0
  rtTries := 0
  rxbuf := []
  rxlen := 0
  held := []
  finHeld := false
  finAt := 0
  clock := 0
  wire := []

def bare (seq ack : U32) (flags : UInt8) : Segment := ⟨seq, ack, flags, [], Nat.zero_lt_succ 65535⟩

def play (c : Conn) (t : Traffic) : List Op → Conn × Traffic
  | [] => (c, t)
  | op :: ops =>
    let c' := (step c t op).getD c
    play c' (t.after (sender c) op (sender c')) ops

/-- Each of the steps may be taken, and answers. -/
def Plays (ok : Conn → Traffic → Op → Prop) (c : Conn) (t : Traffic) : List Op → Prop
  | [] => True
  | op :: ops => ok c t op ∧ (step c t op).isSome ∧
    Plays ok ((step c t op).getD c) (t.after (sender c) op (sender ((step c t op).getD c))) ops

theorem Sends.after_play {ok : Conn → Traffic → Op → Prop} (ops : List Op) (h : Sends ok iss c t)
    (hplays : Plays ok c t ops) : Sends ok iss (play c t ops).1 (play c t ops).2 := by
  induction ops generalizing c t with
  | nil => exact h
  | cons op ops ih =>
    obtain ⟨hok, hsome, hrest⟩ := hplays
    obtain ⟨c', hc'⟩ := Option.isSome_iff_exists.mp hsome
    refine ih (h.step hok ?_) hrest
    rw [hc']
    rfl

def sampleTraffic : Traffic := ⟨0, [.syn], 0, none⟩

/-- The handshake is answered, one byte is sent, and it is acknowledged. -/
def sampleTalk : List Op :=
  [.segment (bare 100 1 (TH_SYN ||| TH_ACK)), .send [7], .segment (bare 101 2 TH_ACK)]

theorem sampleTalk_genuine :
    let c := (play (tcpOpen sampleSlot 0) sampleTraffic sampleTalk).1
    c.state = .opened ∧ c.sndUna = 2 ∧
      ∃ n m, c.sndUna = seqAt 0 n ∧ c.sndNxt = seqAt 0 m ∧ n ≤ m := by
  have hplays : Plays (Genuine 0) (tcpOpen sampleSlot 0) sampleTraffic sampleTalk := by
    refine ⟨fun _ => ⟨fun _ _ => rfl, fun h => absurd rfl h⟩, by decide, trivial, by decide, ?_, by decide, trivial⟩
    exact fun _ => ⟨fun h => absurd h (by decide), fun _ _ _ => by decide⟩
  have h := handshake_genuine _ _ _ (Sends.after_play _ (.start sampleSlot) hplays)
  exact ⟨by decide, by decide, _, _, h.1⟩

/-- An answer that acknowledges something else opens the connection all the same, and an open one
takes an acknowledgement of bytes that were never sent. -/
theorem acknowledged_unsent :
    (let c := tcpOpen sampleSlot 0
      let s := bare 100 77 (TH_SYN ||| TH_ACK)
      c.state = .synSent ∧ s.ack ≠ 0 + 1 ∧ (tcpInput c s).map Conn.state = some .opened) ∧
    ∃ c t, Sends (fun _ _ _ => True) 0 c t ∧ c.state = .opened ∧ c.sndUna = seqAt 0 t.acked ∧
      c.sndNxt = seqAt 0 t.out.length ∧ ¬ t.acked ≤ t.out.length := by
  refine ⟨by decide, _, _, Sends.after_play [.segment (bare 100 1 (TH_SYN ||| TH_ACK)),
    .segment (bare 101 1000 TH_ACK)] (.start sampleSlot) ⟨trivial, by decide, trivial, by decide, trivial⟩, ?_⟩
  decide

end Genuine

/-! ## The record kept to send again -/

/-- A reliable segment is sent only when the one before it is acknowledged, and no acknowledgement is
so far behind that it compares as ahead of the record. -/
def Careful (c : Conn) (_ : Traffic) : Op → Prop
  | .segment s => s.flags &&& TH_RST = 0 → c.state ≠ .synSent →
    (s.flags &&& TH_ACK ≠ 0 → c.rtPending = true →
      0 < (s.ack - c.sndUna).toInt ∨ (s.ack - (sender c).covers).toInt < 0) ∧
    (∀ d, takenIn c s = some d → FinDue d s → d.state = .opened → d.rtPending = false)
  | .send data => c.state = .opened → data.length ≤ 1400 → c.rtPending = false
  | .close => c.state = .opened → c.rtPending = false
  | _ => True

def Live : TState → Prop
  | .synSent => True
  | .opened => True
  | .closing => True
  | .closed => False
  | .done => False

/-- What was sent and not acknowledged is in the record, at its numbers, and while the connection is
up the record is one that is sent again. -/
def Resendable (a : Sender) (t : Traffic) : Prop :=
  t.acked < t.out.length →
    (∃ k, k ≤ t.acked ∧ a.rtSeq = seqAt t.first k ∧ items a.rtFlags a.rtData = t.out.drop k) ∧
    (Live a.state → a.rtPending = true)

/-- The record is a segment: it takes up the numbers its items do, which are few. -/
structure Segmented (a : Sender) : Prop where
  covers : a.covers = seqAt a.rtSeq (items a.rtFlags a.rtData).length
  few : (items a.rtFlags a.rtData).length ≤ 1401

structure Kept (a : Sender) (t : Traffic) : Prop where
  record : Resendable a t
  segment : Segmented a
  call : ∀ p, t.call = some p → p ≤ t.acked

section Careful

variable {iss : U32} {c c' : Conn} {t : Traffic} {s : Segment} {op : Op} {a b : Sender}

theorem segmented_data (a : Sender) (state : TState) {data : Bytes} (h : data.length ≤ 1400) (n : U32) :
    Segmented (a.send state (TH_PSH ||| TH_ACK) data n) := by
  have hitems : items (TH_PSH ||| TH_ACK) data = data.map .byte := by
    rw [items, if_neg (by decide), if_neg (by decide)]
    simp
  have hone : (TH_PSH ||| TH_ACK) &&& (TH_SYN ||| TH_FIN) = 0 := by decide
  refine ⟨?_, ?_⟩
  · simp [Sender.covers, Sender.send, hitems, hone, seqAt]
  · simp only [Sender.send, hitems, List.length_map]
    omega

theorem segmented_fin (a : Sender) (state : TState) (n : U32) :
    Segmented (a.send state (TH_FIN ||| TH_ACK) [] n) := by
  have hitems : items (TH_FIN ||| TH_ACK) [] = [.fin] := by decide
  have hone : (TH_FIN ||| TH_ACK) &&& (TH_SYN ||| TH_FIN) ≠ 0 := by decide
  refine ⟨?_, ?_⟩
  · simp [Sender.covers, Sender.send, hitems, hone, seqAt]
  · simp [Sender.send, hitems]

theorem Segmented.covers_eq (h : Segmented a) {k : Nat} (hk : k ≤ t.out.length)
    (hseq : a.rtSeq = seqAt t.first k) (hitems : items a.rtFlags a.rtData = t.out.drop k) :
    a.covers = seqAt t.first t.out.length ∧ t.out.length ≤ k + 1401 := by
  have hlen : (items a.rtFlags a.rtData).length = t.out.length - k := by rw [hitems, List.length_drop]
  have hfew := h.few
  refine ⟨?_, by omega⟩
  rw [h.covers, hseq, hlen, seqAt, seqAt_add]
  congr 1
  omega

theorem Kept.still_pending (h : Kept (sender c) t) (hn : Numbers (sender c) t)
    (hok : 0 < (s.ack - c.sndUna).toInt ∨ (s.ack - (sender c).covers).toInt < 0)
    (hlt : (t.acks (sender c) ((sender c).ack s.ack)).acked < t.out.length) :
    (s.ack - (sender c).covers).toInt < 0 := by
  rcases hok with hnew | hbehind
  · have hlt' : t.acked < t.out.length := lt_of_le_of_lt (Nat.le_add_right _ _) hlt
    obtain ⟨⟨k, hk, hseq, hitems⟩, -⟩ := h.record hlt'
    obtain ⟨hcovers, hfew⟩ := h.segment.covers_eq (by omega) hseq hitems
    have hle : t.acked ≤ (t.acks (sender c) ((sender c).ack s.ack)).acked := Nat.le_add_right _ _
    have hack : s.ack = seqAt t.first (t.acks (sender c) ((sender c).ack s.ack)).acked := by
      rw [show t.first = (t.acks (sender c) ((sender c).ack s.ack)).first from rfl,
        ← (hn.acks (b := (sender c).ack s.ack) rfl).una]
      exact (if_pos hnew).symm
    rw [hcovers, hack, seqAt_diff _ _ _ (by omega) (by omega)]
    omega
  · exact hbehind

theorem Kept.acks (h : Kept (sender c) t) (hn : Numbers (sender c) t) (hb : Acked (sender c) s b)
    (hok : Careful c t (.segment s)) : Kept b (t.acks (sender c) b) := by
  cases hb with
  | bare =>
    rw [acks_refl]
    exact h
  | ack hsyn hrst hack =>
    refine ⟨fun hlt => ?_, ⟨h.segment.covers, h.segment.few⟩, fun p hp => ?_⟩
    · have hlt' : t.acked < t.out.length := lt_of_le_of_lt (Nat.le_add_right _ _) hlt
      obtain ⟨⟨k, hk, hseq, hitems⟩, hlive⟩ := h.record hlt'
      refine ⟨⟨k, Nat.le_add_right_of_le hk, hseq, hitems⟩, fun hup => ?_⟩
      have hpending : c.rtPending = true := hlive hup
      have hbehind := h.still_pending hn ((hok hrst hsyn).1 hack hpending) hlt
      exact (Bool.and_eq_true _ _).mpr ⟨hpending, decide_eq_true hbehind⟩
    · exact Nat.le_add_right_of_le (h.call p hp)

theorem Kept.all_acked (h : Kept a t) (hlive : Live a.state) (hnone : a.rtPending = false) :
    t.out.length ≤ t.acked := by
  by_contra hlt
  have := (h.record (not_le.mp hlt)).2 hlive
  rw [hnone] at this
  cases this

theorem Kept.send (h : Kept a t) (hn : Numbers a t) (hlive : Live a.state) (hnone : a.rtPending = false)
    {state : TState} {flags : UInt8} {data : Bytes} {n : U32} {more : List Item} {call : Option Nat}
    (hmore : items flags data = more) (hseg : Segmented (a.send state flags data n))
    (hcall : ∀ p, call = some p → p ≤ t.acked) :
    Kept (a.send state flags data n) { t with out := t.out ++ more, call } := by
  have hall := h.all_acked hlive hnone
  refine ⟨fun _ => ⟨⟨t.out.length, hall, hn.nxt, ?_⟩, fun _ => rfl⟩, hseg, hcall⟩
  rw [List.drop_left]
  exact hmore

theorem Kept.stop (h : Kept a t) (hdown : ¬ Live b.state)
    (hb : b.rtSeq = a.rtSeq ∧ b.rtFlags = a.rtFlags ∧ b.rtData = a.rtData) : Kept b t := by
  obtain ⟨hseq, hflags, hdata⟩ := hb
  have hcovers : b.covers = a.covers := by simp only [Sender.covers, hseq, hflags, hdata]
  refine ⟨fun hlt => ?_, ⟨?_, ?_⟩, h.call⟩
  · obtain ⟨hrecord, -⟩ := h.record hlt
    rw [hseq, hflags, hdata]
    exact ⟨hrecord, fun hup => absurd hup hdown⟩
  · rw [hcovers, hseq, hflags, hdata]
    exact h.segment.covers
  · rw [hflags, hdata]
    exact h.segment.few

theorem Kept.input (h : Kept (sender c) t) (hn : Numbers (sender c) t) (hb : Input c s b)
    (hok : Careful c t (.segment s)) : Kept b (t.after (sender c) (.segment s) b) := by
  cases hb with
  | reset =>
    rw [after_drop]
    exact h.stop not_false ⟨rfl, rfl, rfl⟩
  | greeted hsyn =>
    rw [after_greet hsyn]
    exact ⟨fun hlt => absurd hlt (lt_irrefl _), ⟨h.segment.covers, h.segment.few⟩, by simp⟩
  | ignored hsyn =>
    rw [after_same (.inr (by simp [sender, hsyn]))]
    exact h
  | taken hacked =>
    rw [after_taken hacked]
    exact h.acks hn hacked hok
  | @answered d hrst hsyn hacked htaken hdue hopen =>
    have hnext := h.acks hn hacked hok
    have hlive : Live (sender d).state := by
      rw [show (sender d).state = .opened from hopen]
      trivial
    have hnone : d.rtPending = false := (hok hrst hsyn).2 d htaken hdue hopen
    rw [after_answered hacked.same.2.1]
    exact hnext.send (hn.acks hacked.same.2.1) hlive hnone (by decide) (segmented_fin _ _ _) hnext.call
  | ended hacked =>
    rw [after_finish hacked.same.2.1]
    exact (h.acks hn hacked hok).stop not_false ⟨rfl, rfl, rfl⟩

theorem Kept.moved (h : Kept (sender c) t) (hn : Numbers (sender c) t) (hb : Moved c t op b)
    (hok : Careful c t op) : Kept b (t.after (sender c) op b) := by
  cases hb with
  | deaf hclosed =>
    rw [after_same (.inl (by simp [sender, hclosed]))]
    exact h
  | input hne hinput => exact h.input hn hinput hok
  | waited => exact h
  | gaveUp => exact h.stop not_false ⟨rfl, rfl, rfl⟩
  | read => exact h
  | unsent hnot =>
    rw [after_unsent hnot]
    exact h
  | @sent data hopen hlen =>
    have hlive : Live (sender c).state := by
      rw [show (sender c).state = .opened from hopen]
      trivial
    have hnone : (sender c).rtPending = false := hok hopen hlen
    have hitems : items (TH_PSH ||| TH_ACK) data = data.map .byte := by
      rw [items, if_neg (by decide), if_neg (by decide)]
      simp
    rw [after_sent hopen hlen]
    refine h.send hn hlive hnone hitems (segmented_data _ _ hlen _) fun p hp => ?_
    cases hp
    exact h.all_acked hlive hnone
  | noCall hcall =>
    rw [Traffic.after, hcall]
    exact h
  | @takenBack p hcall =>
    have hle := h.call p hcall
    rw [after_takenBack hcall]
    have hshort : (t.out.take p).length ≤ t.acked := by
      rw [List.length_take]
      omega
    exact ⟨fun hlt => absurd hlt (not_lt.mpr hshort), ⟨h.segment.covers, h.segment.few⟩, by simp⟩
  | notOpen hnot =>
    rw [after_notOpen hnot]
    exact ⟨h.record, h.segment, by simp⟩
  | closing hopen =>
    have hlive : Live (sender c).state := by
      rw [show (sender c).state = .opened from hopen]
      trivial
    rw [after_closing hopen]
    exact h.send hn hlive (hok hopen) (by decide) (segmented_fin _ _ _) (by simp)
  | closed => exact h.stop not_false ⟨rfl, rfl, rfl⟩

theorem Sends.kept (h : Sends Careful iss c t) : Kept (sender c) t := by
  induction h with
  | start c =>
    have hitems : items TH_SYN [] = [.syn] := by decide
    have hone : TH_SYN &&& (TH_SYN ||| TH_FIN) ≠ 0 := by decide
    rw [sender_tcpOpen]
    refine ⟨fun _ => ⟨⟨0, le_refl 0, (seqAt_zero iss).symm, hitems⟩, fun _ => rfl⟩, ⟨?_, ?_⟩, by simp⟩
    · simp [Sender.covers, hitems, hone, seqAt]
    · simp [hitems]
  | step hrun hok hstep ih => exact ih.moved hrun.numbers (step_moved hstep) hok

/-- As long as nothing is sent reliably while the record is out, what was sent and not acknowledged
is in the record, at its numbers. -/
theorem unacked_resendable (iss : U32) (c : Conn) (t : Traffic) (h : Sends Careful iss c t) :
    c.sndUna = seqAt t.first t.acked ∧ c.sndNxt = seqAt t.first t.out.length ∧ Resendable (sender c) t :=
  ⟨h.numbers.una, h.numbers.nxt, h.kept.record⟩

theorem sampleTalk_resendable :
    let at_ := play (tcpOpen sampleSlot 0) sampleTraffic (sampleTalk.take 2)
    at_.2.acked < at_.2.out.length ∧ Resendable (sender at_.1) at_.2 := by
  have hplays : Plays Careful (tcpOpen sampleSlot 0) sampleTraffic (sampleTalk.take 2) := by
    refine ⟨fun _ h => absurd rfl h, by decide, fun _ _ => by decide, by decide, trivial⟩
  exact ⟨by decide, (unacked_resendable _ _ _ (Sends.after_play _ (.start sampleSlot) hplays)).2.2⟩

/-- A byte is sent, and before it is acknowledged the peer ends its stream: our answer to that takes
the place of the byte. -/
def sampleCut : List Op :=
  [.segment (bare 100 1 (TH_SYN ||| TH_ACK)), .send [7], .segment (bare 101 1 (TH_FIN ||| TH_ACK))]

theorem sampleCut_not_resendable :
    let at_ := play (tcpOpen sampleSlot 0) sampleTraffic sampleCut
    Sends (fun _ _ _ => True) 0 at_.1 at_.2 ∧ at_.1.state = .closing ∧ at_.2.out = [.syn, .byte 7, .fin] ∧
      at_.2.acked = 1 ∧ ¬ Resendable (sender at_.1) at_.2 := by
  have hout : (play (tcpOpen sampleSlot 0) sampleTraffic sampleCut).2.out = [.syn, .byte 7, .fin] := by decide
  have hacked : (play (tcpOpen sampleSlot 0) sampleTraffic sampleCut).2.acked = 1 := by decide
  refine ⟨Sends.after_play _ (.start sampleSlot)
    ⟨trivial, by decide, trivial, by decide, trivial, by decide, trivial⟩, by decide, hout, hacked, fun h => ?_⟩
  obtain ⟨⟨k, hk, -, hitems⟩, -⟩ := h (by decide)
  have hrecord : items (sender (play (tcpOpen sampleSlot 0) sampleTraffic sampleCut).1).rtFlags
      (sender (play (tcpOpen sampleSlot 0) sampleTraffic sampleCut).1).rtData = [.fin] := by decide
  have hlen := congrArg List.length hitems
  rw [hrecord, hout, List.length_drop] at hlen
  simp only [List.length_cons, List.length_nil] at hlen
  omega

end Careful

end Zelr.Tcp
