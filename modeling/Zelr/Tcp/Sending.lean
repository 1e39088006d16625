import Zelr.Tcp.Model

/-!
# The sending side of a connection

`tcp_open`, `tcp_send` and `tcp_close`, and the part of a connection they and `tcp_input` share: the
numbers of what was sent and what was acknowledged, and the one record kept to send again.
-/

namespace Zelr.Tcp

/-! ## The calls -/

/-- `tcp_open`, for the initial number it works out from the clock and the slot. -/
def tcpOpen (c : Conn) (iss : U32) : Conn :=
  sendReliable { c with
    sndNxt := iss + 1, sndUna := iss, rcvNxt := 0, rxlen := 0, held := [], finHeld := false,
    gotFin := false, rtPending := false, state := .synSent } iss TH_SYN []

/-- `tcp_send` up to its wait, while which segments arrive and the timer runs. -/
def tcpSend (c : Conn) (data : Bytes) : Conn :=
  if c.state = .opened ∧ data.length ≤ 1400 then
    sendReliable { c with sndNxt := c.sndNxt + BitVec.ofNat 32 data.length } c.sndNxt
      (TH_PSH ||| TH_ACK) data
  else c

/-- The segment could not go out: `tcp_send` puts back the number it started from. -/
def tcpSendFailed (c : Conn) (seq : U32) : Conn := { c with sndNxt := seq }

def tcpClose (c : Conn) : Conn :=
  if c.state = .opened then
    sendReliable { c with sndNxt := c.sndNxt + 1, state := .closing } c.sndNxt (TH_FIN ||| TH_ACK) []
  else c

def tcpClosed (c : Conn) : Conn := { c with state := .closed, rtPending := false, rxlen := 0, held := [] }

/-! ## What sending looks at -/

structure Sender where
  state : TState
  sndNxt : U32
  sndUna : U32
  rtSeq : U32
  rtFlags : UInt8
  rtData : Bytes
  rtPending : Bool
  deriving Repr, DecidableEq

def sender (c : Conn) : Sender :=
  ⟨c.state, c.sndNxt, c.sndUna, c.rtSeq, c.rtFlags, c.rtData, c.rtPending⟩

/-- A reliable segment of `n` numbers, in the state it leaves the connection in. -/
def Sender.send (s : Sender) (state : TState) (flags : UInt8) (data : Bytes) (n : U32) : Sender :=
  ⟨state, s.sndNxt + n, s.sndUna, s.sndNxt, flags, data, true⟩

def Sender.drop (s : Sender) (state : TState) : Sender := { s with state, rtPending := false }

def Sender.greet (s : Sender) (ack : U32) : Sender :=
  { s with state := .opened, sndNxt := ack, sndUna := ack, rtPending := false }

def Sender.finish (s : Sender) : Sender := { s with state := .done }

def Sender.takeBack (s : Sender) (seq : U32) : Sender := { s with sndNxt := seq }

def Sender.covers (s : Sender) : U32 :=
  s.rtSeq + BitVec.ofNat 32 s.rtData.length + (if s.rtFlags &&& (TH_SYN ||| TH_FIN) ≠ 0 then 1 else 0)

def Sender.ack (s : Sender) (ack : U32) : Sender :=
  { s with
    sndUna := if 0 < (ack - s.sndUna).toInt then ack else s.sndUna
    rtPending := s.rtPending && decide ((ack - s.covers).toInt < 0) }

/-- Its acknowledgement counts, once the connection is past its handshake. -/
inductive Acked (a : Sender) (s : Segment) : Sender → Prop
  | bare : a.state ≠ .synSent → Acked a s a
  | ack : a.state ≠ .synSent → s.flags &&& TH_RST = 0 → s.flags &&& TH_ACK ≠ 0 →
      Acked a s (a.ack s.ack)

section Sender

variable {c c' : Conn}

@[simp] theorem sender_emit (c : Conn) (seq : U32) (flags : UInt8) (data : Bytes) :
    sender (emit c seq flags data) = sender c := by
  unfold emit
  dsimp only
  split_ifs <;> rfl

@[simp] theorem sender_sendAck (c : Conn) : sender (sendAck c) = sender c := sender_emit _ _ _ _

variable {data : Bytes} {s : Segment}

theorem sender_sendReliable {seq : U32} {flags : UInt8} (h : data.length ≤ 1400) :
    sender (sendReliable c seq flags data) =
      { sender c with rtSeq := seq, rtFlags := flags, rtData := data, rtPending := true } := by
  unfold sendReliable
  rw [if_neg (by omega), sender_emit]
  rfl

theorem sender_tcpSend (h : c.state = .opened) (hlen : data.length ≤ 1400) :
    sender (tcpSend c data) =
      (sender c).send .opened (TH_PSH ||| TH_ACK) data (BitVec.ofNat 32 data.length) := by
  unfold tcpSend
  rw [if_pos ⟨h, hlen⟩, sender_sendReliable hlen]
  simp [sender, Sender.send, h]

theorem sender_tcpClose (h : c.state = .opened) :
    sender (tcpClose c) = (sender c).send .closing (TH_FIN ||| TH_ACK) [] 1 := by
  unfold tcpClose
  rw [if_pos h, sender_sendReliable (by simp)]
  rfl

theorem sender_pumpOne (c : Conn) :
    sender (pumpOne c) = sender c ∨
      sender (pumpOne c) = (sender c).drop .done := by
  unfold pumpOne
  split_ifs
  · exact .inl rfl
  · exact .inl rfl
  · exact .inr rfl
  · exact .inl (sender_emit _ _ _ _)

theorem sender_covered (d : Conn) (ack : U32) :
    sender (if d.rtPending then
        if 0 ≤ (ack - (sender d).covers).toInt then { d with rtPending := false } else d
      else d) =
      { sender d with rtPending := d.rtPending && decide ((ack - (sender d).covers).toInt < 0) } := by
  split_ifs with hpending hcovered
  · rw [decide_eq_false (not_lt.mpr hcovered), Bool.and_false]
    rfl
  · rw [decide_eq_true (not_le.mp hcovered), Bool.and_true]
    rfl
  · rw [Bool.not_eq_true] at hpending
    rw [hpending, Bool.false_and, ← hpending]
    rfl

theorem sender_ackArrived (c : Conn) (ack : U32) : sender (ackArrived c ack) = (sender c).ack ack := by
  refine (sender_covered _ ack).trans ?_
  have huna : (sender c).sndUna = c.sndUna := rfl
  unfold Sender.ack
  rw [huna]
  split_ifs with hnew <;> rfl

/-! ## Receiving leaves it alone -/

@[simp] theorem sender_reach (c : Conn) (hi : U32) : sender (reach c hi) = sender c := by
  unfold reach
  dsimp only
  split <;> rfl

theorem sender_absorbLoop (left : Nat) (c : Conn) : sender (absorbLoop left c) = sender c := by
  induction left generalizing c with
  | zero => rfl
  | succ left ih =>
    unfold absorbLoop
    split
    · rfl
    · exact (ih _).trans (sender_reach c _)

theorem sender_takeAt {off : Nat} (h : takeAt c off data = some c') :
    sender c' = sender c := by
  unfold takeAt at h
  dsimp only at h
  split_ifs at h with hroom hoff
  · obtain ⟨buf, -, h⟩ := Option.bind_eq_some_iff.mp h
    cases h
    exact sender_absorbLoop _ _
  · obtain ⟨buf, -, h⟩ := Option.bind_eq_some_iff.mp h
    cases h
    rfl
  · cases h
    rfl

theorem sender_take {seq : U32} (h : take c seq data = some c') : sender c' = sender c := by
  unfold take at h
  dsimp only at h
  split_ifs at h
  · cases h
    exact sender_sendAck c
  · obtain ⟨d, hd, rfl⟩ := Option.map_eq_some_iff.mp h
    exact (sender_sendAck d).trans (sender_takeAt hd)
  · obtain ⟨d, hd, rfl⟩ := Option.map_eq_some_iff.mp h
    exact (sender_sendAck d).trans (sender_takeAt hd)

theorem sender_tcpRecv {cap : Nat} {out : Bytes} (h : tcpRecv c cap = some (out, c')) :
    sender c' = sender c := by
  unfold tcpRecv at h
  dsimp only at h
  split_ifs at h
  all_goals first
    | cases h; rfl
    | obtain ⟨buf, -, hbuf⟩ := Option.map_eq_some_iff.mp h
      cases hbuf
      exact sender_sendAck _

/-! ## A segment that arrives -/

def takenIn (c : Conn) (s : Segment) : Option Conn :=
  let c := if s.flags &&& TH_ACK ≠ 0 then ackArrived c s.ack else c
  if s.data.length ≠ 0 then take c s.seq s.data else some c

def finNoted (c : Conn) (s : Segment) : Conn :=
  if s.flags &&& TH_FIN ≠ 0 ∧ c.gotFin = false then
    let at_ := s.seq + BitVec.ofNat 32 s.data.length
    if 0 ≤ (at_ - c.rcvNxt).toInt ∧ (at_ - c.rcvNxt).toNat ≤ RXCAP then
      { c with finHeld := true, finAt := at_ }
    else c
  else c

def FinDue (c : Conn) (s : Segment) : Prop :=
  (finNoted c s).finHeld ∧ (finNoted c s).gotFin = false ∧ (finNoted c s).finAt = (finNoted c s).rcvNxt

@[simp] theorem sender_finNoted (c : Conn) (s : Segment) : sender (finNoted c s) = sender c := by
  unfold finNoted
  dsimp only
  split_ifs <;> rfl

/-- What a segment can do to the sending side. -/
inductive Input (c : Conn) (s : Segment) : Sender → Prop
  | reset : s.flags &&& TH_RST ≠ 0 → Input c s ((sender c).drop .done)
  | greeted : c.state = .synSent → s.flags &&& TH_RST = 0 →
      s.flags &&& (TH_SYN ||| TH_ACK) = TH_SYN ||| TH_ACK →
      Input c s ((sender c).greet s.ack)
  | ignored : c.state = .synSent → Input c s (sender c)
  | taken {b} : Acked (sender c) s b → Input c s b
  | answered {d} : s.flags &&& TH_RST = 0 → c.state ≠ .synSent → Acked (sender c) s (sender d) →
      takenIn c s = some d → FinDue d s → d.state = .opened →
      Input c s ((sender d).send .closing (TH_FIN ||| TH_ACK) [] 1)
  | ended {b} : Acked (sender c) s b → Input c s b.finish

theorem takenIn_acked {d : Conn} (hsyn : c.state ≠ .synSent)
    (hrst : s.flags &&& TH_RST = 0) (h : takenIn c s = some d) : Acked (sender c) s (sender d) := by
  have hside : sender d = sender (if s.flags &&& TH_ACK ≠ 0 then ackArrived c s.ack else c) := by
    by_cases hdata : s.data.length ≠ 0
    · rw [takenIn, if_pos hdata] at h
      exact sender_take h
    · rw [takenIn, if_neg hdata] at h
      cases h
      rfl
  rw [hside]
  split_ifs with hack
  · rw [sender_ackArrived]
    exact .ack hsyn hrst hack
  · exact .bare hsyn

theorem finArrived_input {d : Conn} (hrst : s.flags &&& TH_RST = 0)
    (hsyn : c.state ≠ .synSent) (hd : Acked (sender c) s (sender d)) (htaken : takenIn c s = some d)
    (hdue : FinDue d s) : Input c s (sender (finArrived (finNoted d s))) := by
  unfold finArrived
  set e := sendAck { finNoted d s with
    rcvNxt := (finNoted d s).rcvNxt + 1, gotFin := true, finHeld := false }
  have he : sender e = sender d := (sender_sendAck _).trans (sender_finNoted d s)
  have hstate : e.state = d.state := congrArg Sender.state he
  dsimp only
  split_ifs with hopen
  · rw [sender_sendReliable (by simp)]
    have hsent : Input c s ((sender e).send .closing (TH_FIN ||| TH_ACK) [] 1) := by
      rw [he]
      exact .answered hrst hsyn hd htaken hdue (hstate ▸ hopen)
    exact hsent
  · rw [show sender { e with state := .done } = (sender e).finish from rfl, he]
    exact .ended hd

theorem tcpInput_input (h : tcpInput c s = some c') : Input c s (sender c') := by
  unfold tcpInput at h
  by_cases hrst : s.flags &&& TH_RST ≠ 0
  · rw [if_pos hrst] at h
    cases h
    exact .reset hrst
  rw [if_neg hrst] at h
  by_cases hsyn : c.state = .synSent
  · rw [if_pos hsyn] at h
    split_ifs at h with hboth
    · cases h
      rw [sender_sendAck]
      exact .greeted hsyn (not_not.mp hrst) hboth
    · cases h
      exact .ignored hsyn
  rw [if_neg hsyn] at h
  obtain ⟨d, hd, rfl⟩ := Option.map_eq_some_iff.mp h
  have hacked := takenIn_acked hsyn (not_not.mp hrst) hd
  rw [show finIn d s = if (finNoted d s).finHeld ∧ (finNoted d s).gotFin = false ∧
    (finNoted d s).finAt = (finNoted d s).rcvNxt then finArrived (finNoted d s) else finNoted d s from rfl]
  split_ifs with hdue
  · exact finArrived_input (not_not.mp hrst) hsyn hacked hd hdue
  · rw [sender_finNoted]
    exact .taken hacked

end Sender

/-! ## Runs -/

inductive Item
  | syn
  | byte (b : UInt8)
  | fin
  deriving Repr, DecidableEq

def items (flags : UInt8) (data : Bytes) : List Item :=
  (if flags &&& TH_SYN ≠ 0 then [.syn] else []) ++ data.map .byte ++
    (if flags &&& TH_FIN ≠ 0 then [.fin] else [])

/-- All that was sent from `first` on, and how far `snd_una` has moved along it. `call` is where the last `tcp_send`
started, while it may yet find that its segment did not go out. -/
structure Traffic where
  first : U32
  out : List Item
  acked : Nat
  call : Option Nat
  deriving Repr, DecidableEq

inductive Op
  | segment (s : Segment)
  | timer (now : Nat)
  | recv (cap : Nat)
  | send (data : Bytes)
  | sendFailed
  | close
  | closed
  deriving Repr, DecidableEq

def step (c : Conn) (t : Traffic) : Op → Option Conn
  | .segment s => if c.state = .closed then some c else tcpInput c s
  | .timer now => some (pumpOne { c with clock := now })
  | .recv cap => (tcpRecv c cap).map Prod.snd
  | .send data => some (tcpSend c data)
  | .sendFailed => some (t.call.elim c fun p => tcpSendFailed c (seqAt t.first p))
  | .close => some (tcpClose c)
  | .closed => some (tcpClosed c)

/-- A step adds what it sent, takes back what did not go out, or moves `snd_una`. -/
def Traffic.after (t : Traffic) (a : Sender) (op : Op) (b : Sender) : Traffic :=
  match op with
  | .segment _ =>
    if a.state = .synSent ∧ b.state = .opened then ⟨b.sndNxt - 1, [.syn], 1, none⟩
    else { t with
      out := t.out ++ (if b.sndNxt = a.sndNxt then [] else [.fin])
      acked := t.acked + (b.sndUna - a.sndUna).toNat }
  | .send data =>
    if a.state = .opened ∧ data.length ≤ 1400 then
      { t with out := t.out ++ data.map .byte, call := some t.out.length }
    else t
  | .sendFailed => t.call.elim t fun p => { t with out := t.out.take p, call := none }
  | .close => { t with out := t.out ++ (if a.state = .opened then [.fin] else []), call := none }
  | .timer _ => t
  | .recv _ => t
  | .closed => t

/-- What a connection comes to, in any order of segments, the timer and calls. `ok` says which steps
may be taken from where. -/
inductive Sends (ok : Conn → Traffic → Op → Prop) (iss : U32) : Conn → Traffic → Prop
  | start (c : Conn) : Sends ok iss (tcpOpen c iss) ⟨iss, [.syn], 0, none⟩
  | step {c c' t op} : Sends ok iss c t → ok c t op → step c t op = some c' →
      Sends ok iss c' (t.after (sender c) op (sender c'))

inductive Moved (c : Conn) (t : Traffic) : Op → Sender → Prop
  | deaf {s} : c.state = .closed → Moved c t (.segment s) (sender c)
  | input {s b} : c.state ≠ .closed → Input c s b → Moved c t (.segment s) b
  | waited {now} : Moved c t (.timer now) (sender c)
  | gaveUp {now} : Moved c t (.timer now) ((sender c).drop .done)
  | read {cap} : Moved c t (.recv cap) (sender c)
  | unsent {data} : ¬ (c.state = .opened ∧ data.length ≤ 1400) → Moved c t (.send data) (sender c)
  | sent {data} : c.state = .opened → data.length ≤ 1400 →
      Moved c t (.send data)
        ((sender c).send .opened (TH_PSH ||| TH_ACK) data (BitVec.ofNat 32 data.length))
  | noCall : t.call = none → Moved c t .sendFailed (sender c)
  | takenBack {p} : t.call = some p → Moved c t .sendFailed ((sender c).takeBack (seqAt t.first p))
  | notOpen : c.state ≠ .opened → Moved c t .close (sender c)
  | closing : c.state = .opened →
      Moved c t .close ((sender c).send .closing (TH_FIN ||| TH_ACK) [] 1)
  | closed : Moved c t .closed ((sender c).drop .closed)

variable {t : Traffic} {a b : Sender} {s : Segment}

theorem step_moved {c c' : Conn} {op : Op} (h : step c t op = some c') :
    Moved c t op (sender c') := by
  cases op with
  | segment s =>
    unfold step at h
    split_ifs at h with hclosed
    · cases h
      exact .deaf hclosed
    · exact .input hclosed (tcpInput_input h)
  | timer now =>
    cases h
    rcases sender_pumpOne { c with clock := now } with hp | hp
    · rw [hp]
      exact .waited
    · rw [hp]
      exact .gaveUp
  | recv cap =>
    obtain ⟨⟨out, d⟩, hd, rfl⟩ := Option.map_eq_some_iff.mp h
    rw [sender_tcpRecv hd]
    exact .read
  | send data =>
    cases h
    by_cases hopen : c.state = .opened ∧ data.length ≤ 1400
    · rw [sender_tcpSend hopen.1 hopen.2]
      exact .sent hopen.1 hopen.2
    · rw [tcpSend, if_neg hopen]
      exact .unsent hopen
  | sendFailed =>
    cases h
    cases hcall : t.call with
    | none => exact .noCall hcall
    | some p => exact .takenBack hcall
  | close =>
    cases h
    by_cases hopen : c.state = .opened
    · rw [sender_tcpClose hopen]
      exact .closing hopen
    · rw [tcpClose, if_neg hopen]
      exact .notOpen hopen
  | closed =>
    cases h
    exact .closed

/-! ## The numbers count what was sent -/

theorem seqAt_advance (first x : U32) (n : Nat) : seqAt first (n + (x - seqAt first n).toNat) = x := by
  rw [← seqAt_add, BitVec.ofNat_toNat, BitVec.setWidth_eq, BitVec.add_comm, BitVec.sub_add_cancel]

structure Numbers (a : Sender) (t : Traffic) : Prop where
  una : a.sndUna = seqAt t.first t.acked
  nxt : a.sndNxt = seqAt t.first t.out.length
  call : ∀ p, t.call = some p → p ≤ t.out.length

theorem Acked.same (h : Acked a s b) :
    b.state = a.state ∧ b.sndNxt = a.sndNxt ∧ b.rtSeq = a.rtSeq ∧ b.rtFlags = a.rtFlags ∧
      b.rtData = a.rtData := by
  cases h <;> exact ⟨rfl, rfl, rfl, rfl, rfl⟩

/-- How far the acknowledgement moves `snd_una`. -/
def Traffic.acks (t : Traffic) (a b : Sender) : Traffic :=
  { t with acked := t.acked + (b.sndUna - a.sndUna).toNat }

theorem after_unmoved (hnxt : b.sndNxt = a.sndNxt)
    (hopen : ¬ (a.state = .synSent ∧ b.state = .opened)) : t.after a (.segment s) b = t.acks a b := by
  unfold Traffic.after Traffic.acks
  dsimp only
  rw [if_neg hopen, if_pos hnxt, List.append_nil]

theorem acks_refl (t : Traffic) (a : Sender) : t.acks a a = t := by
  simp [Traffic.acks]

theorem after_drop (t : Traffic) (a : Sender) (s : Segment) : t.after a (.segment s) (a.drop .done) = t :=
  (@after_unmoved t a (a.drop .done) s rfl (by simp [Sender.drop])).trans (acks_refl t a)

theorem after_finish (hnxt : b.sndNxt = a.sndNxt) :
    t.after a (.segment s) b.finish = t.acks a b :=
  @after_unmoved t a b.finish s hnxt (by simp [Sender.finish])

theorem after_same (h : a.state ≠ .synSent ∨ a.state ≠ .opened) :
    t.after a (.segment s) a = t := by
  refine (after_unmoved rfl fun hboth => ?_).trans (acks_refl t a)
  rcases h with h | h
  · exact h hboth.1
  · exact h hboth.2

theorem after_greet (hsyn : a.state = .synSent) :
    t.after a (.segment s) (a.greet s.ack) = ⟨s.ack - 1, [.syn], 1, none⟩ := by
  unfold Traffic.after
  exact if_pos ⟨hsyn, rfl⟩

theorem after_taken (h : Acked a s b) :
    t.after a (.segment s) b = t.acks a b := by
  obtain ⟨hstate, hnxt, -⟩ := h.same
  refine after_unmoved hnxt fun hboth => ?_
  rw [hstate, hboth.1] at hboth
  exact TState.noConfusion hboth.2

theorem after_answered {flags : UInt8} (hnxt : b.sndNxt = a.sndNxt) :
    t.after a (.segment s) (b.send .closing flags [] 1) =
      { t.acks a b with out := t.out ++ [.fin] } := by
  have hne : (b.send .closing flags [] 1).sndNxt ≠ a.sndNxt := by
    rw [Sender.send, hnxt]
    simp
  unfold Traffic.after Traffic.acks
  dsimp only
  rw [if_neg (by simp [Sender.send]), if_neg hne]
  rfl

theorem after_unsent {data : Bytes}
    (h : ¬ (a.state = .opened ∧ data.length ≤ 1400)) : t.after a (.send data) b = t := if_neg h

theorem after_sent {data : Bytes} (hopen : a.state = .opened)
    (hlen : data.length ≤ 1400) :
    t.after a (.send data) b = { t with out := t.out ++ data.map .byte, call := some t.out.length } :=
  if_pos ⟨hopen, hlen⟩

theorem after_takenBack {p : Nat} (h : t.call = some p) :
    t.after a .sendFailed b = { t with out := t.out.take p, call := none } := by
  rw [Traffic.after, h]
  rfl

theorem after_notOpen (h : a.state ≠ .opened) :
    t.after a .close b = { t with call := none } := by
  rw [Traffic.after, if_neg h, List.append_nil]

theorem after_closing (h : a.state = .opened) :
    t.after a .close b = { t with out := t.out ++ [.fin], call := none } := by
  rw [Traffic.after, if_pos h]

theorem Numbers.acks (h : Numbers a t) (hnxt : b.sndNxt = a.sndNxt) :
    Numbers b (t.acks a b) := by
  refine ⟨?_, hnxt.trans h.nxt, h.call⟩
  rw [Traffic.acks, h.una, seqAt_advance]

theorem Numbers.send (h : Numbers a t) (state : TState) (flags : UInt8)
    (data : Bytes) (more : List Item) (call : Option Nat)
    (hcall : ∀ p, call = some p → p ≤ (t.out ++ more).length) :
    Numbers (a.send state flags data (BitVec.ofNat 32 more.length)) { t with out := t.out ++ more, call } :=
  ⟨h.una, by rw [Sender.send, h.nxt, List.length_append, seqAt_add], hcall⟩

theorem Numbers.input {c : Conn} (h : Numbers (sender c) t)
    (hb : Input c s b) : Numbers b (t.after (sender c) (.segment s) b) := by
  cases hb with
  | reset =>
    rw [after_drop]
    exact ⟨h.una, h.nxt, h.call⟩
  | greeted hsyn =>
    have hone : seqAt (s.ack - 1) 1 = s.ack := BitVec.sub_add_cancel _ _
    rw [after_greet hsyn]
    exact ⟨hone.symm, hone.symm, by simp⟩
  | ignored hsyn =>
    rw [after_same (.inr (by simp [sender, hsyn]))]
    exact h
  | taken hacked =>
    rw [after_taken hacked]
    exact h.acks hacked.same.2.1
  | answered _ _ hacked =>
    rw [after_answered hacked.same.2.1]
    refine (h.acks hacked.same.2.1).send _ _ _ [.fin] t.call fun p hp => ?_
    rw [List.length_append]
    exact Nat.le_add_right_of_le (h.call p hp)
  | ended hacked =>
    have hnext := h.acks hacked.same.2.1
    rw [after_finish hacked.same.2.1]
    exact ⟨hnext.una, hnext.nxt, hnext.call⟩

theorem Numbers.moved {c : Conn} {op : Op} (h : Numbers (sender c) t)
    (hb : Moved c t op b) : Numbers b (t.after (sender c) op b) := by
  cases hb with
  | deaf hclosed =>
    rw [after_same (.inl (by simp [sender, hclosed]))]
    exact h
  | input hne hinput => exact h.input hinput
  | waited => exact h
  | gaveUp => exact ⟨h.una, h.nxt, h.call⟩
  | read => exact h
  | unsent hnot =>
    rw [after_unsent hnot]
    exact h
  | @sent data hopen hlen =>
    rw [after_sent hopen hlen]
    have hsend := h.send .opened (TH_PSH ||| TH_ACK) data (data.map .byte) (some t.out.length)
      (by rintro p ⟨⟩; simp)
    rwa [List.length_map] at hsend
  | noCall hcall =>
    rw [Traffic.after, hcall]
    exact h
  | @takenBack p hcall =>
    have hlen : (t.out.take p).length = p := by
      rw [List.length_take, Nat.min_eq_left (h.call p hcall)]
    rw [after_takenBack hcall]
    exact ⟨h.una, congrArg (seqAt t.first) hlen.symm, by simp⟩
  | notOpen hnot =>
    rw [after_notOpen hnot]
    exact ⟨h.una, h.nxt, by simp⟩
  | closing hopen =>
    rw [after_closing hopen]
    exact h.send _ _ _ [.fin] none (by simp)
  | closed => exact ⟨h.una, h.nxt, h.call⟩

theorem sender_tcpOpen (c : Conn) (iss : U32) :
    sender (tcpOpen c iss) = ⟨.synSent, iss + 1, iss, iss, TH_SYN, [], true⟩ := by
  unfold tcpOpen
  rw [sender_sendReliable (by simp)]
  rfl

theorem Sends.numbers {ok : Conn → Traffic → Op → Prop} {iss : U32} {c : Conn}
    (h : Sends ok iss c t) : Numbers (sender c) t := by
  induction h with
  | start c =>
    rw [sender_tcpOpen]
    exact ⟨(seqAt_zero iss).symm, rfl, by simp⟩
  | step _ _ hstep ih => exact ih.moved (step_moved hstep)

end Zelr.Tcp
