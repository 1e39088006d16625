import Zelr.Tcp.Reliable

/-!
# What `tcp_send` answers

One call, from the segment it puts out to the answer it gives, with any segments and turns of the
timer while it waits.
-/

namespace Zelr.Tcp

/-! ## One call -/

/-- What can come while `tcp_send` waits. -/
inductive Event
  | segment (s : Segment)
  | timer (now : Nat)
  deriving Repr, DecidableEq

def happen (c : Conn) : Event → Option Conn
  | .segment s => if c.state = .closed then some c else tcpInput c s
  | .timer now => some (pumpOne { c with clock := now })

def happens : Conn → List Event → Option Conn
  | c, [] => some c
  | c, e :: es => (happen c e).bind fun c => happens c es

/-- The loop of `tcp_send`. It goes round only with the segment in flight and the connection open,
and any look at the clock may find the deadline passed. -/
inductive Waits : Conn → List Event → Conn → Prop
  | done (c : Conn) : Waits c [] c
  | round {c c' c'' es rest} : c.rtPending = true → c.state = .opened → happens c es = some c' →
      Waits c' rest c'' → Waits c (es ++ rest) c''

/-- A whole call: what came meanwhile and what it answers. -/
inductive TcpSend (c : Conn) (data : Bytes) : List Event → Bool → Prop
  | refused : c.state ≠ .opened ∨ 1400 < data.length → TcpSend c data [] false
  | unsent : c.state = .opened → data.length ≤ 1400 → TcpSend c data [] false
  | waited {es c'} : c.state = .opened → data.length ≤ 1400 → Waits (tcpSend c data) es c' →
      TcpSend c data es (!c'.rtPending)

/-! ## What the answer should mean -/

def GivesUp (c : Conn) (now : Nat) : Prop :=
  c.rtPending = true ∧ c.state ≠ .closed ∧ c.rtTimeoutMs ≤ now - c.rtSentAt ∧
    MAX_RETRIES ≤ c.rtTries

/-- An acknowledgement of every number before `stop`: `stop` does not come after it. -/
def AcksTo (stop : U32) (s : Segment) : Prop :=
  s.flags &&& TH_RST = 0 ∧ s.flags &&& TH_ACK ≠ 0 ∧ (stop - s.ack).toInt ≤ 0

def stopOf (c : Conn) (data : Bytes) : U32 := c.sndNxt + BitVec.ofNat 32 data.length

/-- A reset arrives, or the retries run out, while the call waits. -/
def CutOff (c : Conn) (data : Bytes) (es : List Event) : Prop :=
  (∃ s, Event.segment s ∈ es ∧ s.flags &&& TH_RST ≠ 0) ∨
    ∃ before now after d, es = before ++ .timer now :: after ∧
      happens (tcpSend c data) before = some d ∧ GivesUp d now

/-- A call that answers true has had all its bytes acknowledged; one on a closed connection, one
that is reset and one whose retries run out answer false. -/
def Honest (c : Conn) (data : Bytes) (es : List Event) (answer : Bool) : Prop :=
  (answer = true → ∃ s, Event.segment s ∈ es ∧ AcksTo (stopOf c data) s) ∧
    (c.state ≠ .opened ∨ CutOff c data es → answer = false)

/-! ## The timer -/

variable {c d : Conn} {stop : U32} {data : Bytes} {b : Sender} {s : Segment} {es : List Event}

theorem pumpOne_keeps {now : Nat} (h : ¬ GivesUp c now) :
    sender (pumpOne { c with clock := now }) = sender c := by
  unfold pumpOne
  dsimp only
  split_ifs with hidle hearly hout
  · rfl
  · rfl
  · simp only [not_or, not_not] at hidle
    exact absurd ⟨hidle.1, hidle.2, Nat.not_lt.mp hearly, hout⟩ h
  · exact sender_emit _ _ _ _

theorem pumpOne_gives_up {now : Nat} (h : GivesUp c now) :
    sender (pumpOne { c with clock := now }) = (sender c).drop .done := by
  obtain ⟨hpending, hstate, hlate, htries⟩ := h
  unfold pumpOne
  dsimp only
  rw [if_neg (by simp [hpending, hstate]), if_neg (Nat.not_lt.mpr hlate), if_pos htries]
  rfl

/-! ## While the connection holds -/

/-- The segment in flight ends at `stop`, or is our FIN right after it. -/
structure InFlight (stop : U32) (s : Sender) : Prop where
  pending : s.rtPending = true
  nxt : s.state = .opened → s.sndNxt = stop
  live : s.state ≠ .synSent ∧ s.state ≠ .closed
  covers : s.covers = stop ∨ s.covers = stop + 1

/-- The segment is in flight, or an acknowledgement of the bytes has come. -/
structure Held (stop : U32) (es : List Event) (s : Sender) : Prop where
  live : s.state ≠ .synSent ∧ s.state ≠ .closed
  acked : (∃ seg, Event.segment seg ∈ es ∧ AcksTo stop seg) ∨ InFlight stop s

def Dead (s : Sender) : Prop := s.rtPending = false ∧ s.state = .done

theorem acksTo_of_covers {covers ack : U32} (h : covers = stop ∨ covers = stop + 1)
    (hack : 0 ≤ (ack - covers).toInt) : (stop - ack).toInt ≤ 0 := by
  have hstop := stop.isLt
  have hlt := ack.isLt
  have hone : (1 : U32).toNat = 1 := rfl
  rw [BitVec.toInt_eq_toNat_cond, BitVec.toNat_sub] at hack ⊢
  obtain rfl | rfl := h
  · split_ifs at hack ⊢ <;> omega
  · rw [BitVec.toNat_add, hone] at hack
    split_ifs at hack ⊢ <;> omega

theorem tcpSend_inFlight (hopen : c.state = .opened)
    (hlen : data.length ≤ 1400) : InFlight (stopOf c data) (sender (tcpSend c data)) := by
  have hflags : ¬ (TH_PSH ||| TH_ACK) &&& (TH_SYN ||| TH_FIN) ≠ 0 := by decide
  rw [sender_tcpSend hopen hlen]
  refine ⟨rfl, fun _ => rfl, ⟨by simp [Sender.send], by simp [Sender.send]⟩, Or.inl ?_⟩
  unfold Sender.covers Sender.send
  simp only [if_neg hflags]
  exact BitVec.add_zero _

theorem InFlight.acked {a : Sender} (h : InFlight stop a)
    (hb : Acked a s b) : AcksTo stop s ∨ InFlight stop b := by
  cases hb with
  | bare => exact Or.inr h
  | ack hsyn hrst hack =>
    by_cases hcovered : (s.ack - a.covers).toInt < 0
    · refine Or.inr ⟨?_, h.nxt, h.live, h.covers⟩
      simp only [Sender.ack, h.pending, Bool.true_and, decide_eq_true_eq]
      exact hcovered
    · exact Or.inl ⟨hrst, hack, acksTo_of_covers h.covers (Int.not_lt.mp hcovered)⟩

theorem InFlight.answered (h : InFlight stop b) (hopen : b.state = .opened) :
    InFlight stop (b.send .closing (TH_FIN ||| TH_ACK) [] 1) := by
  have hflags : (TH_FIN ||| TH_ACK) &&& (TH_SYN ||| TH_FIN) ≠ 0 := by decide
  refine ⟨rfl, fun hno => by simp [Sender.send] at hno, ⟨by simp [Sender.send], by simp [Sender.send]⟩,
    Or.inr ?_⟩
  unfold Sender.covers Sender.send
  simp only [if_pos hflags, h.nxt hopen, List.length_nil]
  bv_omega

theorem Held.input
    (h : Held stop es (sender c)) (hrst : s.flags &&& TH_RST = 0) (hb : Input c s b) :
    Held stop (es ++ [.segment s]) b := by
  obtain ⟨⟨hsyn, hclosed⟩, hheld⟩ := h
  -- once acknowledged, always
  have hold : (∃ seg, Event.segment seg ∈ es ∧ AcksTo stop seg) →
      ∃ seg, Event.segment seg ∈ es ++ [.segment s] ∧ AcksTo stop seg := by
    rintro ⟨seg, hseg, hacks⟩
    exact ⟨seg, List.mem_append_left _ hseg, hacks⟩
  have hnew : AcksTo stop s → ∃ seg, Event.segment seg ∈ es ++ [.segment s] ∧ AcksTo stop seg :=
    fun hacks => ⟨s, List.mem_append_right _ (List.mem_singleton_self _), hacks⟩
  cases hb with
  | reset hreset => exact absurd hrst hreset
  | greeted hgreet => exact absurd hgreet hsyn
  | ignored hignored => exact absurd hignored hsyn
  | taken hacked =>
    refine ⟨by rw [hacked.same.1]; exact ⟨hsyn, hclosed⟩, ?_⟩
    obtain hdone | hflight := hheld
    · exact Or.inl (hold hdone)
    · exact (hflight.acked hacked).imp hnew id
  | @answered d _ _ hacked _ _ hopen =>
    refine ⟨⟨by simp [Sender.send], by simp [Sender.send]⟩, ?_⟩
    obtain hdone | hflight := hheld
    · exact Or.inl (hold hdone)
    · exact (hflight.acked hacked).imp hnew fun hflight => hflight.answered hopen
  | @ended b hacked =>
    refine ⟨⟨by simp [Sender.finish], by simp [Sender.finish]⟩, ?_⟩
    obtain hdone | hflight := hheld
    · exact Or.inl (hold hdone)
    · refine (hflight.acked hacked).imp hnew fun hflight => ?_
      exact ⟨hflight.pending, fun hno => by simp [Sender.finish] at hno,
        ⟨by simp [Sender.finish], by simp [Sender.finish]⟩, hflight.covers⟩

theorem Dead.input (h : Dead (sender c)) (hb : Input c s b) :
    Dead b := by
  obtain ⟨hpending, hdone⟩ := h
  have hacked : ∀ {d : Sender}, Acked (sender c) s d → Dead d := by
    intro d hd
    cases hd with
    | bare => exact ⟨hpending, hdone⟩
    | ack => exact ⟨by simp [Sender.ack, hpending], hdone⟩
  cases hb with
  | reset => exact ⟨rfl, rfl⟩
  | greeted hsyn => exact absurd (hsyn.symm.trans hdone) (by decide)
  | ignored => exact ⟨hpending, hdone⟩
  | taken hd => exact hacked hd
  | @answered d _ _ hd _ _ hopen => exact absurd (hopen.symm.trans (hacked hd).2) (by decide)
  | ended hd => exact ⟨(hacked hd).1, rfl⟩

/-! ## A run of events -/

theorem happens_append (c : Conn) (es es' : List Event) :
    happens c (es ++ es') = (happens c es).bind fun d => happens d es' := by
  induction es generalizing c with
  | nil => rfl
  | cons e es ih =>
    simp only [List.cons_append, happens]
    cases happen c e with
    | none => rfl
    | some d => exact ih d

theorem Waits.happens {c' : Conn} (h : Waits c es c') :
    happens c es = some c' := by
  induction h with
  | done c => rfl
  | round _ _ hround _ ih => rw [happens_append, hround, Option.bind_some, ih]

theorem Dead.happens (h : Dead (sender c))
    (hrun : happens c es = some d) : Dead (sender d) := by
  induction es generalizing c with
  | nil =>
    cases hrun
    exact h
  | cons e es ih =>
    obtain ⟨c1, hone, hrest⟩ := Option.bind_eq_some_iff.mp hrun
    refine ih ?_ hrest
    cases e with
    | segment s =>
      unfold happen at hone
      split_ifs at hone with hclosed
      · cases hone
        exact h
      · exact h.input (tcpInput_input hone)
    | timer now =>
      cases hone
      rcases sender_pumpOne { c with clock := now } with hp | hp
      · rw [hp]
        exact h
      · rw [hp]
        exact ⟨rfl, rfl⟩

theorem held_of_not_cutOff {c0 : Conn} {before : List Event}
    (hbefore : happens (tcpSend c data) before = some c0)
    (h : Held (stopOf c data) before (sender c0)) (hrun : happens c0 es = some d)
    (hcut : ¬ CutOff c data (before ++ es)) : Held (stopOf c data) (before ++ es) (sender d) := by
  induction es generalizing c0 before with
  | nil =>
    cases hrun
    rw [List.append_nil]
    exact h
  | cons e es ih =>
    obtain ⟨c1, hone, hrest⟩ := Option.bind_eq_some_iff.mp hrun
    have hnext : happens (tcpSend c data) (before ++ [e]) = some c1 := by
      rw [happens_append, hbefore, Option.bind_some]
      simp only [happens, hone, Option.bind_some]
    have hheld : Held (stopOf c data) (before ++ [e]) (sender c1) := by
      cases e with
      | segment s =>
        have hrst : s.flags &&& TH_RST = 0 := by
          by_contra hreset
          exact hcut (Or.inl ⟨s, by simp, hreset⟩)
        have hclosed : c0.state ≠ .closed := h.live.2
        simp only [happen, if_neg hclosed] at hone
        exact h.input hrst (tcpInput_input hone)
      | timer now =>
        have hkeep : ¬ GivesUp c0 now := fun hgives =>
          hcut (Or.inr ⟨before, now, es, c0, rfl, hbefore, hgives⟩)
        cases hone
        rw [pumpOne_keeps hkeep]
        exact ⟨h.live, h.acked.imp_left fun ⟨seg, hseg, hacks⟩ =>
          ⟨seg, List.mem_append_left _ hseg, hacks⟩⟩
    have hfinal := ih hnext hheld hrest (by rwa [List.append_assoc, List.singleton_append])
    rwa [List.append_assoc, List.singleton_append] at hfinal

theorem dead_of_cutOff
    (hopen : c.state = .opened) (hlen : data.length ≤ 1400)
    (hrun : happens (tcpSend c data) es = some d) (hcut : CutOff c data es) : Dead (sender d) := by
  -- no event closes the connection, so a segment is always looked at
  have hlive : ∀ {es : List Event} {c0 d : Conn}, c0.state ≠ .closed → happens c0 es = some d →
      d.state ≠ .closed := by
    intro es
    induction es with
    | nil =>
      intro c0 d hc0 hd
      cases hd
      exact hc0
    | cons e es ih =>
      intro c0 d hc0 hd
      obtain ⟨c1, hone, hrest⟩ := Option.bind_eq_some_iff.mp hd
      refine ih ?_ hrest
      cases e with
      | segment s =>
        simp only [happen, if_neg hc0] at hone
        have hinput := tcpInput_input hone
        have hstate : (sender c1).state = c1.state := rfl
        rw [← hstate]
        generalize sender c1 = b at hinput
        cases hinput with
        | reset => simp [Sender.drop]
        | greeted => simp [Sender.greet]
        | ignored => exact hc0
        | taken hacked => rw [hacked.same.1]; exact hc0
        | answered => simp [Sender.send]
        | ended => simp [Sender.finish]
      | timer now =>
        cases hone
        have hstate : (sender (pumpOne { c0 with clock := now })).state =
            (pumpOne { c0 with clock := now }).state := rfl
        rw [← hstate]
        rcases sender_pumpOne { c0 with clock := now } with hp | hp
        · rw [hp]
          exact hc0
        · rw [hp]
          simp [Sender.drop]
  have hstart : (tcpSend c data).state ≠ .closed := (tcpSend_inFlight hopen hlen).live.2
  obtain ⟨s, hs, hreset⟩ | ⟨before, now, after, c0, rfl, hbefore, hgives⟩ := hcut
  · obtain ⟨before, after, rfl⟩ := List.append_of_mem hs
    rw [happens_append] at hrun
    obtain ⟨c0, hbefore, hrun⟩ := Option.bind_eq_some_iff.mp hrun
    obtain ⟨c1, hone, hrest⟩ := Option.bind_eq_some_iff.mp hrun
    refine Dead.happens ?_ hrest
    simp only [happen, if_neg (hlive hstart hbefore)] at hone
    unfold tcpInput at hone
    rw [if_pos hreset] at hone
    cases hone
    exact ⟨rfl, rfl⟩
  · rw [happens_append, hbefore, Option.bind_some] at hrun
    obtain ⟨c1, hone, hrest⟩ := Option.bind_eq_some_iff.mp hrun
    refine Dead.happens ?_ hrest
    cases hone
    rw [pumpOne_gives_up hgives]
    exact ⟨rfl, rfl⟩

def sampleOpen : Conn := { sampleSlot with state := .opened, sndNxt := 1, sndUna := 1 }

def sampleAck : List Event := [.segment (bare 0 2 TH_ACK)]

def sampleReset : List Event := [.segment (bare 0 0 TH_RST)]

theorem sampleOpen_call (es : List Event) (c : Conn) (h : happens (tcpSend sampleOpen [7]) es = some c) :
    TcpSend sampleOpen [7] es (!c.rtPending) := by
  have hwaits : Waits (tcpSend sampleOpen [7]) (es ++ []) c := Waits.round rfl rfl h (Waits.done c)
  rw [List.append_nil] at hwaits
  exact TcpSend.waited rfl (by decide) hwaits

end Zelr.Tcp
