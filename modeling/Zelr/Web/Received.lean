import Zelr.Web.Pump

/-!
# Call after call

What a whole run reports, for a conforming server and for every cutting of its bytes into reads.
-/

namespace Zelr.Web

variable {x : Event} {pings : List Bytes}

/-- The reads of these calls are `wire` from its front, as far as `rest`. After the end there is nothing. -/
def Carries : List Poll → Bytes → Bytes → Prop
  | [], wire, rest => wire = rest
  | poll :: polls, wire, rest => ∃ more, wire = poll.chunks.flatten ++ more ∧ poll.chunks.length ≤ 64 ∧
      (∀ c ∈ poll.chunks, c.length ≤ 16384) ∧ (poll.eof = true → more = []) ∧ Carries polls more rest

def delivered (events : List Event) : List (Kind × Bytes) :=
  events.filterMap fun
    | .message binary data => some (if binary then .binary else .text, data)
    | _ => none

/-- The connection is over when this was reported. -/
def Event.ends : Event → Bool
  | .close _ _ _ => true
  | .error _ => true
  | _ => false

def Settled (events : List Event) (rest : Bytes) : Prop :=
  (∃ e ∈ events, e.ends = true) ∨ rest = [] ∧ events.getLast? = some .none

/-- What a run leaves: what was reported of the messages `ms`, what was answered of the pings `ps`. -/
structure Received (host : Host) (w₀ : Wsock) (ms : List (Kind × Bytes)) (pings : List Bytes) (size : Nat) (rest : Bytes)
    (events : List Event) (w : Wsock) : Prop where
  inOrder : delivered events <+: ms
  errors : ∀ why, .error why ∈ events → why = outOfMemory ∧ Refused host size
  answered : (∀ why, .error why ∉ events) → ∃ done answer : List Bytes, done <+: pings ∧
    answer.length ≤ (if w₀.sentClose then 0 else 1) ∧
    w.sent = w₀.sent ++ pongs host w₀.sent.length done ++ answer ∧
    (Settled events rest → delivered events = ms ∧ done = pings)
  quiet : ∀ before e after, events = before ++ e :: after → e.ends = true → ∀ x ∈ after, x = .none

section run
variable {host : Host} {w₀ w : Wsock} {begun : Option (Kind × Bytes)} {done ps : List Bytes} {ms : List (Kind × Bytes)}
  {size : Nat} {wire rest : Bytes} {polls : List Poll}

theorem pumps_closed (hclosed : w.state = .closed) (polls : List Poll) :
    pumps host polls w = some (List.replicate polls.length .none, w) := by
  induction polls with
  | nil => rfl
  | cons poll polls ih =>
    have hpump : wsPump host poll w = some (.none, w) := by
      unfold wsPump
      rw [if_pos hclosed]
    rw [pumps, hpump]
    dsimp only
    rw [ih]
    rfl

theorem delivered_none (n : Nat) : delivered (List.replicate n .none) = [] := by
  induction n with
  | zero => rfl
  | succ n ih =>
    rw [List.replicate_succ, delivered, List.filterMap_cons]
    exact ih

variable {e : Event} {events : List Event}

theorem quiet_ended {n : Nat} : ∀ before x after, e :: List.replicate n .none = before ++ x :: after →
    x.ends = true → ∀ y ∈ after, y = .none := by
  intro before x after hsplit _ y hy
  cases before with
  | nil =>
    obtain ⟨-, hafter⟩ := List.cons.inj hsplit
    rw [← hafter] at hy
    exact List.eq_of_mem_replicate hy
  | cons _ before =>
    obtain ⟨-, hafter⟩ := List.cons.inj hsplit
    have hin : y ∈ List.replicate n Event.none := by
      rw [hafter]
      exact List.mem_append_right _ (List.mem_cons_of_mem _ hy)
    exact List.eq_of_mem_replicate hin

theorem quiet_nil : ∀ before x after, ([] : List Event) = before ++ x :: after → x.ends = true → ∀ y ∈ after, y = .none := by
  intro before x after hsplit
  cases before <;> cases hsplit

theorem quiet_cons (he : e.ends = false)
    (h : ∀ before x after, events = before ++ x :: after → x.ends = true → ∀ y ∈ after, y = .none) :
    ∀ before x after, e :: events = before ++ x :: after → x.ends = true → ∀ y ∈ after, y = .none := by
  intro before x after hsplit hx
  cases before with
  | nil =>
    obtain ⟨rfl, -⟩ := List.cons.inj hsplit
    rw [he] at hx
    cases hx
  | cons _ before => exact h before x after (List.cons.inj hsplit).2 hx

theorem Settled.tail (he : e.ends = false) (h : Settled (e :: x :: events) rest) :
    Settled (x :: events) rest := by
  rcases h with ⟨y, hy, hends⟩ | ⟨hrest, hlast⟩
  · rcases List.mem_cons.mp hy with rfl | hy
    · rw [he] at hends
      cases hends
    · exact .inl ⟨y, hy, hends⟩
  · exact .inr ⟨hrest, hlast⟩

theorem pumps_length {w' : Wsock} (h : pumps host polls w = some (events, w')) :
    events.length = polls.length := by
  induction polls generalizing w events with
  | nil =>
    cases h
    rfl
  | cons poll polls ih =>
    rw [pumps] at h
    cases hpump : wsPump host poll w with
    | none =>
      rw [hpump] at h
      cases h
    | some r =>
      rw [hpump] at h
      obtain ⟨⟨events', v⟩, hrun, hsame⟩ := Option.map_eq_some_iff.mp h
      cases hsame
      rw [List.length_cons, List.length_cons, ih hrun]

theorem Received.none
    (h : Received host w₀ ms pings size rest (x :: events) w) :
    Received host w₀ ms pings size rest (.none :: x :: events) w where
  inOrder := h.inOrder
  errors := fun why hin => h.errors why ((List.mem_cons.mp hin).resolve_left nofun)
  answered := by
    intro hno
    obtain ⟨done, answer, hdone, hlen, hsent, hall⟩ := h.answered fun why hin => hno why (List.mem_cons_of_mem _ hin)
    exact ⟨done, answer, hdone, hlen, hsent, fun hsettled => hall (hsettled.tail rfl)⟩
  quiet := quiet_cons rfl h.quiet

theorem Received.message {kind : Kind} {data : Bytes}
    (h : Received host w₀ ms pings size rest events w) :
    Received host w₀ ((kind, data) :: ms) pings size rest (.message (kind = .binary) data :: events) w := by
  have hfirst : delivered (.message (kind = .binary) data :: events) = (kind, data) :: delivered events := by
    cases kind <;> rfl
  refine ⟨?_, fun why hin => h.errors why ((List.mem_cons.mp hin).resolve_left nofun), ?_, quiet_cons rfl h.quiet⟩
  · rw [hfirst]
    exact (List.prefix_cons_inj _).mpr h.inOrder
  · intro hno
    obtain ⟨done, answer, hdone, hlen, hsent, hall⟩ := h.answered fun why hin => hno why (List.mem_cons_of_mem _ hin)
    refine ⟨done, answer, hdone, hlen, hsent, fun hsettled => ?_⟩
    cases events with
    | nil =>
      rcases hsettled with ⟨e, hin, hends⟩ | ⟨-, hlast⟩
      · cases List.mem_singleton.mp hin
        cases hends
      · cases hlast
    | cons x events =>
      obtain ⟨hms, hpings⟩ := hall (hsettled.tail rfl)
      exact ⟨by rw [hfirst, hms], hpings⟩

/-- Run lemma: what a run reports and answers, from any point of a connection on. -/
theorem pumps_received (hopen : w₀.state ≠ .closed) (hlate : w₀.state = .closing → ∀ poll ∈ polls, poll.late = false)
    (hheap : ∀ c, host.memory c = true → c ≤ USER_HEAP) (hgoing : Going host w₀ w begun done)
    (hsends : Sends begun (w.inBuf ++ wire) ms ps) (hcarries : Carries polls wire rest)
    (hsize : (w.inBuf ++ wire).length ≤ size) :
    ∃ events w', pumps host polls w = some (events, w') ∧ Received host w₀ ms (done ++ ps) size rest events w' := by
  induction polls generalizing w begun done ps ms wire with
  | nil =>
    refine ⟨[], w, rfl, List.nil_prefix, nofun, fun _ => ⟨done, [], List.prefix_append _ _, Nat.zero_le _, ?_, ?_⟩, quiet_nil⟩
    · rw [List.append_nil]
      exact hgoing.sent
    · rintro (⟨_, hin, -⟩ | ⟨-, hlast⟩)
      · cases hin
      · cases hlast
  | cons poll polls ih =>
    obtain ⟨more, rfl, hrounds, hchunks, heof, hcarries⟩ := hcarries
    have hlater := fun hclosing poll' hin => hlate hclosing poll' (List.mem_cons_of_mem _ hin)
    obtain ⟨e, v, hpump, hcalled⟩ := wsPump_called hheap hopen (fun hclosing => hlate hclosing poll List.mem_cons_self)
      hrounds hchunks hgoing hsends heof
    rw [← List.append_assoc, List.length_append] at hsize
    have hclose : ∀ {code : Nat} {clean : Bool} {reason : Bytes},
        delivered (.close code clean reason :: List.replicate polls.length .none) = [] := delivered_none polls.length
    have herror : ∀ {why : String}, delivered (.error why :: List.replicate polls.length .none) = [] :=
      delivered_none polls.length
    rw [pumps, hpump]
    dsimp only
    cases hcalled with
    | none hle hnext hmore hpings hdone =>
      cases polls with
      | nil =>
        refine ⟨[.none], v, rfl, List.nil_prefix, nofun, fun _ => ?_, quiet_cons rfl quiet_nil⟩
        rw [hpings]
        refine ⟨_, [], List.prefix_append _ _, Nat.zero_le _, ?_, ?_⟩
        · rw [List.append_nil]
          exact hnext.sent
        · rintro (⟨x, hin, hends⟩ | ⟨hrest, -⟩)
          · cases List.mem_singleton.mp hin
            cases hends
          · obtain ⟨rfl, rfl⟩ := hdone (Eq.trans hcarries hrest)
            exact ⟨rfl, (List.append_nil _).symm⟩
      | cons poll' polls =>
        obtain ⟨events, w', hrun, hreceived⟩ := ih hlater hnext hmore hcarries (by
          rw [List.length_append]
          exact (Nat.add_le_add_right hle _).trans hsize)
        cases events with
        | nil => cases pumps_length hrun
        | cons x events =>
          rw [hrun, hpings]
          exact ⟨_, _, rfl, hreceived.none⟩
    | message hle hms hnext hmore hpings =>
      obtain ⟨events, w', hrun, hreceived⟩ := ih hlater hnext hmore hcarries (by
        rw [List.length_append]
        exact (Nat.add_le_add_right hle _).trans hsize)
      rw [hrun, hpings, hms]
      exact ⟨_, _, rfl, hreceived.message⟩
    | close hms hended =>
      obtain ⟨hclosed, answer, hlen, hsent⟩ := hended
      rw [pumps_closed hclosed]
      refine ⟨_, _, rfl, ?_, ?_, fun _ => ⟨done ++ ps, answer, List.prefix_rfl, hlen, hsent, fun _ => ⟨?_, rfl⟩⟩, quiet_ended⟩
      · rw [hclose]
        exact List.nil_prefix
      · intro why hin
        rcases List.mem_cons.mp hin with hsame | hin
        · cases hsame
        · cases List.eq_of_mem_replicate hin
      · rw [hms]
        exact hclose
    | memory hclosed hle hrefused =>
      rw [pumps_closed hclosed]
      refine ⟨_, _, rfl, ?_, ?_, fun hno => absurd List.mem_cons_self (hno _), quiet_ended⟩
      · rw [herror]
        exact List.nil_prefix
      · intro why hin
        rcases List.mem_cons.mp hin with hsame | hin
        · cases hsame
          refine ⟨rfl, hrefused.mono (hle.trans ?_)⟩
          exact (Nat.le_add_right _ _).trans hsize
        · cases List.eq_of_mem_replicate hin

/-! ## From the beginning -/

/-- A connection that is open, with no message begun. -/
structure Ready (w : Wsock) : Prop where
  state : w.state ≠ .closed
  msgOp : w.msgOp = 0
  inCap : w.inCap ≤ USER_HEAP
  msgCap : w.msgCap ≤ USER_HEAP
  inLen : w.inBuf.length ≤ w.inCap

theorem Ready.going (h : Ready w) : Going host w w none [] :=
  ⟨rfl, rfl, (List.append_nil _).symm, h.msgOp, h.inCap, h.msgCap, h.inLen⟩

/-- However the bytes of a conforming server are cut into reads, its messages are reported in order, its pings are
answered, and nothing is reported behind the close. -/
theorem ws_receives (hready : Ready w) (hlate : w.state = .closing → ∀ poll ∈ polls, poll.late = false)
    (hheap : ∀ c, host.memory c = true → c ≤ USER_HEAP) (hsends : Sends none (w.inBuf ++ wire) ms ps)
    (hcarries : Carries polls wire rest) :
    ∃ events w', pumps host polls w = some (events, w') ∧
      Received host w ms ps (w.inBuf ++ wire).length rest events w' :=
  pumps_received hready.state hlate hheap hready.going hsends hcarries le_rfl

end run

section sample

def sampleHost : Host := ⟨fun c => c ≤ USER_HEAP, fun i => [1, 2, 3, UInt8.ofNat i]⟩

def sampleSock : Wsock := ⟨.opened, [], 0, [], 0, 0, false, 0, []⟩

def sampleWire : Bytes :=
  frameBytes false 1 [104] ++ (frameBytes true 9 [7] ++ (frameBytes true 0 [105] ++ (frameBytes true 8 [] ++ [])))

def samplePolls : List Poll := [⟨[sampleWire.take 4], false, false⟩, ⟨[(sampleWire.drop 4).take 4], false, false⟩,
  ⟨[sampleWire.drop 8], false, false⟩, ⟨[], true, false⟩]

theorem sampleWire_sent : Sends none sampleWire [(.text, [104, 105])] [[7]] := by
  have hchars : Sendable .text [104, 105] := ⟨by decide, fun _ => ⟨['h', 'i'], by decide⟩⟩
  have hclose : Sends none (frameBytes true 8 [] ++ []) [] [] := .close (by decide)
  have hlast : Sends (some (.text, [104])) (frameBytes true 0 [105] ++ (frameBytes true 8 [] ++ [])) [(.text, [104, 105])] [] :=
    .last hchars hclose
  have hping : Sends (some (.text, [104])) (frameBytes true 9 [7] ++ (frameBytes true 0 [105] ++
    (frameBytes true 8 [] ++ []))) [(.text, [104, 105])] [[7]] := .ping (by decide) hlast
  exact Sends.begin (by decide) hping

theorem ws_receives_sample : ∃ events w', pumps sampleHost samplePolls sampleSock = some (events, w') ∧
    Received sampleHost sampleSock [(.text, [104, 105])] [[7]] 11 [] events w' := by
  have hcarries : Carries samplePolls sampleWire [] :=
    ⟨sampleWire.drop 4, by decide, by decide, by decide, nofun, sampleWire.drop 8, by decide, by decide, by decide, nofun,
      [], by decide, by decide, by decide, nofun, [], by decide, by decide, by decide, fun _ => rfl, rfl⟩
  have hready : Ready sampleSock := ⟨by decide, rfl, by decide, by decide, by decide⟩
  have hheap : ∀ c, sampleHost.memory c = true → c ≤ USER_HEAP := fun c hc => of_decide_eq_true hc
  have hsends : Sends none (sampleSock.inBuf ++ sampleWire) [(.text, [104, 105])] [[7]] := sampleWire_sent
  exact ws_receives hready (fun h => WsState.noConfusion h) hheap hsends hcarries

end sample

end Zelr.Web
