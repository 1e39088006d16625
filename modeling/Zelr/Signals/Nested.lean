import Zelr.Signals.Model

/-!
# Handlers inside handlers

The set of running handlers is one mask, and a handler that returns takes its lowest bit out.
-/

namespace Zelr.Signals

/-! ## Sets of signals -/

section Bits

variable {set : BitVec 32} {i j : Nat}

theorem hasBit_eq (set : BitVec 32) (hi : i < 32) : hasBit set i = set.getLsbD i := by
  have hbit : bit i = BitVec.twoPow 32 i := (BitVec.twoPow_eq 32 i).symm
  rw [hasBit, hbit, BitVec.and_twoPow]
  cases hset : set.getLsbD i with
  | false => rfl
  | true =>
    rw [if_pos rfl, bne_iff_ne]
    intro hzero
    have hget := BitVec.getLsbD_twoPow (w := 32) i i
    rw [hzero] at hget
    simp [hi] at hget

theorem hasBit_insert (set : BitVec 32) (hi : i < 32) (hj : j < 32) :
    hasBit (set ||| bit j) i = (hasBit set i || decide (j = i)) := by
  have hbit : bit j = BitVec.twoPow 32 j := (BitVec.twoPow_eq 32 j).symm
  rw [hasBit_eq _ hi, hasBit_eq _ hi, BitVec.getLsbD_or, hbit, BitVec.getLsbD_twoPow]
  simp [hj]

theorem hasBit_erase (set : BitVec 32) (hi : i < 32) (hj : j < 32) :
    hasBit (set &&& ~~~bit j) i = (hasBit set i && decide (j ≠ i)) := by
  have hbit : bit j = BitVec.twoPow 32 j := (BitVec.twoPow_eq 32 j).symm
  rw [hasBit_eq _ hi, hasBit_eq _ hi, BitVec.getLsbD_and, BitVec.getLsbD_not, hbit, BitVec.getLsbD_twoPow]
  simp [hi, hj]

theorem hasBit_empty (i : Nat) : hasBit 0#32 i = false := by
  rw [hasBit, BitVec.zero_and]
  rfl

theorem bit_ne_zero (hi : i < 32) : (bit i == 0) = false := by
  rw [beq_eq_false_iff_ne]
  intro hzero
  have hmem := hasBit_insert 0#32 hi hi
  rw [hzero, show (0 : BitVec 32) = 0#32 from rfl, BitVec.or_zero, hasBit_empty] at hmem
  simp at hmem

theorem find_signals {p : Nat → Bool} :
    signals.find? p = some i ↔ p i = true ∧ (1 ≤ i ∧ i < SIG_MAX) ∧ ∀ x, 1 ≤ x → x < i → p x = false := by
  rw [signals, List.find?_range'_eq_some, List.mem_range'_1]
  simp [SIG_MAX]

theorem find_signals_none {p : Nat → Bool} (h : signals.find? p = none) (hlo : 1 ≤ i) (hhi : i < SIG_MAX) :
    p i = false := by
  have hmem : i ∈ signals := List.mem_range'_1.mpr ⟨hlo, hhi⟩
  simpa using List.find?_eq_none.mp h i hmem

end Bits

variable {mask : BitVec 32}

/-! ## Runs -/

/-- The signal whose handler `signal_deliver` enters. -/
def started (r : Registers) (s : Machine mask) : Option Nat :=
  if s.task.dead.isSome || s.task.pending == 0 then none
  else (deliverable s.task r).filter fun _ => stackIsThere s.page (imagePlace r - 16) r.rsp

/-- What happens to a task: what arrives, what it asks for, the scheduler's look at it, a return to ring 3
through a frame, a handler's return, and its own instructions. -/
inductive Event (mask : BitVec 32) where
  | send (sig : Int)
  | disposition (sig : Int) (how trampoline : U64)
  | takePending
  | deliver (r : Registers)
  | sigreturn (r : Registers)
  | run (mem : Mem) (page : Nat → Bool) (fpu : Fpu mask)

def Event.Quiet : Event mask → Prop
  | .deliver _ => False
  | .sigreturn _ => False
  | _ => True

/-- A task, and the handlers that have been entered and not left, the innermost first. -/
structure World (mask : BitVec 32) where
  machine : Machine mask
  entered : List Nat

namespace World

def withTask (w : World mask) (t : Task) : World mask := { w with machine := { w.machine with task := t } }

def step (w : World mask) : Event mask → World mask
  | .send sig => w.withTask (signalSend sig w.machine.task).2
  | .disposition sig how trampoline => w.withTask (signalDisposition sig how trampoline w.machine.task).2
  | .takePending => w.withTask (signalTakePending w.machine.task)
  | .deliver r =>
    { machine := (signalDeliver r w.machine).2, entered := (started r w.machine).toList ++ w.entered }
  | .sigreturn r =>
    if w.machine.task.dead.isSome then w
    else
      { machine := (sysSigreturn r w.machine).2
        entered := if (signalReturn r w.machine).isSome then w.entered.tail else w.entered }
  | .run mem page fpu => { w with machine := { w.machine with mem := mem, page := page, fpu := fpu } }

def run (w : World mask) (es : List (Event mask)) : World mask := es.foldl step w

theorem run_snoc (w : World mask) (es : List (Event mask)) (e : Event mask) :
    w.run (es ++ [e]) = (w.run es).step e := by
  rw [run, List.foldl_append]
  rfl

/-- A new task: nothing has arrived, and it has asked for nothing. -/
def start (m : Machine mask) : World mask where
  machine := { m with task := ⟨none, 0, 0, fun _ => SIG_DFL, 0⟩ }
  entered := []

end World

def Roomy (r : Registers) (page : Nat → Bool) : Prop :=
  ¬ framePlace r < BitVec.ofNat 64 (FRAME_SIZE + FPU_AREA + 16) ∧
    stackIsThere page (imagePlace r - 16) r.rsp = true

/-- The machine when one signal has arrived and no other. -/
def arrived (sig : Nat) (s : Machine mask) : Machine mask :=
  { s with task := { s.task with pending := bit sig } }

/-- Whatever is done next, a signal whose handler has not returned is not delivered, and one that has none running is. -/
structure Exact (w : World mask) : Prop where
  apart : ∀ es, (∀ e ∈ es, Event.Quiet e) → ∀ r sig, started r (w.run es).machine = some sig → sig ∉ w.entered
  again : ∀ es, (∀ e ∈ es, Event.Quiet e) → ∀ sig, 1 ≤ sig → sig < SIG_MAX → sig ∉ w.entered →
    (w.run es).machine.task.dead = none → SIG_IGN < (w.run es).machine.task.handler sig →
    ∀ r, Roomy r (w.run es).machine.page → started r (arrived sig (w.run es).machine) = some sig

theorem Exact.now {w : World mask} {r : Registers} {sig : Nat} (h : Exact w)
    (hsig : started r w.machine = some sig) : sig ∉ w.entered :=
  h.apart [] (by simp) r sig hsig

/-- A handler that returns is the lowest of those that are running. -/
def LowestReturns (w : World mask) : Event mask → Prop
  | .sigreturn r => w.machine.task.dead = none → (signalReturn r w.machine).isSome →
      ∀ a ∈ w.entered.head?, ∀ x ∈ w.entered, a ≤ x
  | _ => True

/-! ## The mask follows the handlers -/

/-- The mask is the set of the handlers entered. -/
structure Tracks (w : World mask) : Prop where
  mask : ∀ sig, 1 ≤ sig → sig < SIG_MAX → (hasBit w.machine.task.running sig = true ↔ sig ∈ w.entered)
  range : ∀ sig ∈ w.entered, 1 ≤ sig ∧ sig < SIG_MAX
  nodup : w.entered.Nodup
  kill : w.machine.task.handler SIGKILL = SIG_DFL
  spared : SIGKILL ∉ w.entered

section Deliver

variable {r : Registers} {s : Machine mask} {sig : Nat}

theorem started_some (h : started r s = some sig) :
    s.task.dead = none ∧ hasBit s.task.pending sig = true ∧ SIG_IGN < s.task.handler sig ∧
      hasBit s.task.running sig = false ∧ (1 ≤ sig ∧ sig < SIG_MAX) ∧ Roomy r s.page ∧
      signalDeliver r s = enter sig r s := by
  unfold started at h
  split at h
  · cases h
  · rename_i hgo
    obtain ⟨hfind, hstack⟩ := Option.filter_eq_some_iff.mp h
    have hdead : s.task.dead = none := by
      rw [Bool.or_eq_true, not_or] at hgo
      simpa using hgo.1
    obtain ⟨hp, hrange, -⟩ := find_signals.mp hfind
    simp only [Bool.and_eq_true, decide_eq_true_eq, Bool.not_eq_true', decide_eq_false_iff_not] at hp
    obtain ⟨⟨⟨hpending, hhandler⟩, hrunning⟩, hroom⟩ := hp
    refine ⟨hdead, hpending, hhandler, hrunning, hrange, ⟨hroom, hstack⟩, ?_⟩
    unfold signalDeliver
    rw [if_neg hgo, hfind]
    exact if_pos hstack

theorem started_none (h : started r s = none) :
    (signalDeliver r s).1 = r ∧ (signalDeliver r s).2.task.running = s.task.running ∧
      (signalDeliver r s).2.task.handler = s.task.handler := by
  unfold started at h
  unfold signalDeliver
  split
  · exact ⟨rfl, rfl, rfl⟩
  · rename_i hgo
    rw [if_neg hgo] at h
    cases hfind : deliverable s.task r with
    | none => exact ⟨rfl, rfl, rfl⟩
    | some sig =>
      rw [hfind] at h
      have hstack : ¬ stackIsThere s.page (imagePlace r - 16) r.rsp = true := by
        intro hstack
        exact Option.filter_eq_none_iff.mp h sig rfl hstack
      dsimp only
      rw [if_neg hstack]
      dsimp only
      unfold signalEndTask
      split <;> exact ⟨rfl, rfl, rfl⟩

theorem started_arrived (hdead : s.task.dead = none) (hlo : 1 ≤ sig) (hhi : sig < SIG_MAX)
    (hhandler : SIG_IGN < s.task.handler sig) (hroom : Roomy r s.page) :
    started r (arrived sig s) = some sig ↔ hasBit s.task.running sig = false := by
  have hhi' : sig < 32 := hhi
  have hself : ∀ x, x < 32 → hasBit (bit sig) x = decide (sig = x) := by
    intro x hx
    have hins := hasBit_insert 0#32 hx hhi'
    rwa [BitVec.zero_or, hasBit_empty, Bool.false_or] at hins
  have hgo : ¬ ((arrived sig s).task.dead.isSome || (arrived sig s).task.pending == 0) = true := by
    change ¬ (s.task.dead.isSome || bit sig == 0) = true
    rw [hdead, bit_ne_zero hhi']
    exact Bool.false_ne_true
  constructor
  · intro h
    exact (started_some h).2.2.2.1
  · intro hrunning
    have hfind : deliverable (arrived sig s).task r = some sig := by
      refine find_signals.mpr ⟨?_, ⟨hlo, hhi⟩, fun x hx hlt => ?_⟩
      · change (hasBit (bit sig) sig && decide (SIG_IGN < s.task.handler sig) && !hasBit s.task.running sig && _) = true
        rw [hself sig hhi', hrunning, decide_eq_true hhandler, decide_eq_true rfl, decide_eq_false hroom.1]
        rfl
      · change (hasBit (bit sig) x && _ && _ && _) = false
        rw [hself x (by omega), decide_eq_false (by omega : sig ≠ x)]
        rfl
    unfold started
    rw [if_neg hgo, hfind]
    exact Option.filter_some_pos hroom.2

end Deliver

section Return

variable {t : Task} {r : Registers} {s : Machine mask}

theorem handlerReturned_handler (t : Task) : (handlerReturned t).handler = t.handler := by
  unfold handlerReturned
  split <;> rfl

theorem handlerReturned_dead (t : Task) : (handlerReturned t).dead = t.dead := by
  unfold handlerReturned
  split <;> rfl

theorem handlerReturned_running {i : Nat} (hlo : 1 ≤ i) (hhi : i < SIG_MAX) :
    hasBit (handlerReturned t).running i = true ↔
      hasBit t.running i = true ∧ ∃ x, 1 ≤ x ∧ x < i ∧ hasBit t.running x = true := by
  unfold handlerReturned
  split
  · rename_i y hfind
    obtain ⟨hy, ⟨hylo, hyhi⟩, hleast⟩ := find_signals.mp hfind
    dsimp only
    rw [hasBit_erase _ hhi hyhi, Bool.and_eq_true, decide_eq_true_eq]
    refine and_congr_right fun hi => ⟨fun hne => ⟨y, hylo, ?_, hy⟩, ?_⟩
    · by_contra hnot
      have hclear := hleast i hlo (by omega)
      rw [hi] at hclear
      cases hclear
    · rintro ⟨x, hx, hlt, hbit⟩ rfl
      rw [hleast x hx hlt] at hbit
      cases hbit
  · rename_i hnone
    rw [find_signals_none hnone hlo hhi]
    exact ⟨fun h => absurd h Bool.false_ne_true, fun h => absurd h.1 Bool.false_ne_true⟩

theorem signalReturn_task {done : Registers × Machine mask} (h : signalReturn r s = some done) :
    done.2.task = handlerReturned s.task := by
  unfold signalReturn at h
  dsimp only at h
  split at h
  · cases h
  · split at h
    · cases h
    · split at h
      · cases h
      · split at h
        · cases h
        · cases h
          rfl

theorem sysSigreturn_some {done : Registers × Machine mask} (h : signalReturn r s = some done) :
    sysSigreturn r s = done := by
  unfold sysSigreturn
  rw [h]

theorem sysSigreturn_none (h : signalReturn r s = none) :
    sysSigreturn r s = (r, { s with task := signalEndTask 139 s.task }) := by
  unfold sysSigreturn
  rw [h]

end Return

/-! ## What a step does -/

section Steps

variable {w : World mask} {e : Event mask} {r : Registers}

theorem signalEndTask_running (n : Nat) (t : Task) : (signalEndTask n t).running = t.running := by
  unfold signalEndTask
  split <;> rfl

theorem signalEndTask_handler (n : Nat) (t : Task) : (signalEndTask n t).handler = t.handler := by
  unfold signalEndTask
  split <;> rfl

theorem signalSend_kept (sig : Int) (t : Task) :
    (signalSend sig t).2.running = t.running ∧ (signalSend sig t).2.handler = t.handler := by
  unfold signalSend
  split
  · exact ⟨rfl, rfl⟩
  · split <;> exact ⟨rfl, rfl⟩

theorem signalDisposition_kept (sig : Int) (how trampoline : U64) (t : Task) :
    (signalDisposition sig how trampoline t).2.running = t.running ∧
      (signalDisposition sig how trampoline t).2.dead = t.dead ∧
      (signalDisposition sig how trampoline t).2.handler SIGKILL = t.handler SIGKILL := by
  have hset : ¬ sig = (SIGKILL : Int) → 0 < sig →
      (if SIGKILL = sig.toNat then how else t.handler SIGKILL) = t.handler SIGKILL := by
    intro hne hpos
    exact if_neg (by omega)
  unfold signalDisposition
  split
  · exact ⟨rfl, rfl, rfl⟩
  · split
    · exact ⟨rfl, rfl, rfl⟩
    · rename_i hrange hkill
      split
      · split
        · exact ⟨rfl, rfl, rfl⟩
        · split
          · exact ⟨rfl, rfl, rfl⟩
          · exact ⟨rfl, rfl, hset hkill (by omega)⟩
      · exact ⟨rfl, rfl, hset hkill (by omega)⟩

theorem signalTakePending_kept (t : Task) :
    (signalTakePending t).running = t.running ∧ (signalTakePending t).handler = t.handler := by
  unfold signalTakePending
  split
  · exact ⟨rfl, rfl⟩
  · dsimp only
    split
    · exact ⟨rfl, rfl⟩
    · exact ⟨signalEndTask_running _ _, signalEndTask_handler _ _⟩

theorem step_quiet (h : e.Quiet) :
    (w.step e).entered = w.entered ∧ (w.step e).machine.task.running = w.machine.task.running ∧
      (w.step e).machine.task.handler SIGKILL = w.machine.task.handler SIGKILL := by
  cases e with
  | send sig =>
    obtain ⟨hrun, hhandler⟩ := signalSend_kept sig w.machine.task
    exact ⟨rfl, hrun, congrFun hhandler _⟩
  | disposition sig how trampoline =>
    obtain ⟨hrun, -, hkill⟩ := signalDisposition_kept sig how trampoline w.machine.task
    exact ⟨rfl, hrun, hkill⟩
  | takePending =>
    obtain ⟨hrun, hhandler⟩ := signalTakePending_kept w.machine.task
    exact ⟨rfl, hrun, congrFun hhandler _⟩
  | deliver r => exact absurd h id
  | sigreturn r => exact absurd h id
  | run mem page fpu => exact ⟨rfl, rfl, rfl⟩

theorem Tracks.of_kept {w' : World mask} (h : Tracks w) (he : w'.entered = w.entered)
    (hrun : w'.machine.task.running = w.machine.task.running)
    (hkill : w'.machine.task.handler SIGKILL = w.machine.task.handler SIGKILL) : Tracks w' where
  mask := by
    rw [he, hrun]
    exact h.mask
  range := by
    rw [he]
    exact h.range
  nodup := by
    rw [he]
    exact h.nodup
  kill := hkill.trans h.kill
  spared := by
    rw [he]
    exact h.spared

theorem Tracks.quiet (h : Tracks w) {es : List (Event mask)} (hes : ∀ e ∈ es, Event.Quiet e) :
    Tracks (w.run es) ∧ (w.run es).entered = w.entered := by
  induction es using List.reverseRecOn with
  | nil => exact ⟨h, rfl⟩
  | append_singleton es e ih =>
    obtain ⟨htracks, hentered⟩ := ih fun e he => hes e (List.mem_append_left _ he)
    obtain ⟨he, hrun, hkill⟩ := step_quiet (w := w.run es) (hes e (by simp))
    rw [World.run_snoc]
    exact ⟨htracks.of_kept he hrun hkill, he.trans hentered⟩

theorem Tracks.exact (h : Tracks w) : Exact w where
  apart := by
    intro es hes r sig hsig
    obtain ⟨htracks, hentered⟩ := h.quiet hes
    obtain ⟨-, -, -, hrunning, ⟨hlo, hhi⟩, -⟩ := started_some hsig
    rw [← hentered, ← htracks.mask sig hlo hhi, hrunning]
    exact Bool.false_ne_true
  again := by
    intro es hes sig hlo hhi hout hdead hhandler r hroom
    obtain ⟨htracks, hentered⟩ := h.quiet hes
    rw [started_arrived hdead hlo hhi hhandler hroom]
    rw [← hentered, ← htracks.mask sig hlo hhi] at hout
    exact Bool.not_eq_true _ ▸ hout

theorem Tracks.deliver (h : Tracks w) (r : Registers) : Tracks (w.step (.deliver r)) := by
  cases hsig : started r w.machine with
  | none =>
    obtain ⟨-, hrun, hhandler⟩ := started_none hsig
    refine h.of_kept ?_ hrun (congrFun hhandler _)
    change (started r w.machine).toList ++ w.entered = w.entered
    rw [hsig]
    rfl
  | some sig =>
    obtain ⟨-, -, hhandler, hrunning, ⟨hlo, hhi⟩, -, henter⟩ := started_some hsig
    have hfresh : sig ∉ w.entered := by
      rw [← h.mask sig hlo hhi, hrunning]
      exact Bool.false_ne_true
    have hkill : sig ≠ SIGKILL := by
      rintro rfl
      rw [h.kill] at hhandler
      exact absurd hhandler (by decide)
    have hentered : (w.step (.deliver r)).entered = sig :: w.entered := by
      change (started r w.machine).toList ++ w.entered = sig :: w.entered
      rw [hsig]
      rfl
    have htask : (w.step (.deliver r)).machine.task =
        { w.machine.task with
          pending := w.machine.task.pending &&& ~~~bit sig
          running := w.machine.task.running ||| bit sig } := by
      change (signalDeliver r w.machine).2.task = _
      rw [henter]
      rfl
    refine ⟨fun i hi hi' => ?_, ?_, ?_, ?_, ?_⟩
    · rw [hentered, htask, hasBit_insert _ hi' hhi, Bool.or_eq_true, h.mask i hi hi', decide_eq_true_eq,
        List.mem_cons, or_comm, eq_comm]
    · rw [hentered]
      exact List.forall_mem_cons.mpr ⟨⟨hlo, hhi⟩, h.range⟩
    · rw [hentered]
      exact List.nodup_cons.mpr ⟨hfresh, h.nodup⟩
    · rw [htask]
      exact h.kill
    · rw [hentered]
      exact List.not_mem_cons_of_ne_of_not_mem hkill.symm h.spared

theorem Tracks.leave (h : Tracks w) (hdead : w.machine.task.dead = none) (hdone : (signalReturn r w.machine).isSome)
    (hleast : ∀ a ∈ w.entered.head?, ∀ x ∈ w.entered, a ≤ x) : Tracks (w.step (.sigreturn r)) := by
  obtain ⟨done, hdone⟩ := Option.isSome_iff_exists.mp hdone
  have hstep : w.step (.sigreturn r) = { machine := done.2, entered := w.entered.tail } := by
    change (if w.machine.task.dead.isSome = true then w else _) = _
    rw [hdead, if_neg (by decide), sysSigreturn_some hdone, hdone]
    rfl
  have htask := signalReturn_task hdone
  rw [hstep]
  refine ⟨fun i hi hi' => ?_, fun x hx => h.range x (List.mem_of_mem_tail hx), h.nodup.tail, ?_,
    fun hx => h.spared (List.mem_of_mem_tail hx)⟩
  · dsimp only
    rw [htask, handlerReturned_running hi hi', h.mask i hi hi']
    cases hent : w.entered with
    | nil => simp
    | cons a rest =>
      have hnodup := h.nodup
      rw [hent] at hnodup hleast
      have hleast : ∀ x ∈ a :: rest, a ≤ x := hleast a rfl
      have ha := h.range a (by rw [hent]; exact List.mem_cons_self)
      rw [List.tail_cons]
      constructor
      · rintro ⟨hmem, x, hx, hlt, hbit⟩
        rw [h.mask x hx (by omega), hent] at hbit
        have hle := hleast x hbit
        rcases List.mem_cons.mp hmem with rfl | hmem
        · omega
        · exact hmem
      · intro hmem
        have hle := hleast i (List.mem_cons_of_mem _ hmem)
        have hne : a ≠ i := by
          rintro rfl
          exact (List.nodup_cons.mp hnodup).1 hmem
        refine ⟨List.mem_cons_of_mem _ hmem, a, ha.1, by omega, ?_⟩
        rw [h.mask a ha.1 ha.2, hent]
        exact List.mem_cons_self
  · dsimp only
    rw [htask, handlerReturned_handler]
    exact h.kill

theorem Tracks.refused (h : Tracks w) (hdone : signalReturn r w.machine = none) : Tracks (w.step (.sigreturn r)) := by
  change Tracks (if w.machine.task.dead.isSome = true then w else _)
  split
  · exact h
  · rw [hdone, sysSigreturn_none hdone]
    exact h.of_kept rfl (signalEndTask_running _ _) (congrFun (signalEndTask_handler _ _) _)

theorem Tracks.step (h : Tracks w) (hlow : LowestReturns w e) : Tracks (w.step e) := by
  have hquiet : ∀ {e : Event mask}, e.Quiet → Tracks (w.step e) := by
    intro e he
    obtain ⟨hentered, hrun, hkill⟩ := step_quiet (w := w) he
    exact h.of_kept hentered hrun hkill
  cases e with
  | send sig => exact hquiet trivial
  | disposition sig how trampoline => exact hquiet trivial
  | takePending => exact hquiet trivial
  | run mem page fpu => exact hquiet trivial
  | deliver r => exact h.deliver r
  | sigreturn r =>
    cases hdone : signalReturn r w.machine with
    | none => exact h.refused hdone
    | some done =>
      have hsome : (signalReturn r w.machine).isSome = true := by rw [hdone]; rfl
      cases hdead : w.machine.task.dead with
      | none => exact h.leave hdead hsome (hlow hdead hsome)
      | some status =>
        change Tracks (if w.machine.task.dead.isSome = true then w else _)
        rw [hdead]
        exact h

end Steps

/-! ## A higher handler that returns first -/

section Astray

variable {w : World mask} {r : Registers}

def roomyFrame : Registers :=
  { Registers.ofWords fun _ => 0 with
    rip := USER_SPACE_BASE, cs := USER_CODE_SEL, rflags := FLAGS_ON, rsp := USER_SPACE_BASE + 0x10000
    ss := USER_DATA_SEL }

theorem roomyFrame_roomy : Roomy roomyFrame fun _ => true := ⟨by decide, by decide⟩

theorem signalDisposition_set {sig : Nat} (hlo : 1 ≤ sig) (hhi : sig < SIG_MAX) (hne : sig ≠ SIGKILL) (t : Task) :
    (signalDisposition sig USER_SPACE_BASE USER_SPACE_BASE t).2 =
      { t with
        trampoline := USER_SPACE_BASE
        handler := fun i => if i = sig then USER_SPACE_BASE else t.handler i } := by
  unfold signalDisposition
  rw [if_neg (by unfold SIG_MAX at *; omega), if_neg (by omega), if_pos (by decide), if_neg (by decide),
    if_neg (by decide)]
  rfl

theorem Tracks.astray (h : Tracks w) (hdead : w.machine.task.dead = none)
    (hdone : (signalReturn r w.machine).isSome) {a x : Nat} (ha : a ∈ w.entered.head?) (hx : x ∈ w.entered)
    (hlt : x < a) : ¬ Exact (w.step (.sigreturn r)) := by
  obtain ⟨done, hdone⟩ := Option.isSome_iff_exists.mp hdone
  obtain ⟨rest, hent⟩ : ∃ rest, w.entered = a :: rest := List.head?_eq_some_iff.mp ha
  have hmem : a ∈ w.entered := by rw [hent]; exact List.mem_cons_self
  obtain ⟨halo, hahi⟩ := h.range a hmem
  have hxr := h.range x hx
  have hstep : w.step (.sigreturn r) = { machine := done.2, entered := rest } := by
    change (if w.machine.task.dead.isSome = true then w else _) = _
    rw [hdead, if_neg (by decide), sysSigreturn_some hdone, hdone, hent]
    rfl
  have htask := signalReturn_task hdone
  have hstill : hasBit done.2.task.running a = true := by
    rw [htask, handlerReturned_running halo hahi]
    exact ⟨(h.mask a halo hahi).mpr hmem, x, hxr.1, hlt, (h.mask x hxr.1 hxr.2).mpr hx⟩
  have hout : a ∉ rest := by
    have hnodup := h.nodup
    rw [hent] at hnodup
    exact (List.nodup_cons.mp hnodup).1
  have hkill : a ≠ SIGKILL := by
    rintro rfl
    exact h.spared hmem
  -- the handler asks for its signal again, and the program makes room
  let es : List (Event mask) :=
    [.disposition a USER_SPACE_BASE USER_SPACE_BASE, .run done.2.mem (fun _ => true) done.2.fpu]
  let m : Machine mask :=
    { done.2 with
      task := (signalDisposition a USER_SPACE_BASE USER_SPACE_BASE done.2.task).2
      page := fun _ => true }
  have hrun : ((w.step (.sigreturn r)).run es).machine = m := by
    rw [hstep]
    rfl
  have hset := signalDisposition_set halo hahi hkill done.2.task
  intro hexact
  have hagain := hexact.again es (by simp [es, Event.Quiet]) a halo hahi (by rw [hstep]; exact hout)
  rw [hrun] at hagain
  have hlive : m.task.dead = none := by
    change (signalDisposition a USER_SPACE_BASE USER_SPACE_BASE done.2.task).2.dead = none
    rw [hset, htask]
    exact (handlerReturned_dead _).trans hdead
  have hhandler : SIG_IGN < m.task.handler a := by
    change SIG_IGN < (signalDisposition a USER_SPACE_BASE USER_SPACE_BASE done.2.task).2.handler a
    rw [hset]
    dsimp only
    rw [if_pos rfl]
    decide
  have hclear := (started_arrived hlive halo hahi hhandler roomyFrame_roomy).mp (hagain hlive hhandler _ roomyFrame_roomy)
  have hrunning : m.task.running = done.2.task.running := (signalDisposition_kept _ _ _ _).1
  rw [hrunning, hstill] at hclear
  cases hclear

theorem Tracks.lowest {e : Event mask} (h : Tracks w) (hexact : Exact (w.step e)) : LowestReturns w e := by
  cases e with
  | sigreturn r =>
    intro hdead hdone a ha x hx
    by_contra hlt
    exact h.astray hdead hdone ha hx (by omega) hexact
  | _ => trivial

end Astray

/-! ## Every run -/

theorem start_tracks (m : Machine mask) : Tracks (World.start m) where
  mask := by
    intro sig _ _
    change hasBit 0#32 sig = true ↔ sig ∈ []
    rw [hasBit_empty]
    simp
  range := by
    intro sig hsig
    cases hsig
  nodup := .nil
  kill := rfl
  spared := by
    intro hsig
    cases hsig

section Runs

variable {m : Machine mask} {es : List (Event mask)}

theorem tracks_of_lowest (h : ∀ pre e, pre ++ [e] <+: es → LowestReturns ((World.start m).run pre) e) :
    ∀ pre, pre <+: es → Tracks ((World.start m).run pre) := by
  intro pre hpre
  induction pre using List.reverseRecOn with
  | nil => exact start_tracks m
  | append_singleton pre e ih =>
    rw [World.run_snoc]
    exact (ih ((List.prefix_append _ _).trans hpre)).step (h pre e hpre)

theorem tracks_of_exact (h : ∀ pre, pre <+: es → Exact ((World.start m).run pre)) :
    ∀ pre, pre <+: es → Tracks ((World.start m).run pre) := by
  intro pre hpre
  induction pre using List.reverseRecOn with
  | nil => exact start_tracks m
  | append_singleton pre e ih =>
    have hexact := h _ hpre
    rw [World.run_snoc] at hexact ⊢
    have htracks := ih ((List.prefix_append _ _).trans hpre)
    exact htracks.step (htracks.lowest hexact)

end Runs

/-- In the states of a run no signal is delivered on top of itself, and none is held back, exactly when
every handler that returns is the lowest of those that run. -/
theorem signals_nest (m : Machine mask) (es : List (Event mask)) :
    (∀ pre, pre <+: es → Exact ((World.start m).run pre)) ↔
      ∀ pre e, pre ++ [e] <+: es → LowestReturns ((World.start m).run pre) e := by
  constructor
  · intro h pre e he
    have hexact := h _ he
    rw [World.run_snoc] at hexact
    exact (tracks_of_exact h pre ((List.prefix_append _ _).trans he)).lowest hexact
  · intro h pre hpre
    exact (tracks_of_lowest h pre hpre).exact

/-! ## SIGTERM on top of SIGINT -/

def sampleMachine : Machine 0xFFBF where
  task := ⟨none, 0, 0, fun _ => SIG_DFL, 0⟩
  mem := fun _ => 0
  page := fun _ => true
  fpu := fpuRestore 0xFFBF fpuBlank fpuBlank_length

/-- The frame a handler entered through another frame returns through. -/
def backFrom (r : Registers) : Registers := { r with rsp := imagePlace r }

/-- The frame SIGINT's handler starts with, which SIGTERM interrupts. -/
def sampleInner : Registers := { roomyFrame with rsp := imagePlace roomyFrame - 8 }

/-- SIGINT arrives, and SIGTERM inside its handler; SIGTERM's handler returns and SIGINT arrives again. -/
def sampleEvents : List (Event 0xFFBF) :=
  [.disposition 2 USER_SPACE_BASE USER_SPACE_BASE, .disposition 15 USER_SPACE_BASE USER_SPACE_BASE,
    .send 2, .deliver roomyFrame, .send 15, .deliver sampleInner, .sigreturn (backFrom sampleInner), .send 2]

/-- SIGINT's handler is entered while it runs. -/
theorem sampleEvents_reenter :
    started sampleInner ((World.start sampleMachine).run sampleEvents).machine = some 2 ∧
      2 ∈ ((World.start sampleMachine).run sampleEvents).entered ∧
      ¬ Exact ((World.start sampleMachine).run sampleEvents) := by
  have hin : 2 ∈ ((World.start sampleMachine).run sampleEvents).entered := by decide +kernel
  have hstarted : started sampleInner ((World.start sampleMachine).run sampleEvents).machine = some 2 := by
    decide +kernel
  exact ⟨hstarted, hin, fun h => h.now hstarted hin⟩

end Zelr.Signals
