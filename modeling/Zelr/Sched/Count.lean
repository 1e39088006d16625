import Zelr.Sched.Ring

/-!
# The count of blocked tasks

A task leaves the blocked state when it is woken, when its deadline passes, and when it is ended. Only
the first takes it off the count.
-/

namespace Zelr.Sched

variable {f : Task → Task} {channel : Addr} {only_one : Bool} {now : Nat}

def Exact (s : State) : Prop := s.blocked = s.blockedTasks

def Off (d : Nat) (s : State) : Prop := s.blocked = s.blockedTasks + d

/-! ## Leaving the count behind -/

def EndsBlocked (s : State) (pid : Nat) (released : Nat → List Addr) : Prop :=
  ∃ t ∈ ((released pid).foldl (wake · · false) s).taskByPid pid, t.state = .blocked

def TakesBlocked (released : Nat → List Addr) : State → List Addr → Prop
  | _, [] => False
  | s, a :: as =>
    (∃ t ∈ s.find a, t.state ≠ .dead ∧ (List.range SIG_MAX).any t.sigPending = true ∧ t.live ≠ [] ∧
      EndsBlocked (s.update a Task.acted) t.pid released) ∨
      TakesBlocked released (takePending released s a) as

def Task.Due (now : Nat) (t : Task) : Prop := t.state = .blocked ∧ t.wakeAt ≠ 0 ∧ now ≥ t.wakeAt

instance (now : Nat) (t : Task) : Decidable (t.Due now) := by
  unfold Task.Due
  infer_instance

/-- Whom the lap of `pick_next` comes by. -/
def seen (s : State) (me : Cpu) (work : Bool) : List Addr :=
  if me.val ≠ 0 ∧ work ∧ s.idle me ≠ none then [] else (walk s me (lap s me)).1

def PassesDue (s : State) (me : Cpu) (work : Bool) : Prop :=
  ∃ t ∈ s.ring, t.addr ∈ seen s me work ∧ t.Due s.ticks

/-- A task is ended while it is blocked, or the scheduler comes by one whose deadline has passed. -/
def Lapses (s : State) : Action → Prop
  | .signalDeliver c sig there released => there = false ∧ ∃ m ∈ acting s c,
      EndsBlocked (s.update m.addr fun m =>
        { m with sigPending := Function.update m.sigPending sig false }) m.pid released
  | .sysKill _ pid released => EndsBlocked s pid released
  | .switch c work released => s.started = true ∧ s.ring ≠ [] ∧
      (TakesBlocked released s ((s.ring.take 4096).map (·.addr)) ∨
        PassesDue (putDown (signalTakePending s released) c) c work)
  | _ => False

/-! ## Counting -/

def Task.weight (t : Task) : Nat := if t.state = .blocked then 1 else 0

variable {t : Task} {d : Nat} {s : State} {a b : Addr} {released : Nat → List Addr} {me : Cpu}

theorem weight_of (h : t.state ≠ .blocked) : t.weight = 0 := if_neg h

theorem countP_cons_weight (t : Task) (ts : List Task) :
    (t :: ts).countP (·.state = .blocked) = ts.countP (·.state = .blocked) + t.weight := by
  rw [List.countP_cons]
  simp [Task.weight]

theorem blockedTasks_update_of {s : State} {a : Addr} {f : Task → Task}
    (hf : ∀ t, t.addr = a → (f t).weight = t.weight) :
    (s.update a f).blockedTasks = s.blockedTasks := by
  unfold State.blockedTasks State.update
  dsimp only
  induction s.ring with
  | nil => rfl
  | cons t ts ih =>
    rw [List.map_cons, countP_cons_weight, countP_cons_weight, ih]
    split
    next h => rw [hf t h]
    next => rfl

theorem blockedTasks_update {s : State} {a : Addr} {f : Task → Task} {t : Task}
    (hs : s.addrs.Nodup) (ht : s.find a = some t) :
    (s.update a f).blockedTasks + t.weight = s.blockedTasks + (f t).weight := by
  unfold State.addrs at hs
  unfold State.find at ht
  unfold State.blockedTasks State.update
  dsimp only
  generalize s.ring = ts at hs ht ⊢
  induction ts with
  | nil => cases ht
  | cons x ts ih =>
    rw [List.map_cons, List.nodup_cons] at hs
    rw [List.map_cons, countP_cons_weight, countP_cons_weight]
    rw [List.find?_cons] at ht
    by_cases hx : x.addr = a
    · simp only [hx, decide_true] at ht
      obtain rfl := Option.some.inj ht
      have hrest : ts.map (fun t => if t.addr = a then f t else t) = ts := by
        conv_rhs => rw [← List.map_id ts]
        apply List.map_congr_left
        intro y hy
        rw [if_neg]
        · rfl
        · intro hya
          rw [hx, ← hya] at hs
          exact hs.1 (List.mem_map_of_mem hy)
      rw [if_pos hx, hrest]
      omega
    · simp only [hx, decide_false] at ht
      rw [if_neg hx]
      have hrest := ih hs.2 ht
      omega

theorem wakeRing_count (channel : Addr) (only_one : Bool) (ts : List Task) :
    (wakeRing channel only_one ts).1.countP (·.state = .blocked) + (wakeRing channel only_one ts).2 =
      ts.countP (·.state = .blocked) := by
  induction ts with
  | nil => rfl
  | cons t ts ih =>
    have hwoken : t.woken.weight = 0 := rfl
    rw [wakeRing]
    split
    next h =>
      have hblocked : t.weight = 1 := if_pos h.1
      split
      · dsimp only
        rw [countP_cons_weight, countP_cons_weight, hwoken, hblocked]
      · dsimp only
        rw [countP_cons_weight, countP_cons_weight, hwoken, hblocked]
        omega
    next =>
      dsimp only
      rw [countP_cons_weight, countP_cons_weight]
      omega

theorem Off.wake (h : Off d s) (channel : Addr) (only_one : Bool) :
    Off d (wake s channel only_one) := by
  unfold Sched.wake
  split
  · exact h
  · have hcount := wakeRing_count channel only_one s.ring
    unfold Off State.blockedTasks at h ⊢
    dsimp only
    omega

theorem Off.wakeAll (h : Off d s) (cs : List Addr) :
    Off d (cs.foldl (Sched.wake · · false) s) := by
  induction cs generalizing s with
  | nil => exact h
  | cons c cs ih => exact ih (h.wake c false)

theorem Off.update (h : Off d s)
    (hf : ∀ t, t.addr = a → (f t).weight = t.weight) : Off d (s.update a f) := by
  have hcount := @blockedTasks_update_of s a f hf
  unfold Off at h ⊢
  rw [hcount]
  exact h

theorem wake_blocked
    (h : t ∈ (wake s channel only_one).ring) (hb : t.state = .blocked) : t ∈ s.ring := by
  have hring : ∀ ts : List Task, t ∈ (wakeRing channel only_one ts).1 → t ∈ ts := by
    intro ts
    induction ts with
    | nil => exact id
    | cons x ts ih =>
      intro h
      have hx : t ≠ x.woken := by
        rintro rfl
        cases hb
      rw [wakeRing] at h
      split at h
      · split at h
        · exact List.mem_cons_of_mem x ((List.mem_cons.mp h).resolve_left hx)
        · exact List.mem_cons_of_mem x (ih ((List.mem_cons.mp h).resolve_left hx))
      · obtain rfl | h := List.mem_cons.mp h
        · exact List.mem_cons_self
        · exact List.mem_cons_of_mem x (ih h)
  unfold wake at h
  split at h
  · exact h
  · exact hring s.ring h

theorem wakeAll_blocked {cs : List Addr} {s : State} {t : Task}
    (h : t ∈ (cs.foldl (wake · · false) s).ring) (hb : t.state = .blocked) : t ∈ s.ring := by
  induction cs generalizing s with
  | nil => exact h
  | cons c cs ih => exact wake_blocked (ih h) hb

theorem Off.ended (h : Off d s) (hs : s.addrs.Nodup) (pid : Nat) (status : Int)
    (released : Nat → List Addr) :
    ∃ e, Off (d + e) (signalEndTask s pid status released) ∧
      (e = 0 ↔ ¬ EndsBlocked s pid released) := by
  have hkeys := wakeAll_keys (released pid) s
  have hoff := h.wakeAll (released pid)
  have hblocked := @wakeAll_blocked (released pid) s
  have hpid := State.taskByPid_key hkeys pid
  unfold signalEndTask EndsBlocked
  generalize (released pid).foldl (Sched.wake · · false) s = w at hkeys hoff hblocked hpid ⊢
  have hw : w.addrs.Nodup := by
    rw [State.addrs_of_keys hkeys]
    exact hs
  cases ht : s.taskByPid pid with
  | none =>
    rw [ht, Option.map_none, Option.map_eq_none_iff] at hpid
    refine ⟨0, h, ?_⟩
    simp [hpid]
  | some t =>
    rw [ht, Option.map_some, Option.map_eq_some_iff] at hpid
    obtain ⟨t', ht', hkey⟩ := hpid
    have haddr : t'.addr = t.addr := congrArg Key.addr hkey
    have hmem : t ∈ s.ring := List.mem_of_find?_eq_some ht
    have hmem' : t' ∈ w.ring := List.mem_of_find?_eq_some ht'
    dsimp only
    rw [ht']
    split
    next hdead =>
      refine ⟨0, h, ?_⟩
      have hnot : t'.state ≠ .blocked := by
        intro hb
        have hold := State.find_of_mem hs (hblocked hmem' hb)
        rw [haddr, State.find_of_mem hs hmem] at hold
        obtain rfl := Option.some.inj hold
        rw [hdead] at hb
        cases hb
      simp [hnot]
    next =>
      have hfind := State.find_of_mem hw hmem'
      rw [haddr] at hfind
      have hcount := @blockedTasks_update w t.addr
        (fun t => { t with exitStatus := status, diedAt := w.ticks, state := .dead }) t' hw hfind
      rw [weight_of (t := { t' with exitStatus := status, diedAt := w.ticks, state := .dead })
        (by simp)] at hcount
      refine ⟨t'.weight, Off.wake ?_ _ _, ?_⟩
      · unfold Off at hoff ⊢
        have hsame : (w.update t.addr fun t =>
            { t with exitStatus := status, diedAt := w.ticks, state := .dead }).blocked = w.blocked := rfl
        rw [hsame]
        omega
      · simp [Task.weight]

theorem Off.took (h : Off d s) (hs : s.addrs.Nodup) (released : Nat → List Addr)
    (as : List Addr) :
    ∃ e, Off (d + e) (as.foldl (takePending released) s) ∧
      (e = 0 ↔ ¬ TakesBlocked released s as) := by
  induction as generalizing s d with
  | nil => exact ⟨0, h, by simp [TakesBlocked]⟩
  | cons a as ih =>
    have hs' : (takePending released s a).addrs.Nodup := by
      rw [State.addrs_of_keys (takePending_keys released s a)]
      exact hs
    -- What acting on the signals of this one does.
    have hone : ∃ e, Off (d + e) (takePending released s a) ∧ (e = 0 ↔ ¬ ∃ t ∈ s.find a,
        t.state ≠ .dead ∧ (List.range SIG_MAX).any t.sigPending = true ∧ t.live ≠ [] ∧
          EndsBlocked (s.update a Task.acted) t.pid released) := by
      unfold takePending
      cases ht : s.find a with
      | none => exact ⟨0, h, by simp⟩
      | some t =>
        have hacted : Off d (s.update a Task.acted) := h.update fun _ _ => rfl
        have hnodup : (s.update a Task.acted).addrs.Nodup := by
          rw [@State.update_addrs s a Task.acted fun _ => rfl]
          exact hs
        dsimp only
        split
        next hpending =>
          cases hlive : t.live with
          | nil => exact ⟨0, hacted, by simp [hlive]⟩
          | cons sig _ =>
            obtain ⟨e, he, hiff⟩ := hacted.ended hnodup t.pid (128 + sig) released
            refine ⟨e, he, hiff.trans (not_congr ?_)⟩
            constructor
            · intro hends
              exact ⟨t, rfl, hpending.1, hpending.2, by rw [hlive]; exact List.cons_ne_nil _ _, hends⟩
            · rintro ⟨x, hx, -, -, -, hends⟩
              obtain rfl := Option.some.inj hx
              exact hends
        next hquiet =>
          refine ⟨0, h, ?_⟩
          simp only [Option.mem_some_iff, exists_eq_left', true_iff]
          rintro ⟨hdead, hany, -, -⟩
          exact hquiet ⟨hdead, hany⟩
    obtain ⟨e, he, hiff⟩ := hone
    obtain ⟨e', he', hiff'⟩ := ih he hs'
    refine ⟨e + e', ?_, ?_⟩
    · rw [← add_assoc]
      exact he'
    · rw [TakesBlocked, not_or, ← hiff, ← hiff']
      omega

theorem released_weight (now : Nat) (t : Task) :
    (t.released now).weight + (if t.Due now then 1 else 0) = t.weight := by
  unfold Task.released
  by_cases hsleep : t.state = .sleeping ∧ now ≥ t.wakeAt
  · have hdue : ¬ t.Due now := by
      rintro ⟨hb, -⟩
      rw [hsleep.1] at hb
      cases hb
    rw [if_pos hsleep, if_neg hdue, weight_of (by simp), weight_of (by rw [hsleep.1]; simp)]
  · rw [if_neg hsleep]
    by_cases hdue : t.Due now
    · have hblocked : t.weight = 1 := if_pos hdue.1
      have hcond : t.state = .blocked ∧ t.wakeAt ≠ 0 ∧ now ≥ t.wakeAt := hdue
      rw [if_pos hcond, if_pos hdue, hblocked]
      rfl
    · have hcond : ¬ (t.state = .blocked ∧ t.wakeAt ≠ 0 ∧ now ≥ t.wakeAt) := hdue
      rw [if_neg hcond, if_neg hdue, add_zero]

theorem visited_count (now : Nat) (visited : List Addr) (ts : List Task) :
    (ts.map fun t => if t.addr ∈ visited then t.released now else t).countP (·.state = .blocked) +
      ts.countP (fun t => decide (t.addr ∈ visited ∧ t.Due now)) =
      ts.countP (·.state = .blocked) := by
  induction ts with
  | nil => rfl
  | cons t ts ih =>
    rw [List.map_cons, countP_cons_weight, countP_cons_weight, List.countP_cons]
    by_cases hin : t.addr ∈ visited
    · have hweight := released_weight now t
      simp only [hin, if_true, true_and, decide_eq_true_eq]
      omega
    · simp only [hin, if_false, false_and, decide_false, Bool.false_eq_true]
      omega

theorem Off.picked (h : Off d s) (me : Cpu) (work : Bool) :
    ∃ e, Off (d + e) (pickNext s me work).1 ∧ (e = 0 ↔ ¬ PassesDue s me work) := by
  unfold pickNext PassesDue seen
  split
  · exact ⟨0, h, by simp⟩
  · dsimp only
    have hcount := visited_count s.ticks (walk s me (lap s me)).1 s.ring
    refine ⟨s.ring.countP fun t =>
      decide (t.addr ∈ (walk s me (lap s me)).1 ∧ t.Due s.ticks), ?_, ?_⟩
    · unfold Off State.blockedTasks at h
      split
      · unfold Off State.blockedTasks
        dsimp only
        omega
      · unfold Off State.blockedTasks
        dsimp only
        omega
    · rw [List.countP_eq_zero]
      simp

def BlockedAt (s : State) (a : Addr) : Prop := ∃ t ∈ s.ring, t.addr = a ∧ t.state = .blocked

structure Wf (s : State) : Prop where
  nodup : s.addrs.Nodup
  short : s.ring.length < 2 ^ 32
  idle_awake : ∀ a, s.isIdle a → ¬ BlockedAt s a
  idle_boot : s.started = true → s.idle boot ≠ none

theorem BlockedAt.of_update (h : BlockedAt (s.update a f) b)
    (haddr : ∀ t, (f t).addr = t.addr) (hf : ∀ t, (f t).state = .blocked → t.state = .blocked) :
    BlockedAt s b := by
  obtain ⟨t, hmem, rfl, hb⟩ := h
  obtain ⟨x, hx, rfl⟩ := List.mem_map.mp hmem
  refine ⟨x, hx, ?_, ?_⟩
  · split
    · exact (haddr x).symm
    · rfl
  · split at hb
    · exact hf x hb
    · exact hb

theorem BlockedAt.of_wake
    (h : BlockedAt (Sched.wake s channel only_one) a) : BlockedAt s a := by
  obtain ⟨t, hmem, haddr, hb⟩ := h
  exact ⟨t, wake_blocked hmem hb, haddr, hb⟩

theorem BlockedAt.of_wakeAll {cs : List Addr}
    (h : BlockedAt (cs.foldl (Sched.wake · · false) s) a) : BlockedAt s a := by
  obtain ⟨t, hmem, haddr, hb⟩ := h
  exact ⟨t, wakeAll_blocked hmem hb, haddr, hb⟩

theorem BlockedAt.of_end {pid : Nat} {status : Int}
    (h : BlockedAt (signalEndTask s pid status released) a) : BlockedAt s a := by
  unfold signalEndTask at h
  split at h
  · exact h
  · split at h
    · exact h
    · refine BlockedAt.of_wakeAll (h.of_wake.of_update ?_ ?_)
      · intro t
        rfl
      · intro t hb
        cases hb

theorem BlockedAt.of_takePending
    (h : BlockedAt (takePending released s a) b) : BlockedAt s b := by
  unfold takePending at h
  split at h
  · exact h
  · split at h
    · dsimp only at h
      split at h
      · exact h.of_update (fun _ => rfl) fun _ => id
      · exact h.of_end.of_update (fun _ => rfl) fun _ => id
    · exact h

theorem BlockedAt.of_take {as : List Addr}
    (h : BlockedAt (as.foldl (takePending released) s) b) : BlockedAt s b := by
  induction as generalizing s with
  | nil => exact h
  | cons a as ih => exact (ih h).of_takePending

theorem BlockedAt.of_putDown (h : BlockedAt (putDown s me) a) :
    BlockedAt s a := by
  unfold putDown at h
  split at h
  · exact h
  · refine h.of_update (fun _ => rfl) fun t hb => ?_
    dsimp only at hb
    split at hb
    · cases hb
    · exact hb

theorem released_blocked (h : (t.released now).state = .blocked) :
    t.released now = t := by
  unfold Task.released at h ⊢
  split
  next hsleep =>
    rw [if_pos hsleep] at h
    cases h
  next hsleep =>
    rw [if_neg hsleep] at h
    split
    next hdue =>
      rw [if_pos hdue] at h
      cases h
    next => rfl

theorem BlockedAt.of_visited {visited : List Addr}
    (h : ∃ t ∈ s.ring.map fun t => if t.addr ∈ visited then t.released now else t,
      t.addr = a ∧ t.state = .blocked) : BlockedAt s a := by
  obtain ⟨t, hmem, haddr, hb⟩ := h
  obtain ⟨x, hx, rfl⟩ := List.mem_map.mp hmem
  split at haddr
  next hin =>
    rw [if_pos hin] at hb
    rw [released_blocked hb] at haddr hb
    exact ⟨x, hx, haddr, hb⟩
  next hin =>
    rw [if_neg hin] at hb
    exact ⟨x, hx, haddr, hb⟩

theorem walk_found {ts : List Task} (h : (walk s me ts).2 = some a) :
    a ∈ (walk s me ts).1 ∧ ∃ t ∈ ts, t.addr = a ∧ mayRun s me (t.released s.ticks) := by
  induction ts with
  | nil => cases h
  | cons t ts ih =>
    rw [walk] at h ⊢
    split at h
    next hmay =>
      obtain rfl := Option.some.inj h
      rw [if_pos hmay]
      exact ⟨List.mem_cons_self, t, List.mem_cons_self, rfl, hmay⟩
    next hmay =>
      rw [if_neg hmay]
      obtain ⟨hin, x, hx, haddr, hrun⟩ := ih h
      exact ⟨List.mem_cons_of_mem _ hin, x, List.mem_cons_of_mem _ hx, haddr, hrun⟩

theorem lap_subset (h : t ∈ lap s me) : t ∈ s.ring := by
  unfold lap at h
  split at h
  · rw [lapFrom, List.mem_append, List.mem_append] at h
    obtain (h | h) | h := h
    · exact (List.dropWhile_suffix _).subset (List.mem_of_mem_tail h)
    · exact (List.takeWhile_prefix _).subset h
    · exact (List.dropWhile_suffix _).subset (List.mem_of_mem_take h)
  · exact h

theorem pick_awake {s' : State} {work : Bool} (hs : s.addrs.Nodup)
    (hidle : ∀ a, s.isIdle a → ¬ BlockedAt s a) (hme : s.idle me ≠ none)
    (h : pickNext s me work = (s', some a)) : ¬ BlockedAt s' a := by
  unfold pickNext at h
  split at h
  · obtain ⟨rfl, ha⟩ := Prod.mk.inj h
    exact hidle a ⟨me, ha⟩
  · dsimp only at h
    split at h
    next b hfound =>
      obtain ⟨rfl, ha⟩ := Prod.mk.inj h
      obtain rfl := Option.some.inj ha
      obtain ⟨hin, t, ht, haddr, hrun⟩ := walk_found hfound
      rintro ⟨x, hx, hxa, hb⟩
      obtain ⟨y, hy, rfl⟩ := List.mem_map.mp hx
      have hya : y.addr = b := by
        split at hxa
        · exact (congrArg Key.addr (released_key s.ticks y)).symm.trans hxa
        · exact hxa
      have hsame : t = y := by
        have hfind := State.find_of_mem hs (lap_subset ht)
        rw [haddr, ← hya, State.find_of_mem hs hy] at hfind
        exact (Option.some.inj hfind).symm
      subst hsame
      rw [if_pos (hya.symm ▸ hin)] at hb
      obtain ⟨hready | hready, -⟩ := hrun
      · rw [hready] at hb
        cases hb
      · rw [hready] at hb
        cases hb
    next =>
      obtain ⟨rfl, ha⟩ := Prod.mk.inj h
      intro hblocked
      exact hidle a ⟨me, ha⟩ (BlockedAt.of_visited hblocked)

theorem Off.takenUp (h : Off d s) (ha : ¬ BlockedAt s a) :
    Off d (takeUp s me a) := by
  have hcount : (s.update a fun t => { t with onCpu := some me, state := .running }).blockedTasks =
      s.blockedTasks := by
    unfold State.blockedTasks State.update
    dsimp only
    rw [List.countP_map]
    apply List.countP_congr
    intro t ht
    simp only [Function.comp]
    split
    next hat =>
      have hnot : t.state ≠ .blocked := fun hb => ha ⟨t, ht, hat, hb⟩
      simp [hnot]
    next => rfl
  unfold Off at h ⊢
  exact h.trans (congrArg (· + d) hcount.symm)

theorem Off.collected (h : Off d s) (me : Cpu) : Off d (collect s me) := by
  unfold collect
  split
  · exact h
  next head ts hring =>
    have hperm := (pass_perm s me 4096 true ts).countP_eq (·.state = .blocked)
    have hdead : (pass s me 4096 true ts).2.countP (·.state = .blocked) = 0 := by
      rw [List.countP_eq_zero]
      intro n hn
      obtain ⟨-, hstate, -⟩ := pass_freed hn
      simp [hstate]
    rw [List.countP_append, hdead, add_zero] at hperm
    unfold Off State.blockedTasks at h ⊢
    rw [hring, countP_cons_weight] at h
    dsimp only
    rw [countP_cons_weight, hperm]
    exact h

theorem Off.switched (h : Off d s) (hs : Wf s) {c : Cpu}
    (hc : c = boot ∨ s.idle c ≠ none) (work : Bool) (released : Nat → List Addr) :
    ∃ e, Off (d + e) (schedulerSwitch s c work released) ∧
      (e = 0 ↔ ¬ Lapses s (.switch c work released)) := by
  unfold schedulerSwitch
  split
  next hstop =>
    refine ⟨0, h, ?_⟩
    simp only [Lapses, true_iff]
    rintro ⟨hstarted, hring, -⟩
    obtain hno | hno := hstop
    · rw [hstarted] at hno
      cases hno
    · exact hring hno
  next hgo =>
    rw [not_or, Bool.not_eq_false] at hgo
    obtain ⟨e, he, hiff⟩ := h.took hs.nodup released ((s.ring.take 4096).map (·.addr))
    have hput : Off (d + e) (putDown (signalTakePending s released) c) := by
      unfold putDown
      split
      · exact he
      · refine Off.update he fun t _ => ?_
        unfold Task.weight
        dsimp only
        split <;> simp_all
    obtain ⟨e', he', hiff'⟩ := hput.picked c work
    have hrest : (putDown (signalTakePending s released) c).rest = s.rest :=
      (putDown_rest _ c).trans (signalTakePending_rest s released)
    have hidle : (putDown (signalTakePending s released) c).idle = s.idle :=
      congrArg Rest.idle hrest
    refine ⟨e + e', ?_, ?_⟩
    · rw [← add_assoc]
      dsimp only
      split
      next s' hpick =>
        rw [hpick] at he'
        exact he'
      next s' a hpick =>
        rw [hpick] at he'
        have hkeys : (putDown (signalTakePending s released) c).addrs = s.addrs :=
          (putDown_addrs _ c).trans (State.addrs_of_keys (signalTakePending_keys s released))
        refine (Off.takenUp he' (pick_awake ?_ ?_ ?_ hpick)).collected c
        · rw [hkeys]
          exact hs.nodup
        · intro b hb hblocked
          refine hs.idle_awake b ?_ hblocked.of_putDown.of_take
          obtain ⟨me, hme⟩ := hb
          rw [hidle] at hme
          exact ⟨me, hme⟩
        · rw [hidle]
          obtain rfl | hc := hc
          · exact hs.idle_boot hgo.1
          · exact hc
    · have hlapses : Lapses s (.switch c work released) ↔
          (TakesBlocked released s ((s.ring.take 4096).map (·.addr)) ∨
            PassesDue (putDown (signalTakePending s released) c) c work) := by
        simp [Lapses, hgo.1, hgo.2]
      rw [hlapses, not_or, ← hiff, ← hiff']
      omega

end Zelr.Sched
