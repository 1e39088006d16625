import Zelr.Sched.Count

/-!
# Where the count goes wrong

The first task ended while it is blocked, and the first deadline that passes, leave the count one too
high.
-/

namespace Zelr.Sched

/-! ## Who acts -/

structure Runs (s : State) (c : Cpu) (m : Task) : Prop where
  current : s.current c = some m.addr
  find : s.find m.addr = some m
  not_idle : ¬ s.isIdle m.addr
  not_blocked : m.state ≠ .blocked
  not_sleeping : m.state ≠ .sleeping

variable {c : Cpu} {m : Task} {s s' : State} {a : Addr} {f : Task → Task} {d : Nat}

theorem runs_of_running (h : running s c = some m) : Runs s c m := by
  obtain ⟨a, ha, h⟩ := Option.bind_eq_some_iff.mp h
  obtain ⟨x, hx, h⟩ := Option.bind_eq_some_iff.mp h
  split at h
  · cases h
  next hno =>
    obtain rfl := Option.some.inj h
    obtain ⟨-, rfl⟩ := State.find_mem hx
    rw [not_or, not_or] at hno
    exact ⟨ha, hx, hno.1, hno.2.1, hno.2.2⟩

theorem runs_of_acting (h : acting s c = some m) :
    Runs s c m ∧ m.call = .out := by
  obtain ⟨x, hx, h⟩ := Option.bind_eq_some_iff.mp h
  split at h
  next hout =>
    obtain rfl := Option.some.inj h
    exact ⟨runs_of_running hx, hout⟩
  · cases h

/-! ## What every step keeps -/

section
variable (h : Wf s)
include h

theorem Wf.same (haddrs : s'.addrs = s.addrs) (hrest : s'.rest = s.rest)
    (hblocked : ∀ a, s.isIdle a → BlockedAt s' a → BlockedAt s a) : Wf s' := by
  have hlen : s'.ring.length = s.ring.length := by
    have hlen := congrArg List.length haddrs
    rw [State.addrs, State.addrs, List.length_map, List.length_map] at hlen
    exact hlen
  have hidle : s'.idle = s.idle := congrArg Rest.idle hrest
  have hstarted : s'.started = s.started := congrArg Rest.started hrest
  refine ⟨?_, ?_, ?_, ?_⟩
  · rw [haddrs]
    exact h.nodup
  · rw [hlen]
    exact h.short
  · rintro a ⟨c, hc⟩ hb
    rw [hidle] at hc
    exact h.idle_awake a ⟨c, hc⟩ (hblocked a ⟨c, hc⟩ hb)
  · rw [hidle, hstarted]
    exact h.idle_boot

theorem Wf.update (haddr : ∀ t, (f t).addr = t.addr)
    (hf : ∀ t, (f t).state = .blocked → t.state = .blocked) : Wf (s.update a f) :=
  h.same (State.update_addrs haddr) rfl fun _ _ hb => hb.of_update haddr hf

theorem Wf.update_free
    (haddr : ∀ t, (f t).addr = t.addr) (hf : ∀ t, (f t).state ≠ .blocked) : Wf (s.update a f) :=
  h.update haddr fun t hb => absurd hb (hf t)

theorem Wf.wake (channel : Addr) (only_one : Bool) :
    Wf (Sched.wake s channel only_one) :=
  h.same (State.addrs_of_keys (wake_keys s channel only_one)) (wake_rest s channel only_one)
    fun _ _ hb => hb.of_wake

theorem Wf.ended (pid : Nat) (status : Int) (released : Nat → List Addr) :
    Wf (signalEndTask s pid status released) :=
  h.same (State.addrs_of_keys (signalEndTask_keys s pid status released))
    (signalEndTask_rest s pid status released) fun _ _ hb => hb.of_end

theorem Wf.waitOn {m : Addr} (hm : ¬ s.isIdle m) (channel : Addr)
    (timeoutMs : Nat) : Wf (Sched.waitOn s m channel timeoutMs) := by
  refine h.same (State.update_addrs fun _ => rfl) rfl ?_
  rintro a ha ⟨t, ht, rfl, hb⟩
  obtain ⟨x, hx, rfl⟩ := List.mem_map.mp ht
  by_cases hxm : x.addr = m
  · rw [if_pos hxm] at ha
    exact absurd (hxm ▸ ha) hm
  · rw [if_neg hxm] at hb ⊢
    exact ⟨x, hx, rfl, hb⟩

omit h in
theorem not_mem_addrs (h : s.find a = none) : a ∉ s.addrs := by
  intro hmem
  obtain ⟨t, ht, rfl⟩ := List.mem_map.mp hmem
  have hno := List.find?_eq_none.mp h t ht
  exact hno (by simp)

theorem Wf.inserted {t : Task} (hfits : fits s t.addr) (ht : t.state ≠ .blocked) :
    Wf (ringInsert s t) := by
  obtain ⟨-, hnone, hroom⟩ := hfits
  refine ⟨?_, ?_, ?_, h.idle_boot⟩
  · rw [State.addrs, ringInsert, List.map_append]
    exact List.nodup_append.mpr ⟨h.nodup, by simp, by
      rintro a ha b hb rfl
      obtain rfl := List.mem_singleton.mp hb
      exact not_mem_addrs hnone ha⟩
  · rw [ringInsert, List.length_append]
    exact hroom
  · rintro a ha ⟨x, hx, hxa, hb⟩
    obtain hx | hx := List.mem_append.mp hx
    · exact h.idle_awake a ha ⟨x, hx, hxa, hb⟩
    · obtain rfl := List.mem_singleton.mp hx
      exact ht hb

theorem Wf.started (hfits : fits s a) : Wf (schedStart s a) := by
  have hins := h.inserted (t := { addr := a, gen := 0, pid := 0 }) hfits (by simp)
  refine ⟨hins.nodup, hins.short, ?_, ?_⟩
  · rintro b ⟨c, hc⟩ hb
    rw [schedStart] at hc
    dsimp only at hc
    by_cases hboot : c = boot
    · subst hboot
      rw [Function.update_self] at hc
      obtain rfl := Option.some.inj hc
      obtain ⟨x, hx, hxa, hstate⟩ := hb
      obtain hx | hx := List.mem_append.mp hx
      · exact not_mem_addrs hfits.2.1 (hxa ▸ List.mem_map_of_mem hx)
      · obtain rfl := List.mem_singleton.mp hx
        cases hstate
    · rw [Function.update_of_ne hboot] at hc
      exact hins.idle_awake b ⟨c, hc⟩ hb
  · intro _
    rw [schedStart]
    dsimp only
    rw [Function.update_self]
    exact Option.some_ne_none a

omit h in
theorem adopt_ring_perm (ring : List Task) (t : Task) :
    List.Perm (match ring with
      | [] => [t]
      | h :: ts => h :: t :: ts) (t :: ring) := by
  cases ring with
  | nil => exact List.Perm.refl _
  | cons h ts => exact List.Perm.swap t h ts

theorem Wf.adopted (hc : c ≠ boot) (hfits : fits s a) :
    Wf (schedAdoptAp s c a) := by
  unfold schedAdoptAp
  split
  · exact h
  · dsimp only
    have hperm := adopt_ring_perm s.ring
      { addr := a, gen := s.born, pid := s.nextPid, state := .running, onCpu := some c }
    obtain ⟨-, hnone, hroom⟩ := hfits
    refine ⟨?_, ?_, ?_, ?_⟩
    · refine (hperm.map (·.addr)).nodup_iff.mpr ?_
      rw [List.map_cons, List.nodup_cons]
      exact ⟨not_mem_addrs hnone, h.nodup⟩
    · exact lt_of_eq_of_lt hperm.length_eq hroom
    · rintro b ⟨c', hc'⟩ ⟨x, hx, hxa, hb⟩
      obtain rfl | hold := List.mem_cons.mp (hperm.mem_iff.mp hx)
      · cases hb
      · dsimp only at hc'
        by_cases hcc : c' = c
        · subst hcc
          rw [Function.update_self] at hc'
          obtain rfl := Option.some.inj hc'
          exact not_mem_addrs hnone (hxa ▸ List.mem_map_of_mem hold)
        · rw [Function.update_of_ne hcc] at hc'
          exact h.idle_awake b ⟨c', hc'⟩ ⟨x, hold, hxa, hb⟩
    · intro hstarted
      dsimp only
      rw [Function.update_of_ne (Ne.symm hc)]
      exact h.idle_boot hstarted

theorem Wf.collected (me : Cpu) : Wf (collect s me) := by
  unfold collect
  split
  · exact h
  next head ts hring =>
    have hsub : (head :: (pass s me 4096 true ts).1).Sublist s.ring := by
      rw [hring]
      exact (pass_sublist s me 4096 true ts).cons_cons head
    refine ⟨?_, ?_, ?_, h.idle_boot⟩
    · exact (hsub.map Task.addr).nodup h.nodup
    · exact Nat.lt_of_le_of_lt hsub.length_le h.short
    · rintro a ha ⟨x, hx, hxa, hb⟩
      exact h.idle_awake a ha ⟨x, hsub.subset hx, hxa, hb⟩

theorem Wf.putDown (me : Cpu) : Wf (Sched.putDown s me) :=
  h.same (putDown_addrs s me) (putDown_rest s me) fun _ _ hb => hb.of_putDown

theorem Wf.picked {me : Cpu} {work : Bool} {r : Option Addr}
    (hpick : pickNext s me work = (s', r)) : Wf s' := by
  have hkeys := pickNext_keys s me work
  rw [hpick] at hkeys
  refine h.same (State.addrs_of_keys hkeys) (pickNext_rest hpick) ?_
  intro a _ hb
  unfold pickNext at hpick
  split at hpick
  · obtain ⟨rfl, -⟩ := Prod.mk.inj hpick
    exact hb
  · dsimp only at hpick
    split at hpick
    · obtain ⟨rfl, -⟩ := Prod.mk.inj hpick
      exact BlockedAt.of_visited hb
    · obtain ⟨rfl, -⟩ := Prod.mk.inj hpick
      exact BlockedAt.of_visited hb

theorem Wf.takenUp (me : Cpu) (a : Addr) : Wf (takeUp s me a) := by
  have hup := h.update_free (a := a) (f := fun t => { t with onCpu := some me, state := .running })
    (fun _ => rfl) fun _ => by simp
  exact ⟨hup.nodup, hup.short, hup.idle_awake, hup.idle_boot⟩

theorem Wf.switched (me : Cpu) (work : Bool) (released : Nat → List Addr) :
    Wf (schedulerSwitch s me work released) := by
  unfold schedulerSwitch
  split
  · exact h
  · have htake : Wf (signalTakePending s released) :=
      h.same (State.addrs_of_keys (signalTakePending_keys s released))
        (signalTakePending_rest s released) fun _ _ hb => hb.of_take
    dsimp only
    split
    next s' hpick => exact (htake.putDown me).picked hpick
    next s' a hpick => exact (((htake.putDown me).picked hpick).takenUp me a).collected me

theorem Wf.atCall (a : Addr) (c : Call) : Wf (s.atCall a c) :=
  h.update (fun _ => rfl) fun _ => id

end

theorem Wf.goOn (h : Wf s) (hm : Runs s c m) (hgo : GoesOn s m s') : Wf s' := by
  have hup : Wf (s.update m.addr fun m => { m with waitOn := 0 }) := h.update (fun _ => rfl) fun _ => id
  cases hgo with
  | dead | alive => exact h.atCall m.addr _
  | block => exact (h.waitOn hm.not_idle _ 1000).atCall m.addr _
  | woken | gone | late => exact hup.atCall m.addr _
  | take => exact (h.update (f := fun r => { r with reaped := true }) (fun _ => rfl) fun _ => id).atCall m.addr _

theorem Wf.step {a : Action} (h : Wf s) (hstep : step s a = some s') : Wf s' := by
  cases step_cases hstep with
  | tick => exact ⟨h.nodup, h.short, h.idle_awake, h.idle_boot⟩
  | wake channel only_one => exact h.wake channel only_one
  | waitOn hm => exact h.waitOn (runs_of_acting hm).1.not_idle _ _
  | waited hm => exact h.update (fun _ => rfl) fun _ => id
  | taskSleep hm => exact h.update_free (fun _ => rfl) fun _ => by simp
  | @taskExit _ m status hm =>
    have hdead : Wf (s.update m.addr fun t =>
        { t with exitStatus := status, diedAt := s.ticks, state := .dead }) :=
      h.update_free (fun _ => rfl) fun _ => by simp
    exact hdead.wake m.addr false
  | taskCreate hfits => exact h.inserted hfits (by simp)
  | taskFork hm hfits => exact h.inserted hfits (by simp)
  | schedStart _ hfits => exact h.started hfits
  | schedAdoptAp hc hfits => exact h.adopted hc hfits
  | signalSend pid sig =>
    unfold signalSend
    split
    · exact h
    · split
      · exact h
      · exact h.update (fun _ => rfl) fun _ => id
  | signalDisposition hm =>
    unfold signalDisposition
    split
    · exact h
    · split
      · exact h
      · exact h.update (fun _ => rfl) fun _ => id
  | delivered hm => exact h.update (fun _ => rfl) fun _ => id
  | @ended _ m sig released hm =>
    exact (h.update (f := fun m =>
      { m with sigPending := Function.update m.sigPending sig false }) (fun _ => rfl) fun _ => id).ended
        m.pid _ released
  | sysKill hm => exact h.ended _ (-1) _
  | switch hc => exact h.switched _ _ _
  | @taskWait _ m pid hm =>
    unfold taskWait
    split
    · exact h
    · exact h.atCall m.addr _
  | goOn hm hgo => exact h.goOn (runs_of_running hm) hgo

theorem wf_init (ticks : Nat) : Wf (schedInit ticks) := by
  refine ⟨List.nodup_nil, Nat.two_pow_pos 32, ?_, ?_⟩
  · rintro a ⟨c, hc⟩
    cases hc
  · intro h
    cases h

/-! ## The count -/

theorem Off.stored (h : Off d s) (hs : Wf s)
    (hm : s.find m.addr = some m) (hb : m.state ≠ .blocked)
    (hf : (f m).state ≠ .blocked) : Off d (s.update m.addr f) := by
  have hcount := @blockedTasks_update s m.addr f m hs.nodup hm
  rw [weight_of hb, weight_of hf] at hcount
  exact h.trans (congrArg (· + d) hcount.symm)

theorem exact_waitOn (h : Off 0 s) (hs : Wf s) (hm : s.find m.addr = some m)
    (hb : m.state ≠ .blocked) (channel : Addr) (timeoutMs : Nat) :
    Off 0 (waitOn s m.addr channel timeoutMs) := by
  have hcount := @blockedTasks_update s m.addr (fun t =>
    { t with
      waitOn := channel
      wakeAt := if timeoutMs ≠ 0 then s.ticks + timeoutMs * HZ % 2 ^ 32 / 1000 + 1 else 0
      state := .blocked }) m hs.nodup hm
  rw [weight_of hb] at hcount
  have hone : ∀ w i, Task.weight { m with waitOn := w, wakeAt := i, state := .blocked } = 1 := by
    intro w i
    rfl
  rw [hone] at hcount
  have hle : (waitOn s m.addr channel timeoutMs).blockedTasks ≤ s.ring.length := by
    refine Nat.le_trans List.countP_le_length ?_
    exact Nat.le_of_eq (List.length_map _)
  have hroom := hs.short
  have hsame : (waitOn s m.addr channel timeoutMs).blockedTasks = s.blockedTasks + 1 := hcount
  unfold Off at h ⊢
  rw [hsame] at hle ⊢
  rw [waitOn]
  dsimp only
  rw [h, add_zero, Nat.mod_eq_of_lt (by omega), add_zero]

theorem Off.inserted (h : Off d s) {t : Task} (ht : t.state ≠ .blocked) :
    Off d (ringInsert s t) := by
  have hcount : (ringInsert s t).blockedTasks = s.blockedTasks := by
    rw [State.blockedTasks, ringInsert, List.countP_append]
    simp [State.blockedTasks, ht]
  exact h.trans (congrArg (· + d) hcount.symm)

theorem Off.adopted (h : Off d s) (c : Cpu) (a : Addr) :
    Off d (schedAdoptAp s c a) := by
  unfold schedAdoptAp
  split
  · exact h
  · dsimp only
    have hperm := adopt_ring_perm s.ring
      { addr := a, gen := s.born, pid := s.nextPid, state := .running, onCpu := some c }
    have hcount := hperm.countP_eq (·.state = .blocked)
    rw [countP_cons_weight] at hcount
    exact h.trans (congrArg (· + d) hcount.symm)

theorem Off.atCall (h : Off d s) (a : Addr) (c : Call) : Off d (s.atCall a c) :=
  h.update fun _ _ => rfl

theorem exact_goOn (h : Off 0 s) (hs : Wf s) (hm : Runs s c m) (hgo : GoesOn s m s') : Off 0 s' := by
  have hup : Off 0 (s.update m.addr fun m => { m with waitOn := 0 }) := h.update fun _ _ => rfl
  cases hgo with
  | dead | alive => exact h.atCall m.addr _
  | block => exact (exact_waitOn h hs hm.find hm.not_blocked _ 1000).atCall m.addr _
  | woken | gone | late => exact hup.atCall m.addr _
  | take => exact (h.update (f := fun r => { r with reaped := true }) fun _ _ => rfl).atCall m.addr _

/-- One step leaves an exact count too high just when it lapses. -/
theorem exact_step {a : Action} (hs : Wf s) (h : Exact s) (hstep : step s a = some s') :
    Exact s' ↔ ¬ Lapses s a := by
  have hoff : Off 0 s := h
  -- Where nothing lapses, it is enough that the count stays exact.
  have hkeep : ∀ {t : State} {b : Action}, (¬ Lapses s b) → Off 0 t → (Exact t ↔ ¬ Lapses s b) :=
    fun hno ht => ⟨fun _ => hno, fun _ => ht⟩
  -- Where it may, how far the count comes to be off tells.
  have hlapse : ∀ {t : State} {b : Action}, (∃ e, Off (0 + e) t ∧ (e = 0 ↔ ¬ Lapses s b)) →
      (Exact t ↔ ¬ Lapses s b) := by
    rintro t b ⟨e, he, hiff⟩
    rw [← hiff]
    unfold Exact
    unfold Off at he
    omega
  cases step_cases hstep with
  | tick => exact hkeep id hoff
  | wake channel only_one => exact hkeep id (hoff.wake channel only_one)
  | waitOn hm =>
    have hruns := (runs_of_acting hm).1
    exact hkeep id (exact_waitOn hoff hs hruns.find hruns.not_blocked _ _)
  | waited hm => exact hkeep id (hoff.update fun _ _ => rfl)
  | taskSleep hm =>
    have hruns := (runs_of_acting hm).1
    exact hkeep id (hoff.stored hs hruns.find hruns.not_blocked (by simp))
  | @taskExit _ m _ hm =>
    have hruns := (runs_of_acting hm).1
    exact hkeep id (Off.wake (hoff.stored hs hruns.find hruns.not_blocked (by simp)) m.addr false)
  | taskCreate => exact hkeep id (hoff.inserted (by simp))
  | taskFork => exact hkeep id (hoff.inserted (by simp))
  | @schedStart a =>
    have hins := hoff.inserted (t := { addr := a, gen := 0, pid := 0 }) (by simp)
    exact hkeep id hins
  | @schedAdoptAp c a => exact hkeep id (hoff.adopted c a)
  | signalSend pid sig =>
    refine hkeep id ?_
    unfold signalSend
    split
    · exact hoff
    · split
      · exact hoff
      · exact hoff.update fun _ _ => rfl
  | signalDisposition hm =>
    refine hkeep id ?_
    unfold signalDisposition
    split
    · exact hoff
    · split
      · exact hoff
      · exact hoff.update fun _ _ => rfl
  | delivered hm => exact hkeep (by simp [Lapses]) (hoff.update fun _ _ => rfl)
  | @ended _ m sig released hm =>
    refine hlapse ?_
    have hup : Off 0 (s.update m.addr fun m =>
        { m with sigPending := Function.update m.sigPending sig false }) :=
      hoff.update fun _ _ => rfl
    have hwf : Wf (s.update m.addr fun m =>
        { m with sigPending := Function.update m.sigPending sig false }) :=
      hs.update (fun _ => rfl) fun _ => id
    obtain ⟨e, he, hiff⟩ := hup.ended hwf.nodup m.pid (128 + sig) released
    refine ⟨e, he, hiff.trans (not_congr ?_)⟩
    simp [Lapses, hm]
  | @sysKill _ _ pid released hm => exact hlapse (hoff.ended hs.nodup pid (-1) released)
  | @switch _ work released hc => exact hlapse (hoff.switched hs hc work released)
  | @taskWait _ m pid hm =>
    refine hkeep id ?_
    unfold taskWait
    split
    · exact hoff
    · exact hoff.atCall m.addr _
  | goOn hm hgo => exact hkeep id (exact_goOn hoff hs (runs_of_running hm) hgo)

/-- The count is exact throughout a run just when no step of it ends a blocked task or comes by one
whose deadline has passed. -/
theorem wait_blocked_now_exact (ticks : Nat) (as : List Action) :
    (∀ bs s, bs <+: as → run (schedInit ticks) bs = some s → s.blocked = s.blockedTasks) ↔
      ∀ bs a s s', bs ++ [a] <+: as → run (schedInit ticks) bs = some s → step s a = some s' →
        ¬ Lapses s a :=
  @Runs.throughout_iff _ _ step Wf Exact (fun s a => ¬ Lapses s a) (fun _ _ _ h hstep => h.step hstep)
    (fun _ _ _ hs h hstep => exact_step hs h hstep) _ (wf_init ticks) rfl as

/-- The only task waits on a channel for ten milliseconds, and nobody wakes it. -/
def expiry : List Action :=
  [.taskCreate 1 false, .schedStart 2, .switch boot false fun _ => [], .waitOn boot 5 10,
    .switch boot false fun _ => [], .tick, .tick, .switch boot false fun _ => []]

/-- It runs again, and is still counted. -/
theorem expiry_counted : ∃ s, run (schedInit 0) expiry = some s ∧ s.blocked = 1 ∧ s.blockedTasks = 0 := by
  have hcounts : (run (schedInit 0) expiry).map (fun s => (s.blocked, s.blockedTasks)) = some (1, 0) := by
    decide +kernel
  obtain ⟨s, hs, hpair⟩ := Option.map_eq_some_iff.mp hcounts
  obtain ⟨hblocked, htasks⟩ := Prod.mk.inj hpair
  exact ⟨s, hs, hblocked, htasks⟩

end Zelr.Sched
