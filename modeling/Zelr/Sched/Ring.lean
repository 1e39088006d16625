import Mathlib.Data.List.Nodup
import Zelr.Sched.Model

/-!
# What each function does to the ring

Waking, ending and releasing a task leave its place in the ring, its processor and its place in
`task_wait` as they are.
-/

namespace Zelr.Sched

variable {s s' : State} {t : Task} {me : Cpu}

/-- What only a switch, a new record or the task itself changes. -/
structure Key where
  addr : Addr
  gen : Nat
  pid : Nat
  user : Bool
  onCpu : Option Cpu
  call : Call

def Task.key (t : Task) : Key := ⟨t.addr, t.gen, t.pid, t.user, t.onCpu, t.call⟩

structure Rest where
  current : Cpu → Option Addr
  idle : Cpu → Option Addr
  started : Bool
  ticks : Nat
  nextPid : Nat
  born : Nat
  freed : List Nat

namespace State

def rest (s : State) : Rest :=
  ⟨s.current, s.idle, s.started, s.ticks, s.nextPid, s.born, s.freed⟩

def keys (s : State) : List Key := s.ring.map Task.key

def addrs (s : State) : List Addr := s.ring.map (·.addr)

theorem addrs_of_keys (h : s'.keys = s.keys) : s'.addrs = s.addrs := by
  have hmap := congrArg (List.map Key.addr) h
  rw [keys, keys, List.map_map, List.map_map] at hmap
  exact hmap

section Update

variable {s : State} {a : Addr} {f : Task → Task}

theorem update_keys (hf : ∀ t, (f t).key = t.key) : (s.update a f).keys = s.keys := by
  rw [keys, keys, update, List.map_map]
  apply List.map_congr_left
  intro t _
  simp only [Function.comp]
  split
  · exact hf t
  · rfl

theorem update_addrs (hf : ∀ t, (f t).addr = t.addr) : (s.update a f).addrs = s.addrs := by
  rw [addrs, addrs, update, List.map_map]
  apply List.map_congr_left
  intro t _
  simp only [Function.comp]
  split
  · exact hf t
  · rfl

end Update

theorem find_mem {a : Addr} (h : s.find a = some t) :
    t ∈ s.ring ∧ t.addr = a :=
  ⟨List.mem_of_find?_eq_some h, by simpa using List.find?_some h⟩

theorem find_of_mem (hs : s.addrs.Nodup) (h : t ∈ s.ring) :
    s.find t.addr = some t := by
  unfold addrs at hs
  unfold find
  generalize s.ring = ts at hs h ⊢
  induction ts with
  | nil => cases h
  | cons x ts ih =>
    rw [List.map_cons, List.nodup_cons] at hs
    rw [List.find?_cons]
    obtain rfl | h := List.mem_cons.mp h
    · simp
    · have hne : x.addr ≠ t.addr := by
        intro heq
        rw [heq] at hs
        exact hs.1 (List.mem_map_of_mem h)
      simp only [hne, decide_false]
      exact ih hs.2 h

theorem taskByPid_key {s s' : State} (h : s'.keys = s.keys) (pid : Nat) :
    (s'.taskByPid pid).map Task.key = (s.taskByPid pid).map Task.key := by
  have hmap : ∀ x : State, (x.taskByPid pid).map Task.key = x.keys.find? (·.pid = pid) := by
    intro x
    rw [keys, List.find?_map]
    rfl
  rw [hmap, hmap, h]

end State

/-! ## Waking -/

theorem wakeRing_keys (channel : Addr) (only_one : Bool) (ts : List Task) :
    (wakeRing channel only_one ts).1.map Task.key = ts.map Task.key := by
  induction ts with
  | nil => rfl
  | cons t ts ih =>
    rw [wakeRing]
    split
    · split
      · rfl
      · rw [List.map_cons, ih]
        rfl
    · rw [List.map_cons, ih, List.map_cons]

@[simp] theorem wake_keys (s : State) (channel : Addr) (only_one : Bool) :
    (wake s channel only_one).keys = s.keys := by
  unfold wake
  split
  · rfl
  · exact wakeRing_keys channel only_one s.ring

@[simp] theorem wake_rest (s : State) (channel : Addr) (only_one : Bool) :
    (wake s channel only_one).rest = s.rest := by
  unfold wake
  split <;> rfl

theorem wakeAll_rest (cs : List Addr) (s : State) :
    (cs.foldl (wake · · false) s).rest = s.rest := by
  induction cs generalizing s with
  | nil => rfl
  | cons c cs ih => rw [List.foldl_cons, ih, wake_rest]

theorem wakeAll_keys (cs : List Addr) (s : State) :
    (cs.foldl (wake · · false) s).keys = s.keys := by
  induction cs generalizing s with
  | nil => rfl
  | cons c cs ih => rw [List.foldl_cons, ih, wake_keys]

/-! ## Ending -/

theorem signalEndTask_keys (s : State) (pid : Nat) (status : Int) (released : Nat → List Addr) :
    (signalEndTask s pid status released).keys = s.keys := by
  unfold signalEndTask
  split
  · rfl
  · split
    · rfl
    · dsimp only
      rw [wake_keys]
      refine (State.update_keys ?_).trans (wakeAll_keys _ s)
      intro t
      rfl

theorem signalEndTask_rest (s : State) (pid : Nat) (status : Int) (released : Nat → List Addr) :
    (signalEndTask s pid status released).rest = s.rest := by
  unfold signalEndTask
  split
  · rfl
  · split
    · rfl
    · dsimp only
      rw [wake_rest]
      exact wakeAll_rest _ s

theorem takePending_keys (released : Nat → List Addr) (s : State) (a : Addr) :
    (takePending released s a).keys = s.keys := by
  unfold takePending
  split
  · rfl
  · split
    · dsimp only
      split
      · exact State.update_keys fun _ => rfl
      · rw [signalEndTask_keys]
        exact State.update_keys fun _ => rfl
    · rfl

theorem takePending_rest (released : Nat → List Addr) (s : State) (a : Addr) :
    (takePending released s a).rest = s.rest := by
  unfold takePending
  split
  · rfl
  · split
    · dsimp only
      split
      · rfl
      · rw [signalEndTask_rest]
        rfl
    · rfl

theorem takeAll_keys (released : Nat → List Addr) (as : List Addr) (s : State) :
    (as.foldl (takePending released) s).keys = s.keys := by
  induction as generalizing s with
  | nil => rfl
  | cons a as ih => rw [List.foldl_cons, ih, takePending_keys]

theorem signalTakePending_keys (s : State) (released : Nat → List Addr) :
    (signalTakePending s released).keys = s.keys :=
  takeAll_keys released _ s

theorem signalTakePending_rest (s : State) (released : Nat → List Addr) :
    (signalTakePending s released).rest = s.rest := by
  unfold signalTakePending
  generalize (s.ring.take 4096).map (·.addr) = as
  induction as generalizing s with
  | nil => rfl
  | cons a as ih => rw [List.foldl_cons, ih, takePending_rest]

/-! ## Picking and collecting -/

theorem putDown_rest (s : State) (me : Cpu) : (putDown s me).rest = s.rest := by
  unfold putDown
  split <;> rfl

theorem putDown_addrs (s : State) (me : Cpu) : (putDown s me).addrs = s.addrs := by
  unfold putDown
  split
  · rfl
  · refine State.update_addrs ?_
    intro t
    rfl

theorem released_key (now : Nat) (t : Task) : (t.released now).key = t.key := by
  unfold Task.released
  split
  · rfl
  · split <;> rfl

theorem pickNext_keys (s : State) (me : Cpu) (work : Bool) :
    (pickNext s me work).1.keys = s.keys := by
  have hmap : ∀ seen : List Addr,
      (s.ring.map fun t => if t.addr ∈ seen then t.released s.ticks else t).map Task.key =
        s.ring.map Task.key := by
    intro seen
    rw [List.map_map]
    apply List.map_congr_left
    intro t _
    simp only [Function.comp]
    split
    · exact released_key s.ticks t
    · rfl
  unfold pickNext
  split
  · rfl
  · dsimp only
    split
    · exact hmap _
    · exact hmap _

theorem pickNext_rest {work : Bool} {r : Option Addr}
    (h : pickNext s me work = (s', r)) : s'.rest = s.rest := by
  have hfst : (pickNext s me work).1.rest = s.rest := by
    unfold pickNext
    split
    · rfl
    · dsimp only
      split <;> rfl
  rw [h] at hfst
  exact hfst

theorem pass_perm (s : State) (me : Cpu) (i : Nat) (atHead : Bool) (ts : List Task) :
    List.Perm ((pass s me i atHead ts).1 ++ (pass s me i atHead ts).2) ts := by
  induction ts generalizing i atHead with
  | nil => cases i <;> exact List.Perm.refl _
  | cons n ts ih =>
    cases i with
    | zero =>
      rw [pass, List.append_nil]
    | succ i =>
      rw [pass]
      split
      · split
        · exact List.perm_append_comm
        · exact List.perm_middle.trans ((ih i atHead).cons n)
      · exact (ih i false).cons n

theorem pass_sublist (s : State) (me : Cpu) (i : Nat) (atHead : Bool) (ts : List Task) :
    (pass s me i atHead ts).1.Sublist ts := by
  induction ts generalizing i atHead with
  | nil => cases i <;> exact List.Sublist.refl _
  | cons n ts ih =>
    cases i with
    | zero => exact List.Sublist.refl _
    | succ i =>
      rw [pass]
      split
      · split
        · exact List.sublist_cons_self n ts
        · exact (ih i atHead).cons n
      · exact (ih i false).cons_cons n

theorem pass_freed {i : Nat} {atHead : Bool} {ts : List Task} {n : Task}
    (h : n ∈ (pass s me i atHead ts).2) : n ∈ ts ∧ canCollect s me n := by
  induction ts generalizing i atHead with
  | nil => cases i <;> cases h
  | cons m ts ih =>
    cases i with
    | zero => cases h
    | succ i =>
      rw [pass] at h
      split at h
      next hm =>
        split at h
        · rw [List.mem_singleton] at h
          subst h
          exact ⟨List.mem_cons_self, hm⟩
        · rw [List.mem_cons] at h
          obtain rfl | h := h
          · exact ⟨List.mem_cons_self, hm⟩
          · obtain ⟨hmem, hcan⟩ := ih h
            exact ⟨List.mem_cons_of_mem m hmem, hcan⟩
      next =>
        obtain ⟨hmem, hcan⟩ := ih h
        exact ⟨List.mem_cons_of_mem m hmem, hcan⟩

end Zelr.Sched
