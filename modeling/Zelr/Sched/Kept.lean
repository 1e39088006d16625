import Zelr.Sched.Exact

/-!
# Records and who is on them

Where the records are, who runs on which processor and who may still come back to its `task_wait`.
-/

namespace Zelr.Sched

variable {s s' : State} {r : Rest} {a : Addr} {c me : Cpu} {m : Task} {work : Bool} {ks : List Key}
  {k : Key}

/-- A record by its address, with the task it was made for. -/
structure Ref where
  addr : Addr
  gen : Nat
  pid : Nat
  deriving DecidableEq

def Task.ref (t : Task) : Ref := ⟨t.addr, t.gen, t.pid⟩

def Key.ref (k : Key) : Ref := ⟨k.addr, k.gen, k.pid⟩

def State.has (s : State) (r : Ref) : Prop := ∃ t ∈ s.ring, t.ref = r

instance (s : State) (r : Ref) : Decidable (s.has r) :=
  inferInstanceAs (Decidable (∃ t ∈ s.ring, t.ref = r))

theorem State.has_of_keys (h : s'.keys = s.keys) {r : Ref} (hr : s.has r) : s'.has r := by
  obtain ⟨t, ht, rfl⟩ := hr
  have hkey : t.key ∈ s'.keys := h ▸ List.mem_map_of_mem ht
  obtain ⟨t', ht', heq⟩ := List.mem_map.mp hkey
  exact ⟨t', ht', congrArg Key.ref heq⟩

def Task.alive (t : Task) : Prop := t.state ≠ .dead ∨ t.onCpu ≠ none

instance (t : Task) : Decidable t.alive := by
  unfold Task.alive
  infer_instance

/-- The record that a task in `task_wait` reads without waiting any more. -/
def Task.rereads (m : Task) : Option Ref :=
  match m.call with
  | .check t g pid => some ⟨t, g, pid⟩
  | .take t g pid => some ⟨t, g, pid⟩
  | .wait t g pid => if m.waitOn = 0 then some ⟨t, g, pid⟩ else none
  | _ => none

/-- The record that a task in `task_wait` waits on, not yet woken. -/
def Task.waits (m : Task) : Option Ref :=
  match m.call with
  | .wait t g pid => if m.waitOn = 0 then none else some ⟨t, g, pid⟩
  | _ => none

/-! ## Tasks that are none the closer to a record -/

/-- What waking, ending and switching do to a record: it does not come back to life, and what it is
woken from is a wait. -/
structure Eased (m m' : Task) : Prop where
  ref : m'.ref = m.ref
  call : m'.call = m.call
  alive : m'.alive → m.alive ∨ m.call = .out
  waitOn : m'.waitOn = m.waitOn ∨ m'.waitOn = 0 ∨ m.call = .out

theorem Eased.refl (m : Task) : Eased m m := ⟨rfl, rfl, Or.inl, Or.inl rfl⟩

theorem Eased.trans {a b c : Task} (hab : Eased a b) (hbc : Eased b c) : Eased a c where
  ref := hbc.ref.trans hab.ref
  call := hbc.call.trans hab.call
  alive hc := by
    obtain hb | hout := hbc.alive hc
    · exact hab.alive hb
    · exact Or.inr (hab.call ▸ hout)
  waitOn := by
    obtain hb | hzero | hout := hbc.waitOn
    · rw [hb]
      exact hab.waitOn
    · exact Or.inr (Or.inl hzero)
    · exact Or.inr (Or.inr (hab.call ▸ hout))

theorem Eased.rereads {m' : Task} (h : Eased m m') (halive : m'.alive) {r : Ref}
    (hr : m'.rereads = some r) : m.alive ∧ (m.rereads = some r ∨ m.waits = some r) := by
  have hcall : m.call ≠ .out := by
    intro hout
    rw [Task.rereads, h.call, hout] at hr
    cases hr
  refine ⟨(h.alive halive).resolve_right hcall, ?_⟩
  rw [Task.rereads, h.call] at hr
  rw [Task.rereads, Task.waits]
  cases hm : m.call with
  | out => exact absurd hm hcall
  | check t g pid =>
    rw [hm] at hr
    exact Or.inl hr
  | block t g pid =>
    rw [hm] at hr
    cases hr
  | take t g pid =>
    rw [hm] at hr
    exact Or.inl hr
  | wait t g pid =>
    rw [hm] at hr
    dsimp only at hr ⊢
    by_cases hzero : m'.waitOn = 0
    · rw [if_pos hzero] at hr
      by_cases hold : m.waitOn = 0
      · rw [if_pos hold]
        exact Or.inl hr
      · rw [if_neg hold, if_neg hold]
        exact Or.inr hr
    · rw [if_neg hzero] at hr
      cases hr

def Eases (s s' : State) : Prop := ∀ m' ∈ s'.ring, ∃ m ∈ s.ring, Eased m m'

theorem Eases.refl (s : State) : Eases s s := fun m hm => ⟨m, hm, Eased.refl m⟩

theorem Eases.trans {a b c : State} (hab : Eases a b) (hbc : Eases b c) : Eases a c := by
  intro m hm
  obtain ⟨m', hm', hb⟩ := hbc m hm
  obtain ⟨m'', hm'', ha⟩ := hab m' hm'
  exact ⟨m'', hm'', ha.trans hb⟩

theorem eases_wake (s : State) (channel : Addr) (only_one : Bool) : Eases s (wake s channel only_one) := by
  have hring : ∀ ts : List Task, ∀ m' ∈ (wakeRing channel only_one ts).1, ∃ m ∈ ts, Eased m m' := by
    intro ts
    induction ts with
    | nil =>
      intro m' hm'
      cases hm'
    | cons t ts ih =>
      have hrest : ∀ m' ∈ (wakeRing channel only_one ts).1, ∃ m ∈ t :: ts, Eased m m' := by
        intro m' hm'
        obtain ⟨m, hm, h⟩ := ih m' hm'
        exact ⟨m, List.mem_cons_of_mem t hm, h⟩
      intro m' hm'
      rw [wakeRing] at hm'
      split at hm'
      next hblocked =>
        have hwoken : Eased t t.woken := by
          refine ⟨rfl, rfl, ?_, Or.inr (Or.inl rfl)⟩
          intro _
          left
          left
          rw [hblocked.1]
          simp
        split at hm'
        · obtain rfl | hm' := List.mem_cons.mp hm'
          · exact ⟨t, List.mem_cons_self, hwoken⟩
          · exact ⟨m', List.mem_cons_of_mem t hm', Eased.refl m'⟩
        · obtain rfl | hm' := List.mem_cons.mp hm'
          · exact ⟨t, List.mem_cons_self, hwoken⟩
          · exact hrest m' hm'
      next =>
        obtain rfl | hm' := List.mem_cons.mp hm'
        · exact ⟨m', List.mem_cons_self, Eased.refl m'⟩
        · exact hrest m' hm'
  unfold wake
  split
  · exact Eases.refl s
  · exact hring s.ring

theorem eases_wakeAll (cs : List Addr) (s : State) : Eases s (cs.foldl (wake · · false) s) := by
  induction cs generalizing s with
  | nil => exact Eases.refl s
  | cons c cs ih => exact (eases_wake s c false).trans (ih _)

theorem Eases.update {w : State} (h : Eases s w) {f : Task → Task}
    (hf : ∀ m ∈ s.ring, ∀ m', Eased m m' → m'.addr = a → Eased m (f m')) : Eases s (w.update a f) := by
  intro x hx
  obtain ⟨m', hm', rfl⟩ := List.mem_map.mp hx
  obtain ⟨m, hm, heased⟩ := h m' hm'
  refine ⟨m, hm, ?_⟩
  split
  next haddr => exact hf m hm m' heased haddr
  next => exact heased

theorem eases_end (hs : s.addrs.Nodup) (pid : Nat) (status : Int)
    (released : Nat → List Addr) : Eases s (signalEndTask s pid status released) := by
  unfold signalEndTask
  split
  · exact Eases.refl s
  next t ht =>
    split
    · exact Eases.refl s
    next halive =>
      refine ((eases_wakeAll (released pid) s).update ?_).trans (eases_wake _ _ _)
      intro m hm m' heased haddr
      have hsame : m = t := by
        have hfind := State.find_of_mem hs (List.mem_of_find?_eq_some ht)
        have haddr' : m.addr = t.addr := (congrArg Ref.addr heased.ref).symm.trans haddr
        rw [← haddr', State.find_of_mem hs hm] at hfind
        exact Option.some.inj hfind
      subst hsame
      exact ⟨heased.ref, heased.call, fun _ => Or.inl (Or.inl halive), heased.waitOn⟩

theorem eases_takePending (hs : s.addrs.Nodup) (released : Nat → List Addr) (a : Addr) :
    Eases s (takePending released s a) := by
  unfold takePending
  split
  · exact Eases.refl s
  · split
    · have hacted : Eases s (s.update a Task.acted) :=
        (Eases.refl s).update fun _ _ _ h _ => ⟨h.ref, h.call, h.alive, h.waitOn⟩
      dsimp only
      split
      · exact hacted
      · refine hacted.trans (eases_end ?_ _ _ _)
        rw [@State.update_addrs s a Task.acted fun _ => rfl]
        exact hs
    · exact Eases.refl s

theorem eases_take (hs : s.addrs.Nodup) (released : Nat → List Addr) :
    Eases s (signalTakePending s released) := by
  unfold signalTakePending
  generalize (s.ring.take 4096).map (·.addr) = as
  induction as generalizing s with
  | nil => exact Eases.refl s
  | cons a as ih =>
    refine (eases_takePending hs released a).trans (ih ?_)
    rw [State.addrs_of_keys (takePending_keys released s a)]
    exact hs

theorem eases_putDown (s : State) (me : Cpu) : Eases s (putDown s me) := by
  unfold putDown
  split
  · exact Eases.refl s
  · refine (Eases.refl s).update fun m _ m' h _ => ⟨h.ref, h.call, ?_, h.waitOn⟩
    rintro (hstate | hno)
    · refine h.alive (Or.inl ?_)
      dsimp only at hstate
      split at hstate
      next hrunning =>
        rw [hrunning]
        simp
      next => exact hstate
    · exact absurd rfl hno

theorem released_eased (now : Nat) (m : Task) : Eased m (m.released now) := by
  unfold Task.released
  split
  next hsleep =>
    exact ⟨rfl, rfl, fun _ => Or.inl (Or.inl (by rw [hsleep.1]; simp)), Or.inl rfl⟩
  next =>
    split
    next hdue => exact ⟨rfl, rfl, fun _ => Or.inl (Or.inl (by rw [hdue.1]; simp)), Or.inl rfl⟩
    next => exact Eased.refl m

theorem eases_picked {r : Option Addr}
    (h : pickNext s me work = (s', r)) : Eases s s' := by
  have hmap : ∀ visited : List Addr, ∀ m' ∈ s.ring.map fun t =>
      if t.addr ∈ visited then t.released s.ticks else t, ∃ m ∈ s.ring, Eased m m' := by
    intro visited m' hm'
    obtain ⟨m, hm, rfl⟩ := List.mem_map.mp hm'
    refine ⟨m, hm, ?_⟩
    split
    · exact released_eased s.ticks m
    · exact Eased.refl m
  unfold pickNext at h
  split at h
  · obtain ⟨rfl, -⟩ := Prod.mk.inj h
    exact Eases.refl s
  · dsimp only at h
    split at h
    · obtain ⟨rfl, -⟩ := Prod.mk.inj h
      exact hmap _
    · obtain ⟨rfl, -⟩ := Prod.mk.inj h
      exact hmap _

/-! ## The invariant -/

def Rest.idles (r : Rest) (a : Addr) : Prop := ∃ c, r.idle c = some a

/-- The place in `task_wait` is with a record that the heap can have given. -/
def Call.real : Call → Prop
  | .check t _ _ => t ≠ 0
  | .block t _ _ => t ≠ 0
  | .wait t _ _ => t ≠ 0
  | _ => True

/-- What every step keeps: each record is in the ring or was freed once, and a processor's task has its record, marked as
being there. -/
structure Kept (ks : List Key) (r : Rest) : Prop where
  nodup : (ks.map Key.addr).Nodup
  once : List.Perm (ks.map Key.gen ++ r.freed) (List.range r.born)
  idle_boot : r.started = true ↔ r.idle boot ≠ none
  addr_ne : ∀ k ∈ ks, k.addr ≠ 0
  on : ∀ c a, r.current c = some a → ¬ r.idles a → ∃ k ∈ ks, k.addr = a ∧ k.onCpu = some c
  idle_out : ∀ k ∈ ks, r.idles k.addr → k.call = .out
  real : ∀ k ∈ ks, k.call.real

theorem Kept.addrs (h : Kept s.keys s.rest) : s.addrs.Nodup := by
  have hnodup := h.nodup
  rw [State.keys, List.map_map] at hnodup
  exact hnodup

theorem Kept.same {s s' : State} (h : Kept s.keys s.rest) (hkeys : s'.keys = s.keys)
    (hrest : s'.rest = s.rest) : Kept s'.keys s'.rest := by
  rw [hkeys, hrest]
  exact h

theorem eq_of_addr (h : (ks.map Key.addr).Nodup) {k' : Key} (hk : k ∈ ks) (hk' : k' ∈ ks)
    (haddr : k.addr = k'.addr) : k = k' :=
  List.inj_on_of_nodup_map h hk hk' haddr

theorem Kept.alive (h : Kept s.keys s.rest) (hm : Runs s c m) :
    m.alive := by
  obtain ⟨k, hk, haddr, hon⟩ := h.on c m.addr hm.current hm.not_idle
  have hkey : m.key ∈ s.keys := List.mem_map_of_mem (State.find_mem hm.find).1
  obtain rfl := eq_of_addr h.nodup hk hkey haddr
  right
  exact fun hno => by
    rw [show m.onCpu = some c from hon] at hno
    cases hno

section Put

/-- A store to the record at an address, as the keys see it. -/
def put (ks : List Key) (a : Addr) (g : Key → Key) : List Key :=
  ks.map fun k => if k.addr = a then g k else k

theorem keys_update {s : State} {a : Addr} {f : Task → Task} {g : Key → Key}
    (hg : ∀ t, (f t).key = g t.key) : (s.update a f).keys = put s.keys a g := by
  rw [put, State.keys, State.keys, State.update, List.map_map, List.map_map]
  apply List.map_congr_left
  intro t _
  have haddr : t.key.addr = t.addr := rfl
  simp only [Function.comp, haddr]
  split
  · exact hg t
  · rfl

variable {ks : List Key} {a : Addr} {g : Key → Key}

theorem put_proj {α : Type} (p : Key → α) (hp : ∀ k, p (g k) = p k) :
    (put ks a g).map p = ks.map p := by
  rw [put, List.map_map]
  apply List.map_congr_left
  intro k _
  simp only [Function.comp]
  split
  · exact hp k
  · rfl

theorem mem_put (h : k ∈ put ks a g) :
    ∃ k' ∈ ks, (k'.addr ≠ a ∧ k = k') ∨ (k'.addr = a ∧ k = g k') := by
  obtain ⟨k', hk', rfl⟩ := List.mem_map.mp h
  refine ⟨k', hk', ?_⟩
  split
  next ha => exact Or.inr ⟨ha, rfl⟩
  next ha => exact Or.inl ⟨ha, rfl⟩

theorem put_of_ne (h : k ∈ ks) (ha : k.addr ≠ a) : k ∈ put ks a g :=
  List.mem_map.mpr ⟨k, h, if_neg ha⟩

theorem put_of_eq (h : k ∈ ks) (ha : k.addr = a) : g k ∈ put ks a g :=
  List.mem_map.mpr ⟨k, h, if_pos ha⟩

end Put

theorem Kept.stored (h : Kept ks r) {g : Key → Key}
    {current : Cpu → Option Addr} (haddr : ∀ k, (g k).addr = k.addr) (hgen : ∀ k, (g k).gen = k.gen)
    (hcall : ∀ k, (g k).call = k.call ∨ ¬ r.idles a ∧ (g k).call.real)
    (hon : ∀ c b, current c = some b → ¬ r.idles b → ∃ k ∈ put ks a g, k.addr = b ∧ k.onCpu = some c) :
    Kept (put ks a g) { r with current := current } := by
  refine ⟨?_, ?_, h.idle_boot, ?_, hon, ?_, ?_⟩
  · rw [put_proj Key.addr haddr]
    exact h.nodup
  · rw [put_proj Key.gen hgen]
    exact h.once
  · intro k hk
    obtain ⟨k', hk', ⟨-, rfl⟩ | ⟨-, rfl⟩⟩ := mem_put hk
    · exact h.addr_ne k hk'
    · rw [haddr]
      exact h.addr_ne k' hk'
  · intro k hk hidle
    obtain ⟨k', hk', ⟨-, rfl⟩ | ⟨hka, rfl⟩⟩ := mem_put hk
    · exact h.idle_out k hk' hidle
    · rw [haddr] at hidle
      obtain hsame | ⟨hno, -⟩ := hcall k'
      · rw [hsame]
        exact h.idle_out k' hk' hidle
      · exact absurd (hka ▸ hidle) hno
  · intro k hk
    obtain ⟨k', hk', ⟨-, rfl⟩ | ⟨-, rfl⟩⟩ := mem_put hk
    · exact h.real k hk'
    · obtain hsame | ⟨-, hreal⟩ := hcall k'
      · rw [hsame]
        exact h.real k' hk'
      · exact hreal

theorem Kept.atCall (h : Kept s.keys s.rest) (ha : ¬ s.isIdle a) {c : Call}
    (hc : c.real) : Kept (s.atCall a c).keys (s.atCall a c).rest := by
  have hkeys : (s.atCall a c).keys = put s.keys a fun k => { k with call := c } :=
    keys_update fun _ => rfl
  rw [hkeys]
  refine h.stored (fun _ => rfl) (fun _ => rfl) (fun _ => Or.inr ⟨ha, hc⟩) ?_
  intro me b hcur hidle
  obtain ⟨k, hk, haddr, hon⟩ := h.on me b hcur hidle
  by_cases hka : k.addr = a
  · exact ⟨_, put_of_eq hk hka, haddr, hon⟩
  · exact ⟨k, put_of_ne hk hka, haddr, hon⟩

theorem Kept.down (h : Kept ks r) {old : Addr}
    (hold : r.current me = some old) :
    Kept (put ks old fun k => { k with onCpu := none })
      { r with current := Function.update r.current me none } := by
  refine h.stored (fun _ => rfl) (fun _ => rfl) (fun _ => Or.inl rfl) ?_
  intro c a hcur hidle
  by_cases hc : c = me
  · subst hc
    rw [Function.update_self] at hcur
    cases hcur
  · rw [Function.update_of_ne hc] at hcur
    obtain ⟨k, hk, rfl, hon⟩ := h.on c a hcur hidle
    refine ⟨k, put_of_ne hk ?_, rfl, hon⟩
    -- It would be on two processors.
    rintro rfl
    obtain ⟨k', hk', haddr, hon'⟩ := h.on me k.addr hold hidle
    obtain rfl := eq_of_addr h.nodup hk' hk haddr
    rw [hon] at hon'
    exact hc (Option.some.inj hon')

theorem Kept.up {ks : List Key} {r : Rest} (h : Kept ks r) {me : Cpu} {a : Addr}
    (ha : r.idles a ∨ ∃ k ∈ ks, k.addr = a ∧ (k.onCpu = none ∨ k.onCpu = some me)) :
    Kept (put ks a fun k => { k with onCpu := some me })
      { r with current := Function.update r.current me (some a) } := by
  refine h.stored (fun _ => rfl) (fun _ => rfl) (fun _ => Or.inl rfl) ?_
  intro c b hcur hidle
  by_cases hc : c = me
  · subst hc
    rw [Function.update_self] at hcur
    obtain rfl := Option.some.inj hcur
    obtain ⟨k, hk, haddr, -⟩ := ha.resolve_left hidle
    exact ⟨_, put_of_eq hk haddr, haddr, rfl⟩
  · rw [Function.update_of_ne hc] at hcur
    obtain ⟨k, hk, rfl, hon⟩ := h.on c b hcur hidle
    refine ⟨k, put_of_ne hk ?_, rfl, hon⟩
    rintro rfl
    obtain ⟨k', hk', haddr, hfree⟩ := ha.resolve_left hidle
    obtain rfl := eq_of_addr h.nodup hk' hk haddr
    rw [hon] at hfree
    obtain hfree | hfree := hfree
    · cases hfree
    · exact hc (Option.some.inj hfree)

theorem pick_cases (hme : s.idle me ≠ none)
    (h : pickNext s me work = (s', some a)) :
    s.idle me = some a ∨ ∃ t ∈ s.ring, t.addr = a ∧ mayRun s me (t.released s.ticks) := by
  unfold pickNext at h
  split at h
  · obtain ⟨-, ha⟩ := Prod.mk.inj h
    exact Or.inl ha
  · dsimp only at h
    split at h
    next b hfound =>
      obtain ⟨-, ha⟩ := Prod.mk.inj h
      obtain rfl := Option.some.inj ha
      obtain ⟨-, t, ht, haddr, hrun⟩ := walk_found hfound
      exact Or.inr ⟨t, lap_subset ht, haddr, hrun⟩
    next =>
      obtain ⟨-, ha⟩ := Prod.mk.inj h
      exact Or.inl ha

theorem Kept.putDown (h : Kept s.keys s.rest) (me : Cpu) :
    Kept (Sched.putDown s me).keys { s.rest with current := Function.update s.current me none } := by
  unfold Sched.putDown
  split
  next hnone =>
    have hsame : Function.update s.current me none = s.current := by
      rw [← hnone, Function.update_eq_self]
    rw [hsame]
    exact h
  next old hold =>
    rw [@keys_update s old _ (fun k => { k with onCpu := none }) fun _ => rfl]
    exact h.down hold

theorem Kept.takenUp (h : Kept s.keys s.rest)
    (hme : s.idle me ≠ none) (hpick : pickNext (Sched.putDown s me) me work = (s', some a)) :
    Kept (takeUp s' me a).keys (takeUp s' me a).rest := by
  have hrest : s'.rest = s.rest := (pickNext_rest hpick).trans (putDown_rest s me)
  have hidle : (Sched.putDown s me).idle = s.idle := congrArg Rest.idle (putDown_rest s me)
  have hkeys : s'.keys = (Sched.putDown s me).keys := by
    have hfst := pickNext_keys (Sched.putDown s me) me work
    rw [hpick] at hfst
    exact hfst
  have hcur : Function.update (Function.update s.current me none) me (some a) =
      Function.update s'.current me (some a) := by
    rw [Function.update_idem, show s'.current = s.current from congrArg Rest.current hrest]
  have hup := @Kept.up _ _ (h.putDown me) me a ?_
  · rw [← hkeys] at hup
    have hrest' : (takeUp s' me a).rest =
        { s.rest with current := Function.update (Function.update s.current me none) me (some a) } := by
      rw [hcur, ← hrest]
      rfl
    rw [hrest', takeUp]
    have hput : (s'.update a fun t => { t with onCpu := some me, state := .running }).keys =
        put s'.keys a fun k => { k with onCpu := some me } := keys_update fun _ => rfl
    exact hput ▸ hup
  · obtain hpicked | ⟨t, ht, haddr, hrun⟩ := pick_cases (hidle ▸ hme) hpick
    · rw [hidle] at hpicked
      exact Or.inl ⟨me, hpicked⟩
    · refine Or.inr ⟨t.key, List.mem_map_of_mem ht, haddr, ?_⟩
      have hon : (t.released (Sched.putDown s me).ticks).onCpu = t.key.onCpu :=
        congrArg Key.onCpu (released_key _ t)
      rw [← hon]
      exact hrun.2.2.1

theorem Kept.collected (h : Kept s.keys s.rest) (me : Cpu) :
    Kept (collect s me).keys (collect s me).rest := by
  unfold collect
  split
  · exact h
  next head ts hring =>
    have hperm := pass_perm s me 4096 true ts
    have hsub : (head :: (pass s me 4096 true ts).1).Sublist s.ring := by
      rw [hring]
      exact (pass_sublist s me 4096 true ts).cons_cons head
    have hkeys : ∀ k ∈ (head :: (pass s me 4096 true ts).1).map Task.key, k ∈ s.keys :=
      fun k hk => (hsub.map Task.key).subset hk
    refine ⟨?_, ?_, h.idle_boot, ?_, ?_, ?_, ?_⟩
    · exact ((hsub.map Task.key).map Key.addr).nodup h.nodup
    · refine List.Perm.trans ?_ h.once
      have hold : s.keys.map Key.gen = (head :: ts).map (·.gen) := by
        rw [State.keys, hring, List.map_map]
        rfl
      have hnew : ∀ l : List Task, (l.map Task.key).map Key.gen = l.map (·.gen) := by
        intro l
        rw [List.map_map]
        rfl
      rw [hold]
      dsimp only [State.keys, State.rest]
      rw [hnew, List.map_cons, List.map_cons, List.cons_append, List.cons_append]
      refine List.Perm.cons _ ?_
      have hgens := hperm.map (·.gen)
      rw [List.map_append] at hgens
      refine List.Perm.trans ?_ (hgens.append_right s.freed)
      rw [List.append_assoc]
      exact List.perm_append_comm.append_left _
    · intro k hk
      exact h.addr_ne k (hkeys k hk)
    · intro c a hcur hidle
      obtain ⟨k, hk, haddr, hon⟩ := h.on c a hcur hidle
      refine ⟨k, ?_, haddr, hon⟩
      obtain ⟨t, ht, rfl⟩ := List.mem_map.mp hk
      refine List.mem_map_of_mem ?_
      rw [hring, List.mem_cons] at ht
      obtain rfl | ht := ht
      · exact List.mem_cons_self
      · obtain hstay | hfreed := List.mem_append.mp (hperm.mem_iff.mpr ht)
        · exact List.mem_cons_of_mem _ hstay
        · obtain ⟨-, -, -, hnone, -⟩ := pass_freed hfreed
          rw [show t.onCpu = some c from hon] at hnone
          cases hnone
    · intro k hk
      exact h.idle_out k (hkeys k hk)
    · intro k hk
      exact h.real k (hkeys k hk)

theorem Kept.fresh {ks' : List Key} (h : Kept ks r) (hperm : ks'.Perm (k :: ks))
    (hgen : k.gen = r.born) (haddr : k.addr ≠ 0) (hout : k.call = .out) (hnew : k.addr ∉ ks.map Key.addr)
    {r' : Rest} (hborn : r'.born = r.born + 1) (hfreed : r'.freed = r.freed)
    (hboot : r'.started = true ↔ r'.idle boot ≠ none)
    (hidle : ∀ a, r'.idles a → r.idles a ∨ a = k.addr) (hkeep : ∀ a, r.idles a → r'.idles a)
    (hcur : ∀ c a, r'.current c = some a → r.current c = some a ∨ r'.idles a) : Kept ks' r' := by
  refine ⟨?_, ?_, hboot, ?_, ?_, ?_, ?_⟩
  · rw [(hperm.map Key.addr).nodup_iff, List.map_cons, List.nodup_cons]
    exact ⟨hnew, h.nodup⟩
  · rw [hborn, hfreed, List.range_succ]
    refine ((hperm.map Key.gen).append_right r.freed).trans ?_
    rw [List.map_cons, List.cons_append, hgen]
    exact (h.once.cons r.born).trans (List.perm_append_singleton r.born _).symm
  · intro x hx
    obtain rfl | hx := List.mem_cons.mp (hperm.mem_iff.mp hx)
    · exact haddr
    · exact h.addr_ne x hx
  · intro c a hc ha
    obtain ⟨x, hx, hxa, hon⟩ := h.on c a ((hcur c a hc).resolve_right ha) fun hi => ha (hkeep a hi)
    exact ⟨x, hperm.mem_iff.mpr (List.mem_cons_of_mem k hx), hxa, hon⟩
  · intro x hx hi
    obtain rfl | hx := List.mem_cons.mp (hperm.mem_iff.mp hx)
    · exact hout
    · obtain hi | heq := hidle x.addr hi
      · exact h.idle_out x hx hi
      · exact absurd (heq ▸ List.mem_map_of_mem hx) hnew
  · intro x hx
    obtain rfl | hx := List.mem_cons.mp (hperm.mem_iff.mp hx)
    · rw [hout]
      trivial
    · exact h.real x hx

theorem not_mem_key_addrs (h : s.find a = none) : a ∉ s.keys.map Key.addr := by
  rw [State.keys, List.map_map]
  exact not_mem_addrs h

theorem Kept.inserted (h : Kept s.keys s.rest) {t : Task} (hfits : fits s t.addr)
    (hout : t.call = .out) : Kept (ringInsert s t).keys (ringInsert s t).rest := by
  have hkeys : (ringInsert s t).keys =
      s.keys ++ [Task.key { t with gen := s.born, pid := s.nextPid }] := by
    rw [State.keys, ringInsert, List.map_append]
    rfl
  refine h.fresh (k := Task.key { t with gen := s.born, pid := s.nextPid }) ?_ rfl hfits.1 hout
    (not_mem_key_addrs hfits.2.1) rfl rfl h.idle_boot (fun a => Or.inl) (fun a => id) fun c a => Or.inl
  rw [hkeys]
  exact List.perm_append_singleton _ _

theorem Kept.started (h : Kept s.keys s.rest) (hfits : fits s a)
    (hstopped : s.started = false) : Kept (schedStart s a).keys (schedStart s a).rest := by
  have hkeys : (schedStart s a).keys =
      s.keys ++ [Task.key { addr := a, gen := s.born, pid := s.nextPid }] := by
    rw [State.keys, schedStart, ringInsert, List.map_append]
    rfl
  have hboot : s.idle boot = none := by
    by_contra hsome
    have hon := h.idle_boot.mpr hsome
    rw [show s.rest.started = s.started from rfl, hstopped] at hon
    cases hon
  refine h.fresh (k := Task.key { addr := a, gen := s.born, pid := s.nextPid }) ?_ rfl hfits.1 rfl
    (not_mem_key_addrs hfits.2.1) rfl rfl ?_ ?_ ?_ fun c a => Or.inl
  · rw [hkeys]
    exact List.perm_append_singleton _ _
  · simp [schedStart, State.rest]
  · rintro b ⟨c, hc⟩
    dsimp only [State.rest, schedStart] at hc
    rw [Function.update_apply] at hc
    split at hc
    · exact Or.inr (Option.some.inj hc).symm
    · exact Or.inl ⟨c, hc⟩
  · rintro b ⟨c, hc⟩
    refine ⟨c, ?_⟩
    dsimp only [State.rest, schedStart] at hc ⊢
    rw [Function.update_of_ne]
    · exact hc
    · rintro rfl
      rw [hboot] at hc
      cases hc

theorem Kept.adopted (h : Kept s.keys s.rest) (hc : c ≠ boot)
    (hfits : fits s a) : Kept (schedAdoptAp s c a).keys (schedAdoptAp s c a).rest := by
  unfold schedAdoptAp
  split
  · exact h
  next hnone =>
    have hnone' : s.idle c = none := not_not.mp hnone
    have hperm := adopt_ring_perm s.ring
      { addr := a, gen := s.born, pid := s.nextPid, state := .running, onCpu := some c }
    refine h.fresh (hperm.map Task.key) rfl hfits.1 rfl (not_mem_key_addrs hfits.2.1) rfl rfl ?_ ?_ ?_ ?_
    · dsimp only [State.rest]
      rw [Function.update_of_ne (Ne.symm hc)]
      exact h.idle_boot
    · rintro b ⟨c', hc'⟩
      dsimp only [State.rest] at hc'
      rw [Function.update_apply] at hc'
      split at hc'
      · exact Or.inr (Option.some.inj hc').symm
      · exact Or.inl ⟨c', hc'⟩
    · rintro b ⟨c', hc'⟩
      refine ⟨c', ?_⟩
      dsimp only [State.rest] at hc' ⊢
      rw [Function.update_of_ne]
      · exact hc'
      · rintro rfl
        rw [hnone'] at hc'
        cases hc'
    · intro c' b hcur
      dsimp only [State.rest] at hcur
      by_cases hcc : c' = c
      · subst hcc
        rw [Function.update_self] at hcur
        refine Or.inr ⟨c', ?_⟩
        dsimp only [State.rest]
        rw [Function.update_self]
        exact hcur
      · rw [Function.update_of_ne hcc] at hcur
        exact Or.inl hcur

end Zelr.Sched
