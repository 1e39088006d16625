import Zelr.Sched.Kept

/-!
# Collecting what a task exited with

A task in `task_wait` holds the address of a record over its waits.
-/

namespace Zelr.Sched

/-! ## The collector -/

def atCollect (s : State) (me : Cpu) (work : Bool) (released : Nat → List Addr) : Option State :=
  if s.started = false ∨ s.ring = [] then none
  else
    match pickNext (putDown (signalTakePending s released) me) me work with
    | (_, none) => none
    | (s, some a) => some (takeUp s me a)

def toFree (s : State) (me : Cpu) : List Task := (pass s me 4096 true s.ring.tail).2

theorem collect_freed (s : State) (me : Cpu) :
    (collect s me).freed = s.freed ++ (toFree s me).map (·.gen) := by
  unfold collect toFree
  split
  next hnil =>
    rw [hnil]
    simp [pass]
  next head ts hring =>
    rw [hring]
    rfl

theorem collect_mem {s : State} {me : Cpu} {t : Task} (h : t ∈ s.ring) :
    t ∈ (collect s me).ring ∨ t ∈ toFree s me := by
  unfold collect toFree
  split
  · exact Or.inl h
  next head ts hring =>
    rw [hring] at h ⊢
    obtain rfl | h := List.mem_cons.mp h
    · exact Or.inl List.mem_cons_self
    · obtain hstay | hfreed := List.mem_append.mp ((pass_perm s me 4096 true ts).mem_iff.mpr h)
      · exact Or.inl (List.mem_cons_of_mem head hstay)
      · exact Or.inr hfreed

variable {me c : Cpu} {s s' w : State} {t m : Task} {released : Nat → List Addr} {work : Bool} {f : Task → Task}
  {a : Addr}

theorem mem_of_collect (h : t ∈ (collect s me).ring) : t ∈ s.ring := by
  unfold collect at h
  split at h
  · exact h
  next head ts hring =>
    rw [hring]
    obtain rfl | h := List.mem_cons.mp h
    · exact List.mem_cons_self
    · exact List.mem_cons_of_mem head ((pass_sublist s me 4096 true ts).subset h)

theorem pass_behind (s : State) (me : Cpu) (i : Nat) (ts : List Task) :
    (pass s me i false ts).2 = (ts.take i).filter fun n => canCollect s me n := by
  induction ts generalizing i with
  | nil => cases i <;> rfl
  | cons n ts ih =>
    cases i with
    | zero => rfl
    | succ i =>
      rw [pass, List.take_succ_cons, List.filter_cons]
      by_cases hn : canCollect s me n
      · rw [if_pos hn, if_pos (decide_eq_true hn)]
        simp only [Bool.false_eq_true, if_false]
        rw [ih i]
      · rw [if_neg hn, if_neg (by simpa using hn)]
        exact ih i

theorem toFree_of_collectable {n : Task} (hn : n ∈ s.ring.tail.take 4096)
    (hcan : canCollect s me n) :
    n ∈ toFree s me ∨ ∃ first, s.ring.tail.head? = some first ∧ toFree s me = [first] := by
  unfold toFree
  cases htail : s.ring.tail with
  | nil =>
    rw [htail] at hn
    cases hn
  | cons first ts =>
    rw [htail, List.take_succ_cons] at hn
    rw [pass]
    by_cases hfirst : canCollect s me first
    · rw [if_pos hfirst, if_pos rfl]
      exact Or.inr ⟨first, rfl, rfl⟩
    · rw [if_neg hfirst]
      left
      dsimp only
      rw [pass_behind, List.mem_filter]
      obtain rfl | hn := List.mem_cons.mp hn
      · exact absurd hcan hfirst
      · exact ⟨hn, decide_eq_true hcan⟩

theorem switch_of_atCollect {t : State}
    (h : atCollect s me work released = some t) :
    schedulerSwitch s me work released = collect t me := by
  unfold atCollect at h
  unfold schedulerSwitch
  by_cases hgo : s.started = false ∨ s.ring = []
  · rw [if_pos hgo] at h
    cases h
  rw [if_neg hgo] at h ⊢
  dsimp only at h ⊢
  generalize pickNext (putDown (signalTakePending s released) me) me work = picked at h ⊢
  obtain ⟨s', _ | a⟩ := picked
  · cases h
  · cases h
    rfl

/-! ## Where it goes wrong -/

/-- A switch frees a record that a task in `task_wait` still reads. -/
def FreesHeld (s : State) : Action → Prop
  | .switch c work released => ∃ t ∈ atCollect s c work released, ∃ n ∈ toFree t c, ∃ m ∈ t.ring,
      m.alive ∧ m.rereads = some n.ref
  | _ => False

def WakesStray (s : State) (a : Action) : Prop :=
  ∃ s' ∈ step s a, ∃ m ∈ s.ring, ∃ r ∈ m.waits, ¬ s.has r ∧
    ∃ m' ∈ s'.ring, m'.ref = m.ref ∧ m'.call = m.call ∧ m'.alive ∧ m'.rereads = some r

/-- The deadline of a task in `task_wait` passed, the record was freed meanwhile, and the pid is
another task's by now. -/
def FindsOther (s : State) : Action → Prop
  | .goOn c => ∃ m ∈ running s c, ∃ r ∈ m.waits, s.taskByPid r.pid ≠ none ∧ ¬ s.has r
  | _ => False

/-- A step after which a task in `task_wait` is to read a record that is not there. -/
def Strays (s : State) (a : Action) : Prop := FreesHeld s a ∨ WakesStray s a ∨ FindsOther s a

instance (s : State) (a : Action) : Decidable (Strays s a) := by
  unfold Strays WakesStray
  have : Decidable (FreesHeld s a) := by
    cases a <;> unfold FreesHeld <;> infer_instance
  have : Decidable (FindsOther s a) := by
    cases a <;> unfold FindsOther <;> infer_instance
  infer_instance

/-! ## What a step keeps -/

/-- Whatever a task in `task_wait` reads next is there. -/
def Safe (s : State) : Prop := ∀ m ∈ s.ring, m.alive → ∀ r, m.rereads = some r → s.has r

theorem Safe.of_ring (h : Safe s) (hhas : ∀ r, s.has r → s'.has r)
    (hring : ∀ m' ∈ s'.ring, (∃ m ∈ s.ring, (m'.alive → m.alive) ∧ m'.rereads = m.rereads) ∨
      ∀ r, m'.rereads = some r → s.has r) : Safe s' := by
  intro m' hm' halive r hr
  obtain ⟨m, hm, hold, hsame⟩ | hnew := hring m' hm'
  · exact hhas r (h m hm (hold halive) r (hsame ▸ hr))
  · exact hhas r (hnew r hr)

theorem Safe.eased (h : Safe s) (heases : Eases s s') (hhas : ∀ r, s.has r → s'.has r)
    (hwake : ∀ m ∈ s.ring, ∀ r, m.waits = some r → ¬ s.has r → ∀ m' ∈ s'.ring, m'.ref = m.ref →
      m'.call = m.call → m'.alive → m'.rereads ≠ some r) : Safe s' := by
  intro m' hm' halive r hr
  obtain ⟨m, hm, heased⟩ := heases m' hm'
  obtain ⟨hold, hreads | hwaits⟩ := heased.rereads halive hr
  · exact hhas r (h m hm hold r hreads)
  · by_contra hno
    exact hwake m hm r hwaits (fun hin => hno (hhas r hin)) m' hm' heased.ref heased.call halive hr

theorem Safe.calm {a : Action} (h : Safe s) (hok : ¬ Strays s a) (hstep : step s a = some s')
    (heases : Eases s s') (hkeys : s'.keys = s.keys) : Safe s' := by
  refine h.eased heases (fun r => State.has_of_keys hkeys) ?_
  intro m hm r hwaits hno m' hm' href hcall halive hr
  exact hok (Or.inr (Or.inl ⟨s', hstep, m, hm, r, hwaits, hno, m', hm', href, hcall, halive, hr⟩))

theorem eases_acting (hs : s.addrs.Nodup) (hm : acting s c = some m)
    (hw : Eases s w) (hf : ∀ t, (f t).key = t.key) :
    Eases s (w.update m.addr f) := by
  obtain ⟨hruns, hout⟩ := runs_of_acting hm
  refine hw.update fun x hx x' heased haddr => ?_
  have hsame : x = m := by
    have haddr' : x.addr = m.addr := (congrArg Ref.addr heased.ref).symm.trans haddr
    have hfind := State.find_of_mem hs hx
    rw [haddr', hruns.find] at hfind
    exact (Option.some.inj hfind).symm
  subst hsame
  refine ⟨(congrArg Key.ref (hf x')).trans heased.ref, (congrArg Key.call (hf x')).trans heased.call, ?_, ?_⟩
  · exact fun _ => Or.inr hout
  · exact Or.inr (Or.inr hout)

theorem Eases.aside (hw : Eases s w)
    (hkey : ∀ t, (f t).key = t.key) (hstate : ∀ t, (f t).state = t.state)
    (hwait : ∀ t, (f t).waitOn = t.waitOn) : Eases s (w.update a f) := by
  refine hw.update fun m _ m' h _ => ⟨?_, ?_, ?_, ?_⟩
  · exact (congrArg Key.ref (hkey m')).trans h.ref
  · exact (congrArg Key.call (hkey m')).trans h.call
  · intro halive
    refine h.alive ?_
    unfold Task.alive at halive ⊢
    rw [hstate, show (f m').onCpu = m'.onCpu from congrArg Key.onCpu (hkey m')] at halive
    exact halive
  · rw [hwait]
    exact h.waitOn

theorem Safe.fresh (h : Safe s) (hperm : s'.ring.Perm (t :: s.ring))
    (ht : t.call = .out) : Safe s' := by
  refine h.of_ring ?_ ?_
  · rintro r ⟨x, hx, rfl⟩
    exact ⟨x, hperm.mem_iff.mpr (List.mem_cons_of_mem t hx), rfl⟩
  · intro m hm
    obtain rfl | hm := List.mem_cons.mp (hperm.mem_iff.mp hm)
    · right
      intro r hr
      rw [Task.rereads, ht] at hr
      cases hr
    · exact Or.inl ⟨m, hm, id, rfl⟩

theorem eases_takenUp (h : Kept s.keys s.rest)
    (hme : s.idle me ≠ none) (hpick : pickNext (putDown s me) me work = (s', some a)) :
    Eases s (takeUp s' me a) := by
  have hp : Eases s s' := (eases_putDown s me).trans (eases_picked hpick)
  have hidle : (putDown s me).idle = s.idle := congrArg Rest.idle (putDown_rest s me)
  have haddrs : (putDown s me).addrs.Nodup := by
    rw [putDown_addrs]
    exact h.addrs
  refine Eases.update hp fun m hm m' heased haddr => ⟨heased.ref, heased.call, ?_, heased.waitOn⟩
  intro _
  have hma : m.addr = a := (congrArg Ref.addr heased.ref).symm.trans haddr
  obtain hpicked | ⟨t, ht, hta, hrun⟩ := pick_cases (hidle ▸ hme) hpick
  · rw [hidle] at hpicked
    right
    exact h.idle_out m.key (List.mem_map_of_mem hm) ⟨me, by rw [show m.key.addr = a from hma]; exact hpicked⟩
  · obtain ⟨x, hx, hxt⟩ := eases_putDown s me t ht
    have hsame : x = m := by
      have haddr' : x.addr = m.addr := ((congrArg Ref.addr hxt.ref).symm.trans hta).trans hma.symm
      have hfind := State.find_of_mem h.addrs hx
      rw [haddr', State.find_of_mem h.addrs hm] at hfind
      exact (Option.some.inj hfind).symm
    subst hsame
    refine hxt.alive (Or.inl ?_)
    intro hdead
    have hstate : (t.released (putDown s me).ticks).state = .dead := by
      rw [Task.released, if_neg (by simp [hdead]), if_neg (by simp [hdead])]
      exact hdead
    obtain ⟨hready | hready, -⟩ := hrun
    · rw [hstate] at hready
      cases hready
    · rw [hstate] at hready
      cases hready

theorem State.has_update {r : Ref} (h : s.has r)
    (hf : ∀ t, (f t).ref = t.ref) : (s.update a f).has r := by
  obtain ⟨t, ht, rfl⟩ := h
  refine ⟨_, List.mem_map_of_mem ht, ?_⟩
  split
  · exact hf t
  · rfl

theorem has_takenUp
    (hpick : pickNext (putDown s me) me work = (s', some a)) {r : Ref} (h : s.has r) :
    (takeUp s' me a).has r := by
  have hkeys := pickNext_keys (putDown s me) me work
  rw [hpick] at hkeys
  have hdown : (putDown s me).has r := by
    unfold putDown
    split
    · exact h
    · refine State.has_update h ?_
      intro t
      rfl
  have hpicked : s'.has r := State.has_of_keys hkeys hdown
  have hup : (s'.update a fun t => { t with onCpu := some me, state := .running }).has r := by
    refine State.has_update hpicked ?_
    intro t
    rfl
  exact hup

theorem pick_some (work : Bool) (hme : s.idle me ≠ none) :
    (pickNext s me work).2 ≠ none := by
  rw [pickNext]
  split
  · exact hme
  · dsimp only
    split
    next a _ => exact Option.some_ne_none a
    next => exact hme

theorem switch_cases (work : Bool) (released : Nat → List Addr)
    (hme : s.started = true → s.idle me ≠ none) :
    schedulerSwitch s me work released = s ∨ ∃ s' a, (signalTakePending s released).idle me ≠ none ∧
      pickNext (putDown (signalTakePending s released) me) me work = (s', some a) ∧
      atCollect s me work released = some (takeUp s' me a) ∧
      schedulerSwitch s me work released = collect (takeUp s' me a) me := by
  by_cases hstop : s.started = false ∨ s.ring = []
  · left
    rw [schedulerSwitch, if_pos hstop]
  · right
    have hsome := hme (by simpa using (not_or.mp hstop).1)
    have htaken : (signalTakePending s released).idle = s.idle := congrArg Rest.idle (signalTakePending_rest s released)
    have hidle : (putDown (signalTakePending s released) me).idle = s.idle := (congrArg Rest.idle (putDown_rest _ me)).trans htaken
    obtain ⟨a, ha⟩ := Option.ne_none_iff_exists'.mp (pick_some work (hidle.symm ▸ hsome))
    have hpick : pickNext (putDown (signalTakePending s released) me) me work =
        ((pickNext (putDown (signalTakePending s released) me) me work).1, some a) := Prod.ext rfl ha
    generalize (pickNext (putDown (signalTakePending s released) me) me work).1 = s' at hpick
    have hat : atCollect s me work released = some (takeUp s' me a) := by
      rw [atCollect, if_neg hstop, hpick]
    exact ⟨s', a, htaken.symm ▸ hsome, hpick, hat, switch_of_atCollect hat⟩

theorem Kept.idle_of (h : Kept s.keys s.rest) (hc : c = boot ∨ s.idle c ≠ none) (hstarted : s.started = true) :
    s.idle c ≠ none := by
  obtain rfl | hc := hc
  · exact h.idle_boot.mp hstarted
  · exact hc

theorem Safe.switched (h : Safe s)
    (hs : Kept s.keys s.rest) (hok : ¬ Strays s (.switch c work released))
    (hstep : step s (.switch c work released) = some s') : Safe s' := by
  have hgo := hstep
  obtain ⟨hc, hgo⟩ := Option.ite_none_right_eq_some.mp hgo
  obtain rfl := Option.some.inj hgo
  obtain hsame | ⟨s', a, hidle, hpick, hat, hswitch⟩ := switch_cases work released (hs.idle_of hc)
  · rw [hsame]
    exact h
  · rw [hswitch] at hstep ⊢
    have htaken : Kept (signalTakePending s released).keys (signalTakePending s released).rest :=
      hs.same (signalTakePending_keys s released) (signalTakePending_rest s released)
    have heases : Eases s (takeUp s' c a) :=
      (eases_take hs.addrs released).trans (eases_takenUp htaken hidle hpick)
    have hhas : ∀ r, s.has r → (takeUp s' c a).has r := fun r hr =>
      has_takenUp hpick (State.has_of_keys (signalTakePending_keys s released) hr)
    intro m' hm' halive r hr
    have hmem := mem_of_collect hm'
    obtain ⟨m, hm, heased⟩ := heases m' hmem
    -- It was there to read, or was woken and was there then.
    have hin : s.has r := by
      obtain ⟨hold, hreads | hwaits⟩ := heased.rereads halive hr
      · exact h m hm hold r hreads
      · by_contra hno
        exact hok (Or.inr (Or.inl ⟨_, hstep, m, hm, r, hwaits, hno, m', hm', heased.ref, heased.call,
          halive, hr⟩))
    -- And it has not been freed.
    obtain ⟨t, ht, rfl⟩ := hhas r hin
    obtain hstay | hfreed := @collect_mem _ c t ht
    · exact ⟨t, hstay, rfl⟩
    · exact absurd (Or.inl ⟨takeUp s' c a, hat, t, hfreed, m', hmem, halive, hr⟩) hok

theorem Kept.switched (h : Kept s.keys s.rest) (hc : c = boot ∨ s.idle c ≠ none)
    (work : Bool) (released : Nat → List Addr) :
    Kept (schedulerSwitch s c work released).keys (schedulerSwitch s c work released).rest := by
  obtain hsame | ⟨s', a, hidle, hpick, -, hswitch⟩ := switch_cases work released (h.idle_of hc)
  · rw [hsame]
    exact h
  · rw [hswitch]
    have htaken : Kept (signalTakePending s released).keys (signalTakePending s released).rest :=
      h.same (signalTakePending_keys s released) (signalTakePending_rest s released)
    exact (htaken.takenUp hidle hpick).collected c

/-! ## `task_wait` -/

theorem has_of_taskByPid {pid : Nat} (h : s.taskByPid pid = some t) :
    t ∈ s.ring ∧ s.has ⟨t.addr, t.gen, pid⟩ := by
  have hmem : t ∈ s.ring := List.mem_of_find?_eq_some h
  have hpid : t.pid = pid := by simpa using List.find?_some h
  refine ⟨hmem, t, hmem, ?_⟩
  rw [Task.ref, hpid]

theorem Safe.atCall (h : Safe s) (hhas : ∀ r, s.has r → w.has r) {c : Call}
    (hw : ∀ m' ∈ w.ring, m'.addr ≠ a → ∃ m ∈ s.ring, (m'.alive → m.alive) ∧ m'.rereads = m.rereads)
    (hc : ∀ m' ∈ w.ring, m'.addr = a → ∀ r, Task.rereads { m' with call := c } = some r → s.has r) :
    Safe (w.atCall a c) := by
  refine h.of_ring (fun r hr => State.has_update (hhas r hr) fun _ => rfl) ?_
  intro x hx
  obtain ⟨m', hm', rfl⟩ := List.mem_map.mp hx
  split
  next ha => exact Or.inr (hc m' hm' ha)
  next ha => exact Or.inl (hw m' hm' ha)

theorem Safe.taskWait (h : Safe s) (a : Addr) (pid : Nat) : Safe (taskWait s a pid) := by
  unfold Sched.taskWait
  split
  · exact h
  next t ht =>
    refine h.atCall (fun _ => id) (fun m hm _ => ⟨m, hm, id, rfl⟩) ?_
    intro m _ _ r hr
    obtain rfl := Option.some.inj hr
    exact (has_of_taskByPid ht).2

theorem mem_update_ne (hf : ∀ t, (f t).addr = t.addr)
    (ht : t ∈ (s.update a f).ring) (ha : t.addr ≠ a) : t ∈ s.ring := by
  obtain ⟨x, hx, rfl⟩ := List.mem_map.mp ht
  by_cases hxa : x.addr = a
  · rw [if_pos hxa, hf] at ha
    exact absurd hxa ha
  · rw [if_neg hxa]
    exact hx

theorem Safe.goOn (h : Safe s) (hs : Kept s.keys s.rest) (hm : running s c = some m) (hother : ¬ FindsOther s (.goOn c))
    (hgo : GoesOn s m s') : Safe s' := by
  have hruns := runs_of_running hm
  have hmem := (State.find_mem hruns.find).1
  have hreads := h m hmem (hs.alive hruns)
  have hsame : ∀ x ∈ s.ring, x.addr ≠ m.addr → ∃ y ∈ s.ring, (x.alive → y.alive) ∧ x.rereads = y.rereads :=
    fun x hx _ => ⟨x, hx, id, rfl⟩
  have hrest : ∀ x ∈ (s.update m.addr fun m => { m with waitOn := 0 }).ring, x.addr ≠ m.addr →
      ∃ y ∈ s.ring, (x.alive → y.alive) ∧ x.rereads = y.rereads := fun x hx hxa =>
    hsame x (mem_update_ne (by intro t; rfl) hx hxa) hxa
  have hhas : ∀ q, s.has q → (s.update m.addr fun m => { m with waitOn := 0 }).has q :=
    fun q hq => State.has_update hq (by intro t; rfl)
  cases hgo with
  | @dead t g pid _ hcall =>
    have hin : s.has ⟨t, g, pid⟩ := hreads _ (by rw [Task.rereads, hcall])
    refine h.atCall (fun _ => id) hsame ?_
    intro y _ _ q hq
    obtain rfl := Option.some.inj hq
    exact hin
  | alive =>
    refine h.atCall (fun _ => id) hsame ?_
    intro y _ _ q hq
    cases hq
  | @block t _ _ hcall =>
    have hne : t ≠ 0 := by
      have hreal := hs.real m.key (List.mem_map_of_mem hmem)
      rw [show m.key.call = m.call from rfl, hcall] at hreal
      exact hreal
    refine Safe.atCall (w := waitOn s m.addr t 1000) h
      (fun q hq => State.has_update (s := s) hq (by intro t; rfl)) ?_ ?_
    · intro x hx hxa
      exact hsame x (mem_update_ne (by intro t; rfl) hx hxa) hxa
    · intro x hx hxa q hq
      obtain ⟨y, hy, rfl⟩ := List.mem_map.mp hx
      split at hq
      next =>
        rw [Task.rereads] at hq
        dsimp only at hq
        rw [if_neg hne] at hq
        cases hq
      next hya =>
        rw [if_neg hya] at hxa
        exact absurd hxa hya
  | woken hcall hwoken =>
    refine h.atCall hhas hrest ?_
    intro y _ _ q hq
    obtain rfl := Option.some.inj hq
    exact hreads _ (by rw [Task.rereads, hcall]; exact if_pos hwoken)
  | gone =>
    refine h.atCall hhas hrest ?_
    intro y _ _ q hq
    cases hq
  | @late t g pid hcall hlate hfound =>
    have hpid : (s.update m.addr fun m => { m with waitOn := 0 }).taskByPid pid = none ↔
        s.taskByPid pid = none := by
      have hkeys := @State.taskByPid_key s (s.update m.addr fun m => { m with waitOn := 0 })
        (State.update_keys fun _ => rfl) pid
      rw [← Option.map_eq_none_iff (f := Task.key), hkeys, Option.map_eq_none_iff]
    refine h.atCall hhas hrest ?_
    intro y _ _ q hq
    obtain rfl := Option.some.inj hq
    by_contra hno
    refine hother ⟨m, hm, ⟨t, g, pid⟩, ?_, fun hnone => hfound (hpid.mpr hnone), hno⟩
    rw [Task.waits, hcall]
    exact if_neg hlate
  | take =>
    refine h.atCall (fun q hq => State.has_update hq (by intro t; rfl)) ?_ ?_
    · intro y hy hya
      obtain ⟨z, hz, rfl⟩ := List.mem_map.mp hy
      refine ⟨z, hz, ?_⟩
      split
      · exact ⟨id, rfl⟩
      · exact ⟨id, rfl⟩
    · intro y _ _ q hq
      cases hq

theorem Kept.taskWait (h : Kept s.keys s.rest) (ha : ¬ s.isIdle a) (pid : Nat) :
    Kept (Sched.taskWait s a pid).keys (Sched.taskWait s a pid).rest := by
  unfold Sched.taskWait
  split
  · exact h
  next t ht => exact h.atCall ha (h.addr_ne t.key (List.mem_map_of_mem (has_of_taskByPid ht).1))

theorem Kept.goOn (h : Kept s.keys s.rest) (hm : Runs s c m) (hgo : GoesOn s m s') : Kept s'.keys s'.rest := by
  have hreal := h.real m.key (List.mem_map_of_mem (State.find_mem hm.find).1)
  rw [show m.key.call = m.call from rfl] at hreal
  have hup : Kept (s.update m.addr fun m => { m with waitOn := 0 }).keys
      (s.update m.addr fun m => { m with waitOn := 0 }).rest :=
    h.same (State.update_keys fun _ => rfl) rfl
  cases hgo with
  | dead => exact h.atCall hm.not_idle trivial
  | alive hcall =>
    rw [hcall] at hreal
    exact h.atCall hm.not_idle hreal
  | @block t _ _ hcall =>
    rw [hcall] at hreal
    have hwait : Kept (waitOn s m.addr t 1000).keys (waitOn s m.addr t 1000).rest :=
      h.same (State.update_keys fun _ => rfl) rfl
    exact hwait.atCall hm.not_idle hreal
  | woken hcall | late hcall =>
    rw [hcall] at hreal
    exact hup.atCall hm.not_idle hreal
  | gone => exact hup.atCall hm.not_idle trivial
  | @take t =>
    have hup : Kept (s.update t fun r => { r with reaped := true }).keys
        (s.update t fun r => { r with reaped := true }).rest :=
      h.same (State.update_keys fun _ => rfl) rfl
    exact hup.atCall hm.not_idle trivial

theorem signalSend_keys (s : State) (pid sig : Nat) : (signalSend s pid sig).keys = s.keys := by
  unfold signalSend
  split
  · rfl
  · split
    · rfl
    · exact State.update_keys fun _ => rfl

theorem signalDisposition_keys (s : State) (pid sig how : Nat) :
    (signalDisposition s pid sig how).keys = s.keys := by
  unfold signalDisposition
  split
  · rfl
  · split
    · rfl
    · exact State.update_keys fun _ => rfl

theorem signalSend_rest (s : State) (pid sig : Nat) : (signalSend s pid sig).rest = s.rest := by
  unfold signalSend
  split
  · rfl
  · split <;> rfl

theorem signalDisposition_rest (s : State) (pid sig how : Nat) :
    (signalDisposition s pid sig how).rest = s.rest := by
  unfold signalDisposition
  split
  · rfl
  · split <;> rfl

theorem eases_signalSend (s : State) (pid sig : Nat) : Eases s (signalSend s pid sig) := by
  unfold signalSend
  split
  · exact Eases.refl s
  · split
    · exact Eases.refl s
    · exact (Eases.refl s).aside (by intro t; rfl) (by intro t; rfl) (by intro t; rfl)

theorem eases_signalDisposition (s : State) (pid sig how : Nat) :
    Eases s (signalDisposition s pid sig how) := by
  unfold signalDisposition
  split
  · exact Eases.refl s
  · split
    · exact Eases.refl s
    · exact (Eases.refl s).aside (by intro t; rfl) (by intro t; rfl) (by intro t; rfl)

theorem Kept.step {a : Action} (h : Kept s.keys s.rest) (hstep : step s a = some s') :
    Kept s'.keys s'.rest := by
  cases step_cases hstep with
  | tick => exact ⟨h.nodup, h.once, h.idle_boot, h.addr_ne, h.on, h.idle_out, h.real⟩
  | wake channel only_one => exact h.same (wake_keys s channel only_one) (wake_rest s channel only_one)
  | waitOn | waited | taskSleep => exact h.same (State.update_keys fun _ => rfl) rfl
  | @taskExit _ m =>
    exact h.same ((wake_keys _ m.addr false).trans (State.update_keys fun _ => rfl)) (wake_rest _ m.addr false)
  | taskCreate hfits => exact h.inserted hfits rfl
  | taskFork _ hfits => exact h.inserted hfits rfl
  | schedStart hstopped hfits => exact h.started hfits hstopped
  | schedAdoptAp hc hfits => exact h.adopted hc hfits
  | signalSend pid sig => exact h.same (signalSend_keys s pid sig) (signalSend_rest s pid sig)
  | @signalDisposition _ m sig how =>
    exact h.same (signalDisposition_keys s m.pid sig how) (signalDisposition_rest s m.pid sig how)
  | delivered => exact h.same (State.update_keys fun _ => rfl) rfl
  | @ended _ m _ released =>
    exact h.same ((signalEndTask_keys _ m.pid _ released).trans (State.update_keys fun _ => rfl))
      (signalEndTask_rest _ m.pid _ released)
  | @sysKill _ _ pid released =>
    exact h.same (signalEndTask_keys s pid (-1) released) (signalEndTask_rest s pid (-1) released)
  | @switch _ work released hc => exact h.switched hc work released
  | @taskWait _ _ pid hm => exact h.taskWait (runs_of_acting hm).1.not_idle pid
  | goOn hm hgo => exact h.goOn (runs_of_running hm) hgo

theorem Safe.step {a : Action} (h : Safe s) (hs : Kept s.keys s.rest) (hok : ¬ Strays s a)
    (hstep : step s a = some s') : Safe s' := by
  have hcalm := @Safe.calm s s' a h hok hstep
  cases step_cases hstep with
  | tick => exact h
  | wake channel only_one => exact hcalm (eases_wake s channel only_one) (wake_keys s channel only_one)
  | waitOn hm | waited hm | taskSleep hm =>
    exact hcalm (eases_acting hs.addrs hm (Eases.refl s) (by intro t; rfl)) (State.update_keys fun _ => rfl)
  | @taskExit _ m _ hm =>
    exact hcalm ((eases_acting hs.addrs hm (Eases.refl s) (by intro t; rfl)).trans (eases_wake _ _ _))
      ((wake_keys _ m.addr false).trans (State.update_keys fun _ => rfl))
  | taskCreate | taskFork | schedStart => exact h.fresh (List.perm_append_singleton _ _) rfl
  | schedAdoptAp =>
    unfold schedAdoptAp
    split
    · exact h
    · exact h.fresh (adopt_ring_perm s.ring _) rfl
  | signalSend pid sig => exact hcalm (eases_signalSend s pid sig) (signalSend_keys s pid sig)
  | @signalDisposition _ m sig how hm =>
    exact hcalm (eases_signalDisposition s m.pid sig how) (signalDisposition_keys s m.pid sig how)
  | delivered hm =>
    exact hcalm (eases_acting hs.addrs hm (Eases.refl s) (by intro t; rfl)) (State.update_keys fun _ => rfl)
  | @ended _ m sig released hm =>
    have hup : Eases s (s.update m.addr fun m =>
        { m with sigPending := Function.update m.sigPending sig false }) :=
      eases_acting hs.addrs hm (Eases.refl s) (by intro t; rfl)
    have hkeys : (s.update m.addr fun m =>
        { m with sigPending := Function.update m.sigPending sig false }).keys = s.keys :=
      State.update_keys fun _ => rfl
    refine hcalm (hup.trans (eases_end ?_ m.pid _ released))
      ((signalEndTask_keys _ m.pid _ released).trans hkeys)
    rw [State.addrs_of_keys hkeys]
    exact hs.addrs
  | @sysKill _ _ pid released hm =>
    exact hcalm (eases_end hs.addrs pid (-1) released) (signalEndTask_keys s pid (-1) released)
  | switch => exact h.switched hs hok hstep
  | @taskWait _ m pid hm => exact h.taskWait m.addr pid
  | goOn hm hgo => exact h.goOn hs hm (fun hno => hok (Or.inr (Or.inr hno))) hgo

theorem kept_init (ticks : Nat) : Kept (schedInit ticks).keys (schedInit ticks).rest := by
  refine ⟨List.nodup_nil, List.Perm.refl _, ?_, ?_, ?_, ?_, ?_⟩
  · simp [schedInit, State.rest]
  · intro k hk
    cases hk
  · intro c a hcur
    cases hcur
  · intro k hk
    cases hk
  · intro k hk
    cases hk

/-! ## Each exit is collected once -/

/-- Each record made is in the ring or was freed once; a switch frees the dead whose status was taken or whose time is
up; a task in `task_wait` reads the record it found under the pid, and answers its status. -/
structure Collected (s : State) : Prop where
  once : List.Perm (s.ring.map (·.gen) ++ s.freed) (List.range s.born)
  freed : ∀ c work released t, atCollect s c work released = some t →
    (schedulerSwitch s c work released).freed = s.freed ++ (toFree t c).map (·.gen) ∧
      ∀ n ∈ toFree t c, n ∈ t.ring ∧ n.state = .dead ∧ n.onCpu = none ∧
        (n.reaped = true ∨ n.diedAt ≠ 0 ∧ t.ticks > n.diedAt + REAP_GRACE)
  frees : ∀ c work released t, atCollect s c work released = some t → ∀ n ∈ t.ring.tail.take 4096,
    canCollect t c n → n ∈ toFree t c ∨ ∃ first, t.ring.tail.head? = some first ∧ toFree t c = [first]
  reads : ∀ c m t g pid, running s c = some m → m.call = .check t g pid ∨ m.call = .take t g pid →
    ∃ r, s.find t = some r ∧ r.gen = g ∧ r.pid = pid
  status : ∀ c m s' st, running s c = some m → goOn s m = some (s', some st) →
    (∃ t g pid, m.call = .wait t g pid ∧ st = -1) ∨
      ∃ t g pid, m.call = .take t g pid ∧ ∃ r ∈ s.ring, r.gen = g ∧ r.pid = pid ∧ st = r.exitStatus

theorem atCollect_freed {t : State}
    (h : atCollect s c work released = some t) : t.freed = s.freed := by
  unfold atCollect at h
  split at h
  · cases h
  · split at h
    · cases h
    next s' a hpick =>
      obtain rfl := Option.some.inj h
      exact congrArg Rest.freed ((pickNext_rest hpick).trans
        ((putDown_rest _ c).trans (signalTakePending_rest s released)))

theorem collected_of (hs : Kept s.keys s.rest) (h : Safe s) : Collected s := by
  have hreads : ∀ c m t g pid, running s c = some m → m.call = .check t g pid ∨ m.call = .take t g pid →
      ∃ r, s.find t = some r ∧ r.gen = g ∧ r.pid = pid := by
    intro c m t g pid hm hcall
    have hruns := runs_of_running hm
    have hread : m.rereads = some ⟨t, g, pid⟩ := by
      obtain hcall | hcall := hcall
      · rw [Task.rereads, hcall]
      · rw [Task.rereads, hcall]
    obtain ⟨r, hr, href⟩ := h m (State.find_mem hruns.find).1 (hs.alive hruns) _ hread
    have hfind := State.find_of_mem hs.addrs hr
    rw [show r.addr = t from congrArg Ref.addr href] at hfind
    exact ⟨r, hfind, congrArg Ref.gen href, congrArg Ref.pid href⟩
  refine ⟨?_, ?_, ?_, hreads, ?_⟩
  · have honce := hs.once
    rw [State.keys, List.map_map] at honce
    exact honce
  · intro c work released t ht
    refine ⟨?_, ?_⟩
    · rw [switch_of_atCollect ht, collect_freed, atCollect_freed ht]
    · intro n hn
      obtain ⟨hmem, hdead, -, hoff, hdue⟩ := pass_freed hn
      exact ⟨List.mem_of_mem_tail hmem, hdead, hoff, hdue⟩
  · intro c work released t _ n hn hcan
    exact toFree_of_collectable hn hcan
  · intro c m s' st hm hgo
    unfold goOn at hgo
    split at hgo
    · cases hgo
    · obtain ⟨x, -, hx⟩ := Option.bind_eq_some_iff.mp hgo
      split at hx
      · cases hx
      · cases hx
    · cases hgo
    next t g pid hcall =>
      dsimp only at hgo
      split at hgo
      · cases hgo
      · split at hgo
        · obtain ⟨-, hst⟩ := Prod.mk.inj (Option.some.inj hgo)
          exact Or.inl ⟨t, g, pid, hcall, (Option.some.inj hst).symm⟩
        · cases hgo
    next t g pid hcall =>
      obtain ⟨r, hr, hgen, hpid⟩ := hreads c m t g pid hm (Or.inr hcall)
      obtain ⟨x, hx, hgo⟩ := Option.bind_eq_some_iff.mp hgo
      rw [hr] at hx
      obtain rfl := Option.some.inj hx
      obtain ⟨-, hst⟩ := Prod.mk.inj (Option.some.inj hgo)
      exact Or.inr ⟨t, g, pid, hcall, r, (State.find_mem hr).1, hgen, hpid, (Option.some.inj hst).symm⟩

/-- In a run none of whose steps strays, every exit is collected once. -/
theorem task_wait_collects {ticks : Nat} {as : List Action} {s : State}
    (h : run (schedInit ticks) as = some s)
    (hok : Runs.Each step (fun s a => ¬ Strays s a) (schedInit ticks) as) : Collected s := by
  have hboth : Kept s.keys s.rest ∧ Safe s := by
    refine @Runs.inv_of_each _ _ step (fun s => Kept s.keys s.rest ∧ Safe s) _ ?_ _ _ as ?_ hok h
    · intro s a s' hs hright hstep
      exact ⟨hs.1.step hstep, hs.2.step hs.1 hright hstep⟩
    · refine ⟨kept_init ticks, ?_⟩
      intro m hm
      cases hm
  exact collected_of hboth.1 hboth.2

/-- A task waits for another, which exits; it takes the status, and the record is freed. -/
def onePair : List Action :=
  [.taskCreate 1 false, .taskCreate 2 false, .taskCreate 3 false, .schedStart 4,
    .switch boot false fun _ => [], .taskWait boot 3, .goOn boot, .goOn boot,
    .switch boot false fun _ => [], .taskSleep boot 5000,
    .switch boot false fun _ => [], .taskExit boot 7,
    .switch boot false fun _ => [], .goOn boot, .goOn boot, .goOn boot,
    .switch boot false fun _ => []]

theorem onePair_collects : ∃ s, run (schedInit 1) onePair = some s ∧ s.freed = [2] ∧ Collected s := by
  have hfreed : (run (schedInit 1) onePair).map (·.freed) = some [2] := by decide +kernel
  obtain ⟨s, hs, hlast⟩ := Option.map_eq_some_iff.mp hfreed
  exact ⟨s, hs, hlast, task_wait_collects hs (by decide +kernel)⟩

/-- Two tasks wait for a third, which exits. The first takes the status, and is switched away from. -/
def twoWaiters : List Action :=
  [.taskCreate 1 false, .taskCreate 2 false, .taskCreate 3 false, .taskCreate 4 false, .schedStart 5,
    .switch boot false fun _ => [], .taskSleep boot 5000,
    .switch boot false fun _ => [], .taskWait boot 4, .goOn boot, .goOn boot,
    .switch boot false fun _ => [], .taskWait boot 4, .goOn boot, .goOn boot,
    .switch boot false fun _ => [], .taskExit boot 7,
    .switch boot false fun _ => [], .goOn boot, .goOn boot, .goOn boot,
    .switch boot false fun _ => [], .goOn boot]

/-- The second is about to read the record, which has been freed. -/
theorem twoWaiters_reads_freed : ∃ s m, run (schedInit 1) twoWaiters = some s ∧ running s boot = some m ∧
    m.call = .check 4 3 4 ∧ s.find 4 = none ∧ 3 ∈ s.freed := by
  have hlast : ((run (schedInit 1) twoWaiters).bind fun s => (running s boot).map fun m =>
      (m.call, (s.find 4).isSome, decide (3 ∈ s.freed))) = some (.check 4 3 4, false, true) := by
    decide +kernel
  obtain ⟨s, hs, hmap⟩ := Option.bind_eq_some_iff.mp hlast
  obtain ⟨m, hm, htriple⟩ := Option.map_eq_some_iff.mp hmap
  obtain ⟨hcall, hrest⟩ := Prod.mk.inj htriple
  obtain ⟨hnone, hfreed⟩ := Prod.mk.inj hrest
  exact ⟨s, m, hs, hm, hcall, by simpa using hnone, of_decide_eq_true hfreed⟩

end Zelr.Sched
