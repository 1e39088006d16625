import Zelr.User.Break

/-!
# Memory below the break

Over any calls, what is below the lowest break keeps its contents, and a call that fails leaves the
break and all below it.
-/

namespace Zelr.User

open Act Paging
open Pmm (put_same put_other)

/-- Some pages are zeros now, from page `n` on. -/
def grown (a : Space) (n k : Nat) : Space := fun i => if n ≤ i ∧ i < n + k then some (zeroPage true) else a i

def HEAP_PAGES : Nat := 0x28000

def mappedPages (m : Machine) (dir : Nat) : Nat :=
  countFrames HEAP_PAGES fun i => virtIsUserIn m.mem dir (pagesOn USER_HEAP_BASE i)

section Pages

variable {g : Labels} {m m' : Machine} {R : Nat → Option Space} {a : Space} {dir : Nat} {first limit : Word}
  {log log' : List Nat} {r : Option Unit}

theorem grown_zero (a : Space) (n : Nat) : grown a n 0 = a := by
  funext i
  unfold grown
  rw [if_neg (by omega)]

theorem grown_succ (a : Space) (n k : Nat) : Pmm.put (grown a n k) (n + k) (some (zeroPage true)) = grown a n (k + 1) := by
  funext i
  by_cases hi : i = n + k
  · subst hi
    rw [put_same]
    unfold grown
    rw [if_pos (by omega)]
  · rw [put_other _ _ hi]
    unfold grown
    by_cases hin : n ≤ i ∧ i < n + k
    · rw [if_pos hin, if_pos (by omega)]
    · rw [if_neg hin, if_neg (by omega)]

theorem heap_page (first : Word) {k : Nat} (hlo : 0x8010000000 ≤ first.toNat) (hhi : first.toNat + k * 4096 < 0x8038000000)
    (haligned : first.toNat % 4096 = 0) :
    IsUser (pagesOn first k) ∧ pageNumber (pagesOn first k) = pageNumber first + k := by
  have hplace : (pagesOn first k).toNat = first.toNat + k * 4096 := pagesOn_toNat (by omega)
  unfold IsUser pageNumber PAGE_SIZE USER_SPACE_BASE USER_SPACE_END
  rw [hplace]
  omega

theorem growPages_spec (hs : Shows g m R) (live : R dir = some a) (hlo : 0x8010000000 ≤ first.toNat)
    (hhi : limit.toNat ≤ 0x8038000000) (haligned : first.toNat % 4096 = 0)
    (h : forPages (fun va => logged (allocUserPage dir va)) first limit (m, log) = (r, (m', log'))) :
    ∃ k g', k ≤ pagesBetween first limit ∧ (r = some () → k = pagesBetween first limit) ∧
      log'.length = log.length + k ∧ Shows g' m' (Pmm.put R dir (some (grown a (pageNumber first) k))) := by
  obtain ⟨n, hn⟩ : ∃ n, n = pagesBetween first limit := ⟨_, rfl⟩
  have hpages : ∀ k, k < n → first.toNat + k * 4096 < 0x8038000000 := by
    intro k hk
    rw [hn] at hk
    unfold pagesBetween at hk
    omega
  have hwrap : first.toNat + n * 4096 < 2 ^ 64 := by
    have hlt := first.isLt
    rw [hn]
    unfold pagesBetween
    omega
  obtain ⟨I, hI⟩ : ∃ I : Nat → Machine × List Nat → Prop, I = fun k s =>
      ∃ g', s.2.length = log.length + k ∧ Shows g' s.1 (Pmm.put R dir (some (grown a (pageNumber first) k))) := ⟨_, rfl⟩
  have hloop := forPages_triple (fun va => logged (allocUserPage dir va)) first limit
    (I := I) (E := fun s => ∃ k, k ≤ n ∧ I k s) (by
    rw [← hn]
    exact hwrap) (by
    intro k hk s hs'
    rw [← hn] at hk
    rw [hI] at hs' ⊢
    obtain ⟨g', hlen, hs'⟩ := hs'
    obtain ⟨huser, hnumber⟩ := heap_page first hlo (hpages k hk) haligned
    rcases halloc : allocUserPage dir (pagesOn first k) s.1 with ⟨_ | f, m1⟩
    · obtain ⟨g'', hs''⟩ := hs'.refused (put_same _ _ _) huser (by decide) halloc
      unfold logged
      rw [halloc]
      exact ⟨k, by omega, g'', hlen, hs''⟩
    · have hmap : ∃ g'', Shows g'' m1 (Pmm.put (Pmm.put R dir (some (grown a (pageNumber first) k))) dir
          (some (Pmm.put (grown a (pageNumber first) k) (pageNumber (pagesOn first k)) (some (zeroPage true))))) :=
        hs'.map (put_same _ _ _) huser (by decide) (by decide) (by decide) halloc
      obtain ⟨g'', hs''⟩ := hmap
      have hput : Pmm.put (Pmm.put R dir (some (grown a (pageNumber first) k))) dir
          (some (Pmm.put (grown a (pageNumber first) k) (pageNumber (pagesOn first k)) (some (zeroPage true)))) =
          Pmm.put R dir (some (grown a (pageNumber first) (k + 1))) := by
        rw [hnumber, grown_succ, Pmm.put_put]
      rw [hput] at hs''
      unfold logged
      rw [halloc]
      exact ⟨g'', by rw [List.length_cons, hlen, Nat.add_assoc], hs''⟩)
  have hend := hloop (m, log) (by
    rw [hI]
    exact ⟨g, rfl, by rwa [grown_zero, put_self live]⟩)
  rw [h] at hend
  rw [← hn] at hend ⊢
  rcases r with _ | ⟨⟩
  · obtain ⟨k, hk, hend⟩ := hend
    rw [hI] at hend
    obtain ⟨g', hlen, hs'⟩ := hend
    exact ⟨k, g', hk, fun hr => absurd hr (by simp), hlen, hs'⟩
  · rw [hI] at hend
    obtain ⟨g', hlen, hs'⟩ := hend
    exact ⟨n, g', le_refl _, fun _ => rfl, hlen, hs'⟩

/-! ## Counting -/

theorem mappedPages_eq (hs : Shows g m R) (live : R dir = some a) :
    mappedPages m dir = countFrames HEAP_PAGES fun i => (a (pageNumber USER_HEAP_BASE + i)).isSome := by
  apply countFrames_congr
  intro i hi
  unfold HEAP_PAGES at hi
  obtain ⟨huser, hnumber⟩ := heap_page USER_HEAP_BASE (k := i) (by decide) (by rw [heap_base_toNat]; omega)
    (by decide)
  rw [virtIsUserIn_reads hs live huser, hnumber]

theorem countFrames_grown {n N base : Nat} (hlo : base ≤ n) : ∀ k, n + k ≤ base + N →
    (∀ i, i < k → a (n + i) = none) →
      countFrames N (fun i => (grown a n k (base + i)).isSome) = countFrames N (fun i => (a (base + i)).isSome) + k := by
  intro k
  induction k with
  | zero =>
    intro _ _
    rw [grown_zero, Nat.add_zero]
  | succ k ih =>
    intro hhi hnone
    have hat : base + (n + k - base) = n + k := by omega
    rw [countFrames_add (f := n + k - base) (b := fun i => (grown a n k (base + i)).isSome) (by omega)
      (by
        rw [hat]
        unfold grown
        rw [if_neg (by omega), hnone k (by omega)]
        rfl)
      (by
        rw [hat]
        unfold grown
        rw [if_pos (by omega)]
        rfl)
      (by
        intro j hj
        rw [← grown_succ, put_other _ _ (by omega)])]
    rw [ih (by omega) fun i hi => hnone i (by omega), Nat.add_assoc]

theorem countFrames_first {n N : Nat} (k : Nat) (h : k ≤ N) :
    countFrames N (fun i => (grown (fun _ => none) n k (n + i)).isSome) = k := by
  rw [countFrames_grown (a := fun _ => none) (le_refl n) k (by omega) fun _ _ => rfl]
  simp [countFrames]

end Pages

/-! ## Runs -/

structure Program where
  machine : Machine
  spaces : Nat → Option Space
  task : Task
  /-- the frames taken for the heap -/
  held : List Nat

inductive Event where
  | sbrk (delta : Word)
  | store (virt : Word) (f : Word → Word)
  /-- anything the kernel does to the other spaces -/
  | elsewhere (op : Op)

def Elsewhere (dir : Nat) : Op → Prop
  | .new => True
  | .alloc d _ => d ≠ dir
  | .fill d _ _ => d ≠ dir
  | .clone d => d ≠ dir
  | .store d _ _ => d ≠ dir
  | .fault d _ => d ≠ dir
  | .free d => d ≠ dir

def firstPage (t : Task) : Nat := pageNumber (roundUp (breakOf t))

inductive Does : Event → Program → Program → Prop
  | sbrk {s : Program} {m : Machine} {t : Task} {a : Space} {held : List Nat} {delta : Word} {r : Option Word}
    (live : s.spaces s.task.dir = some a)
    (call : sbrkLogged delta ⟨(s.machine, s.held), s.task⟩ = (r, ⟨(m, held), t⟩)) :
    Does (.sbrk delta) s
      ⟨m, Pmm.put s.spaces s.task.dir (some (grown a (firstPage s.task) (held.length - s.held.length))), t, held⟩
  | store {s : Program} {m : Machine} {R : Nat → Option Space} {virt : Word} {f : Word → Word}
    (call : Paging.Step (.store s.task.dir virt f) ⟨s.machine, s.spaces⟩ ⟨m, R⟩) :
    Does (.store virt f) s ⟨m, R, s.task, s.held⟩
  | elsewhere {s : Program} {m : Machine} {R : Nat → Option Space} {op : Op} (other : Elsewhere s.task.dir op)
    (call : Paging.Step op ⟨s.machine, s.spaces⟩ ⟨m, R⟩) : Does (.elsewhere op) s ⟨m, R, s.task, s.held⟩

def Acts : Program → Program → Prop := Relation.ReflTransGen fun s s' => ∃ e, Does e s s'

def OverNone (s : Program) : Event → Prop
  | .sbrk delta => (breakOf s.task + delta).toNat ≤ USER_HEAP_MAX.toNat → ∀ x : Word,
      (roundUp (breakOf s.task)).toNat ≤ x.toNat → x.toNat < (roundUp (breakOf s.task + delta)).toNat →
        virtIsUserIn s.machine.mem s.task.dir x = false
  | _ => True

def ClearActs : Program → Program → Prop := Relation.ReflTransGen fun s s' => ∃ e, OverNone s e ∧ Does e s s'

/-- Events that store nothing in the word of an address, with the break above it after each. -/
def KeptActs (x : Word) : Program → Program → Prop := Relation.ReflTransGen fun s s' =>
  ∃ e, Does e s s' ∧ x.toNat < (breakOf s'.task).toNat ∧
    ∀ virt f, e = .store virt f → ¬(pageNumber virt = pageNumber x ∧ wordOf virt = wordOf x)

structure Entered (s : Program) : Prop where
  machine : ∃ m, Booted m ∧ Paging.Run ⟨m, fun _ => none⟩ ⟨s.machine, s.spaces⟩
  live : (s.spaces s.task.dir).isSome
  task : s.task.brkBase = 0
  empty : mappedPages s.machine s.task.dir = 0
  held : s.held = []

structure Healthy (s : Program) : Prop where
  shows : ∃ g, Shows g s.machine s.spaces
  live : (s.spaces s.task.dir).isSome
  task : HeapTask s.task

section Runs

variable {s s' : Program} {e : Event} {g : Labels} {m m' : Machine} {t t' : Task} {R R' : Nat → Option Space} {a : Space}
  {delta x : Word} {held held' : List Nat} {r : Option Word}

theorem Entered.healthy (h : Entered s) : Healthy s := by
  obtain ⟨m, hboot, hrun⟩ := h.machine
  exact ⟨hrun.shows ⟨_, hboot.shows⟩, h.live, Or.inl h.task⟩

theorem breakOf_begun (t : Task) : breakOf (begun t) = breakOf t := by
  by_cases h : t.brkBase = 0
  · have hne : USER_HEAP_BASE ≠ 0 := by decide
    unfold breakOf
    rw [begun, if_neg]
    unfold begun
    rw [if_pos h]
    exact hne
  · unfold breakOf
    rw [show begun t = t from if_neg h, show begun t = t from if_neg h]

theorem sbrkLogged_spec (hs : Shows g m R) (live : R t.dir = some a) (ht : HeapTask t)
    (h : sbrkLogged delta ⟨(m, held), t⟩ = (r, ⟨(m', held'), t'⟩)) :
    ∃ k g', Shows g' m' (Pmm.put R t.dir (some (grown a (firstPage t) k))) ∧ held'.length = held.length + k ∧
      t'.dir = t.dir ∧ HeapTask t' ∧ (r = none → breakOf t' = breakOf t) ∧
      (k ≠ 0 → (breakOf t + delta).toNat ≤ USER_HEAP_MAX.toNat ∧
        (roundUp (breakOf t)).toNat + k * 4096 ≤ (roundUp (breakOf t + delta)).toNat) := by
  obtain ⟨hbase, hlow, hhigh⟩ := ht.begun
  rw [heap_base_toNat] at hlow
  rw [heap_max_toNat] at hhigh
  have hdir := shows_dir_pos hs live
  have hsame : Shows g m (Pmm.put R t.dir (some (grown a (firstPage t) 0))) := by rwa [grown_zero, put_self live]
  rcases sbrkWith_cases hdir ht h with ⟨hm, rfl, -⟩ | ⟨hm, rfl, brk, hblow, hbhigh, rfl⟩ | ⟨hle, hmax, hloop⟩
  · cases hm
    exact ⟨0, g, hsame, rfl, begun_dir t, ht.of_begun, fun _ => breakOf_begun t, fun hk => absurd rfl hk⟩
  · cases hm
    refine ⟨0, g, hsame, rfl, begun_dir t, Or.inr ⟨hbase, hblow, ?_⟩, fun hr => absurd hr (by simp), fun hk => absurd rfl hk⟩
    show brk.toNat ≤ USER_HEAP_MAX.toNat
    rw [heap_max_toNat]
    omega
  · rw [heap_max_toNat] at hmax
    have hfirst : (roundUp (breakOf t)).toNat = ((breakOf t).toNat + 4095) / 4096 * 4096 := by
      rw [roundUp_toNat, Nat.mod_eq_of_lt (by omega)]
    have hlast : (roundUp (breakOf t + delta)).toNat = ((breakOf t + delta).toNat + 4095) / 4096 * 4096 := by
      rw [roundUp_toNat, Nat.mod_eq_of_lt (by omega)]
    obtain ⟨r', hrun⟩ : ∃ r', forPages (fun va => logged (allocUserPage t.dir va)) (roundUp (breakOf t))
        (roundUp (breakOf t + delta)) (m, held) = (r', (m', held')) := by
      rcases hloop with ⟨hrun, -⟩ | ⟨hrun, -⟩
      · exact ⟨_, hrun⟩
      · exact ⟨_, hrun⟩
    obtain ⟨k, g', hk, -, hlen, hs'⟩ := growPages_spec hs live (by omega) (by omega) (by omega) hrun
    have hpages : (roundUp (breakOf t)).toNat + k * 4096 ≤ (roundUp (breakOf t + delta)).toNat := by
      unfold pagesBetween at hk
      omega
    refine ⟨k, g', hs', hlen, ?_⟩
    rcases hloop with ⟨-, rfl, rfl⟩ | ⟨-, rfl, rfl⟩
    · exact ⟨begun_dir t, ht.of_begun, fun _ => breakOf_begun t, fun _ => ⟨by rw [heap_max_toNat]; exact hmax, hpages⟩⟩
    · refine ⟨begun_dir t, Or.inr ⟨hbase, ?_, ?_⟩, fun hr => absurd hr (by simp),
        fun _ => ⟨by rw [heap_max_toNat]; exact hmax, hpages⟩⟩
      · show USER_HEAP_BASE.toNat ≤ (breakOf t + delta).toNat
        rw [heap_base_toNat]
        omega
      · show (breakOf t + delta).toNat ≤ USER_HEAP_MAX.toNat
        rw [heap_max_toNat]
        exact hmax

theorem elsewhere_same {op : Op} (hs : Shows g m R) (hother : Elsewhere t.dir op) (live : R t.dir = some a)
    (h : Paging.Step op ⟨m, R⟩ ⟨m', R'⟩) : R' t.dir = some a := by
  cases h with
  | new call =>
    obtain ⟨hnone, -⟩ := hs.new call
    rw [put_other, live]
    intro hd
    rw [← hd, live] at hnone
    cases hnone
  | alloc _ _ _ => rw [put_other _ _ (Ne.symm hother), live]
  | fill _ _ _ => rw [put_other _ _ (Ne.symm hother), live]
  | clone live' call =>
    obtain ⟨hnone, -⟩ := hs.clone live' call
    rw [put_other, live]
    intro hd
    rw [← hd, live] at hnone
    cases hnone
  | store _ _ _ => rw [put_other _ _ (Ne.symm hother), live]
  | fault _ _ _ => exact live
  | free _ _ => rw [put_other _ _ (Ne.symm hother), live]

theorem Does.healthy (h : Does e s s') (hs : Healthy s) : Healthy s' ∧ s'.task.dir = s.task.dir := by
  obtain ⟨⟨g, hg⟩, hlive, htask⟩ := hs
  cases h with
  | @sbrk _ m t a held delta r live call =>
    obtain ⟨k, g', hg', hlen, hdir, htask', -⟩ := sbrkLogged_spec hg live htask call
    have hk : held.length - s.held.length = k := by omega
    refine ⟨⟨⟨g', by rw [hk]; exact hg'⟩, ?_, htask'⟩, hdir⟩
    show (Pmm.put s.spaces s.task.dir _ t.dir).isSome
    rw [hdir, put_same]
    rfl
  | store call =>
    refine ⟨⟨call.shows ⟨g, hg⟩, ?_, htask⟩, rfl⟩
    cases call with
    | store _ _ _ =>
      show (Pmm.put s.spaces s.task.dir _ s.task.dir).isSome
      rw [put_same]
      rfl
  | elsewhere other call =>
    obtain ⟨a, live⟩ := Option.isSome_iff_exists.mp hlive
    refine ⟨⟨call.shows ⟨g, hg⟩, ?_, htask⟩, rfl⟩
    exact Option.isSome_iff_exists.mpr ⟨a, elsewhere_same hg other live call⟩

theorem Acts.healthy (h : Acts s s') (hs : Healthy s) : Healthy s' := by
  induction h with
  | refl => exact hs
  | tail _ hstep ih =>
    obtain ⟨e, hstep⟩ := hstep
    exact (hstep.healthy ih).1

/-! ## Contents -/

theorem grown_below {k : Nat} (ht : HeapTask t) (hx : x.toNat < (breakOf t).toNat) :
    grown a (firstPage t) k (pageNumber x) = a (pageNumber x) := by
  obtain ⟨-, hlow, hhigh⟩ := ht.begun
  rw [heap_max_toNat] at hhigh
  unfold grown firstPage pageNumber PAGE_SIZE
  rw [roundUp_toNat, Nat.mod_eq_of_lt (by omega), if_neg (by omega)]

theorem Does.load (h : Does e s s') (hs : Healthy s) (huser : IsUser x) (hx : x.toNat < (breakOf s.task).toNat)
    (hspared : ∀ virt f, e = .store virt f → ¬(pageNumber virt = pageNumber x ∧ wordOf virt = wordOf x)) :
    userLoad s'.machine s.task.dir x = userLoad s.machine s.task.dir x := by
  obtain ⟨hs', -⟩ := h.healthy hs
  obtain ⟨⟨g, hg⟩, hlive, htask⟩ := hs
  obtain ⟨⟨g', hg'⟩, -, -⟩ := hs'
  cases h with
  | @sbrk _ m t a held delta r live call =>
    rw [hg.load live huser, hg'.load (put_same _ _ _) huser, grown_below htask hx]
  | @store _ m R virt f call =>
    cases call with
    | @store _ _ _ a _ _ _ live user call =>
      rw [hg.load live huser, hg'.load (put_same _ _ _) huser]
      by_cases hpage : pageNumber x = pageNumber virt
      · rw [hpage, put_same, Option.map_map]
        congr 1
        funext c
        exact put_other _ _ fun hword => hspared virt f rfl ⟨hpage.symm, hword.symm⟩
      · rw [put_other _ _ hpage]
  | @elsewhere _ m R op other call =>
    obtain ⟨a, live⟩ := Option.isSome_iff_exists.mp hlive
    rw [hg.load live huser, hg'.load (elsewhere_same hg other live call) huser]

theorem KeptActs.load (h : KeptActs x s s') (hs : Healthy s) (huser : IsUser x)
    (hx : x.toNat < (breakOf s.task).toNat) :
    userLoad s'.machine s'.task.dir x = userLoad s.machine s.task.dir x ∧ Healthy s' ∧
      x.toNat < (breakOf s'.task).toNat := by
  induction h with
  | refl => exact ⟨rfl, hs, hx⟩
  | tail _ hstep ih =>
    obtain ⟨e, hdoes, hx', hspared⟩ := hstep
    obtain ⟨hload, hs1, hx1⟩ := ih
    obtain ⟨hs2, hdir⟩ := hdoes.healthy hs1
    exact ⟨by rw [hdir, hdoes.load hs1 huser hx1 hspared, hload], hs2, hx'⟩

theorem Healthy.refused (hs : Healthy s) (h : userSbrk delta ⟨s.machine, s.task⟩ = (none, ⟨m', t'⟩)) :
    breakOf t' = breakOf s.task ∧ ∀ x, IsUser x → x.toNat < (breakOf s.task).toNat →
      userLoad m' s.task.dir x = userLoad s.machine s.task.dir x := by
  obtain ⟨⟨g, hg⟩, hlive, htask⟩ := hs
  obtain ⟨a, live⟩ := Option.isSome_iff_exists.mp hlive
  have hcall := userSbrk_logged (shows_dir_pos hg live) delta s.machine []
  rw [h] at hcall
  rcases hrun : sbrkLogged delta ⟨(s.machine, []), s.task⟩ with ⟨r, ⟨⟨m1, log⟩, t1⟩⟩
  rw [hrun] at hcall
  cases hcall
  obtain ⟨k, g', hg', -, -, -, hbreak, -⟩ := sbrkLogged_spec hg live htask hrun
  refine ⟨hbreak rfl, ?_⟩
  intro x huser hx
  rw [hg.load live huser, hg'.load (put_same _ _ _) huser, grown_below htask hx]

/-! ## Frames -/

theorem Does.counted (h : Does e s s') (hs : Healthy s) (hclear : OverNone s e)
    (heq : s.held.length = mappedPages s.machine s.task.dir) :
    s'.held.length = mappedPages s'.machine s'.task.dir := by
  obtain ⟨hs', hdir⟩ := h.healthy hs
  obtain ⟨⟨g, hg⟩, hlive, htask⟩ := hs
  obtain ⟨⟨g', hg'⟩, -, -⟩ := hs'
  rw [hdir]
  cases h with
  | @sbrk _ m t a held delta r live call =>
    obtain ⟨k, g'', hg'', hlen, -, -, -, hpages⟩ := sbrkLogged_spec hg live htask call
    obtain ⟨-, hlow, hhigh⟩ := htask.begun
    rw [heap_base_toNat] at hlow
    rw [heap_max_toNat] at hhigh
    rw [mappedPages_eq hg live] at heq
    rw [mappedPages_eq hg'' (put_same _ _ _)]
    have hbase : pageNumber USER_HEAP_BASE = 0x8010000 := rfl
    have hfirst : firstPage s.task = ((breakOf s.task).toNat + 4095) / 4096 := by
      unfold firstPage pageNumber PAGE_SIZE
      rw [roundUp_toNat, Nat.mod_eq_of_lt (by omega)]
      omega
    rcases Nat.eq_zero_or_pos k with rfl | hpos
    · rw [grown_zero, ← heq]
      exact hlen
    · obtain ⟨hmax, hlast⟩ := hpages (by omega)
      have hnone := hclear hmax
      have hround : (roundUp (breakOf s.task)).toNat = ((breakOf s.task).toNat + 4095) / 4096 * 4096 := by
        rw [roundUp_toNat, Nat.mod_eq_of_lt (by omega)]
      have hround' : (roundUp (breakOf s.task + delta)).toNat ≤ 0x8038000000 := by
        rw [heap_max_toNat] at hmax
        rw [roundUp_toNat, Nat.mod_eq_of_lt (by omega)]
        omega
      rw [countFrames_grown (by omega) k (by unfold HEAP_PAGES; omega), ← heq, hlen]
      intro i hi
      obtain ⟨huser, hnumber⟩ := heap_page (roundUp (breakOf s.task)) (k := i) (by omega) (by omega) (by omega)
      have hplace : (pagesOn (roundUp (breakOf s.task)) i).toNat = (roundUp (breakOf s.task)).toNat + i * 4096 :=
        pagesOn_toNat (by omega)
      have hnot := hnone (pagesOn (roundUp (breakOf s.task)) i) (by omega) (by omega)
      rw [virtIsUserIn_reads hg live huser, hnumber] at hnot
      exact Option.isNone_iff_eq_none.mp (by rw [Option.isNone_iff_eq_none, ← Option.not_isSome_iff_eq_none]; simpa [firstPage] using hnot)
  | @store _ m R virt f call =>
    cases call with
    | @store _ _ _ a _ _ _ live user call =>
      show s.held.length = _
      rw [heq, mappedPages_eq hg live, mappedPages_eq hg' (put_same _ _ _)]
      apply countFrames_congr
      intro i _
      by_cases hpage : pageNumber USER_HEAP_BASE + i = pageNumber virt
      · rw [hpage, put_same, Option.isSome_map]
      · rw [put_other _ _ hpage]
  | @elsewhere _ m R op other call =>
    obtain ⟨a, live⟩ := Option.isSome_iff_exists.mp hlive
    show s.held.length = _
    rw [heq, mappedPages_eq hg live, mappedPages_eq hg' (elsewhere_same hg other live call)]

theorem ClearActs.counted (h : ClearActs s s') (hs : Healthy s)
    (heq : s.held.length = mappedPages s.machine s.task.dir) :
    Healthy s' ∧ s'.held.length = mappedPages s'.machine s'.task.dir := by
  induction h with
  | refl => exact ⟨hs, heq⟩
  | tail _ hstep ih =>
    obtain ⟨e, hclear, hdoes⟩ := hstep
    obtain ⟨hs1, heq1⟩ := ih
    exact ⟨(hdoes.healthy hs1).1, hdoes.counted hs1 hclear heq1⟩

end Runs

/-- What is below the lowest break keeps its contents, a call that fails leaves the break, and there are as many frames
as pages in every state reached without going over a page that is mapped. -/
theorem sbrk_keeps {s₀ s : Program} (hstart : Entered s₀) :
    (Acts s₀ s →
      (∀ x s', IsUser x → x.toNat < (breakOf s.task).toNat → KeptActs x s s' →
        userLoad s'.machine s'.task.dir x = userLoad s.machine s.task.dir x) ∧
      ∀ delta m' t', userSbrk delta ⟨s.machine, s.task⟩ = (none, ⟨m', t'⟩) → breakOf t' = breakOf s.task ∧
        ∀ x, IsUser x → x.toNat < (breakOf s.task).toNat →
          userLoad m' s.task.dir x = userLoad s.machine s.task.dir x) ∧
    (ClearActs s₀ s → s.held.length = mappedPages s.machine s.task.dir) := by
  refine ⟨?_, ?_⟩
  · intro hrun
    have hs := hrun.healthy hstart.healthy
    exact ⟨fun x s' huser hx hkept => (hkept.load hs huser hx).1, fun delta m' t' h => hs.refused h⟩
  · intro hrun
    exact (hrun.counted hstart.healthy (by rw [hstart.held, hstart.empty]; rfl)).2

/-! ## A small heap -/

def afterSbrk (a : Space) (delta : Word) (s : Program) : Program where
  machine := (sbrkLogged delta ⟨(s.machine, s.held), s.task⟩).2.machine.1
  spaces := Pmm.put s.spaces s.task.dir (some (grown a (firstPage s.task)
    ((sbrkLogged delta ⟨(s.machine, s.held), s.task⟩).2.machine.2.length - s.held.length)))
  task := (sbrkLogged delta ⟨(s.machine, s.held), s.task⟩).2.task
  held := (sbrkLogged delta ⟨(s.machine, s.held), s.task⟩).2.machine.2

theorem afterSbrk_does {a : Space} (delta : Word) {s : Program} (live : s.spaces s.task.dir = some a) :
    Does (.sbrk delta) s (afterSbrk a delta s) := Does.sbrk live rfl

def sampleProgram : Program where
  machine := sampleSpace
  spaces := Pmm.put (fun _ => none) 2 (some fun _ => none)
  task := sampleTask
  held := []

theorem sampleProgram_shows : ∃ g, Shows g sampleProgram.machine sampleProgram.spaces :=
  Paging.Run.shows (Relation.ReflTransGen.single ⟨_, Paging.Step.new sampleSpace_run⟩) ⟨_, sampleBoot_booted.shows⟩

theorem sampleProgram_live : sampleProgram.spaces sampleProgram.task.dir = some fun _ => none := rfl

theorem sampleProgram_entered : Entered sampleProgram where
  machine := ⟨sampleBoot, sampleBoot_booted, Relation.ReflTransGen.single ⟨_, Paging.Step.new sampleSpace_run⟩⟩
  live := rfl
  task := rfl
  empty := by
    obtain ⟨g, hg⟩ := sampleProgram_shows
    rw [mappedPages_eq hg sampleProgram_live]
    simp [countFrames]
  held := rfl

/-- A page is grown by, and the program has one frame for it. -/
theorem sbrk_keeps_sample : ∃ s, ClearActs sampleProgram s ∧ s.held.length = 1 ∧ mappedPages s.machine s.task.dir = 1 := by
  obtain ⟨g, hg⟩ := sampleProgram_shows
  have hclear : OverNone sampleProgram (.sbrk 4096) := by
    intro _ x hlo hhi
    have hfirst : (roundUp (breakOf sampleProgram.task)).toNat = 0x8010000000 := by decide
    have hlast : (roundUp (breakOf sampleProgram.task + 4096)).toNat = 0x8010001000 := by decide
    have huser : IsUser x := by
      unfold IsUser USER_SPACE_BASE USER_SPACE_END
      omega
    rw [virtIsUserIn_reads hg sampleProgram_live huser]
    rfl
  have hrun : ClearActs sampleProgram (afterSbrk (fun _ => none) 4096 sampleProgram) :=
    Relation.ReflTransGen.single ⟨_, hclear, afterSbrk_does 4096 sampleProgram_live⟩
  have hheld : (afterSbrk (fun _ => none) 4096 sampleProgram).held.length = 1 := by decide +kernel
  exact ⟨_, hrun, hheld, by rw [← (sbrk_keeps sampleProgram_entered).2 hrun, hheld]⟩

def sampleHeap : Space := grown (fun _ => none) (pageNumber USER_HEAP_BASE) 1

def sampleGrown : Program := afterSbrk (fun _ => none) 4096 sampleProgram
def sampleShrunk : Program := afterSbrk sampleHeap (-4096) sampleGrown
def sampleAgain : Program := afterSbrk sampleHeap 4096 sampleShrunk

theorem samples_held : (sampleGrown.held.length = 1 ∧ sampleGrown.task.dir = 2) ∧
    (sampleShrunk.held.length = 1 ∧ sampleShrunk.task.dir = 2 ∧ firstPage sampleShrunk.task = pageNumber USER_HEAP_BASE) ∧
      sampleAgain.held.length = 2 ∧ sampleAgain.task.dir = 2 := by decide +kernel

theorem sampleGrown_live : sampleGrown.spaces sampleGrown.task.dir = some sampleHeap := by
  have hspaces : sampleGrown.spaces = Pmm.put sampleProgram.spaces 2 (some (grown (fun _ => none)
      (firstPage sampleProgram.task) (sampleGrown.held.length - sampleProgram.held.length))) := rfl
  rw [hspaces, samples_held.1.1, samples_held.1.2, put_same]
  rfl

theorem sampleShrunk_live : sampleShrunk.spaces sampleShrunk.task.dir = some sampleHeap := by
  have hspaces : sampleShrunk.spaces = Pmm.put sampleGrown.spaces sampleGrown.task.dir (some (grown sampleHeap
      (firstPage sampleGrown.task) (sampleShrunk.held.length - sampleGrown.held.length))) := rfl
  rw [hspaces, samples_held.2.1.1, samples_held.2.1.2.1, samples_held.1.1, samples_held.1.2, put_same, grown_zero]

theorem sampleAgain_live : sampleAgain.spaces sampleAgain.task.dir = some sampleHeap := by
  have hspaces : sampleAgain.spaces = Pmm.put sampleShrunk.spaces sampleShrunk.task.dir (some (grown sampleHeap
      (firstPage sampleShrunk.task) (sampleAgain.held.length - sampleShrunk.held.length))) := rfl
  have hagain : grown sampleHeap (pageNumber USER_HEAP_BASE) 1 = sampleHeap := by
    funext i
    unfold sampleHeap grown
    split <;> rfl
  rw [hspaces, samples_held.2.2.1, samples_held.2.2.2, samples_held.2.1.1, samples_held.2.1.2.1,
    samples_held.2.1.2.2, put_same, hagain]

/-- There are two frames now, and one page. -/
theorem sbrk_loses : ∃ s₀ s, Entered s₀ ∧ Acts s₀ s ∧ s.held.length = 2 ∧ mappedPages s.machine s.task.dir = 1 := by
  have hgrown : Acts sampleProgram sampleGrown :=
    Relation.ReflTransGen.single ⟨_, afterSbrk_does 4096 sampleProgram_live⟩
  have hrun : Acts sampleProgram sampleAgain := (hgrown.tail ⟨_, afterSbrk_does (-4096) sampleGrown_live⟩).tail
    ⟨_, afterSbrk_does 4096 sampleShrunk_live⟩
  refine ⟨sampleProgram, sampleAgain, sampleProgram_entered, hrun, samples_held.2.2.1, ?_⟩
  obtain ⟨g, hg⟩ := (hrun.healthy sampleProgram_entered.healthy).shows
  rw [mappedPages_eq hg sampleAgain_live]
  exact countFrames_first 1 (by decide)

end Zelr.User
