import Zelr.Fat.Reclaim

/-!
# What is marked

When nothing failed, the marks are closed: what comes after a marked cluster is marked, and so is every chain
that an entry of a visited directory names.
-/

namespace Zelr.Fat.Raw

/-! ## What is in use -/

def Disk.inside (D : Disk) (c : Nat) : Prop := D.goes c ∧ c < D.total

inductive OnChain (D : Disk) : Nat → Nat → Prop
  | here {c : Nat} : D.inside c → OnChain D c c
  | along {c x : Nat} : D.inside c → OnChain D (D.table c) x → OnChain D c x

/-- A slot met before the end of a directory, `.` and `..` excepted. -/
def Listed (D : Disk) (d : Nat) (e : Dirent) : Prop :=
  ∃ i < D.capacity d, D.slot d i = some e ∧ passed e = false ∧
    ∀ j ≤ i, ∃ x, D.slot d j = some x ∧ x.first ≠ ENT_FREE

inductive Reached (D : Disk) : Nat → Prop
  | root : Reached D 0
  | sub {d : Nat} {e : Dirent} : Reached D d → Listed D d e → e.isDir = true → 2 ≤ entCluster D.bits e →
      entCluster D.bits e < D.total → Reached D (entCluster D.bits e)

def OnRoot (D : Disk) (c : Nat) : Prop := D.bits = 32 ∧ OnChain D D.rootCluster c

def InUse (D : Disk) (c : Nat) : Prop :=
  OnRoot D c ∨ ∃ d e, Reached D d ∧ Listed D d e ∧ OnChain D (entCluster D.bits e) c

/-! ## Closed marks -/

section marks
variable {D : Disk} {luck : Luck} {out : Nat → Prop} {marks marks' : Nat → Nat} {s : Io} {c x guard : Nat}

def Closed (D : Disk) (out : Nat → Prop) (marks : Nat → Nat) : Prop :=
  ∀ m, D.inside m → marks m ≠ 0 → D.inside (D.table m) → marks (D.table m) ≠ 0 ∨ out (D.table m)

theorem Closed.yet (h : Closed D out marks) (c : Nat) : Closed D (fun x => x = c ∨ out x) marks :=
  fun m hm hmark hnext => (h m hm hmark hnext).imp_right .inr

theorem Closed.done (h : Closed D (fun x => x = c ∨ out x) marks) (hc : D.inside c → marks c ≠ 0) : Closed D out marks := by
  intro m hm hmark hnext
  rcases h m hm hmark hnext with hdone | heq | hout
  · exact .inl hdone
  · rw [heq] at hnext ⊢
    exact .inl (hc hnext)
  · exact .inr hout

def Onward (D : Disk) (out : Nat → Prop) : Prop := ∀ m, out m → D.inside (D.table m) → out (D.table m)

theorem Closed.chain (h : Closed D out marks) (hout : Onward D out) (hchain : OnChain D c x)
    (hc : D.inside c → marks c ≠ 0 ∨ out c) : marks x ≠ 0 ∨ out x := by
  induction hchain with
  | here hin => exact hc hin
  | along hin _ ih =>
    refine ih fun hnext => ?_
    rcases hc hin with hmark | hleft
    · exact h _ hin hmark hnext
    · exact .inr (hout _ hleft hnext)

structure More (marks marks' : Nat → Nat) : Prop where
  some : ∀ x, marks x ≠ 0 → marks' x ≠ 0
  two : ∀ x, marks x = 2 → marks' x = 2

theorem More.refl (marks : Nat → Nat) : More marks marks := ⟨fun _ => id, fun _ => id⟩

theorem More.trans {marks'' : Nat → Nat} (h : More marks marks') (h' : More marks' marks'') : More marks marks'' :=
  ⟨fun x hx => h'.some x (h.some x hx), fun x hx => h'.two x (h.two x hx)⟩

def unmarked (D : Disk) (marks : Nat → Nat) : Nat := (List.range D.total).countP fun x => marks x = 0

def twos (D : Disk) (marks : Nat → Nat) : Nat := (List.range D.total).countP fun x => marks x = 2

theorem countP_update {n : Nat} {p q : Nat → Bool} (hc : c < n) (hp : p c = true) (hq : q c = false)
    (hsame : ∀ x, x ≠ c → q x = p x) : (List.range n).countP q + 1 = (List.range n).countP p := by
  induction n with
  | zero => omega
  | succ n ih =>
    rw [List.range_succ, List.countP_append, List.countP_append, List.countP_singleton, List.countP_singleton]
    by_cases hn : c = n
    · have hbelow : (List.range n).countP q = (List.range n).countP p := by
        refine List.countP_congr fun x hx => ?_
        rw [hsame x (by have hlt := List.mem_range.mp hx; omega)]
      rw [hbelow, ← hn, hp, hq]
      rfl
    · rw [hsame n (Ne.symm hn), ← ih (by omega)]
      omega

theorem unmarked_mark (hc : c < D.total) (hmark : marks c = 0) {v : Nat} (hv : v ≠ 0) :
    unmarked D (fun y => if y = c then v else marks y) + 1 = unmarked D marks := by
  refine countP_update hc (decide_eq_true hmark) (decide_eq_false ?_) fun x hx => ?_
  · beta_reduce
    rwa [if_pos rfl]
  · beta_reduce
    rw [if_neg hx]

theorem twos_mark (hc : c < D.total) (hmark : marks c ≠ 2) :
    twos D (fun y => if y = c then 2 else marks y) = twos D marks + 1 := by
  refine (countP_update hc (decide_eq_true ?_) (decide_eq_false hmark) fun x hx => ?_).symm
  · exact if_pos rfl
  · beta_reduce
    rw [if_neg hx]

theorem twos_le (D : Disk) (marks : Nat → Nat) : twos D marks ≤ D.total := by
  have hle := List.countP_le_length (p := fun x => decide (marks x = 2)) (l := List.range D.total)
  rwa [List.length_range] at hle

/-! ## One chain -/

theorem markChain_read (luck : Luck) (guard c : Nat) (marks : Nat → Nat) (s : Io) :
    Read s (markChain luck guard c marks s).2 := by
  induction guard generalizing c marks s with
  | zero => exact Read.refl s
  | succ guard ih =>
    unfold markChain
    split
    · exact (fatGet_read luck s c).trans (ih _ _ _)
    · exact Read.refl s

theorem markChain_marks (luck : Luck) (guard c : Nat) (marks : Nat → Nat) (s : Io) :
    (∀ x, marks x ≠ 0 → (markChain luck guard c marks s).1 x = marks x) ∧
      ∀ x, (markChain luck guard c marks s).1 x = 2 ↔ marks x = 2 := by
  induction guard generalizing c marks s with
  | zero => exact ⟨fun _ _ => rfl, fun _ => Iff.rfl⟩
  | succ guard ih =>
    unfold markChain
    split
    · rename_i hgo
      obtain ⟨hkeep, htwo⟩ := ih (fatGet luck s c).1 (fun x => if x = c then 1 else marks x) (fatGet luck s c).2
      refine ⟨fun x hx => ?_, fun x => (htwo x).trans ?_⟩
      · have hxc : x ≠ c := by
          rintro rfl
          exact hx hgo.2.2
        rw [hkeep x (by rwa [if_neg hxc]), if_neg hxc]
      · by_cases hxc : x = c
        · rw [if_pos hxc, hxc, hgo.2.2]
          omega
        · rw [if_neg hxc]
    · exact ⟨fun _ _ => rfl, fun _ => Iff.rfl⟩

theorem markChain_more (luck : Luck) (guard c : Nat) (marks : Nat → Nat) (s : Io) :
    More marks (markChain luck guard c marks s).1 := by
  obtain ⟨hkeep, htwo⟩ := markChain_marks luck guard c marks s
  exact ⟨fun x hx => by rwa [hkeep x hx], fun x hx => (htwo x).mpr hx⟩

theorem markChain_closed (h : Closed s.disk (fun x => x = c ∨ out x) marks) (hguard : unmarked s.disk marks ≤ guard)
    (hquiet : (markChain luck guard c marks s).2.fatReadFailures = s.fatReadFailures) :
    Closed s.disk out (markChain luck guard c marks s).1 ∧
      (s.disk.inside c → (markChain luck guard c marks s).1 c ≠ 0) := by
  induction guard generalizing c marks s with
  | zero =>
    have hall : s.disk.inside c → marks c ≠ 0 := by
      intro hc hzero
      have hpos := unmarked_mark (D := s.disk) hc.2 hzero (one_ne_zero)
      omega
    exact ⟨h.done hall, hall⟩
  | succ guard ih =>
    unfold markChain at hquiet ⊢
    split
    · rename_i hgo
      rw [if_pos hgo] at hquiet
      obtain ⟨hgoes, hlt, hzero⟩ := hgo
      have hget := fatGet_read luck s c
      have hrest := (markChain_read luck guard (fatGet luck s c).1 (fun x => if x = c then 1 else marks x)
        (fatGet luck s c).2).failures
      have hsame : (fatGet luck s c).2.fatReadFailures = s.fatReadFailures := by
        have hle := hget.failures
        omega
      have hvalue : (fatGet luck s c).1 = s.disk.table c := by
        rcases fatGet_value luck s c with heq | ⟨-, hfail⟩
        · exact heq
        · omega
      have hbut : Closed (fatGet luck s c).2.disk (fun x => x = (fatGet luck s c).1 ∨ out x)
          fun x => if x = c then 1 else marks x := by
        rw [hget.disk, hvalue]
        intro m hm hmark hnext
        by_cases hmc : m = c
        · exact .inr (.inl (by rw [hmc]))
        · beta_reduce at hmark ⊢
          rw [if_neg hmc] at hmark
          rcases h m hm hmark hnext with hdone | heq | hout
          · left
            split
            · exact one_ne_zero
            · exact hdone
          · exact .inl (by rw [if_pos heq]; exact one_ne_zero)
          · exact .inr (.inr hout)
      have hless := unmarked_mark (D := s.disk) hlt hzero one_ne_zero
      obtain ⟨hclosed, -⟩ := ih hbut (by rw [hget.disk]; omega) (hquiet.trans hsame.symm)
      rw [hget.disk] at hclosed
      refine ⟨hclosed, fun _ => ?_⟩
      refine (markChain_more luck guard _ _ _).some c ?_
      rw [if_pos rfl]
      exact one_ne_zero
    · rename_i hgo
      have hdone : s.disk.inside c → marks c ≠ 0 := fun hc hzero => hgo ⟨hc.1, hc.2, hzero⟩
      exact ⟨h.done hdone, hdone⟩

end marks

/-! ## One directory -/

section scan
variable {D : Disk} {luck : Luck} {out seen done : Nat → Prop} {w : Walk} {d i left first : Nat} {e : Dirent}

/-- What an entry names is marked, and a directory is marked as one. -/
structure Covered (D : Disk) (marks : Nat → Nat) (e : Dirent) : Prop where
  chain : D.inside (entCluster D.bits e) → marks (entCluster D.bits e) ≠ 0
  sub : e.isDir = true → 2 ≤ entCluster D.bits e → entCluster D.bits e < D.total → marks (entCluster D.bits e) = 2

theorem Covered.more {marks marks' : Nat → Nat} (h : Covered D marks e) (hmore : More marks marks') : Covered D marks' e :=
  ⟨fun hin => hmore.some _ (h.chain hin), fun hdir hlow hlt => hmore.two _ (h.sub hdir hlow hlt)⟩

/-- A walk so far: every directory marked has been seen or is in the queue, and those done with are covered. -/
structure Fair (D : Disk) (out seen done : Nat → Prop) (w : Walk) : Prop where
  disk : w.io.disk = D
  closed : Closed D out w.reachable
  twos : ∀ x < D.total, w.reachable x = 2 → seen x ∨ x ∈ w.queue
  covered : ∀ d, done d → ∀ e, Listed D d e → Covered D w.reachable e

/-- What a part of the walk adds: marks, and as many directories to the queue as it marked. -/
structure Adds (D : Disk) (w w' : Walk) : Prop where
  read : Read w.io w'.io
  more : More w.reachable w'.reachable
  count : twos D w'.reachable + w.queue.length = twos D w.reachable + w'.queue.length

theorem Adds.refl (D : Disk) (w : Walk) : Adds D w w := ⟨Read.refl _, More.refl _, rfl⟩

theorem Adds.trans {w' w'' : Walk} (h : Adds D w w') (h' : Adds D w' w'') : Adds D w w'' := by
  refine ⟨h.read.trans h'.read, h.more.trans h'.more, ?_⟩
  have hone := h.count
  have htwo := h'.count
  omega

theorem push_read (luck : Luck) (w : Walk) (first : Nat) : Read w.io (w.push luck first).io := by
  have hread := kmalloc_read luck w.io
  unfold Walk.push
  dsimp only
  split
  · split
    · rename_i heq
      rw [heq] at hread
      exact hread
    · rename_i heq
      rw [heq] at hread
      exact hread
  · exact Read.refl _

theorem push_whole (h : (w.push luck first).whole = true) :
    (w.push luck first).reachable = (fun x => if x = first then 2 else w.reachable x) ∧
      (w.push luck first).queue = w.queue ++ [first] := by
  unfold Walk.push at h ⊢
  dsimp only at h ⊢
  split
  · rename_i hfull
    rw [if_pos hfull] at h
    split
    · rename_i heq
      rw [heq] at h
      cases h
    · exact ⟨rfl, rfl⟩
  · exact ⟨rfl, rfl⟩

theorem push_more (hreach : w.reachable first ≠ 2) (hwhole : (w.push luck first).whole = true) (hlt : first < D.total) :
    Adds D w (w.push luck first) := by
  obtain ⟨hmarks, hqueue⟩ := push_whole hwhole
  refine ⟨push_read luck w first, ?_, ?_⟩
  · rw [hmarks]
    refine ⟨fun x hx => ?_, fun x hx => ?_⟩
    · split
      · exact two_ne_zero
      · exact hx
    · split
      · rfl
      · exact hx
  · rw [hmarks, hqueue, twos_mark hlt hreach, List.length_append, List.length_singleton]
    omega

theorem unmarked_le (D : Disk) (marks : Nat → Nat) : unmarked D marks ≤ D.total := by
  have hle := List.countP_le_length (p := fun x => decide (marks x = 0)) (l := List.range D.total)
  rwa [List.length_range] at hle

theorem mark_adds (D : Disk) (w : Walk) (d i : Nat) (e : Dirent) : Adds D w (w.mark luck d i e) := by
  have hmarks := markChain_marks luck w.io.disk.total (entCluster w.io.disk.bits e) w.reachable w.io
  refine ⟨markChain_read luck _ _ _ _, markChain_more luck _ _ _ _, ?_⟩
  have hcount : twos D (w.mark luck d i e).reachable = twos D w.reachable := by
    refine List.countP_congr fun x _ => ?_
    rw [decide_eq_true_eq, decide_eq_true_eq]
    exact hmarks.2 x
  rw [hcount]
  rfl

theorem mark_fair (h : Fair D out seen done w) (hquiet : (w.mark luck d i e).io.fatReadFailures = w.io.fatReadFailures) :
    Fair D out seen done (w.mark luck d i e) ∧
      (D.inside (entCluster D.bits e) → (w.mark luck d i e).reachable (entCluster D.bits e) ≠ 0) := by
  have hadds : Adds D w (w.mark luck d i e) := mark_adds D w d i e
  have hmarks := markChain_marks luck w.io.disk.total (entCluster w.io.disk.bits e) w.reachable w.io
  have hclosed := h.closed
  rw [← h.disk] at hclosed
  have hquiet' : (markChain luck w.io.disk.total (entCluster w.io.disk.bits e) w.reachable w.io).2.fatReadFailures =
      w.io.fatReadFailures := hquiet
  obtain ⟨hclosed', hfirst⟩ := markChain_closed (hclosed.yet _) (unmarked_le _ _) hquiet'
  rw [h.disk] at hclosed' hfirst
  refine ⟨⟨hadds.read.disk.trans h.disk, ?_, fun x hx htwo => h.twos x hx ((hmarks.2 x).mp htwo),
    fun d hd e he => (h.covered d hd e he).more hadds.more⟩, ?_⟩
  · rw [Walk.mark, h.disk]
    exact hclosed'
  · rw [Walk.mark, h.disk]
    exact hfirst

theorem meet_adds (h : Fair D out seen done w) (hwhole : (w.meet luck d i e).whole = true) : Adds D w (w.meet luck d i e) := by
  have hadds : Adds D w (w.mark luck d i e) := mark_adds D w d i e
  unfold Walk.meet at hwhole ⊢
  split
  · rename_i hpush
    rw [if_pos hpush] at hwhole
    rw [h.disk] at hpush hwhole ⊢
    exact hadds.trans (push_more hpush.2.2.2 hwhole hpush.2.2.1)
  · exact hadds

theorem meet_fair (h : Fair D out seen done w) (hwhole : (w.meet luck d i e).whole = true)
    (hquiet : (w.meet luck d i e).io.fatReadFailures = w.io.fatReadFailures) :
    Fair D out seen done (w.meet luck d i e) ∧ Covered D (w.meet luck d i e).reachable e := by
  have hadds : Adds D w (w.mark luck d i e) := mark_adds D w d i e
  have hquiet' : (w.mark luck d i e).io.fatReadFailures = w.io.fatReadFailures := by
    have hle := hadds.read.failures
    unfold Walk.meet at hquiet
    split at hquiet
    · have hpush := (push_read luck (w.mark luck d i e) (entCluster w.io.disk.bits e)).failures
      omega
    · exact hquiet
  obtain ⟨hfair, hfirst⟩ := mark_fair h hquiet'
  unfold Walk.meet at hwhole ⊢
  rw [h.disk] at hwhole ⊢
  split
  · rename_i hpush
    rw [if_pos hpush] at hwhole
    obtain ⟨hmarks, hqueue⟩ := push_whole hwhole
    have hmore := push_more hpush.2.2.2 hwhole hpush.2.2.1
    refine ⟨⟨hmore.read.disk.trans hfair.disk, ?_, ?_, fun d hd e he => (hfair.covered d hd e he).more hmore.more⟩, ?_⟩
    · rw [hmarks]
      intro m hm hmark hnext
      beta_reduce at hmark ⊢
      split
      · exact .inl two_ne_zero
      · refine hfair.closed m hm ?_ hnext
        by_cases hmf : m = entCluster D.bits e
        · rw [hmf]
          exact hfirst (hmf ▸ hm)
        · rwa [if_neg hmf] at hmark
    · intro x hx htwo
      rw [hmarks] at htwo
      rw [hqueue]
      by_cases hxf : x = entCluster D.bits e
      · exact .inr (List.mem_append_right _ (List.mem_singleton.mpr hxf))
      · beta_reduce at htwo
        rw [if_neg hxf] at htwo
        exact (hfair.twos x hx htwo).imp_right fun hmem => List.mem_append_left _ hmem
    · rw [hmarks]
      refine ⟨fun _ => ?_, fun _ _ _ => if_pos rfl⟩
      rw [if_pos rfl]
      exact two_ne_zero
  · rename_i hpush
    refine ⟨hfair, hfirst, fun hdir hlow hlt => ?_⟩
    by_contra hne
    exact hpush ⟨hdir, hlow, hlt, hne⟩

theorem meet_read (luck : Luck) (w : Walk) (d i : Nat) (e : Dirent) : Read w.io (w.meet luck d i e).io := by
  have hmark : Read w.io (w.mark luck d i e).io := markChain_read luck _ _ _ _
  unfold Walk.meet
  split
  · exact hmark.trans (push_read luck _ _)
  · exact hmark

theorem scan_read (luck : Luck) (d left i : Nat) (w : Walk) : Read w.io (scan luck d left i w).io := by
  induction left generalizing i w with
  | zero => exact Read.refl _
  | succ left ih =>
    have hread := dirRead_read luck w.io d i
    unfold scan
    split
    · rename_i heq
      rw [heq] at hread
      exact hread
    · rename_i e s heq
      rw [heq] at hread
      split
      · exact hread
      · split
        · exact hread.trans (ih (i + 1) { w with io := s })
        · have hmeet := meet_read luck { w with io := s } d i e
          dsimp only
          split
          · exact (hread.trans hmeet).trans (ih (i + 1) _)
          · exact hread.trans hmeet

def CoveredTo (D : Disk) (d i : Nat) (w : Walk) : Prop :=
  ∀ k < i, ∀ e, D.slot d k = some e → passed e = false → Covered D w.reachable e

theorem CoveredTo.succ (h : CoveredTo D d i w)
    (hi : ∀ e, D.slot d i = some e → passed e = false → Covered D w.reachable e) : CoveredTo D d (i + 1) w := by
  intro k hk
  rcases Nat.lt_succ_iff_lt_or_eq.mp hk with hk | rfl
  · exact h k hk
  · exact hi

theorem Fair.reads (h : Fair D out seen done w) {s : Io} (hs : Read w.io s) : Fair D out seen done { w with io := s } :=
  ⟨hs.disk.trans h.disk, h.closed, h.twos, h.covered⟩

theorem scan_fair (h : Fair D out seen done w) (hsofar : CoveredTo D d i w) (hcap : left + i = D.capacity d)
    (hwhole : (scan luck d left i w).whole = true)
    (hquiet : (scan luck d left i w).io.fatReadFailures = w.io.fatReadFailures) :
    Fair D out seen done (scan luck d left i w) ∧ Adds D w (scan luck d left i w) ∧
      ∀ e, Listed D d e → Covered D (scan luck d left i w).reachable e := by
  induction left generalizing i w with
  | zero =>
    refine ⟨h, Adds.refl D w, ?_⟩
    rintro e ⟨k, hk, hslot, hpass, -⟩
    exact hsofar k (by omega) e hslot hpass
  | succ left ih =>
    have hread := dirRead_read luck w.io d i
    have hvalue := fun e => dirRead_value luck w.io (d := d) (i := i) (e := e)
    unfold scan at hwhole hquiet ⊢
    split
    · rename_i heq
      rw [heq] at hwhole
      cases hwhole
    · rename_i e s heq
      rw [heq] at hread hvalue hwhole hquiet
      dsimp only at hread hwhole hquiet ⊢
      have hslot := hvalue e rfl
      rw [h.disk] at hslot
      have hadds : Adds D w { w with io := s } := ⟨hread, More.refl _, rfl⟩
      split
      · rename_i hfree
        refine ⟨h.reads hread, hadds, ?_⟩
        rintro x ⟨k, -, hk, hpass, hbefore⟩
        refine hsofar k ?_ x hk hpass
        by_contra hge
        obtain ⟨y, hy, hnot⟩ := hbefore i (by omega)
        rw [hslot] at hy
        cases hy
        exact hnot hfree
      · rename_i hfree
        rw [if_neg hfree] at hwhole hquiet
        split
        · rename_i hpass
          rw [if_pos hpass] at hwhole hquiet
          have hrest := (scan_read luck d left (i + 1) { w with io := s }).failures
          have hsame := hread.failures
          have hsofar' : CoveredTo D d (i + 1) { w with io := s } := by
            refine CoveredTo.succ hsofar fun x hx hxpass => ?_
            rw [hslot] at hx
            cases hx
            rw [hpass] at hxpass
            cases hxpass
          obtain ⟨hfair, hmore, hall⟩ := ih (h.reads hread) hsofar' (by omega) hwhole (by dsimp only at hrest ⊢; omega)
          exact ⟨hfair, hadds.trans hmore, hall⟩
        · rename_i hpass
          rw [if_neg hpass] at hwhole hquiet
          have hmeet : s.fatReadFailures ≤ (Walk.meet luck { w with io := s } d i e).io.fatReadFailures :=
            (meet_read luck { w with io := s } d i e).failures
          have hsame := hread.failures
          split
          · rename_i hgoes
            rw [if_pos hgoes] at hwhole hquiet
            have hrest := (scan_read luck d left (i + 1) (Walk.meet luck { w with io := s } d i e)).failures
            have hquiet' : (Walk.meet luck { w with io := s } d i e).io.fatReadFailures = s.fatReadFailures := by omega
            obtain ⟨hfair, hcovered⟩ := meet_fair (h.reads hread) hgoes hquiet'
            have hmeets := meet_adds (h.reads hread) hgoes
            have hsofar' : CoveredTo D d (i + 1) (Walk.meet luck { w with io := s } d i e) := by
              refine CoveredTo.succ (fun k hk x hx hxpass => (hsofar k hk x hx hxpass).more hmeets.more) fun x hx _ => ?_
              rw [hslot] at hx
              cases hx
              exact hcovered
            obtain ⟨hfair', hmore, hall⟩ := ih hfair hsofar' (by omega) hwhole (by omega)
            exact ⟨hfair', (hadds.trans hmeets).trans hmore, hall⟩
          · rename_i hstop
            rw [if_neg hstop] at hwhole
            exact absurd hwhole hstop

theorem scanDir_read (luck : Luck) (d : Nat) (w : Walk) : Read w.io (scanDir luck d w).io :=
  (dirCapacity_read luck w.io d).trans (scan_read luck d _ 0 { w with io := (dirCapacity luck w.io d).2 })

theorem scanDir_fair (h : Fair D out seen done w) (hdone : ∀ x, seen x → done x ∨ x = d)
    (hwhole : (scanDir luck d w).whole = true) (hquiet : (scanDir luck d w).io.fatReadFailures = w.io.fatReadFailures) :
    Fair D out seen seen (scanDir luck d w) ∧ Adds D w (scanDir luck d w) := by
  have hcap := dirCapacity_read luck w.io d
  have hscan : (dirCapacity luck w.io d).2.fatReadFailures ≤ (scanDir luck d w).io.fatReadFailures :=
    (scan_read luck d (dirCapacity luck w.io d).1 0 { w with io := (dirCapacity luck w.io d).2 }).failures
  have hsame : (dirCapacity luck w.io d).2.fatReadFailures = w.io.fatReadFailures := by
    have hle := hcap.failures
    omega
  have hvalue := dirCapacity_value luck w.io d hsame
  rw [h.disk] at hvalue
  obtain ⟨hfair, hadds, hall⟩ := scan_fair (h.reads hcap) (fun k hk => absurd hk (Nat.not_lt_zero k)) hvalue hwhole
    (hquiet.trans hsame.symm)
  refine ⟨⟨hfair.disk, hfair.closed, hfair.twos, fun x hx e he => ?_⟩, hcap.trans hadds.read, hadds.more, hadds.count⟩
  rcases hdone x hx with hold | rfl
  · exact hfair.covered x hold e he
  · exact hall e he

end scan

/-! ## Every directory -/

section every
variable {D : Disk} {luck : Luck} {fuel d k next : Nat} {out seen done all : Nat → Prop} {w : Walk} {queue : List Nat}

theorem walk_step (hwhole : (scanDir luck d w).whole = true) (hqueue : (scanDir luck d w).queue = next :: queue) :
    walk luck (fuel + 1) d w = walk luck fuel next { scanDir luck d w with queue := queue } := by
  rw [walk]
  split
  · rename_i h
    rw [hqueue] at h
    cases h
    rfl
  · rename_i h
    exact absurd hqueue (h next queue hwhole)

theorem walk_stop (h : (scanDir luck d w).whole = false ∨ (scanDir luck d w).queue = []) :
    walk luck (fuel + 1) d w = scanDir luck d w := by
  rw [walk]
  split
  · rename_i hwhole hqueue
    rcases h with h | h
    · rw [hwhole] at h
      cases h
    · rw [hqueue] at h
      cases h
  · rfl

theorem walk_cases (luck : Luck) (d : Nat) (w : Walk) :
    ((scanDir luck d w).whole = false ∨ (scanDir luck d w).queue = []) ∨
      (scanDir luck d w).whole = true ∧ ∃ next queue, (scanDir luck d w).queue = next :: queue := by
  cases hwhole : (scanDir luck d w).whole with
  | false => exact .inl (.inl rfl)
  | true =>
    cases hqueue : (scanDir luck d w).queue with
    | nil => exact .inl (.inr rfl)
    | cons next queue => exact .inr ⟨rfl, next, queue, rfl⟩

theorem walk_read (luck : Luck) (fuel d : Nat) (w : Walk) : Read w.io (walk luck fuel d w).io := by
  induction fuel generalizing d w with
  | zero => exact Read.refl _
  | succ fuel ih =>
    have hdir := scanDir_read luck d w
    rcases walk_cases luck d w with hstop | ⟨hwhole, next, queue, hqueue⟩
    · rw [walk_stop hstop]
      exact hdir
    · rw [walk_step hwhole hqueue]
      exact hdir.trans (ih next { scanDir luck d w with queue := queue })

theorem walk_fair (h : Fair D out seen done w) (hdone : ∀ x, seen x → done x ∨ x = d)
    (hcount : twos D w.reachable = k + w.queue.length) (hfuel : D.total + 1 ≤ fuel + k)
    (hwhole : (walk luck fuel d w).whole = true)
    (hquiet : (walk luck fuel d w).io.fatReadFailures = w.io.fatReadFailures) :
    ∃ all, Fair D out all all (walk luck fuel d w) ∧ (walk luck fuel d w).queue = [] ∧ (∀ x, seen x → all x) ∧
      More w.reachable (walk luck fuel d w).reachable := by
  induction fuel generalizing d k seen done w with
  | zero =>
    have hle := twos_le D w.reachable
    omega
  | succ fuel ih =>
    have hread := (scanDir_read luck d w).failures
    rcases walk_cases luck d w with hstop | ⟨hgoes, next, queue, hqueue⟩
    · rw [walk_stop hstop] at hwhole hquiet ⊢
      obtain ⟨hfair, hadds⟩ := scanDir_fair h hdone hwhole hquiet
      refine ⟨seen, hfair, hstop.resolve_left ?_, fun _ hx => hx, hadds.more⟩
      rw [hwhole]
      nofun
    · rw [walk_step hgoes hqueue] at hwhole hquiet ⊢
      have hrest : (scanDir luck d w).io.fatReadFailures ≤
          (walk luck fuel next { scanDir luck d w with queue := queue }).io.fatReadFailures :=
        (walk_read luck fuel next { scanDir luck d w with queue := queue }).failures
      have hquiet' : (scanDir luck d w).io.fatReadFailures = w.io.fatReadFailures := by omega
      obtain ⟨hfair, hadds⟩ := scanDir_fair h hdone hgoes hquiet'
      have hnext : Fair D out (fun x => seen x ∨ x = next) seen { scanDir luck d w with queue := queue } := by
        refine ⟨hfair.disk, hfair.closed, fun x hx htwo => ?_, hfair.covered⟩
        rcases hfair.twos x hx htwo with hseen | hmem
        · exact .inl (.inl hseen)
        · rw [hqueue] at hmem
          rcases List.mem_cons.mp hmem with heq | hmem
          · exact .inl (.inr heq)
          · exact .inr hmem
      have hadded := hadds.count
      rw [hqueue, List.length_cons] at hadded
      obtain ⟨all, hall, hempty, hsub, hmore⟩ := ih (k := k + 1) hnext (fun x hx => hx)
        (by dsimp only; omega) (by omega) hwhole (hquiet.trans hquiet'.symm)
      exact ⟨all, hall, hempty, fun x hx => hsub x (.inl hx), hadds.more.trans hmore⟩

theorem Fair.reached (h : Fair D out all all w) (hempty : w.queue = []) (hroot : all 0) (hd : Reached D d) : all d := by
  induction hd with
  | root => exact hroot
  | sub hd he hdir hlow hlt ih =>
    rcases h.twos _ hlt ((h.covered _ ih _ he).sub hdir hlow hlt) with hdone | hmem
    · exact hdone
    · rw [hempty] at hmem
      cases hmem

theorem Fair.used (h : Fair D out all all w) (hout : Onward D out) (hempty : w.queue = []) (hroot : all 0)
    (hd : Reached D d) {e : Dirent} {c : Nat} (he : Listed D d e) (hc : OnChain D (entCluster D.bits e) c) :
    w.reachable c ≠ 0 ∨ out c :=
  h.closed.chain hout hc fun hin => .inl ((h.covered d (h.reached hempty hroot hd) e he).chain hin)

end every

end Zelr.Fat.Raw
