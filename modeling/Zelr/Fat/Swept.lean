import Zelr.Fat.Marked

/-!
# What is given back

Nothing that is in use and no bad cluster is given back, but for two reads whose failure is not looked at: one of
the root's own chain, which is marked before failures are counted, and one of the sweep.
-/

namespace Zelr.Fat.Raw

/-! ## Finishing renames leaves the table alone -/

section finish
variable (luck : Luck)

theorem seekPush_read (w : Seek) (c : Nat) : Read w.io (w.push luck c).io := by
  have hread := kmalloc_read luck w.io
  unfold Seek.push
  dsimp only
  split
  · split
    · rename_i heq
      rw [heq] at hread
      exact hread
    · rename_i heq
      rw [heq] at hread
      exact hread
  · exact Read.refl _

theorem seekDir_read (first : Nat) (skip : Nat × Nat) (d left i : Nat) (w : Seek) :
    Read w.io (seekDir luck first skip d left i w).io := by
  induction left generalizing i w with
  | zero => exact Read.refl _
  | succ left ih =>
    have hread := dirRead_read luck w.io d i
    unfold seekDir
    split
    · rename_i heq
      rw [heq] at hread
      exact hread
    · rename_i e s heq
      rw [heq] at hread
      have hrest := hread.trans (ih (i + 1) { w with io := s })
      dsimp only
      split
      · exact hread
      · split
        · exact hrest
        · split
          · exact hread
          · split
            · have hpush := seekPush_read luck { w with io := s } (entCluster s.disk.bits e)
              split
              · rename_i heq'
                rw [heq'] at hpush
                exact (hread.trans hpush).trans (ih (i + 1) _)
              · exact hread.trans hpush
            · exact hrest

theorem seek_read (first : Nat) (skip : Nat × Nat) (visits d : Nat) (w : Seek) :
    Read w.io (seek luck first skip visits d w).io := by
  have hdir d (w : Seek) := (dirCapacity_read luck w.io d).trans
    (seekDir_read luck first skip d (dirCapacity luck w.io d).1 0 { w with io := (dirCapacity luck w.io d).2 })
  induction visits generalizing d w with
  | zero =>
    have hdir := hdir d w
    unfold seek
    split
    · rename_i heq
      rw [heq] at hdir
      exact hdir
    · exact hdir
  | succ visits ih =>
    have hdir := hdir d w
    unfold seek
    split
    · rename_i t next queue tail cap heq
      rw [heq] at hdir
      exact hdir.trans (ih next ⟨t, queue, tail, cap, .going⟩)
    · exact hdir

theorem findOtherNaming_read (s : Io) (first : Nat) (skip : Nat × Nat) : Read s (findOtherNaming luck s first skip).2 := by
  have hread := kmalloc_read luck s
  unfold findOtherNaming
  split
  · rename_i heq
    rw [heq] at hread
    exact hread
  · rename_i t heq
    rw [heq] at hread
    exact hread.trans (seek_read luck first skip _ 0 ⟨t, [], 0, 64, .going⟩)

theorem dirDropLong_kept (d : Nat) (sum : UInt8) (i : Nat) (s : Io) : Kept s (dirDropLong luck d sum i s) := by
  induction i generalizing s with
  | zero => exact Kept.refl s
  | succ i ih =>
    have hread := (dirRead_read luck s d i).kept
    unfold dirDropLong
    split
    · rename_i heq
      rw [heq] at hread
      exact hread
    · rename_i raw t heq
      rw [heq] at hread
      have hwrite := dirWrite_kept luck t d i raw.deleted
      split
      · exact hread
      · split
        · exact hread.trans hwrite
        · exact (hread.trans hwrite).trans (ih _)

theorem dirPointUp_kept (s : Io) (c p : Nat) : Kept s (dirPointUp luck s c p).2 := by
  have hread := (dirRead_read luck s c 1).kept
  unfold dirPointUp
  split
  · rename_i heq
    rw [heq] at hread
    exact hread
  · rename_i up t heq
    rw [heq] at hread
    split
    · exact hread.trans (dirWrite_kept luck t c 1 _)
    · exact hread

theorem dropOld_kept (s : Io) (first : Nat) (skip : Nat × Nat) : Kept s (dropOld luck s first skip).2 := by
  have hfind := (findOtherNaming_read luck s first skip).kept
  unfold dropOld
  split
  · exact Kept.refl s
  · split
    · rename_i heq
      rw [heq] at hfind
      exact hfind
    · rename_i heq
      rw [heq] at hfind
      exact hfind
    · rename_i d i t heq
      rw [heq] at hfind
      have hread := (dirRead_read luck t d i).kept
      split
      · rename_i heq'
        rw [heq'] at hread
        exact hfind.trans hread
      · rename_i old u heq'
        rw [heq'] at hread
        exact (hfind.trans hread).trans ((dirDropLong_kept luck d _ i u).trans (dirWrite_kept luck _ d i _))

theorem finishRename_kept (s : Io) (r : Nat × Nat × Nat) : Kept s (finishRename luck s r) := by
  have hread := (dirRead_read luck s r.1 r.2.1).kept
  unfold finishRename
  split
  · rename_i heq
    rw [heq] at hread
    exact hread
  · rename_i e t heq
    rw [heq] at hread
    have hdrop := dropOld_kept luck t r.2.2 (r.1, r.2.1)
    split
    · exact hread
    · split
      · rename_i heq'
        rw [heq'] at hdrop
        exact hread.trans hdrop
      · rename_i u heq'
        rw [heq'] at hdrop
        have hup := dirPointUp_kept luck u r.2.2 r.1
        split
        · split
          · rename_i heq''
            rw [heq''] at hup
            exact (hread.trans hdrop).trans hup
          · rename_i heq''
            rw [heq''] at hup
            exact ((hread.trans hdrop).trans hup).trans (dirWrite_kept luck _ _ _ _)
        · exact (hread.trans hdrop).trans (dirWrite_kept luck _ _ _ _)

theorem finishRenames_kept (s : Io) (rs : List (Nat × Nat × Nat)) : Kept s (finishRenames luck s rs) := by
  induction rs generalizing s with
  | nil => exact Kept.refl s
  | cons r rs ih => exact (finishRename_kept luck s r).trans (ih _)

end finish

/-! ## The walk -/

section reclaim
variable {luck : Luck} {s : Io} {c n : Nat}

section
variable (luck s)

theorem markRoot_read : Read s (markRoot luck s).2 := by
  unfold markRoot
  split
  · exact markChain_read luck _ _ _ _
  · exact Read.refl s

theorem walkAll_read : Read s (walkAll luck s).io :=
  (markRoot_read luck s).trans (walk_read luck _ 0 ⟨(markRoot luck s).2, (markRoot luck s).1, [], 0, 64, [], true⟩)

theorem walked_kept : Kept s (walked luck s) :=
  (walkAll_read luck s).kept.trans (finishRenames_kept luck _ _)

end

theorem reserved_closed (D : Disk) (out : Nat → Prop) : Closed D out reserved := by
  intro m hm hmark
  refine absurd ?_ hmark
  exact if_neg (Nat.not_lt.mpr hm.1.1)

theorem markRoot_two (luck : Luck) (s : Io) : twos s.disk (markRoot luck s).1 = 0 := by
  have hnone : ∀ x, (markRoot luck s).1 x ≠ 2 := by
    have hreserved : ∀ x, reserved x ≠ 2 := by
      intro x
      unfold reserved
      split <;> omega
    intro x
    unfold markRoot
    split
    · exact fun h => hreserved x (((markChain_marks luck _ _ _ _).2 x).mp h)
    · exact hreserved x
  rw [twos, List.countP_eq_zero]
  exact fun x _ h => hnone x (of_decide_eq_true h)

theorem markRoot_closed (hquiet : (markRoot luck s).2.fatReadFailures = s.fatReadFailures) :
    Closed s.disk (fun _ => False) (markRoot luck s).1 ∧ ∀ x, OnRoot s.disk x → (markRoot luck s).1 x ≠ 0 := by
  unfold markRoot at hquiet ⊢
  split
  · rename_i hbits
    rw [if_pos hbits] at hquiet
    obtain ⟨hclosed, hfirst⟩ := markChain_closed (reserved_closed s.disk fun x => x = s.disk.rootCluster ∨ False)
      (unmarked_le s.disk reserved) hquiet
    exact ⟨hclosed, fun x hx => (hclosed.chain (fun _ h _ => h) hx.2 fun hin => .inl (hfirst hin)).resolve_right id⟩
  · rename_i hbits
    exact ⟨reserved_closed s.disk _, fun x hx => absurd hx.1 hbits⟩

theorem walkAll_whole (h : trusted luck s = true) : (walkAll luck s).whole = true := (Bool.and_eq_true_iff.mp h).1

theorem walkAll_used (htrust : trusted luck s = true) (hroot : (markRoot luck s).2.fatReadFailures = s.fatReadFailures)
    (hwalk : (walked luck s).fatReadFailures = (markRoot luck s).2.fatReadFailures) (huse : InUse s.disk c) :
    (walkAll luck s).reachable c ≠ 0 := by
  obtain ⟨hclosed, hroot⟩ := markRoot_closed hroot
  have hread := markRoot_read luck s
  have hquiet : (walkAll luck s).io.fatReadFailures = (markRoot luck s).2.fatReadFailures := by
    have hmore : (markRoot luck s).2.fatReadFailures ≤ (walk luck (s.disk.total + 1) 0
        ⟨(markRoot luck s).2, (markRoot luck s).1, [], 0, 64, [], true⟩).io.fatReadFailures :=
      (walk_read luck _ 0 ⟨(markRoot luck s).2, (markRoot luck s).1, [], 0, 64, [], true⟩).failures
    have hfinish := (finishRenames_kept luck (walkAll luck s).io (walkAll luck s).renames).failures
    unfold walked at hwalk
    unfold walkAll at hfinish hwalk ⊢
    omega
  have hfair : Fair s.disk (fun _ => False) (fun x => x = 0) (fun _ => False)
      ⟨(markRoot luck s).2, (markRoot luck s).1, [], 0, 64, [], true⟩ := by
    refine ⟨hread.disk, hclosed, fun x hx htwo => ?_, fun d hd => hd.elim⟩
    have hnone := markRoot_two luck s
    rw [twos, List.countP_eq_zero] at hnone
    exact absurd (decide_eq_true htwo) (hnone x (List.mem_range.mpr hx))
  obtain ⟨all, hall, hempty, hsub, hmore⟩ := walk_fair (k := 0) hfair (fun x hx => .inr hx) (markRoot_two luck s) le_rfl
    (walkAll_whole htrust) hquiet
  rcases huse with hon | ⟨d, e, hd, he, hc⟩
  · exact hmore.some c (hroot c hon)
  · exact (hall.used (fun _ h _ => h) hempty (hsub 0 rfl) hd he hc).resolve_right id

end reclaim

/-! ## The sweep -/

section sweep
variable {luck : Luck} {marks : Nat → Nat} {s t : Io} {r : Io × Nat} {c n : Nat}

def Clean (luck : Luck) (s : Io) (c : Nat) : Prop := (fatCacheLoad luck s (s.disk.tableSector c)).1 = true

def Misread (luck : Luck) (s : Io) (c : Nat) : Prop :=
  (fatCacheLoad luck s (s.disk.tableSector c)).1 = false ∧ Clean luck (fatCacheLoad luck s (s.disk.tableSector c)).2 c

def Taken (luck : Luck) (marks : Nat → Nat) (s : Io) (c : Nat) : Prop :=
  marks c = 0 ∧ (Clean luck s c ∧ s.disk.table c ≠ 0 ∧ s.disk.table c ≠ bad s.disk.bits ∨ Misread luck s c)

theorem fatCacheLoad_again {lba : Nat} (h : (fatCacheLoad luck s lba).1 = true) :
    fatCacheLoad luck (fatCacheLoad luck s lba).2 lba = (true, (fatCacheLoad luck s lba).2) := by
  have hcached : (fatCacheLoad luck s lba).2.cached = some lba := by
    unfold fatCacheLoad at h ⊢
    split
    · rename_i hcached
      exact hcached
    · rename_i hcached
      rw [if_neg hcached] at h
      split
      · rename_i heq
        rw [heq] at h
        cases h
      · rfl
  rw [fatCacheLoad, if_pos hcached]

theorem eoc_marks (bits : Nat) : eoc bits ≠ 0 ∧ eoc bits ≠ bad bits := by
  unfold eoc bad
  split
  · exact ⟨by decide, by decide⟩
  · exact ⟨by decide, by decide⟩

variable (luck marks s r)

theorem sweepOne_disk (c : Nat) :
    (Taken luck marks r.1 c → (sweepOne luck marks r c).1.disk = r.1.disk.setTable c 0) ∧
      (¬ Taken luck marks r.1 c → (sweepOne luck marks r c).1.disk = r.1.disk) := by
  have hread := (fatCacheLoad_read luck r.1 (r.1.disk.tableSector c)).disk
  unfold sweepOne
  by_cases hmark : marks c ≠ 0
  · rw [if_pos hmark]
    exact ⟨fun h => absurd h.1 hmark, fun _ => rfl⟩
  · rw [if_neg hmark]
    unfold fatGet Taken Misread Clean
    cases hload : (fatCacheLoad luck r.1 (r.1.disk.tableSector c)).1 with
    | true =>
      have hagain := fatCacheLoad_again hload
      have hpair : fatCacheLoad luck r.1 (r.1.disk.tableSector c) =
          (true, (fatCacheLoad luck r.1 (r.1.disk.tableSector c)).2) := Prod.ext hload rfl
      rw [hpair]
      dsimp only
      rw [hread]
      split
      · rename_i hstop
        refine ⟨?_, fun _ => hread⟩
        rintro ⟨-, ⟨-, hzero, hbad⟩ | ⟨hfalse, -⟩⟩
        · exact absurd hstop (not_or.mpr ⟨hzero, hbad⟩)
        · cases hfalse
      · rename_i hgo
        refine ⟨fun _ => ?_, fun hnot => absurd ⟨not_not.mp hmark, .inl ⟨rfl, not_or.mp hgo⟩⟩ hnot⟩
        rw [fatSet, hread, hagain]
        dsimp only
        rw [hread]
    | false =>
      have hpair : fatCacheLoad luck r.1 (r.1.disk.tableSector c) =
          (false, (fatCacheLoad luck r.1 (r.1.disk.tableSector c)).2) := Prod.ext hload rfl
      rw [hpair]
      dsimp only
      rw [hread, if_neg (not_or.mpr (eoc_marks _)), fatSet, hread]
      have hread' := (fatCacheLoad_read luck (fatCacheLoad luck r.1 (r.1.disk.tableSector c)).2 (r.1.disk.tableSector c)).disk
      split
      · rename_i heq
        rw [heq] at hread'
        refine ⟨?_, fun _ => hread'.trans hread⟩
        rintro ⟨-, ⟨hfalse, -⟩ | ⟨-, htrue⟩⟩
        · cases hfalse
        · rw [heq] at htrue
          cases htrue
      · rename_i heq
        rw [heq] at hread'
        refine ⟨fun _ => ?_, fun hnot => absurd ⟨not_not.mp hmark, .inr ⟨rfl, by rw [heq]⟩⟩ hnot⟩
        dsimp only at hread' ⊢
        rw [hread', hread]

theorem sweep_succ (n : Nat) :
    sweep luck marks s (n + 1) = sweepOne luck marks (sweep luck marks s n) (2 + n) := by
  rw [sweep, List.range'_1_concat, List.foldl_append]
  rfl

theorem sweepOne_bits (c : Nat) :
    (sweepOne luck marks r c).1.disk.bits = r.1.disk.bits := by
  obtain ⟨htaken, hkept⟩ := sweepOne_disk luck marks r c
  by_cases h : Taken luck marks r.1 c
  · rw [htaken h]
    rfl
  · rw [hkept h]

theorem sweepOne_other {c x : Nat} (hx : x ≠ c) :
    (sweepOne luck marks r c).1.disk.table x = r.1.disk.table x := by
  obtain ⟨htaken, hkept⟩ := sweepOne_disk luck marks r c
  by_cases h : Taken luck marks r.1 c
  · rw [htaken h]
    exact if_neg hx
  · rw [hkept h]

theorem sweep_bits (n : Nat) :
    (sweep luck marks s n).1.disk.bits = s.disk.bits := by
  induction n with
  | zero => rfl
  | succ n ih => rw [sweep_succ, sweepOne_bits, ih]

theorem sweep_other {c : Nat} {m n : Nat} (hmn : m ≤ n)
    (hc : c < 2 + m ∨ 2 + n ≤ c) : (sweep luck marks s n).1.disk.table c = (sweep luck marks s m).1.disk.table c := by
  induction n with
  | zero => rw [Nat.le_zero.mp hmn]
  | succ n ih =>
    rcases Nat.eq_or_lt_of_le hmn with rfl | hlt
    · rfl
    · rw [sweep_succ, sweepOne_other _ _ _ (by omega), ih (by omega) (by omega)]

def turn (c : Nat) : Io := (sweep luck marks s (c - 2)).1

theorem turn_table (c : Nat) :
    (turn luck marks s c).disk.table c = s.disk.table c := by
  by_cases hc : 2 ≤ c
  · exact sweep_other luck marks s (Nat.zero_le _) (.inr (by omega))
  · rw [turn, Nat.sub_eq_zero_of_le (by omega)]
    rfl

theorem sweep_table (n c : Nat) (hc : s.disk.table c ≠ 0) :
    (sweep luck marks s n).1.disk.table c = 0 ↔ (2 ≤ c ∧ c < 2 + n) ∧ Taken luck marks (turn luck marks s c) c := by
  by_cases hin : 2 ≤ c ∧ c < 2 + n
  · have hafter : (sweep luck marks s n).1.disk.table c =
        (sweepOne luck marks (sweep luck marks s (c - 2)) c).1.disk.table c := by
      have hstep := sweep_succ luck marks s (c - 2)
      rw [Nat.add_sub_of_le hin.1] at hstep
      rw [← hstep]
      exact sweep_other luck marks s (by omega) (.inl (by omega))
    obtain ⟨htaken, hkept⟩ := sweepOne_disk luck marks (sweep luck marks s (c - 2)) c
    rw [hafter]
    by_cases h : Taken luck marks (turn luck marks s c) c
    · rw [htaken h]
      exact ⟨fun _ => ⟨hin, h⟩, fun _ => if_pos rfl⟩
    · rw [hkept h]
      have hturn := turn_table luck marks s c
      rw [turn] at hturn
      rw [hturn]
      exact ⟨fun hzero => absurd hzero hc, fun hboth => absurd hboth.2 h⟩
  · refine ⟨fun hzero => absurd hzero ?_, fun hboth => absurd hboth.1 hin⟩
    have hout := sweep_other luck marks s (c := c) (Nat.zero_le n) (by omega)
    rw [hout]
    exact hc

end sweep

/-! ## What is given back wrongly -/

/-- A cluster that had an entry, and has none after the call. -/
def Freed (luck : Luck) (s : Io) (c : Nat) : Prop := s.disk.table c ≠ 0 ∧ (fatReclaim luck s).1.disk.table c = 0

/-- The state in which there is memory for the marks and for the queue. -/
def Begun (luck : Luck) (s t : Io) : Prop :=
  luck.memory s.asks = true ∧ luck.memory (s.asks + 1) = true ∧ t = { s with asks := s.asks + 2 }

section main
variable {luck : Luck} {s t : Io} {c : Nat}

theorem reclaim_table (luck : Luck) (t : Io) (c : Nat) (hc : t.disk.table c ≠ 0) :
    (reclaim luck t).1.disk.table c = 0 ↔ trusted luck t = true ∧ (2 ≤ c ∧ c < t.disk.total) ∧
      Taken luck (walkAll luck t).reachable (turn luck (walkAll luck t).reachable (walked luck t) c) c := by
  have hwalked : (walked luck t).disk.table c ≠ 0 := by rwa [(walked_kept luck t).table]
  have htotal : t.disk.total = 2 + t.disk.clusterCount := Nat.add_comm _ _
  unfold reclaim
  cases htrust : trusted luck t with
  | false =>
    rw [if_neg (by nofun)]
    exact ⟨fun hzero => absurd hzero hwalked, fun h => Bool.noConfusion h.1⟩
  | true =>
    rw [if_pos rfl, htotal, sweep_table luck _ _ _ c hwalked]
    exact ⟨fun h => ⟨rfl, h⟩, fun h => h.2⟩

theorem freed_iff (luck : Luck) (s : Io) (c : Nat) : Freed luck s c ↔ ∃ t, Begun luck s t ∧ trusted luck t = true ∧
    t.disk.table c ≠ 0 ∧ (2 ≤ c ∧ c < t.disk.total) ∧
      Taken luck (walkAll luck t).reachable (turn luck (walkAll luck t).reachable (walked luck t) c) c := by
  unfold Freed fatReclaim kmalloc Begun
  cases hone : luck.memory s.asks with
  | false =>
    refine ⟨fun h => absurd h.2 h.1, ?_⟩
    rintro ⟨t, ⟨hfalse, -⟩, -⟩
    cases hfalse
  | true =>
    dsimp only
    cases htwo : luck.memory (s.asks + 1) with
    | false =>
      refine ⟨fun h => absurd h.2 h.1, ?_⟩
      rintro ⟨t, ⟨-, hfalse, -⟩, -⟩
      cases hfalse
    | true =>
      refine ⟨fun h => ?_, ?_⟩
      · obtain ⟨htrust, hin, htaken⟩ := (reclaim_table luck { s with asks := s.asks + 2 } c h.1).mp h.2
        exact ⟨_, ⟨rfl, rfl, rfl⟩, htrust, h.1, hin, htaken⟩
      · rintro ⟨t, ⟨-, -, rfl⟩, htrust, hc, hin, htaken⟩
        exact ⟨hc, (reclaim_table luck { s with asks := s.asks + 2 } c hc).mpr ⟨htrust, hin, htaken⟩⟩

theorem turn_same (luck : Luck) (t : Io) (c : Nat) :
    (turn luck (walkAll luck t).reachable (walked luck t) c).disk.table c = t.disk.table c ∧
      (turn luck (walkAll luck t).reachable (walked luck t) c).disk.bits = t.disk.bits := by
  have hkept := walked_kept luck t
  rw [turn_table, hkept.table, turn, sweep_bits, hkept.bits]
  exact ⟨rfl, rfl⟩

end main

/-! ## Which reads fail -/

/-- The sectors of the table that a chain lies in, as far as it is not marked. -/
def Disk.chainSectors (D : Disk) : Nat → Nat → (Nat → Nat) → List Nat
  | 0, _, _ => []
  | guard + 1, c, marks =>
    if D.goes c ∧ c < D.total ∧ marks c = 0 then
      D.tableSector c :: D.chainSectors guard (D.table c) fun x => if x = c then 1 else marks x
    else []

/-- The sectors can all be had, from the read `n` on: one read whenever another sector than the one kept is wanted. -/
def Served (luck : Luck) (D : Disk) : Option Nat → Nat → List Nat → Prop
  | _, _, [] => True
  | cached, n, lba :: rest =>
    if cached = some lba then Served luck D cached n rest
    else ¬ (D.partSectors ≠ 0 ∧ lba ≥ D.partSectors) ∧ luck.fails n = false ∧ Served luck D (some lba) (n + 1) rest

def Io.begun (s : Io) : Io := { s with asks := s.asks + 2 }

/-- No read of the root's own chain fails, fewer than 2^32 reads of the table fail before the sweep, and no read of the sweep
that fails is followed at once by one that does not, if there is a bad cluster. -/
structure ReadsWell (luck : Luck) (s : Io) : Prop where
  root : s.disk.bits = 32 →
    Served luck s.disk s.cached s.reads (s.disk.chainSectors s.disk.total s.disk.rootCluster reserved)
  few : (walked luck s.begun).fatReadFailures < s.fatReadFailures + 2 ^ 32
  sweep : (∀ c, s.disk.table c ≠ bad s.disk.bits) ∨
    ∀ n, (walked luck s.begun).reads ≤ n → n + 1 < (fatReclaim luck s).1.reads → luck.fails n = true → luck.fails (n + 1) = true

section reads
variable {luck : Luck} {marks : Nat → Nat} {s t : Io} {c n : Nat}

theorem markChain_served {guard : Nat} (h : Served luck s.disk s.cached s.reads (s.disk.chainSectors guard c marks)) :
    (markChain luck guard c marks s).2.fatReadFailures = s.fatReadFailures := by
  induction guard generalizing c marks s with
  | zero => rfl
  | succ guard ih =>
    unfold markChain
    unfold Disk.chainSectors at h
    split
    · rename_i hgo
      rw [if_pos hgo, Served] at h
      split at h
      · rename_i hcached
        have hget : fatGet luck s c = (s.disk.table c, s) := by rw [fatGet, fatCacheLoad, if_pos hcached]
        rw [hget]
        exact ih h
      · rename_i hother
        obtain ⟨hhere, hread, hrest⟩ := h
        have hget : fatGet luck s c =
            (s.disk.table c, { s with reads := s.reads + 1, cached := some (s.disk.tableSector c) }) := by
          rw [fatGet, fatCacheLoad, if_neg hother, volRead, if_neg hhere, hread]
          rfl
        rw [hget]
        exact ih (s := { s with reads := s.reads + 1, cached := some (s.disk.tableSector c) }) hrest
    · rfl

theorem markRoot_quiet (h : ReadsWell luck s) :
    (markRoot luck s.begun).2.fatReadFailures = s.begun.fatReadFailures := by
  unfold markRoot
  split
  · rename_i hbits
    exact markChain_served (s := s.begun) (h.root hbits)
  · rfl

theorem walked_quiet (h : ReadsWell luck s) (htrust : trusted luck s.begun = true) :
    (walked luck s.begun).fatReadFailures = (markRoot luck s.begun).2.fatReadFailures := by
  have hmod := of_decide_eq_true (Bool.and_eq_true_iff.mp htrust).2
  have hroot : s.fatReadFailures ≤ (markRoot luck s.begun).2.fatReadFailures := (markRoot_read luck s.begun).failures
  have hwalk : (markRoot luck s.begun).2.fatReadFailures ≤ (walkAll luck s.begun).io.fatReadFailures :=
    (walk_read luck _ 0 ⟨(markRoot luck s.begun).2, (markRoot luck s.begun).1, [], 0, 64, [], true⟩).failures
  have hfinish : (walkAll luck s.begun).io.fatReadFailures ≤ (walked luck s.begun).fatReadFailures :=
    (finishRenames_kept luck _ _).failures
  have hfew := h.few
  omega

section
variable (luck marks s)

theorem fatCacheLoad_reads (lba : Nat) : s.reads ≤ (fatCacheLoad luck s lba).2.reads := by
  have hread : s.reads ≤ (volRead luck s lba).2.reads := by
    unfold volRead
    split
    · exact le_rfl
    · exact Nat.le_succ _
  unfold fatCacheLoad
  split
  · exact le_rfl
  · split
    · rename_i heq
      rw [heq] at hread
      exact hread
    · rename_i heq
      rw [heq] at hread
      exact hread

theorem fatGet_reads (c : Nat) : s.reads ≤ (fatGet luck s c).2.reads := by
  have hread := fatCacheLoad_reads luck s (s.disk.tableSector c)
  unfold fatGet
  split
  all_goals
    rename_i heq
    rw [heq] at hread
    exact hread

theorem fatSet_reads (c value : Nat) : s.reads ≤ (fatSet luck s c value).2.reads := by
  have hread := fatCacheLoad_reads luck s (s.disk.tableSector c)
  unfold fatSet
  split
  all_goals
    rename_i heq
    rw [heq] at hread
    exact hread

theorem sweepOne_reads (r : Io × Nat) (c : Nat) : r.1.reads ≤ (sweepOne luck marks r c).1.reads := by
  have hget := fatGet_reads luck r.1 c
  unfold sweepOne
  split
  · exact le_rfl
  · split
    rename_i v s heq
    rw [heq] at hget
    split
    · exact hget
    · exact hget.trans (fatSet_reads luck s c 0)

theorem sweep_reads {m n : Nat} (h : m ≤ n) :
    (sweep luck marks s m).1.reads ≤ (sweep luck marks s n).1.reads := by
  induction n with
  | zero => rw [Nat.le_zero.mp h]
  | succ n ih =>
    rcases Nat.eq_or_lt_of_le h with rfl | hlt
    · exact le_rfl
    · rw [sweep_succ]
      exact (ih (by omega)).trans (sweepOne_reads luck marks _ _)

end

/-- An entry that is misread takes two reads, of which the first fails and the second does not. -/
theorem Misread.reads {r : Io × Nat} (h : Misread luck r.1 c) (hmark : marks c = 0) :
    luck.fails r.1.reads = true ∧ luck.fails (r.1.reads + 1) = false ∧ (sweepOne luck marks r c).1.reads = r.1.reads + 2 := by
  obtain ⟨s, k⟩ := r
  obtain ⟨hfailed, hclean⟩ := h
  dsimp only at hfailed hclean ⊢
  have hother : ¬ s.cached = some (s.disk.tableSector c) := fun hcached => by
    rw [fatCacheLoad, if_pos hcached] at hfailed
    cases hfailed
  by_cases hout : s.disk.partSectors ≠ 0 ∧ s.disk.tableSector c ≥ s.disk.partSectors
  · -- a sector that is refused is refused again
    have hload : fatCacheLoad luck s (s.disk.tableSector c) =
        (false, { s with cached := none, fatReadFailures := s.fatReadFailures + 1 }) := by
      rw [fatCacheLoad, if_neg hother, volRead, if_pos hout]
    rw [Clean, hload, fatCacheLoad, if_neg nofun, volRead, if_pos hout] at hclean
    cases hclean
  · cases hread : luck.fails s.reads with
    | false =>
      rw [fatCacheLoad, if_neg hother, volRead, if_neg hout, hread] at hfailed
      cases hfailed
    | true =>
      have hload : fatCacheLoad luck s (s.disk.tableSector c) =
          (false, { s with cached := none, reads := s.reads + 1, fatReadFailures := s.fatReadFailures + 1 }) := by
        rw [fatCacheLoad, if_neg hother, volRead, if_neg hout, hread]
        rfl
      have hget : fatGet luck s c =
          (eoc s.disk.bits, { s with cached := none, reads := s.reads + 1, fatReadFailures := s.fatReadFailures + 1 }) := by
        rw [fatGet, hload]
      cases hnext : luck.fails (s.reads + 1) with
      | true =>
        rw [Clean, hload, fatCacheLoad, if_neg nofun, volRead, if_neg hout] at hclean
        dsimp only at hclean
        rw [hnext] at hclean
        cases hclean
      | false =>
        have hset : (fatSet luck { s with cached := none, reads := s.reads + 1, fatReadFailures := s.fatReadFailures + 1 } c 0).2.reads =
            s.reads + 2 := by
          rw [fatSet, fatCacheLoad, if_neg nofun, volRead, if_neg hout]
          dsimp only
          rw [hnext]
          rfl
        refine ⟨rfl, rfl, ?_⟩
        rw [sweepOne, if_neg (not_not.mpr hmark)]
        dsimp only
        rw [hget]
        dsimp only
        rw [if_neg (not_or.mpr (eoc_marks _)), hset]

theorem not_misread (h : ReadsWell luck s) (hbegun : luck.memory s.asks = true ∧ luck.memory (s.asks + 1) = true)
    (htrust : trusted luck s.begun = true) (hin : 2 ≤ c ∧ c < s.disk.total) (hbad : s.disk.table c = bad s.disk.bits)
    (hmark : (walkAll luck s.begun).reachable c = 0) :
    ¬ Misread luck (turn luck (walkAll luck s.begun).reachable (walked luck s.begun) c) c := by
  intro hmis
  have hend : (fatReclaim luck s).1 =
      (sweep luck (walkAll luck s.begun).reachable (walked luck s.begun) s.disk.clusterCount).1 := by
    unfold fatReclaim kmalloc
    simp only [hbegun.1, hbegun.2]
    exact congrArg Prod.fst (if_pos htrust)
  rcases h.sweep with hnone | hafter
  · exact hnone c hbad
  · obtain ⟨hfails, hserves, htwo⟩ := Misread.reads
      (r := sweep luck (walkAll luck s.begun).reachable (walked luck s.begun) (c - 2)) hmis hmark
    have hstep := sweep_succ luck (walkAll luck s.begun).reachable (walked luck s.begun) (c - 2)
    rw [show 2 + (c - 2) = c by omega] at hstep
    rw [← hstep] at htwo
    have hfirst := sweep_reads luck (walkAll luck s.begun).reachable (walked luck s.begun) (Nat.zero_le (c - 2))
    have hlast := sweep_reads luck (walkAll luck s.begun).reachable (walked luck s.begun) (m := c - 2 + 1)
      (n := s.disk.clusterCount) (by unfold Disk.total at hin; omega)
    rw [← hend] at hlast
    have := hafter _ hfirst (by omega) hfails
    rw [hserves] at this
    cases this

end reads

def sampleDisk : Disk where
  bits := 32
  clusterCount := 65525
  sectorsPerCluster := 1
  rootEntries := 0
  rootCluster := 2
  fatStart := 32
  rootStart := 0
  dataStart := 1056
  partSectors := 66581
  table c := if c = 2 then 3 else if c = 3 then 0x0FFFFFFF else 0
  sectors _ := List.replicate 16 Dirent.zero
  numbered := by decide

def sampleLuck : Luck := ⟨fun n => n = 0, fun _ => true⟩

def sampleIo : Io := ⟨sampleDisk, none, List.replicate DCACHE none, 0, 0, 0, 0⟩

/-- With a leaked cluster, and a bad one, and no read that fails. -/
def leakedIo : Io :=
  { sampleIo with disk := { sampleDisk with
      table := fun c => if c = 5 then 0x0FFFFFFF else if c = 6 then 0x0FFFFFF7 else sampleDisk.table c } }

def fairLuck : Luck := ⟨fun _ => false, fun _ => true⟩

end Zelr.Fat.Raw
