import Zelr.Fat.Calls

/-!
# A volume on a disk that fails

The table of clusters and the sectors of directories as they lie on the disk, and the reads of them, any of
which can fail. One sector of the table is kept, and eight sectors of directories; what is kept is not read.
-/

namespace Zelr.Fat.Raw

def eocMin (bits : Nat) : Nat := if bits = 32 then 0x0FFFFFF8 else 0xFFF8

def eoc (bits : Nat) : Nat := if bits = 32 then 0x0FFFFFFF else 0xFFFF

def bad (bits : Nat) : Nat := if bits = 32 then 0x0FFFFFF7 else 0xFFF7

structure Disk where
  bits : Nat
  clusterCount : Nat
  sectorsPerCluster : Nat
  rootEntries : Nat
  rootCluster : Nat
  fatStart : Nat
  rootStart : Nat
  dataStart : Nat
  partSectors : Nat
  /-- the entry of each cluster -/
  table : Nat → Nat
  /-- the sixteen entries of a directory's sector -/
  sectors : Nat → List Dirent
  /-- no number of a cluster is a mark -/
  numbered : clusterCount + 2 ≤ eocMin bits

/-- Which of the reads fail, and which of the requests for memory are met. -/
structure Luck where
  fails : Nat → Bool
  memory : Nat → Bool

def DCACHE : Nat := 8

structure Io where
  disk : Disk
  /-- the sector of the table that is kept -/
  cached : Option Nat
  /-- the sectors of directories that are kept -/
  dcache : List (Option Nat)
  dcacheNext : Nat
  /-- how many reads there were, and requests for memory -/
  reads : Nat
  asks : Nat
  fatReadFailures : Nat

def volRead (luck : Luck) (s : Io) (lba : Nat) : Bool × Io :=
  if s.disk.partSectors ≠ 0 ∧ lba ≥ s.disk.partSectors then (false, s)
  else (!luck.fails s.reads, { s with reads := s.reads + 1 })

def kmalloc (luck : Luck) (s : Io) : Bool × Io := (luck.memory s.asks, { s with asks := s.asks + 1 })

/-! ## The table -/

def fatCacheLoad (luck : Luck) (s : Io) (lba : Nat) : Bool × Io :=
  if s.cached = some lba then (true, s)
  else
    match volRead luck s lba with
    | (false, s) => (false, { s with cached := none, fatReadFailures := s.fatReadFailures + 1 })
    | (true, s) => (true, { s with cached := some lba })

def Disk.tableSector (D : Disk) (cluster : Nat) : Nat := D.fatStart + cluster * (D.bits / 8) / 512

def fatGet (luck : Luck) (s : Io) (cluster : Nat) : Nat × Io :=
  match fatCacheLoad luck s (s.disk.tableSector cluster) with
  | (false, s) => (eoc s.disk.bits, s)
  | (true, s) => (s.disk.table cluster, s)

def Disk.setTable (D : Disk) (cluster value : Nat) : Disk :=
  { D with table := fun c => if c = cluster then value else D.table c }

def fatSet (luck : Luck) (s : Io) (cluster value : Nat) : Bool × Io :=
  match fatCacheLoad luck s (s.disk.tableSector cluster) with
  | (false, s) => (false, s)
  | (true, s) => (true, { s with disk := s.disk.setTable cluster value })

/-! ## Directories, by first cluster, the root by 0 -/

def Disk.perCluster (D : Disk) : Nat := D.sectorsPerCluster * 512 / 32

def Disk.fixed (D : Disk) (d : Nat) : Prop := d = 0 ∧ D.bits ≠ 32

instance (D : Disk) (d : Nat) : Decidable (D.fixed d) := inferInstanceAs (Decidable (_ ∧ _))

def Disk.first (D : Disk) (d : Nat) : Nat := if d = 0 then D.rootCluster else d

def Disk.goes (D : Disk) (c : Nat) : Prop := 2 ≤ c ∧ c < eocMin D.bits

instance (D : Disk) (c : Nat) : Decidable (D.goes c) := inferInstanceAs (Decidable (_ ∧ _))

def countSlots (luck : Luck) : Nat → Nat → Nat → Io → Nat × Io
  | 0, _, n, s => (n, s)
  | guard + 1, c, n, s =>
    if s.disk.goes c then
      countSlots luck guard (fatGet luck s c).1 ((n + s.disk.perCluster) % 2 ^ 32) (fatGet luck s c).2
    else (n, s)

def dirCapacity (luck : Luck) (s : Io) (d : Nat) : Nat × Io :=
  if s.disk.fixed d then (s.disk.rootEntries, s) else countSlots luck (s.disk.clusterCount + 2) (s.disk.first d) 0 s

def follow (luck : Luck) : Nat → Nat → Nat → Io → Option Nat × Io
  | 0, _, c, s => (if s.disk.goes c then some c else none, s)
  | want + 1, guard, c, s =>
    if s.disk.goes c then
      if guard > s.disk.clusterCount + 2 then (none, (fatGet luck s c).2)
      else follow luck want (guard + 1) (fatGet luck s c).1 (fatGet luck s c).2
    else (none, s)

def Disk.inCluster (D : Disk) (i c : Nat) : Nat × Nat :=
  (D.dataStart + (c - 2) * D.sectorsPerCluster + i % D.perCluster / 16, i % D.perCluster % 16)

def dirLocate (luck : Luck) (s : Io) (d i : Nat) : Option (Nat × Nat) × Io :=
  if s.disk.fixed d then
    (if i ≥ s.disk.rootEntries then none else some (s.disk.rootStart + i / 16, i % 16), s)
  else
    ((follow luck (i / s.disk.perCluster) 0 (s.disk.first d) s).1.map (s.disk.inCluster i),
      (follow luck (i / s.disk.perCluster) 0 (s.disk.first d) s).2)

def dsecLoad (luck : Luck) (s : Io) (lba : Nat) : Bool × Io :=
  if some lba ∈ s.dcache then (true, s)
  else
    match volRead luck { s with dcache := s.dcache.set s.dcacheNext none, dcacheNext := (s.dcacheNext + 1) % DCACHE } lba with
    | (false, t) => (false, t)
    | (true, t) => (true, { t with dcache := t.dcache.set s.dcacheNext (some lba) })

def Disk.entryAt (D : Disk) (place : Nat × Nat) : Dirent := (D.sectors place.1).getD place.2 Dirent.zero

def dirRead (luck : Luck) (s : Io) (d i : Nat) : Option Dirent × Io :=
  match dirLocate luck s d i with
  | (none, s) => (none, s)
  | (some place, s) =>
    match dsecLoad luck s place.1 with
    | (false, s) => (none, s)
    | (true, s) => (some (s.disk.entryAt place), s)

def Disk.setEntry (D : Disk) (place : Nat × Nat) (e : Dirent) : Disk :=
  { D with sectors := fun lba => if lba = place.1 then (D.sectors lba).set place.2 e else D.sectors lba }

def dirWrite (luck : Luck) (s : Io) (d i : Nat) (e : Dirent) : Bool × Io :=
  match dirLocate luck s d i with
  | (none, s) => (false, s)
  | (some place, s) =>
    match dsecLoad luck s place.1 with
    | (false, s) => (false, s)
    | (true, s) => (true, { s with disk := s.disk.setEntry place e })

/-! ## What a disk says, read without a failure -/

def Disk.countSlots (D : Disk) : Nat → Nat → Nat → Nat
  | 0, _, n => n
  | guard + 1, c, n => if D.goes c then D.countSlots guard (D.table c) ((n + D.perCluster) % 2 ^ 32) else n

def Disk.capacity (D : Disk) (d : Nat) : Nat :=
  if D.fixed d then D.rootEntries else D.countSlots (D.clusterCount + 2) (D.first d) 0

def Disk.follow (D : Disk) : Nat → Nat → Nat → Option Nat
  | 0, _, c => if D.goes c then some c else none
  | want + 1, guard, c =>
    if D.goes c then if guard > D.clusterCount + 2 then none else D.follow want (guard + 1) (D.table c) else none

def Disk.locate (D : Disk) (d i : Nat) : Option (Nat × Nat) :=
  if D.fixed d then if i ≥ D.rootEntries then none else some (D.rootStart + i / 16, i % 16)
  else (D.follow (i / D.perCluster) 0 (D.first d)).map (D.inCluster i)

def Disk.slot (D : Disk) (d i : Nat) : Option Dirent := (D.locate d i).map D.entryAt

/-! ## What a read is good for -/

/-- After some reads: the same disk, and no fewer failures of the table. -/
structure Read (s t : Io) : Prop where
  disk : t.disk = s.disk
  failures : s.fatReadFailures ≤ t.fatReadFailures

theorem Read.refl (s : Io) : Read s s := ⟨rfl, le_rfl⟩

theorem Read.trans {s t u : Io} (h : Read s t) (h' : Read t u) : Read s u :=
  ⟨h'.disk.trans h.disk, h.failures.trans h'.failures⟩

section reads
variable (luck : Luck) (s : Io)

theorem volRead_read (lba : Nat) : Read s (volRead luck s lba).2 := by
  unfold volRead
  split
  · exact Read.refl s
  · exact ⟨rfl, le_rfl⟩

theorem kmalloc_read : Read s (kmalloc luck s).2 := ⟨rfl, le_rfl⟩

theorem fatCacheLoad_read (lba : Nat) : Read s (fatCacheLoad luck s lba).2 := by
  have hread := volRead_read luck s lba
  unfold fatCacheLoad
  split
  · exact Read.refl s
  · split
    · rename_i heq
      rw [heq] at hread
      exact ⟨hread.disk, hread.failures.trans (Nat.le_succ _)⟩
    · rename_i heq
      rw [heq] at hread
      exact ⟨hread.disk, hread.failures⟩

theorem fatCacheLoad_failed {lba : Nat} (h : (fatCacheLoad luck s lba).1 = false) :
    (fatCacheLoad luck s lba).2.fatReadFailures = s.fatReadFailures + 1 := by
  have hsame : (volRead luck s lba).2.fatReadFailures = s.fatReadFailures := by
    unfold volRead
    split
    · rfl
    · rfl
  unfold fatCacheLoad at h ⊢
  split
  · rename_i hcached
    rw [if_pos hcached] at h
    cases h
  · rename_i hcached
    rw [if_neg hcached] at h
    split
    · rename_i heq
      rw [heq] at hsame
      rw [← hsame]
    · rename_i heq
      rw [heq] at h
      cases h

theorem fatGet_read (c : Nat) : Read s (fatGet luck s c).2 := by
  have hread := fatCacheLoad_read luck s (s.disk.tableSector c)
  unfold fatGet
  split
  · rename_i heq
    rw [heq] at hread
    exact hread
  · rename_i heq
    rw [heq] at hread
    exact hread

theorem fatGet_value (c : Nat) : (fatGet luck s c).1 = s.disk.table c ∨
    (fatGet luck s c).1 = eoc s.disk.bits ∧ (fatGet luck s c).2.fatReadFailures = s.fatReadFailures + 1 := by
  have hread := fatCacheLoad_read luck s (s.disk.tableSector c)
  have hfailed : (fatCacheLoad luck s (s.disk.tableSector c)).1 = false → _ := fatCacheLoad_failed luck s
  unfold fatGet
  split
  · rename_i heq
    rw [heq] at hread hfailed
    exact .inr ⟨by rw [hread.disk], hfailed rfl⟩
  · rename_i heq
    rw [heq] at hread
    exact .inl (by rw [hread.disk])

theorem eoc_stops (D : Disk) : ¬ D.goes (eoc D.bits) := by
  unfold Disk.goes eoc eocMin
  split <;> omega

theorem countSlots_read (guard c n : Nat) : Read s (countSlots luck guard c n s).2 := by
  induction guard generalizing c n s with
  | zero => exact Read.refl s
  | succ guard ih =>
    unfold countSlots
    split
    · exact (fatGet_read luck s c).trans (ih _ _ _)
    · exact Read.refl s

theorem countSlots_value (guard c n : Nat)
    (h : (countSlots luck guard c n s).2.fatReadFailures = s.fatReadFailures) :
    (countSlots luck guard c n s).1 = s.disk.countSlots guard c n := by
  induction guard generalizing c n s with
  | zero => rfl
  | succ guard ih =>
    unfold countSlots at h ⊢
    unfold Disk.countSlots
    split
    · rename_i hgoes
      rw [if_pos hgoes] at h
      have hget := fatGet_read luck s c
      have hrest := (countSlots_read luck (fatGet luck s c).2 guard (fatGet luck s c).1
        ((n + s.disk.perCluster) % 2 ^ 32)).failures
      have hfirst : (fatGet luck s c).2.fatReadFailures = s.fatReadFailures := by
        have hle := hget.failures
        omega
      have hvalue : (fatGet luck s c).1 = s.disk.table c := by
        rcases fatGet_value luck s c with heq | ⟨-, hfail⟩
        · exact heq
        · omega
      rw [ih _ _ _ (h.trans hfirst.symm), hget.disk, hvalue]
    · rfl

theorem dirCapacity_read (d : Nat) : Read s (dirCapacity luck s d).2 := by
  unfold dirCapacity
  split
  · exact Read.refl s
  · exact countSlots_read luck s _ _ _

theorem dirCapacity_value (d : Nat) (h : (dirCapacity luck s d).2.fatReadFailures = s.fatReadFailures) :
    (dirCapacity luck s d).1 = s.disk.capacity d := by
  unfold dirCapacity at h ⊢
  unfold Disk.capacity
  split
  · rfl
  · rename_i hfixed
    rw [if_neg hfixed] at h
    exact countSlots_value luck s _ _ _ h

theorem follow_read (want guard c : Nat) : Read s (follow luck want guard c s).2 := by
  induction want generalizing guard c s with
  | zero => exact Read.refl s
  | succ want ih =>
    unfold follow
    split
    · split
      · exact fatGet_read luck s c
      · exact (fatGet_read luck s c).trans (ih _ _ _)
    · exact Read.refl s

theorem follow_value {want guard c x : Nat} (h : (follow luck want guard c s).1 = some x) :
    s.disk.follow want guard c = some x := by
  induction want generalizing guard c s with
  | zero => exact h
  | succ want ih =>
    unfold follow at h
    unfold Disk.follow
    split
    · rename_i hgoes
      rw [if_pos hgoes] at h
      split
      · rename_i hguard
        rw [if_pos hguard] at h
        cases h
      · rename_i hguard
        rw [if_neg hguard] at h
        have hrest := ih _ h
        rw [(fatGet_read luck s c).disk] at hrest
        rcases fatGet_value luck s c with hvalue | ⟨hvalue, -⟩
        · rwa [hvalue] at hrest
        · rw [hvalue] at hrest
          have hstops := eoc_stops s.disk
          cases want with
          | zero =>
            rw [Disk.follow, if_neg hstops] at hrest
            cases hrest
          | succ want =>
            rw [Disk.follow, if_neg hstops] at hrest
            cases hrest
    · rename_i hgoes
      rw [if_neg hgoes] at h
      cases h

theorem dirLocate_read (d i : Nat) : Read s (dirLocate luck s d i).2 := by
  unfold dirLocate
  split
  · exact Read.refl s
  · exact follow_read luck s _ _ _

theorem dirLocate_value {d i : Nat} {place : Nat × Nat} (h : (dirLocate luck s d i).1 = some place) :
    s.disk.locate d i = some place := by
  unfold dirLocate at h
  unfold Disk.locate
  split
  · rename_i hfixed
    rw [if_pos hfixed] at h
    exact h
  · rename_i hfixed
    rw [if_neg hfixed] at h
    obtain ⟨c, hc, rfl⟩ := Option.map_eq_some_iff.mp h
    rw [follow_value luck s hc]
    rfl

theorem dsecLoad_read (lba : Nat) : Read s (dsecLoad luck s lba).2 := by
  unfold dsecLoad
  split
  · exact Read.refl s
  · have hread := volRead_read luck
      { s with dcache := s.dcache.set s.dcacheNext none, dcacheNext := (s.dcacheNext + 1) % DCACHE } lba
    split
    · rename_i heq
      rw [heq] at hread
      exact ⟨hread.disk, hread.failures⟩
    · rename_i heq
      rw [heq] at hread
      exact ⟨hread.disk, hread.failures⟩

theorem dirRead_read (d i : Nat) : Read s (dirRead luck s d i).2 := by
  have hlocate := dirLocate_read luck s d i
  unfold dirRead
  split
  · rename_i heq
    rw [heq] at hlocate
    exact hlocate
  · rename_i place t heq
    rw [heq] at hlocate
    have hload := dsecLoad_read luck t place.1
    split
    · rename_i hload'
      rw [hload'] at hload
      exact hlocate.trans hload
    · rename_i hload'
      rw [hload'] at hload
      exact hlocate.trans hload

theorem dirRead_value {d i : Nat} {e : Dirent} (h : (dirRead luck s d i).1 = some e) : s.disk.slot d i = some e := by
  have hlocate := dirLocate_read luck s d i
  have hplace : ∀ place, (dirLocate luck s d i).1 = some place → s.disk.locate d i = some place :=
    fun place => dirLocate_value luck s
  unfold dirRead at h
  split at h
  · cases h
  · rename_i place t heq
    rw [heq] at hlocate hplace
    have hload := dsecLoad_read luck t place.1
    split at h
    · cases h
    · rename_i hload'
      rw [hload'] at hload
      cases h
      rw [Disk.slot, hplace place rfl, (hlocate.trans hload).disk]
      rfl

end reads

/-! ## What a write is good for -/

/-- After some reads, and writes to directories: the same table. -/
structure Kept (s t : Io) : Prop where
  bits : t.disk.bits = s.disk.bits
  clusterCount : t.disk.clusterCount = s.disk.clusterCount
  table : t.disk.table = s.disk.table
  failures : s.fatReadFailures ≤ t.fatReadFailures

theorem Read.kept {s t : Io} (h : Read s t) : Kept s t := by
  refine ⟨?_, ?_, ?_, h.failures⟩ <;> rw [h.disk]

theorem Kept.refl (s : Io) : Kept s s := (Read.refl s).kept

theorem Kept.trans {s t u : Io} (h : Kept s t) (h' : Kept t u) : Kept s u :=
  ⟨h'.bits.trans h.bits, h'.clusterCount.trans h.clusterCount, h'.table.trans h.table, h.failures.trans h'.failures⟩

theorem dirWrite_kept (luck : Luck) (s : Io) (d i : Nat) (e : Dirent) : Kept s (dirWrite luck s d i e).2 := by
  have hlocate := dirLocate_read luck s d i
  unfold dirWrite
  split
  · rename_i heq
    rw [heq] at hlocate
    exact hlocate.kept
  · rename_i place t heq
    rw [heq] at hlocate
    have hload := dsecLoad_read luck t place.1
    split
    · rename_i hload'
      rw [hload'] at hload
      exact (hlocate.trans hload).kept
    · rename_i hload'
      rw [hload'] at hload
      have hkept := (hlocate.trans hload).kept
      exact ⟨hkept.bits, hkept.clusterCount, hkept.table, hkept.failures⟩

end Zelr.Fat.Raw
