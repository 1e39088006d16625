import Zelr.Fat.Raw

/-!
# Giving back what nothing refers to

From the root every chain is marked that an entry names, directory after directory. What is not marked is
given back, unless something could not be read.
-/

namespace Zelr.Fat.Raw

def RENAMING_MAX : Nat := 16

def Disk.total (D : Disk) : Nat := D.clusterCount + 2

/-- What is passed over in a directory: what is no file or directory, and `.` and `..`. -/
def passed (e : Dirent) : Bool := !entryIsReal e || e.first = DOT

def isRenaming (e : Dirent) : Bool := byteAt e.tail 0 &&& NT_RENAMING ≠ 0

/-! ## Marking -/

def markChain (luck : Luck) : Nat → Nat → (Nat → Nat) → Io → (Nat → Nat) × Io
  | 0, _, reachable, s => (reachable, s)
  | guard + 1, c, reachable, s =>
    if s.disk.goes c ∧ c < s.disk.total ∧ reachable c = 0 then
      markChain luck guard (fatGet luck s c).1 (fun x => if x = c then 1 else reachable x) (fatGet luck s c).2
    else (reachable, s)

structure Walk where
  io : Io
  reachable : Nat → Nat
  /-- the directories still to visit, how many there have been, and how many there is room for -/
  queue : List Nat
  tail : Nat
  queueCap : Nat
  /-- the directory and the slot of entries that are marked, and their first clusters -/
  renames : List (Nat × Nat × Nat)
  whole : Bool

def Walk.push (luck : Luck) (w : Walk) (first : Nat) : Walk :=
  let pushed := { w with
    reachable := fun x => if x = first then 2 else w.reachable x
    queue := w.queue ++ [first]
    tail := w.tail + 1 }
  if w.tail = w.queueCap then
    match kmalloc luck w.io with
    | (false, s) => { w with io := s, whole := false }
    | (true, s) => { pushed with io := s, queueCap := w.queueCap * 2 }
  else pushed

/-- The chain of an entry in the slot `i` of a directory marked, and the entry noted when its rename is not over. -/
def Walk.mark (luck : Luck) (w : Walk) (d i : Nat) (e : Dirent) : Walk :=
  let first := entCluster w.io.disk.bits e
  let marked := markChain luck w.io.disk.total first w.reachable w.io
  { w with
    io := marked.2
    reachable := marked.1
    renames := if isRenaming e ∧ w.renames.length < RENAMING_MAX then w.renames ++ [(d, i, first)] else w.renames }

def Walk.meet (luck : Luck) (w : Walk) (d i : Nat) (e : Dirent) : Walk :=
  if e.isDir ∧ 2 ≤ entCluster w.io.disk.bits e ∧ entCluster w.io.disk.bits e < w.io.disk.total ∧
    (w.mark luck d i e).reachable (entCluster w.io.disk.bits e) ≠ 2
  then (w.mark luck d i e).push luck (entCluster w.io.disk.bits e)
  else w.mark luck d i e

def scan (luck : Luck) (d : Nat) : Nat → Nat → Walk → Walk
  | 0, _, w => w
  | left + 1, i, w =>
    match dirRead luck w.io d i with
    | (none, s) => { w with io := s, whole := false }
    | (some e, s) =>
      if e.first = ENT_FREE then { w with io := s }
      else if passed e then scan luck d left (i + 1) { w with io := s }
      else
        let met := Walk.meet luck { w with io := s } d i e
        if met.whole then scan luck d left (i + 1) met else met

def scanDir (luck : Luck) (d : Nat) (w : Walk) : Walk :=
  scan luck d (dirCapacity luck w.io d).1 0 { w with io := (dirCapacity luck w.io d).2 }

def walk (luck : Luck) : Nat → Nat → Walk → Walk
  | 0, _, w => w
  | fuel + 1, d, w =>
    let w := scanDir luck d w
    match w.whole, w.queue with
    | true, next :: queue => walk luck fuel next { w with queue := queue }
    | _, _ => w

/-! ## Finishing renames -/

/-- A search for another entry with a chain: found at a place, given up, or not over. -/
inductive Search
  | found (d i : Nat)
  | lost
  | going

structure Seek where
  io : Io
  queue : List Nat
  tail : Nat
  queueCap : Nat
  got : Search

def Seek.push (luck : Luck) (w : Seek) (c : Nat) : Seek :=
  let pushed := { w with queue := w.queue ++ [c], tail := w.tail + 1 }
  if w.tail = w.queueCap then
    match kmalloc luck w.io with
    | (false, s) => { w with io := s, got := .lost }
    | (true, s) => { pushed with io := s, queueCap := w.queueCap * 2 }
  else pushed

def seekDir (luck : Luck) (first : Nat) (skip : Nat × Nat) (d : Nat) : Nat → Nat → Seek → Seek
  | 0, _, w => w
  | left + 1, i, w =>
    match dirRead luck w.io d i with
    | (none, s) => { w with io := s, got := .lost }
    | (some e, s) =>
      let w := { w with io := s }
      if e.first = ENT_FREE then w
      else if passed e then seekDir luck first skip d left (i + 1) w
      else if entCluster w.io.disk.bits e = first ∧ (d, i) ≠ skip then { w with got := .found d i }
      else if e.isDir ∧ 2 ≤ entCluster w.io.disk.bits e then
        match w.push luck (entCluster w.io.disk.bits e) with
        | ⟨s, queue, tail, cap, .going⟩ => seekDir luck first skip d left (i + 1) ⟨s, queue, tail, cap, .going⟩
        | w => w
      else seekDir luck first skip d left (i + 1) w

/-- Past one visit for each cluster nothing is trusted. -/
def seek (luck : Luck) (first : Nat) (skip : Nat × Nat) : Nat → Nat → Seek → Seek
  | visits, d, w =>
    match seekDir luck first skip d (dirCapacity luck w.io d).1 0 { w with io := (dirCapacity luck w.io d).2 } with
    | ⟨s, next :: queue, tail, cap, .going⟩ =>
      match visits with
      | 0 => ⟨s, next :: queue, tail, cap, .lost⟩
      | visits + 1 => seek luck first skip visits next ⟨s, queue, tail, cap, .going⟩
    | w => w

def findOtherNaming (luck : Luck) (s : Io) (first : Nat) (skip : Nat × Nat) : Search × Io :=
  match kmalloc luck s with
  | (false, s) => (.lost, s)
  | (true, s) =>
    let w := seek luck first skip s.disk.clusterCount 0 ⟨s, [], 0, 64, .going⟩
    (w.got, w.io)

def dirDropLong (luck : Luck) (d : Nat) (sum : UInt8) : Nat → Io → Io
  | 0, s => s
  | i + 1, s =>
    match dirRead luck s d i with
    | (none, s) => s
    | (some raw, s) =>
      if !raw.isLfn || raw.checksum ≠ sum then s
      else if raw.isLast then (dirWrite luck s d i raw.deleted).2
      else dirDropLong luck d sum i (dirWrite luck s d i raw.deleted).2

def dirPointUp (luck : Luck) (s : Io) (c p : Nat) : Bool × Io :=
  match dirRead luck s c 1 with
  | (none, s) => (false, s)
  | (some up, s) => if up.isUp then dirWrite luck s c 1 (setEntCluster s.disk.bits p up) else (true, s)

def dropOld (luck : Luck) (s : Io) (first : Nat) (skip : Nat × Nat) : Bool × Io :=
  if first < 2 then (true, s)
  else
    match findOtherNaming luck s first skip with
    | (.lost, s) => (false, s)
    | (.going, s) => (true, s)
    | (.found d i, s) =>
      match dirRead luck s d i with
      | (none, s) => (false, s)
      | (some old, s) => dirWrite luck (dirDropLong luck d (shortChecksum old.name) i s) d i old.deleted

def clearRenaming (e : Dirent) : Dirent := setNt (byteAt e.tail 0 &&& ~~~NT_RENAMING) e

def finishRename (luck : Luck) (s : Io) (r : Nat × Nat × Nat) : Io :=
  match dirRead luck s r.1 r.2.1 with
  | (none, s) => s
  | (some e, s) =>
    if !isRenaming e then s
    else
      match dropOld luck s r.2.2 (r.1, r.2.1) with
      | (false, s) => s
      | (true, s) =>
        if r.2.2 ≥ 2 ∧ e.isDir then
          match dirPointUp luck s r.2.2 r.1 with
          | (false, s) => s
          | (true, s) => (dirWrite luck s r.1 r.2.1 (clearRenaming e)).2
        else (dirWrite luck s r.1 r.2.1 (clearRenaming e)).2

def finishRenames (luck : Luck) (s : Io) (rs : List (Nat × Nat × Nat)) : Io := rs.foldl (finishRename luck) s

/-! ## Sweeping -/

def sweepOne (luck : Luck) (reachable : Nat → Nat) (r : Io × Nat) (c : Nat) : Io × Nat :=
  if reachable c ≠ 0 then r
  else
    match fatGet luck r.1 c with
    | (v, s) => if v = 0 ∨ v = bad s.disk.bits then (s, r.2) else ((fatSet luck s c 0).2, r.2 + 1)

def sweep (luck : Luck) (reachable : Nat → Nat) (s : Io) (n : Nat) : Io × Nat :=
  (List.range' 2 n).foldl (sweepOne luck reachable) (s, 0)

def reserved : Nat → Nat := fun c => if c < 2 then 1 else 0

def markRoot (luck : Luck) (s : Io) : (Nat → Nat) × Io :=
  if s.disk.bits = 32 then markChain luck s.disk.total s.disk.rootCluster reserved s else (reserved, s)

def walkAll (luck : Luck) (s : Io) : Walk :=
  walk luck (s.disk.total + 1) 0 ⟨(markRoot luck s).2, (markRoot luck s).1, [], 0, 64, [], true⟩

def walked (luck : Luck) (s : Io) : Io := finishRenames luck (walkAll luck s).io (walkAll luck s).renames

def trusted (luck : Luck) (s : Io) : Bool :=
  (walkAll luck s).whole && (walked luck s).fatReadFailures % 2 ^ 32 = (markRoot luck s).2.fatReadFailures % 2 ^ 32

def reclaim (luck : Luck) (s : Io) : Io × Nat :=
  if trusted luck s then sweep luck (walkAll luck s).reachable (walked luck s) s.disk.clusterCount
  else (walked luck s, 0)

def fatReclaim (luck : Luck) (s : Io) : Io × Nat :=
  match kmalloc luck s with
  | (false, s) => (s, 0)
  | (true, s) =>
    match kmalloc luck s with
    | (false, s) => (s, 0)
    | (true, s) => reclaim luck s

end Zelr.Fat.Raw
