import Zelr.Fat.Alias
import Zelr.Fat.Long

/-!
# Directories

A directory is its slots in order.
-/

namespace Zelr.Fat

structure Dir where
  root : Bool
  slots : List Dirent
  deriving DecidableEq

def Dir.entry (d : Dir) (i : Nat) : Dirent := d.slots.getD i Dirent.zero

def Dir.ending (d : Dir) : Nat := d.slots.findIdx fun e => e.first = ENT_FREE

/-- The names of the files and directories among some slots. -/
def live (slots : List Dirent) : List Bytes := (slots.filter entryIsReal).map Dirent.name

def Dir.shorts (d : Dir) : List Bytes := live (d.slots.take d.ending)

/-! ## Looking -/

/-- An entry answers to its short name, and to its long one. -/
def answers (d : Dir) (name : Bytes) (i : Nat) : Bool :=
  entryIsReal (d.entry i) &&
    (fits83 name && (d.entry i).name = to83 name ||
      match longNameOf d.slots i (d.entry i) with
      | some real => sameName real name
      | none => false)

def dirFind (d : Dir) (name : Bytes) : Option Nat :=
  if isDots name then
    if d.root then none
    else (List.range (min 2 d.slots.length)).find? fun i => (d.entry i).name = blanks 11 name
  else (List.range d.ending).find? (answers d name)

def shownName (d : Dir) (i : Nat) : Bytes := (longNameOf d.slots i (d.entry i)).getD (from83 (d.entry i).name)

/-- The entries that are listed: the real ones but for `.` and `..`. -/
def listed (d : Dir) : List Nat :=
  (List.range d.ending).filter fun i => entryIsReal (d.entry i) && (d.entry i).first ≠ DOT

/-! ## Making room -/

/-- What a directory can grow by, and whether it can. -/
structure Room where
  bits : Nat
  perCluster : Nat
  left : Bool
  deriving DecidableEq

def dirGrow (r : Room) (d : Dir) : Option Dir :=
  if (d.root && r.bits ≠ 32) || !r.left then none
  else some { d with slots := d.slots ++ List.replicate r.perCluster Dirent.zero }

def lookTwice (r : Room) (d : Dir) (find : List Dirent → Option Nat) : Dir × Option Nat :=
  match find d.slots with
  | some i => (d, some i)
  | none =>
    match dirGrow r d with
    | some d => (d, find d.slots)
    | none => (d, none)

def freeSlot (slots : List Dirent) : Option Nat := slots.findIdx? Dirent.usable

def dirFreeSlot (r : Room) (d : Dir) : Dir × Option Nat := lookTwice r d freeSlot

/-- The scan of `dir_free_run`, `run` of the slots before the one at `i` being free. -/
def freeRun (want : Nat) : Nat → Nat → List Dirent → Option Nat
  | _, _, [] => none
  | i, run, e :: slots =>
    if e.usable then if run + 1 = want then some (i + 1 - want) else freeRun want (i + 1) (run + 1) slots
    else freeRun want (i + 1) 0 slots

def dirFreeRun (r : Room) (d : Dir) (want : Nat) : Dir × Option Nat := lookTwice r d (freeRun want 0 0)

/-! ## Putting a name in -/

def makeAlias (d : Dir) (name : Bytes) : Option Bytes :=
  let p := aliasParts name
  aliasChoose name p (fun n => d.shorts.any fun s => aliasNumberOf p s = n) fun a => a ∈ d.shorts

def writeRun : List Dirent → Nat → List Dirent → List Dirent
  | slots, _, [] => slots
  | slots, i, e :: es => writeRun (slots.set i e) (i + 1) es

def dirPutName (r : Room) (d : Dir) (name : Bytes) : Dir × Option (Nat × Bytes) :=
  if !needsLong name then
    match dirFreeSlot r d with
    | (d, some slot) => (d, some (slot, to83 name))
    | (d, none) => (d, none)
  else if name.length ≥ FAT_NAME_MAX then (d, none)
  else
    match utf8ToUnits name FAT_NAME_MAX with
    | none | some [] => (d, none)
    | some us =>
      match dirFreeRun r d (lfnSlots us + 1) with
      | (d, none) => (d, none)
      | (d, some start) =>
        match makeAlias d name with
        | none => (d, none)
        | some short =>
          let parts := (List.range (lfnSlots us)).map (lfnSlot us (shortChecksum short))
          ({ d with slots := writeRun d.slots start parts }, some (start + lfnSlots us, short))

/-! ## Taking one out -/

def Dirent.deleted (e : Dirent) : Dirent := { e with name := ENT_DELETED :: e.name.drop 1 }

/-- The slots before `i` that are the long name of an entry with this checksum. -/
def dirDropLong (sum : UInt8) : Nat → List Dirent → List Dirent
  | 0, slots => slots
  | i + 1, slots =>
    let raw := slots.getD i Dirent.zero
    if !raw.isLfn || raw.checksum ≠ sum then slots
    else if raw.isLast then slots.set i raw.deleted
    else dirDropLong sum i (slots.set i raw.deleted)

def dropEntry (d : Dir) (i : Nat) : Dir :=
  let e := d.entry i
  { d with slots := (dirDropLong (shortChecksum e.name) i d.slots).set i e.deleted }

/-!
## The calls on a volume

What each call does to the directories. The tables are left out: a call is told which cluster the rest of
the volume had for it, if any.
-/

structure Leaf where
  name : Bytes
  plain : 0 ∉ name
  short : name.length < FAT_NAME_MAX

/-- The date and the time as they are stamped, and the tenths. -/
structure Clock where
  date : Nat
  time : Nat
  tenth : UInt8
  deriving DecidableEq

/-- What a call finds outside the directories. -/
structure Env where
  /-- whether there is a cluster for a directory to grow by -/
  room : Bool
  /-- the first cluster of what is written, 0 for nothing, or the disk being full -/
  chain : Option Nat
  now : Option Clock
  deriving DecidableEq

structure Volume where
  bits : Nat
  sectorsPerCluster : Nat
  madeHere : Bool
  /-- by first cluster, the root by 0 -/
  dirs : Nat → List Dirent

def Volume.dir (v : Volume) (p : Nat) : Dir := ⟨p = 0, v.dirs p⟩

def Volume.entriesPerCluster (v : Volume) : Nat := v.sectorsPerCluster * 512 / 32

def Volume.room (v : Volume) (env : Env) : Room := ⟨v.bits, v.entriesPerCluster, env.room⟩

def Volume.put (v : Volume) (p : Nat) (slots : List Dirent) : Volume :=
  { v with dirs := fun q => if q = p then slots else v.dirs q }

/-! ## The other fields of an entry -/

def le16 (n : Nat) : Bytes := [UInt8.ofNat n, UInt8.ofNat (n / 256)]

/-- Bytes of the tail written over, from offset `off` on. -/
def Dirent.patch (e : Dirent) (off : Nat) (bs : Bytes) : Dirent :=
  { e with tail := e.tail.take off ++ bs ++ e.tail.drop (off + bs.length) }

def entCluster (bits : Nat) (e : Dirent) : Nat :=
  let lo := (byteAt e.tail 14).toNat + 256 * (byteAt e.tail 15).toNat
  if bits = 32 then ((byteAt e.tail 8).toNat + 256 * (byteAt e.tail 9).toNat) * 65536 + lo else lo

def setEntCluster (bits cluster : Nat) (e : Dirent) : Dirent :=
  (e.patch 14 (le16 cluster)).patch 8 (if bits = 32 then le16 (cluster / 65536) else [0, 0])

def setSize (size : Nat) (e : Dirent) : Dirent := e.patch 16 (le16 size ++ le16 (size / 65536))

def NT_RENAMING : UInt8 := 0x40

def setNt (nt : UInt8) (e : Dirent) : Dirent := e.patch 0 [nt]

def stamp (now : Option Clock) (made : Bool) (e : Dirent) : Dirent :=
  match now with
  | none => if made then (e.patch 12 (le16 0x5A21)).patch 10 [0, 0] else e
  | some c =>
    let e := ((e.patch 12 (le16 c.date)).patch 10 (le16 c.time)).patch 6 (le16 c.date)
    if made then ((e.patch 4 (le16 c.date)).patch 2 (le16 c.time)).patch 1 [c.tenth] else e

def Dirent.isDir (e : Dirent) : Bool := e.attr &&& ATTR_DIRECTORY ≠ 0

/-! ## Files -/

def fatWriteFile (v : Volume) (env : Env) (p : Nat) (leaf : Leaf) (size : Nat) : Volume × Bool :=
  if leaf.name = [] then (v, false)
  else
    match dirFind (v.dir p) leaf.name with
    | some slot =>
      let e := (v.dir p).entry slot
      if e.isDir then (v, false)
      else
        match env.chain with
        | none => (v, false)
        | some first =>
          let e := stamp env.now false (setSize size (setEntCluster v.bits first e))
          (v.put p ((v.dirs p).set slot e), true)
    | none =>
      match dirPutName (v.room env) (v.dir p) leaf.name with
      | (d, none) => (v.put p d.slots, false)
      | (d, some (slot, short)) =>
        match env.chain with
        -- the long name stays behind, describing nothing
        | none => (v.put p d.slots, false)
        | some first =>
          let e := { Dirent.zero with name := short, attr := ATTR_ARCHIVE }
          let e := stamp env.now true (setSize size (setEntCluster v.bits first e))
          (v.put p (d.slots.set slot e), true)

def fatDeleteFile (v : Volume) (p : Nat) (leaf : Leaf) : Volume × Bool :=
  match dirFind (v.dir p) leaf.name with
  | none => (v, false)
  | some slot =>
    if ((v.dir p).entry slot).isDir then (v, false) else (v.put p (dropEntry (v.dir p) slot).slots, true)

/-! ## Directories -/

def newDir (v : Volume) (env : Env) (p c : Nat) : List Dirent :=
  let dot := stamp env.now true
    (setEntCluster v.bits c { Dirent.zero with name := blanks 11 [DOT], attr := ATTR_DIRECTORY })
  let up := setEntCluster v.bits p { dot with name := blanks 11 [DOT, DOT] }
  dot :: up :: List.replicate (v.entriesPerCluster - 2) Dirent.zero

def fatMkdir (v : Volume) (env : Env) (p : Nat) (leaf : Leaf) : Volume × Bool :=
  if leaf.name = [] || isDots leaf.name then (v, false)
  else if (dirFind (v.dir p) leaf.name).isSome then (v, false)
  else
    match env.chain with
    | none => (v, false)
    | some c =>
      -- a cluster that was free, so not the parent's
      let made := v.put c (newDir v env p c)
      match dirPutName (v.room env) (v.dir p) leaf.name with
      | (d, none) => (made.put p d.slots, false)
      | (d, some (slot, short)) =>
        let e := { Dirent.zero with name := short, attr := ATTR_DIRECTORY }
        let e := stamp env.now true (setSize 0 (setEntCluster v.bits c e))
        (made.put p (d.slots.set slot e), true)

def Volume.inside (v : Volume) (e : Dirent) : Nat := if entCluster v.bits e < 2 then 0 else entCluster v.bits e

def fatRmdir (v : Volume) (p : Nat) (leaf : Leaf) : Volume × Bool :=
  if leaf.name = [] || byteAt leaf.name 0 = DOT then (v, false)
  else
    match dirFind (v.dir p) leaf.name with
    | none => (v, false)
    | some slot =>
      let e := (v.dir p).entry slot
      if !e.isDir then (v, false)
      else if (listed (v.dir (v.inside e))).length > 0 then (v, false)
      else (v.put p (dropEntry (v.dir p) slot).slots, true)

/-! ## Renaming -/

/-- Whether an entry is a `..`, for all that is looked at. -/
def Dirent.isUp (e : Dirent) : Bool := e.first = DOT && byteAt e.name 1 = DOT

/-- Whether a directory is the one at `top` or inside it, going up. -/
def dirWithin (v : Volume) (top : Nat) : Nat → Nat → Bool
  | 0, _ => true
  | guard + 1, here =>
    if here = 0 then false
    else if here = top then true
    else if !((v.dir here).entry 1).isUp then true
    else if entCluster v.bits ((v.dir here).entry 1) < 2 then false
    else dirWithin v top guard (entCluster v.bits ((v.dir here).entry 1))

def dirPointUp (v : Volume) (c p : Nat) : Volume :=
  let up := (v.dir c).entry 1
  if up.isUp then v.put c ((v.dirs c).set 1 (setEntCluster v.bits p up)) else v

def noUp (v : Volume) (c : Nat) : Bool := (v.dirs c).length ≤ 1

def renameByNewEntry (v : Volume) (env : Env) (src slot dst : Nat) (leaf : Leaf) : Volume × Bool :=
  let old := (v.dir src).entry slot
  let chain := entCluster v.bits old
  if old.isDir && chain ≥ 2 && dirWithin v chain 4096 dst then (v, false)
  else
    match dirPutName (v.room env) (v.dir dst) leaf.name with
    | (d, none) => (v.put dst d.slots, false)
    | (d, some (nslot, short)) =>
      let n := { setNt 0 old with name := short }
      let v := v.put dst (d.slots.set nslot (setNt NT_RENAMING n))
      let v := v.put src ((dirDropLong (shortChecksum old.name) slot (v.dirs src)).set slot old.deleted)
      if old.isDir && src ≠ dst && chain ≥ 2 && noUp v chain then (v, false)
      else
        let v := if old.isDir && src ≠ dst && chain ≥ 2 then dirPointUp v chain dst else v
        (v.put dst ((v.dirs dst).set nslot (setNt 0 n)), true)

def renameInPlace (v : Volume) (p slot : Nat) (leaf : Leaf) : Volume :=
  let e := (v.dir p).entry slot
  let slots := dirDropLong (shortChecksum e.name) slot (v.dirs p)
  v.put p (slots.set slot { e with name := to83 leaf.name })

def inTheWay (v : Volume) (src slot dst : Nat) (leaf : Leaf) : Option Nat :=
  let taken := dirFind (v.dir dst) leaf.name
  if src = dst ∧ taken = some slot then none else taken

def renameTo (v : Volume) (env : Env) (src slot dst : Nat) (leaf : Leaf) : Volume × Bool :=
  if src = dst ∧ fits83 leaf.name then (renameInPlace v src slot leaf, true)
  else renameByNewEntry v env src slot dst leaf

def fatRename (v : Volume) (env : Env) (src : Nat) (srcLeaf : Leaf) (dst : Nat) (dstLeaf : Leaf) : Volume × Bool :=
  if srcLeaf.name = [] || dstLeaf.name = [] || isDots srcLeaf.name || isDots dstLeaf.name then (v, false)
  else if !(src = dst && fits83 dstLeaf.name) && !v.madeHere then (v, false)
  else
    match dirFind (v.dir src) srcLeaf.name with
    | none => (v, false)
    | some slot =>
      if src = dst && sameName srcLeaf.name dstLeaf.name then (v, true)
      else
        match inTheWay v src slot dst dstLeaf with
        | none => renameTo v env src slot dst dstLeaf
        | some taken =>
          if ((v.dir dst).entry taken).isDir then (v, false)
          else
            match fatDeleteFile v dst dstLeaf with
            | (v, false) => (v, false)
            | (v, true) =>
              match dirFind (v.dir src) srcLeaf.name with
              | none => (v, false)
              | some slot => renameTo v env src slot dst dstLeaf

/-! ## Runs -/

inductive Call
  | writeFile (env : Env) (p : Nat) (leaf : Leaf) (size : Nat)
  | deleteFile (p : Nat) (leaf : Leaf)
  | mkdir (env : Env) (p : Nat) (leaf : Leaf)
  | rmdir (p : Nat) (leaf : Leaf)
  | rename (env : Env) (src : Nat) (srcLeaf : Leaf) (dst : Nat) (dstLeaf : Leaf)

def step (v : Volume) : Call → Volume
  | .writeFile env p leaf size => (fatWriteFile v env p leaf size).1
  | .deleteFile p leaf => (fatDeleteFile v p leaf).1
  | .mkdir env p leaf => (fatMkdir v env p leaf).1
  | .rmdir p leaf => (fatRmdir v p leaf).1
  | .rename env src srcLeaf dst dstLeaf => (fatRename v env src srcLeaf dst dstLeaf).1

def run (v : Volume) (calls : List Call) : Volume := calls.foldl step v

/-- A volume as it is formatted here: nothing in the root, and no other directory. -/
def formatted (bits sectorsPerCluster rootEntries : Nat) : Volume where
  bits := bits
  sectorsPerCluster := sectorsPerCluster
  madeHere := true
  dirs p := if p = 0 then List.replicate rootEntries Dirent.zero else []

/-! ## What the calls leave alone -/

@[simp] theorem put_self (v : Volume) (p : Nat) (slots : List Dirent) : (v.put p slots).dirs p = slots := if_pos rfl

theorem put_other (v : Volume) {p q : Nat} (slots : List Dirent) (h : q ≠ p) : (v.put p slots).dirs q = v.dirs q :=
  if_neg h

@[simp] theorem setEntCluster_name (bits c : Nat) (e : Dirent) : (setEntCluster bits c e).name = e.name := rfl

@[simp] theorem setEntCluster_attr (bits c : Nat) (e : Dirent) : (setEntCluster bits c e).attr = e.attr := rfl

@[simp] theorem setSize_name (size : Nat) (e : Dirent) : (setSize size e).name = e.name := rfl

@[simp] theorem setSize_attr (size : Nat) (e : Dirent) : (setSize size e).attr = e.attr := rfl

@[simp] theorem stamp_name (now : Option Clock) (made : Bool) (e : Dirent) : (stamp now made e).name = e.name := by
  unfold stamp
  split <;> split <;> rfl

@[simp] theorem stamp_attr (now : Option Clock) (made : Bool) (e : Dirent) : (stamp now made e).attr = e.attr := by
  unfold stamp
  split <;> split <;> rfl

end Zelr.Fat
