import Zelr.Files.Pipe

/-!
# Open files

`fd.c`: the table of open file descriptions, which is the machine's, and the tables of descriptors
pointing into it, one for each task. What the file system and the allocator answer during a call is
handed to the call.
-/

namespace Zelr.Files

def OF_MAX : Nat := 32

def FD_MAX : Nat := 16

def OF_CONSOLE_SLOT : Nat := 0

def VFS_PATH_MAX : Nat := 128

def O_WRITE : Nat := 0x02
def O_CREATE : Nat := 0x04
def O_TRUNC : Nat := 0x08
def O_APPEND : Nat := 0x10

inductive OfKind where
  | free
  | console
  | file
  | pipe
  deriving DecidableEq

/-- `ofile_t`. -/
structure OFile where
  kind : OfKind
  refs : Nat
  path : Bytes
  data : Option Bytes
  size : Nat
  cap : Nat
  pos : Nat
  writable : Bool
  dirty : Bool
  pipe : Option Nat
  writing : Bool
  deriving DecidableEq

/-- What `memset` to zero leaves. -/
def OFile.zero : OFile := ⟨.free, 0, [], none, 0, 0, 0, false, false, none, false⟩

/-- The descriptions, the pipes by their addresses, and every task's table, the kernel's own first. -/
structure Fds where
  ofiles : List OFile
  pipes : Nat → Option Pipe
  tables : List (List Int)

/-- What is outside: `vfs.c` and the heap, as they answer one call. -/
structure Outside where
  resolve : Bytes → Option Bytes
  volumeMissing : Bytes → Bool
  stat : Bytes → Option (Nat × Bool)
  generated : Bytes → Bool
  read : Bytes → Nat → Option Bytes
  write : Bytes → Bytes → Bool
  kmalloc : Nat → Bool
  /-- Where `kcalloc` puts a new pipe. -/
  kcalloc : Option Nat

namespace Fds

def file (s : Fds) (i : Nat) : OFile := s.ofiles.getD i .zero

def setFile (s : Fds) (i : Nat) (f : OFile) : Fds := { s with ofiles := s.ofiles.set i f }

def table (s : Fds) (me : Nat) : List Int := s.tables.getD me []

def setTable (s : Fds) (me : Nat) (slots : List Int) : Fds := { s with tables := s.tables.set me slots }

def slot (s : Fds) (me fd : Nat) : Int := (s.table me).getD fd (-1)

def setSlot (s : Fds) (me fd : Nat) (v : Int) : Fds := s.setTable me ((s.table me).set fd v)

def setPipe (s : Fds) (q : Nat) (p : Option Pipe) : Fds := { s with pipes := Function.update s.pipes q p }

end Fds

def ensureConsole (s : Fds) : Fds :=
  if (s.file OF_CONSOLE_SLOT).kind = .console then s
  else s.setFile OF_CONSOLE_SLOT { OFile.zero with kind := .console, refs := 1 }

/-! ## Descriptions -/

def ofAlloc (kind : OfKind) (s : Fds) : Option Nat × Fds :=
  let s := ensureConsole s
  match (List.range' 1 (OF_MAX - 1)).find? fun i => (s.file i).kind = .free with
  | some i => (some i, s.setFile i { OFile.zero with kind, refs := 1 })
  | none => (none, s)

/-- `refs++` on a `u16`. -/
def ofRef (i : Nat) (s : Fds) : Fds := s.setFile i { s.file i with refs := ((s.file i).refs + 1) % 2 ^ 16 }

def closeEnd (q : Option Nat) (writeEnd : Bool) (s : Fds) : Fds :=
  match q with
  | none => s
  | some q =>
    match s.pipes q with
    | none => s
    | some p => s.setPipe q (pipeClose p writeEnd)

def ofUnref (v : Outside) (oi : Int) (s : Fds) : Bool × Fds :=
  if oi ≤ OF_CONSOLE_SLOT ∨ oi ≥ OF_MAX then (true, s)
  else
    let i := oi.toNat
    let f := s.file i
    if f.kind = .free then (true, s)
    else if f.refs > 1 then (true, s.setFile i { f with refs := f.refs - 1 })
    else
      let (ok, s) := match f.kind with
        | .file => (if f.dirty then v.write f.path ((f.data.getD []).take f.size) else true, s)
        | .pipe => (true, closeEnd f.pipe f.writing s)
        | _ => (true, s)
      (ok, s.setFile i .zero)

def lookup (me : Nat) (fd : Int) (s : Fds) : Option OFile × Fds :=
  if fd < 0 ∨ fd ≥ FD_MAX then (none, s)
  else
    let oi := s.slot me fd.toNat
    if oi < 0 ∨ oi ≥ OF_MAX then (none, s)
    else
      let s := ensureConsole s
      let f := s.file oi.toNat
      if f.kind = .free then (none, s) else (some f, s)

def lowestFree (s : Fds) (me : Nat) : Option Nat := (List.range FD_MAX).find? fun i => s.slot me i < 0

/-! ## The tables -/

def fdTableInit : List Int := List.replicate 3 (OF_CONSOLE_SLOT : Int) ++ List.replicate (FD_MAX - 3) (-1)

def cloneSlot (s : Fds) (v : Int) : Fds :=
  if v > OF_CONSOLE_SLOT ∧ v < OF_MAX ∧ (s.file v.toNat).kind ≠ .free then ofRef v.toNat s else s

def fdTableClone (src : List Int) (s : Fds) : List Int × Fds := (src, src.foldl cloneSlot (ensureConsole s))

def releaseFrom (v : Outside) (me : Nat) : Nat → Nat → Fds → Fds
  | _, 0, s => s
  | i, k + 1, s =>
    let s := if s.slot me i ≥ 0 then (ofUnref v (s.slot me i) s).2 else s
    releaseFrom v me (i + 1) k (s.setSlot me i (-1))

def fdTableRelease (v : Outside) (me : Nat) (s : Fds) : Fds := releaseFrom v me 0 FD_MAX s

/-! ## What a program calls -/

/-- `while (cap < need) cap *= 2` on a `u32`, where nothing is reached once it is zero. -/
def doubled : Nat → Nat → Nat → Option Nat
  | 0, cap, need => if cap < need then none else some cap
  | k + 1, cap, need => if cap < need then doubled k (cap * 2 % 2 ^ 32) need else some cap

def growTo (v : Outside) (f : OFile) (need : Nat) : Option (Option OFile) :=
  if need ≤ f.cap then some (some f)
  else
    (doubled 32 (if f.cap = 0 then 256 else f.cap) need).map fun cap =>
      if v.kmalloc cap then
        some { f with data := some ((f.data.getD []).take f.size ++ List.replicate (cap - f.size) 0), cap }
      else none

/-- What `fd_open` does once the description is there. -/
def openInto (v : Outside) (me fd oi : Nat) (abs : Bytes) (found : Option (Nat × Bool)) (flags : Nat) (s : Fds) :
    Option (Option Nat × Fds) :=
  let f := { s.file oi with
    path := abs.take (VFS_PATH_MAX - 1)
    writable := flags &&& (O_WRITE ||| O_CREATE ||| O_TRUNC ||| O_APPEND) != 0 }
  let give (f : OFile) : Option Nat × Fds :=
    (some fd, (s.setFile oi { f with pos := if flags &&& O_APPEND != 0 then f.size else 0 }).setSlot me fd oi)
  match found with
  | some (size, _) =>
    if flags &&& O_TRUNC = 0 then
      (growTo v f (if size = 0 then 1 else size)).map fun
        | none => (none, (ofUnref v oi (s.setFile oi f)).2)
        | some f =>
          match v.read abs size with
          | none => (none, (ofUnref v oi (s.setFile oi f)).2)
          | some got => give { f with data := some (put (f.data.getD []) 0 got), size := got.length }
    else some (give { f with dirty := true })
  | none => some (give { f with dirty := true })

def fdOpen (v : Outside) (me : Nat) (path : Bytes) (flags : Nat) (s : Fds) : Option (Option Nat × Fds) :=
  match v.resolve path with
  | none => some (none, s)
  | some abs =>
    if v.volumeMissing abs then some (none, s)
    else
      let found := v.stat abs
      if (found.map (·.2)).getD false then some (none, s)
      else if found = none ∧ flags &&& O_CREATE = 0 then some (none, s)
      else if flags &&& O_WRITE ≠ 0 ∧ v.generated abs then some (none, s)
      else
        match lowestFree s me with
        | none => some (none, s)
        | some fd =>
          match ofAlloc .file s with
          | (none, s) => some (none, s)
          | (some oi, s) => openInto v me fd oi abs found flags s

def fdClose (v : Outside) (me : Nat) (fd : Int) (s : Fds) : Bool × Fds :=
  if fd < 0 ∨ fd ≥ FD_MAX then (false, s)
  else if s.slot me fd.toNat < 0 then (false, s)
  else ofUnref v (s.slot me fd.toNat) (s.setSlot me fd.toNat (-1))

def share (me fd dst : Nat) (s : Fds) : Fds :=
  let oi := s.slot me fd
  let s := s.setSlot me dst oi
  if oi > OF_CONSOLE_SLOT then ofRef oi.toNat s else s

def fdDup (me : Nat) (fd : Int) (s : Fds) : Option Nat × Fds :=
  match lookup me fd s with
  | (none, s) => (none, s)
  | (some _, s) =>
    match lowestFree s me with
    | none => (none, s)
    | some dst => (some dst, share me fd.toNat dst s)

def fdDup2 (v : Outside) (me : Nat) (fd dst : Int) (s : Fds) : Option Nat × Fds :=
  if dst < 0 ∨ dst ≥ FD_MAX then (none, s)
  else
    match lookup me fd s with
    | (none, s) => (none, s)
    | (some _, s) =>
      if fd = dst then (some dst.toNat, s)
      else
        let s := if s.slot me dst.toNat ≥ 0 then (ofUnref v (s.slot me dst.toNat) s).2 else s
        (some dst.toNat, share me fd.toNat dst.toNat s)

def fdPipe (v : Outside) (me : Nat) (s : Fds) : Option (Nat × Nat) × Fds :=
  match lowestFree s me with
  | none => (none, s)
  | some r =>
    let s := s.setSlot me r OF_CONSOLE_SLOT
    match lowestFree s me with
    | none => (none, s.setSlot me r (-1))
    | some w =>
      match v.kcalloc with
      | none => (none, s.setSlot me r (-1))
      | some q =>
        let s := s.setPipe q (some pipeNew)
        match ofAlloc .pipe s with
        | (none, s) => (none, closeEnd (some q) true (closeEnd (some q) false (s.setSlot me r (-1))))
        | (some ri, s) =>
          match ofAlloc .pipe s with
          | (none, s) =>
            let s := s.setFile ri { s.file ri with kind := .free }
            (none, closeEnd (some q) true (closeEnd (some q) false (s.setSlot me r (-1))))
          | (some wi, s) =>
            let s := s.setFile ri { s.file ri with pipe := some q, writing := false }
            let s := s.setFile wi { s.file wi with pipe := some q, writing := true }
            (some (r, w), (s.setSlot me r ri).setSlot me w wi)

/-! ## Tasks -/

inductive Op where
  | open (path : Bytes) (flags : Nat)
  | dup (fd : Int)
  | dup2 (fd dst : Int)
  | pipe
  | close (fd : Int)
  /-- A child with a copy of the table, when there is room for a task. -/
  | fork (room : Bool)
  /-- A task that is started and not forked. -/
  | spawn
  | exit
  deriving DecidableEq

/-- A call by task `me`; nothing when there is no such task, the call never returns, or the allocator hands out what is in
use. -/
def fdStep (v : Outside) (me : Nat) (op : Op) (s : Fds) : Option Fds :=
  if s.tables.length ≤ me then none
  else
    match op with
    | .open path flags => (fdOpen v me path flags s).map (·.2)
    | .dup fd => some (fdDup me fd s).2
    | .dup2 fd dst => some (fdDup2 v me fd dst s).2
    | .pipe => if v.kcalloc.all fun q => (s.pipes q).isNone then some (fdPipe v me s).2 else none
    | .close fd => some (fdClose v me fd s).2
    | .fork room =>
      if room then
        let (child, s) := fdTableClone (s.table me) s
        some { s with tables := s.tables ++ [child] }
      else some s
    | .spawn => let s := ensureConsole s; some { s with tables := s.tables ++ [fdTableInit] }
    | .exit => some (fdTableRelease v me s)

def fdInit : Fds := ensureConsole ⟨List.replicate OF_MAX .zero, fun _ => none, [fdTableInit]⟩

end Zelr.Files
