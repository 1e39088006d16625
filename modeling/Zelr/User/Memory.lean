import Zelr.Paging.Unmap

/-!
# The memory of a program

`user.c`: the break, the ranges a program asked for, and the page it is given when it touches one;
and the check of `syscall.c` that stands before every use of a program's pointer. The caller's task is
what these read of it. Giving up stands for the answers false and 0.
-/

namespace Zelr.User

open Act Paging

def USER_HEAP_BASE : Word := 0x8010000000
def USER_HEAP_MAX : Word := 0x8038000000
def USER_MMAP_BASE : Word := 0x8038000000
def USER_MMAP_MAX : Word := 0x8040000000
def USER_STACK_TOP : Word := 0x8050000000
def USER_STACK_MAX : Word := 0x800000
def USER_MIN : Word := 0x8000000000
/-- `PAGE_SIZE`, as an address is moved by it. -/
def PAGE : Word := 4096
def VMA_MAX : Nat := 16
def PROT_WRITE : BitVec 32 := 2

structure Vma where
  base : Word
  len : Word
  prot : BitVec 32
  deriving DecidableEq

/-- The fields of the calling task that are read here. `vma` holds the first `nvma` entries of the array. -/
structure Task where
  dir : Nat
  brkBase : Word
  brk : Word
  vma : List Vma
  zeroLo : Word
  zeroHi : Word

/-- The machine, or more than that, and the calling task. -/
structure CallerOf (σ : Type) where
  machine : σ
  task : Task

abbrev Caller := CallerOf Machine

section Callers

variable {σ α : Type}

def onMachine (act : Act σ α) : Act (CallerOf σ) α := zoom CallerOf.machine (fun m s => { s with machine := m }) act

theorem onMachine_apply (act : Act σ α) (m : σ) (t : Task) :
    onMachine act ⟨m, t⟩ = ((act m).1, ⟨(act m).2, t⟩) := rfl

end Callers

def roundUp (n : Word) : Word := (n + PAGE - 1) &&& ~~~(PAGE - 1)

/-! ## A page at a time -/

section Loop

variable {σ : Type}

/-- `for (a = first; a < limit; a += PAGE_SIZE)`, so many times round and no answer past them. -/
def pagesLoop (body : Word → Act σ Unit) (limit : Word) : Nat → Word → Act σ Unit
  | 0, _ => stop
  | n + 1, a =>
    if a < limit then do
      body a
      pagesLoop body limit n (a + PAGE)
    else pure ()

def forPages (body : Word → Act σ Unit) (first limit : Word) : Act σ Unit := pagesLoop body limit (2 ^ 52 + 1) first

end Loop

/-! ## The break -/

/-- `user_sbrk`, with `page` for what hands over the page at an address. -/
def sbrkWith {σ : Type} (page : Nat → Word → Act σ Unit) (delta : Word) : Act (CallerOf σ) Word := do
  let s ← get
  if s.task.dir = 0 then stop
  else do
    if s.task.brkBase = 0 then
      modify fun s => { s with task := { s.task with brkBase := USER_HEAP_BASE, brk := USER_HEAP_BASE } }
    let was ← gets fun s => s.task.brk
    let base ← gets fun s => s.task.brkBase
    if delta = 0 then pure was
    else if delta.msb then do
      -- giving it back is accepted and does nothing
      let back := -delta
      modify fun s => { s with task := { s.task with brk := if back > was - base then base else was - back } }
      pure was
    else do
      let want := was + delta
      if want < was then stop
      else if want > USER_HEAP_MAX then stop
      else do
        onMachine (forPages (page s.task.dir) (roundUp was) (roundUp want))
        modify fun s => { s with task := { s.task with brk := want } }
        pure was

def userSbrk (delta : Word) : Act Caller Word :=
  sbrkWith (fun dir va => do
    let _ ← allocUserPage dir va
    pure ()) delta

/-! ## What a program asked for -/

def vmaHolding (vma : List Vma) (a : Word) : Option Vma :=
  vma.find? fun v => v.base != 0 && v.base ≤ a && a < v.base + v.len

def vmaClear (vma : List Vma) (base len : Word) : Bool :=
  vma.all fun v => v.base == 0 || !(decide (base < v.base + v.len) && decide (v.base < base + len))

def slotFor (vma : List Vma) : Option (Nat × List Vma) :=
  match vma.findIdx? fun v => v.base == 0 with
  | some i => some (i, vma)
  | none => if vma.length < VMA_MAX then some (vma.length, vma ++ [⟨0, 0, 0⟩]) else none

/-- The lowest gap that fits, at most so many pages up. -/
def place (vma : List Vma) (len : Word) : Nat → Word → Option Word
  | 0, _ => none
  | n + 1, a =>
    if a + len ≤ USER_MMAP_MAX then
      if vmaClear vma a len then some a else place vma len n (a + PAGE)
    else none

def PLACES : Nat := 0x8001

def userMmap (len : Word) (prot : BitVec 32) : Act Task Word := do
  let t ← get
  if t.dir = 0 ∨ len = 0 then stop
  else
    let len := roundUp len
    if len > USER_MMAP_MAX - USER_MMAP_BASE then stop
    else
      match slotFor t.vma with
      | none => stop
      | some (slot, vma) =>
        match place vma len PLACES USER_MMAP_BASE with
        | some a => do
          modify fun t => { t with vma := vma.set slot ⟨a, len, prot⟩ }
          pure a
        | none => do
          modify fun t => { t with vma := vma.modify slot fun v => { v with base := 0 } }
          stop

/-- `user_munmap`. Whole ranges only. -/
def userMunmap (start len : Word) : Act Caller Unit := do
  let s ← get
  if s.task.dir = 0 ∨ len = 0 then stop
  else
    let len := roundUp len
    let start := pageOf start
    match s.task.vma.findIdx? fun v => v.base == start && v.len == len with
    | none => stop
    | some i => do
      onMachine (forPages (dropPage s.task.dir) start (start + len))
      modify fun s => { s with
        task := { s.task with vma := s.task.vma.modify i fun v => { v with base := 0, len := 0 } } }

/-! ## What it touches -/

def fillMissing (dir : Nat) (page flags : Word) : Act Machine Unit := do
  let phys ← virtToPhysIn dir page
  if phys ≠ 0 then pure ()
  else do
    let _ ← mapFresh dir page flags
    pure ()

def userFaultFill (t : Task) (a err : Word) : Act Machine Unit :=
  if err &&& 1 ≠ 0 then stop
  else if t.dir = 0 then stop
  else if (a < USER_STACK_TOP ∧ a ≥ USER_STACK_TOP - USER_STACK_MAX) ∨ (a ≥ t.zeroLo ∧ a < t.zeroHi) then
    fillMissing t.dir (pageOf a) (PTE_PRESENT ||| PTE_RW ||| PTE_USER)
  else
    match vmaHolding t.vma a with
    | none => stop
    | some v =>
      if err &&& 2 ≠ 0 ∧ v.prot &&& PROT_WRITE = 0 then stop
      else fillMissing t.dir (pageOf a)
        (if v.prot &&& PROT_WRITE ≠ 0 then PTE_PRESENT ||| PTE_USER ||| PTE_RW else PTE_PRESENT ||| PTE_USER)

/-! ## A program's pointer -/

/-- The levels of `virt_is_user_in` from one down; no table has level 0. -/
def userBelow (mem : Nat → Nat → Word) (virt : Word) : Nat → Nat → Bool
  | 0, _ => false
  | 1, table =>
    let pte := mem table (indexOf virt 1)
    has pte PTE_PRESENT && has pte PTE_USER
  | level + 2, table =>
    let e := mem table (indexOf virt (level + 2))
    if !has e PTE_PRESENT || !has e PTE_USER then false
    else if has e PTE_HUGE then true
    else userBelow mem virt (level + 1) (frameOf e)

def virtIsUserIn (mem : Nat → Nat → Word) (pml4 : Nat) (virt : Word) : Bool :=
  if pml4 = 0 then false else userBelow mem virt 4 pml4

def checkPage (t : Task) (dir : Nat) (a : Word) : Act Machine Unit := do
  let m ← get
  if virtIsUserIn m.mem dir a then pure ()
  else do
    userFaultFill t a 0
    let m ← get
    if virtIsUserIn m.mem dir a then pure () else stop

/-- `user_range_ok` in an address space. -/
def userRangeOk (t : Task) (dir : Nat) (a len : Word) : Act Machine Unit :=
  if len = 0 then pure ()
  else if a < USER_MIN then stop
  else if a + len < a then stop
  else forPages (checkPage t dir) (pageOf a) (a + len)

end Zelr.User
