import Mathlib.Algebra.Group.Nat.Defs
import Zelr.Paging.Pmm

/-!
# Page table entries

A 64-bit entry holds a frame's address and a handful of flags. Nothing here walks a table.
-/

namespace Zelr.Paging

abbrev Word := BitVec 64

def PTE_PRESENT : Word := 0x001
def PTE_RW : Word := 0x002
def PTE_USER : Word := 0x004
def PTE_HUGE : Word := 0x080
def PTE_COW : Word := 0x200
def PTE_BORROWED : Word := 0x400
def PTE_ADDR_MASK : Word := 0x000FFFFFFFFFF000
def PTE_FLAGS : Word := 0xFFF

def PAGE_SIZE : Nat := 4096
def ENTRIES : Nat := 512

def has (e flag : Word) : Bool := e &&& flag != 0

/-- `FRAME_IDX` of the address in an entry. -/
def frameOf (e : Word) : Nat := (e &&& PTE_ADDR_MASK).toNat / PAGE_SIZE

def addr (frame : Nat) : Word := BitVec.ofNat 64 (frame * PAGE_SIZE)

def indexOf (virt : Word) (level : Nat) : Nat := (virt >>> (12 + 9 * (level - 1))).toNat % 512

theorem indexOf_lt (virt : Word) (level : Nat) : indexOf virt level < ENTRIES :=
  Nat.mod_lt _ (by decide)

-- a loop over the entries is not to be unrolled
attribute [irreducible] ENTRIES

/-! ## Flags -/

@[simp] theorem has_or (a b flag : Word) : has (a ||| b) flag = (has a flag || has b flag) := by
  unfold has
  rw [BitVec.and_or_distrib_right, Bool.eq_iff_iff, Bool.or_eq_true, bne_iff_ne, bne_iff_ne, bne_iff_ne,
    Ne, Ne, Ne, show (0 : Word) = 0#64 from rfl, BitVec.or_eq_zero_iff]
  exact Decidable.not_and_iff_not_or_not

variable {a b flag : Word} {frame : Nat}

theorem has_and_of (h : b &&& flag = flag) : has (a &&& b) flag = has a flag := by
  unfold has
  rw [BitVec.and_assoc, h]

theorem has_and_none (h : b &&& flag = 0#64) : has (a &&& b) flag = false := by
  unfold has
  rw [BitVec.and_assoc, h, BitVec.and_zero]
  rfl

theorem has_of_and (h : a &&& flag = 0#64) : has a flag = false := by
  unfold has
  rw [h]
  rfl

/-! ## Addresses -/

theorem frameOf_or (h : b &&& PTE_ADDR_MASK = 0#64) : frameOf (a ||| b) = frameOf a := by
  unfold frameOf
  rw [BitVec.and_or_distrib_right, h, BitVec.or_zero]

theorem frameOf_and (h : b &&& PTE_ADDR_MASK = PTE_ADDR_MASK) :
    frameOf (a &&& b) = frameOf a := by
  unfold frameOf
  rw [BitVec.and_assoc, h]

def FRAME_LIMIT : Nat := 2 ^ 40

theorem addr_toNat (h : frame < FRAME_LIMIT) : (addr frame).toNat = frame * PAGE_SIZE := by
  unfold addr FRAME_LIMIT PAGE_SIZE at *
  rw [BitVec.toNat_ofNat]
  exact Nat.mod_eq_of_lt (by omega)

theorem addr_and_mask (h : frame < FRAME_LIMIT) : addr frame &&& PTE_ADDR_MASK = addr frame := by
  apply BitVec.eq_of_toNat_eq
  rw [BitVec.toNat_and, addr_toNat h]
  have hmask : PTE_ADDR_MASK.toNat = (2 ^ 40 - 1) * 2 ^ 12 := by decide
  have hpage : frame * PAGE_SIZE = frame * 2 ^ 12 := rfl
  rw [hmask, hpage]
  apply Nat.eq_of_testBit_eq
  intro i
  rw [Nat.testBit_and, Nat.testBit_mul_two_pow, Nat.testBit_mul_two_pow, Nat.testBit_two_pow_sub_one]
  by_cases hi : 12 ≤ i
  · by_cases hlow : i - 12 < 40
    · simp [hi, hlow]
    · have hhigh : frame.testBit (i - 12) = false :=
        Nat.testBit_lt_two_pow (Nat.lt_of_lt_of_le h (Nat.pow_le_pow_right (by decide) (by omega)))
      simp [hi, hlow, hhigh]
  · simp [hi]

theorem addr_and_flags (flag : Word) (h : frame < FRAME_LIMIT)
    (hflag : PTE_ADDR_MASK &&& flag = 0#64) : addr frame &&& flag = 0#64 := by
  rw [← addr_and_mask h, BitVec.and_assoc, hflag, BitVec.and_zero]

@[simp] theorem frameOf_addr (h : frame < FRAME_LIMIT) : frameOf (addr frame) = frame := by
  unfold frameOf
  rw [addr_and_mask h, addr_toNat h]
  exact Nat.mul_div_cancel _ (by decide)

theorem has_addr (h : frame < FRAME_LIMIT)
    (hflag : PTE_ADDR_MASK &&& flag = 0#64) : has (addr frame) flag = false :=
  has_of_and (addr_and_flags flag h hflag)

/-! ## The entries the kernel makes -/

theorem frameOf_addr_flags (e : Word) (h : frame < FRAME_LIMIT) :
    frameOf (addr frame ||| (e &&& PTE_FLAGS)) = frame := by
  rw [frameOf_or, frameOf_addr h]
  rw [BitVec.and_assoc, show PTE_FLAGS &&& PTE_ADDR_MASK = 0#64 by decide, BitVec.and_zero]

theorem has_addr_flags (e : Word) (h : frame < FRAME_LIMIT)
    (hmask : PTE_ADDR_MASK &&& flag = 0#64) (hflag : PTE_FLAGS &&& flag = flag) :
    has (addr frame ||| (e &&& PTE_FLAGS)) flag = has e flag := by
  rw [has_or, has_addr h hmask, Bool.false_or, has_and_of hflag]

/-!
## Four levels of tables

`paging.c` and the two places of `user.c` that hand a program a page. Tables live in identity mapped
memory, so a table is the frame it lives in and an entry is a word of that frame. Giving up stands
for the answers false and 0. What the processor caches is not modelled: each function that takes a
right away flushes before it returns, and a space that is not loaded has nothing cached.
-/

open Act

structure Machine where
  pmm : Pmm
  mem : Nat → Nat → Word
  kernelPml4 : Nat
  cowShared : Nat
  cowCopies : Nat

namespace Machine

def setEntry (m : Machine) (table i : Nat) (e : Word) : Machine :=
  { m with mem := Pmm.put m.mem table (Pmm.put (m.mem table) i e) }

def setFrame (m : Machine) (frame : Nat) (words : Nat → Word) : Machine :=
  { m with mem := Pmm.put m.mem frame words }

end Machine

/-! ## Memory and frames -/

def word (table i : Nat) : Act Machine Word := gets fun m => m.mem table i

def setWord (table i : Nat) (e : Word) : Act Machine Unit := modify fun m => m.setEntry table i e

def clearFrame (frame : Nat) : Act Machine Unit := modify fun m => m.setFrame frame fun _ => 0

def copyFrame (dst src : Nat) : Act Machine Unit := modify fun m => m.setFrame dst (m.mem src)

def onPmm {α : Type} (act : Act Pmm α) : Act Machine α := zoom Machine.pmm (fun p m => { m with pmm := p }) act

/-- `pmm_alloc_frame` and the test that every caller makes of its answer. -/
def allocFrame : Act Machine Nat := do
  let frame ← onPmm Pmm.allocFrame
  if frame = 0 then stop else pure frame

def share (frame : Nat) : Act Machine Bool := onPmm (Pmm.share frame)

def holders (frame : Nat) : Act Machine Nat := gets fun m => Pmm.holders frame m.pmm

def freeFrame (frame : Nat) : Act Machine Unit := onPmm (Pmm.freeFrame frame)

/-! ## Walking and mapping -/

/-- The first half of `step`: the table below is there, or is made. -/
def makeBelow (table i : Nat) (create : Bool) : Act Machine Unit := do
  let e ← word table i
  if has e PTE_PRESENT then pure ()
  else if create then do
    let frame ← allocFrame
    clearFrame frame
    setWord table i (addr frame ||| PTE_PRESENT ||| PTE_RW)
  else stop

def widen (table i : Nat) (flags : Word) : Act Machine Unit := do
  if has flags PTE_USER then do
    let e ← word table i
    setWord table i (e ||| PTE_USER)
  else pure ()

def step (table : Nat) (virt : Word) (level : Nat) (create : Bool) (flags : Word) : Act Machine Nat := do
  let i := indexOf virt level
  makeBelow table i create
  widen table i flags
  let e ← word table i
  if has e PTE_HUGE then stop else pure (frameOf e)

def smallPages (entry : Word) : Nat → Word := fun k =>
  ((entry &&& PTE_ADDR_MASK) + BitVec.ofNat 64 (k * PAGE_SIZE)) ||| (entry &&& PTE_FLAGS &&& ~~~PTE_HUGE)
    ||| PTE_PRESENT

def splitHuge (pd i : Nat) : Act Machine Unit := do
  let entry ← word pd i
  let frame ← allocFrame
  modify fun m => m.setFrame frame (smallPages entry)
  setWord pd i (addr frame ||| PTE_PRESENT ||| PTE_RW ||| (entry &&& PTE_USER))

def tableFor (pml4 : Nat) (virt : Word) (create : Bool) (flags : Word) : Act Machine Nat := do
  let pdpt ← step pml4 virt 4 create flags
  let pd ← step pdpt virt 3 create flags
  let i := indexOf virt 2
  let e ← word pd i
  if has e PTE_PRESENT && has e PTE_HUGE then
    if create then do
      splitHuge pd i
      step pd virt 2 create flags
    else stop
  else step pd virt 2 create flags

def mapIn (pml4 : Nat) (virt phys flags : Word) : Act Machine Unit := do
  let pt ← tableFor pml4 virt true flags
  setWord pt (indexOf virt 1) ((phys &&& PTE_ADDR_MASK) ||| (flags &&& PTE_FLAGS) ||| PTE_PRESENT)

def mapPageIn (pml4 : Nat) (virt phys flags : Word) : Act Machine Unit :=
  if pml4 = 0 then stop else mapIn pml4 virt phys flags

/-! ## Address spaces -/

def shareKernel (dir i : Nat) : Act Machine Unit := do
  let m ← get
  let k ← word m.kernelPml4 i
  if has k PTE_PRESENT then setWord dir i k else pure ()

def newDirectory : Act Machine Nat := do
  let frame ← allocFrame
  clearFrame frame
  upto (shareKernel frame) ENTRIES
  pure frame

def freeLeaf (table i : Nat) : Act Machine Unit := do
  let e ← word table i
  if !has e PTE_PRESENT || has e PTE_HUGE then pure ()
  else if has e PTE_USER && !has e PTE_BORROWED then freeFrame (frameOf e)
  else pure ()

def freeTable : Nat → Nat → Act Machine Unit
  | 0, _ => pure ()
  | 1, table => upto (freeLeaf table) ENTRIES
  | level + 2, table => upto (fun i => do
      let e ← word table i
      if !has e PTE_PRESENT || has e PTE_HUGE then pure ()
      else do
        freeTable (level + 1) (frameOf e)
        freeFrame (frameOf e)) ENTRIES

def sharedEntry (e : Word) : Word := (e &&& ~~~PTE_RW) ||| PTE_COW

def copyPage (dst src i : Nat) (e : Word) : Act Machine Unit := do
  let took ← share (frameOf e)
  if took then do
    setWord dst i (sharedEntry e)
    setWord src i (sharedEntry e)
    modify fun m => { m with cowShared := m.cowShared + 1 }
  else do
    let fresh ← allocFrame
    copyFrame fresh (frameOf e)
    setWord dst i (addr fresh ||| (e &&& PTE_FLAGS))

def copyLeaf (dst src i : Nat) : Act Machine Unit := do
  let e ← word src i
  if !has e PTE_PRESENT then setWord dst i 0
  else if has e PTE_HUGE then setWord dst i e
  else if !has e PTE_USER then setWord dst i e
  -- a window's surface stays the parent's alone
  else if has e PTE_BORROWED then setWord dst i 0
  else copyPage dst src i e

def copyTable : Nat → Nat → Nat → Act Machine Unit
  | 0, _, _ => pure ()
  | 1, dst, src => upto (copyLeaf dst src) ENTRIES
  | level + 2, dst, src => upto (fun i => do
      let e ← word src i
      if !has e PTE_PRESENT then setWord dst i 0
      else if has e PTE_HUGE then setWord dst i e
      else do
        let fresh ← allocFrame
        clearFrame fresh
        -- linked before it is filled
        setWord dst i (addr fresh ||| (e &&& PTE_FLAGS))
        copyTable (level + 1) fresh (frameOf e)) ENTRIES

def isKernels (e k : Word) : Bool :=
  has k PTE_PRESENT && (e &&& PTE_ADDR_MASK) == (k &&& PTE_ADDR_MASK)

def freeEntry (dir i : Nat) : Act Machine Unit := do
  let m ← get
  let e ← word dir i
  let k ← word m.kernelPml4 i
  if !has e PTE_PRESENT || isKernels e k then pure ()
  else do
    freeTable 3 (frameOf e)
    freeFrame (frameOf e)

def freeDirectory (dir : Nat) : Act Machine Unit := do
  let m ← get
  if dir = 0 ∨ dir = m.kernelPml4 then pure ()
  else do
    upto (freeEntry dir) ENTRIES
    freeFrame dir

def cloneTable (dst i : Nat) (e : Word) : Act Machine Unit := do
  match ← attempt allocFrame with
  | none => do
    freeDirectory dst
    stop
  | some table => do
    clearFrame table
    match ← attempt (copyTable 3 table (frameOf e)) with
    | none => do
      freeTable 3 table
      freeFrame table
      freeDirectory dst
      stop
    | some () => setWord dst i (addr table ||| (e &&& PTE_FLAGS))

def cloneEntry (dst src i : Nat) : Act Machine Unit := do
  let m ← get
  let e ← word src i
  let k ← word m.kernelPml4 i
  if !has e PTE_PRESENT then pure ()
  else if isKernels e k then setWord dst i e
  else cloneTable dst i e

def cloneDirectory (src : Nat) : Act Machine Nat := do
  if src = 0 then stop
  else do
    let fresh ← newDirectory
    upto (cloneEntry fresh src) ENTRIES
    pure fresh

/-! ## The write that separates them -/

def entryFor (pml4 : Nat) (virt : Word) : Act Machine (Nat × Nat) := do
  let e4 ← word pml4 (indexOf virt 4)
  if !has e4 PTE_PRESENT then stop
  else do
    let e3 ← word (frameOf e4) (indexOf virt 3)
    if !has e3 PTE_PRESENT || has e3 PTE_HUGE then stop
    else do
      let e2 ← word (frameOf e3) (indexOf virt 2)
      if !has e2 PTE_PRESENT || has e2 PTE_HUGE then stop
      else do
        let e1 ← word (frameOf e2) (indexOf virt 1)
        if !has e1 PTE_PRESENT then stop else pure (frameOf e2, indexOf virt 1)

def pageOf (virt : Word) : Word := virt &&& ~~~0xFFF

def takeBack (e : Word) : Word := (e ||| PTE_RW) &&& ~~~PTE_COW

def resolveCow (pml4 : Nat) (virt : Word) : Act Machine Unit := do
  if pml4 = 0 then stop
  else do
    let (table, i) ← entryFor pml4 (pageOf virt)
    let e ← word table i
    if !has e PTE_COW then stop
    else do
      let n ← holders (frameOf e)
      if n ≤ 1 then setWord table i (takeBack e)
      else do
        let fresh ← allocFrame
        copyFrame fresh (frameOf e)
        freeFrame (frameOf e)
        setWord table i (takeBack (addr fresh ||| (e &&& PTE_FLAGS)))
        modify fun m => { m with cowCopies := m.cowCopies + 1 }

/-! ## A page for a program -/

/-- What `alloc_user_page` and `user_fault_fill` do to hand over a page. -/
def mapFresh (dir : Nat) (virt flags : Word) : Act Machine Nat := do
  let frame ← allocFrame
  clearFrame frame
  match ← attempt (mapPageIn dir virt (addr frame) flags) with
  | none => do
    freeFrame frame
    stop
  | some () => pure frame

def allocUserPage (dir : Nat) (virt : Word) : Act Machine Nat :=
  mapFresh dir virt (PTE_PRESENT ||| PTE_RW ||| PTE_USER)

/-- The page of a range the program asked for; `writable` is the range's `PROT_WRITE`. -/
def fillPage (dir : Nat) (virt : Word) (writable : Bool) : Act Machine Nat :=
  mapFresh dir virt (if writable then PTE_PRESENT ||| PTE_USER ||| PTE_RW else PTE_PRESENT ||| PTE_USER)

/-! ## The processor -/

/-- The processor's own walk, for a program: the frame an address is in, if the program may read it, or
write it. -/
def walk (mem : Nat → Nat → Word) (write : Bool) (virt : Word) : Nat → Nat → Option Nat
  | 0, frame => some frame
  | level + 1, table =>
    let e := mem table (indexOf virt (level + 1))
    if has e PTE_PRESENT && has e PTE_USER && (!write || has e PTE_RW) then
      if (level == 1 || level == 2) && has e PTE_HUGE then
        some (frameOf e + virt.toNat / PAGE_SIZE % ENTRIES ^ level)
      else walk mem write virt level (frameOf e)
    else none

def wordOf (virt : Word) : Nat := virt.toNat % PAGE_SIZE / 8

def userLoad (m : Machine) (dir : Nat) (virt : Word) : Option Word :=
  (walk m.mem false virt 4 dir).map fun frame => m.mem frame (wordOf virt)

def storeAt (dir : Nat) (virt : Word) (f : Word → Word) : Act Machine Unit := do
  let m ← get
  let frame ← ofOption (walk m.mem true virt 4 dir)
  setWord frame (wordOf virt) (f (m.mem frame (wordOf virt)))

/-- A program's store to a part of a word. One that faults is tried again after
`paging_resolve_cow`. -/
def userStore (dir : Nat) (virt : Word) (f : Word → Word) : Act Machine Unit := do
  let m ← get
  if (walk m.mem true virt 4 dir).isSome then storeAt dir virt f
  else do
    resolveCow dir virt
    storeAt dir virt f

end Zelr.Paging
