import Mathlib.Tactic.IntervalCases
import Zelr.Base.Words

/-!
# Signals

`signal.c`: what a task has pending, and a handler entered and left. The frame the processor is about
to return through is a value that goes in and comes out. The program's memory is bytes at addresses,
and `page` is the answer `stack_is_there` gets for a page: it is the program's, or is handed over now.
-/

namespace Zelr.Signals

def SIGKILL : Nat := 9
def SIG_MAX : Nat := 32
def SIG_DFL : U64 := 0
def SIG_IGN : U64 := 1
def FPU_AREA : Nat := 512
def PAGE_SIZE : Nat := 4096
def USER_SPACE_BASE : U64 := 0x0000008000000000
def USER_SPACE_END : U64 := 0x000000FFFFFFF000
/-- `GDT_USER_CODE | 3` and `GDT_USER_DATA | 3`. -/
def USER_CODE_SEL : U64 := 0x23
def USER_DATA_SEL : U64 := 0x1B

/-! ## The frame -/

/-- `registers_t`. -/
structure Registers where
  r15 : U64
  r14 : U64
  r13 : U64
  r12 : U64
  r11 : U64
  r10 : U64
  r9 : U64
  r8 : U64
  rbp : U64
  rdi : U64
  rsi : U64
  rdx : U64
  rcx : U64
  rbx : U64
  rax : U64
  intNo : U64
  errCode : U64
  rip : U64
  cs : U64
  rflags : U64
  rsp : U64
  ss : U64
  deriving DecidableEq

namespace Registers

def words (r : Registers) : List U64 :=
  [r.r15, r.r14, r.r13, r.r12, r.r11, r.r10, r.r9, r.r8, r.rbp, r.rdi, r.rsi, r.rdx, r.rcx, r.rbx, r.rax,
    r.intNo, r.errCode, r.rip, r.cs, r.rflags, r.rsp, r.ss]

def ofWords (w : Nat → U64) : Registers :=
  ⟨w 0, w 1, w 2, w 3, w 4, w 5, w 6, w 7, w 8, w 9, w 10, w 11, w 12, w 13, w 14, w 15, w 16, w 17, w 18, w 19,
    w 20, w 21⟩

@[simp] theorem words_length (r : Registers) : r.words.length = 22 := rfl

theorem ofWords_words (r : Registers) : ofWords (fun i => r.words.getD i 0) = r := rfl

theorem ofWords_congr {w v : Nat → U64} (h : ∀ i < 22, w i = v i) : ofWords w = ofWords v := by
  unfold ofWords
  rw [h 0 (by decide), h 1 (by decide), h 2 (by decide), h 3 (by decide), h 4 (by decide), h 5 (by decide),
    h 6 (by decide), h 7 (by decide), h 8 (by decide), h 9 (by decide), h 10 (by decide), h 11 (by decide),
    h 12 (by decide), h 13 (by decide), h 14 (by decide), h 15 (by decide), h 16 (by decide), h 17 (by decide),
    h 18 (by decide), h 19 (by decide), h 20 (by decide), h 21 (by decide)]

end Registers

/-- `sizeof(registers_t)`. -/
def FRAME_SIZE : Nat := 176

/-! ## The floating point unit -/

def wide (a : Bytes) (i : Nat) : BitVec 32 := (byteAt a i).toBitVec.setWidth 32

def mxcsrOf (a : Bytes) : BitVec 32 := wide a 24 ||| wide a 25 <<< 8 ||| wide a 26 <<< 16 ||| wide a 27 <<< 24

def lowByte (m : BitVec 32) : UInt8 := UInt8.ofBitVec (m.setWidth 8)

/-- `fpu_sanitize`; `mask` is the processor's `mxcsr_mask`. -/
def fpuSanitize (mask : BitVec 32) (a : Bytes) : Bytes :=
  let m := mxcsrOf a &&& mask
  (((a.set 24 (lowByte m)).set 25 (lowByte (m >>> 8))).set 26 (lowByte (m >>> 16))).set 27 (lowByte (m >>> 24))

theorem bytes_of_word (m : BitVec 32) :
    (m.setWidth 8).setWidth 32 ||| ((m >>> 8).setWidth 8).setWidth 32 <<< 8 |||
      ((m >>> 16).setWidth 8).setWidth 32 <<< 16 ||| ((m >>> 24).setWidth 8).setWidth 32 <<< 24 = m := by
  ext i hi
  interval_cases i <;> simp

theorem mxcsrOf_sanitized (mask : BitVec 32) {a : Bytes} (h : a.length = FPU_AREA) :
    mxcsrOf (fpuSanitize mask a) = mxcsrOf a &&& mask := by
  have hlen : a.length = 512 := h
  rw [mxcsrOf, ← bytes_of_word (mxcsrOf a &&& mask)]
  unfold wide fpuSanitize byteAt
  simp [List.getD_eq_getElem?_getD, hlen, lowByte]

theorem fpuSanitize_sane (mask : BitVec 32) {a : Bytes} (h : a.length = FPU_AREA) :
    fpuSanitize mask (fpuSanitize mask a) = fpuSanitize mask a := by
  have hm := mxcsrOf_sanitized mask h
  rw [fpuSanitize, hm, BitVec.and_assoc, BitVec.and_self]
  unfold fpuSanitize
  simp [List.set_comm]

/-- What the unit holds, as the image FXSAVE makes of it. No bit of MXCSR is on that the processor does
not have. -/
structure Fpu (mask : BitVec 32) where
  image : Bytes
  size : image.length = FPU_AREA
  sane : fpuSanitize mask image = image

def fpuBlank : Bytes :=
  [0x7F, 0x03] ++ List.replicate 22 0 ++ [0x80, 0x1F, 0, 0, 0xFF, 0xFF] ++ List.replicate 482 0

@[simp] theorem fpuBlank_length : fpuBlank.length = FPU_AREA := by
  unfold fpuBlank
  rw [List.length_append, List.length_append, List.length_append, List.length_replicate, List.length_replicate]
  rfl

/-! ## The machine a program sees -/

/-- The part of `task_t` that is about signals. A task that is `TASK_DEAD` has its exit status. -/
structure Task where
  dead : Option Nat
  pending : BitVec 32
  running : BitVec 32
  handler : Nat → U64
  trampoline : U64

structure Machine (mask : BitVec 32) where
  task : Task
  mem : Mem
  page : Nat → Bool
  fpu : Fpu mask

/-! ## Pending -/

def bit (sig : Nat) : BitVec 32 := 1 <<< sig

def hasBit (set : BitVec 32) (sig : Nat) : Bool := set &&& bit sig != 0

def signals : List Nat := List.range' 1 31

def signalEndTask (status : Nat) (t : Task) : Task :=
  if t.dead.isSome then t else { t with dead := some status }

def signalSend (sig : Int) (t : Task) : Bool × Task :=
  if sig ≤ 0 ∨ SIG_MAX ≤ sig then (false, t)
  else if t.dead.isSome then (false, t)
  else (true, { t with pending := t.pending ||| bit sig.toNat })

def signalDisposition (sig : Int) (how trampoline : U64) (t : Task) : Bool × Task :=
  if sig ≤ 0 ∨ SIG_MAX ≤ sig then (false, t)
  else if sig = SIGKILL then (false, t)
  else if how ≠ SIG_DFL ∧ how ≠ SIG_IGN then
    if trampoline = 0 then (false, t)
    else if how < USER_SPACE_BASE ∨ trampoline < USER_SPACE_BASE then (false, t)
    else (true, { t with
      trampoline := trampoline
      handler := fun i => if i = sig.toNat then how else t.handler i })
  else (true, { t with handler := fun i => if i = sig.toNat then how else t.handler i })

/-- What `signal_take_pending` does to one task. -/
def signalTakePending (t : Task) : Task :=
  if t.dead.isSome || t.pending == 0 then t
  else
    let live := signals.find? fun i => hasBit t.pending i && t.handler i == SIG_DFL
    let left := signals.foldl (fun p i => if t.handler i ≤ SIG_IGN then p &&& ~~~bit i else p) t.pending
    match live with
    | none => { t with pending := left }
    | some sig => signalEndTask (128 + sig) { t with pending := left }

/-! ## A handler -/

/-- `stack_is_there`. A range that ends in the last page of all comes round to page 0, which is nobody's
stack. -/
def stackIsThere (page : Nat → Bool) (lo hi : U64) : Bool :=
  let first := lo.toNat / PAGE_SIZE
  let last := (hi.toNat + PAGE_SIZE - 1) / PAGE_SIZE
  (List.range' first (last - first)).all page && !(decide (first < last) && decide (last = 2 ^ 52))

def framePlace (r : Registers) : U64 := (r.rsp - BitVec.ofNat 64 FRAME_SIZE) &&& ~~~15

/-- Where the floating point image goes, under the frame. -/
def imagePlace (r : Registers) : U64 := framePlace r - BitVec.ofNat 64 FPU_AREA

/-- The signal that `signal_deliver` acts on. -/
def deliverable (t : Task) (r : Registers) : Option Nat :=
  signals.find? fun sig =>
    hasBit t.pending sig && decide (SIG_IGN < t.handler sig) && !hasBit t.running sig &&
      -- would wrap
      !decide (framePlace r < BitVec.ofNat 64 (FRAME_SIZE + FPU_AREA + 16))

variable {mask : BitVec 32}

def fpuRestore (mask : BitVec 32) (img : Bytes) (h : img.length = FPU_AREA) : Fpu mask where
  image := fpuSanitize mask img
  size := by simp [fpuSanitize, h]
  sane := fpuSanitize_sane mask h

def enter (sig : Nat) (r : Registers) (s : Machine mask) : Registers × Machine mask :=
  let sp := framePlace r
  let fx := imagePlace r
  let back := fx - 8
  let mem := storeWords (storeBytes (storeWords s.mem sp r.words) fx s.fpu.image) back [s.task.trampoline]
  ({ r with rsp := back, rip := s.task.handler sig, rdi := BitVec.ofNat 64 sig, rax := 0 },
    { s with
      mem := mem
      fpu := fpuRestore mask fpuBlank fpuBlank_length
      task := { s.task with
        pending := s.task.pending &&& ~~~bit sig
        running := s.task.running ||| bit sig } })

def signalDeliver (r : Registers) (s : Machine mask) : Registers × Machine mask :=
  if s.task.dead.isSome || s.task.pending == 0 then (r, s)
  else match deliverable s.task r with
    | none => (r, s)
    | some sig =>
      if stackIsThere s.page (imagePlace r - 16) r.rsp then enter sig r s
      else
        (r, { s with task := signalEndTask (128 + sig) { s.task with pending := s.task.pending &&& ~~~bit sig } })

/-- The bits of the flags a program may choose, and the two that are on whatever it chose. -/
def FLAGS_CHOSEN : U64 := 0x0CD5
def FLAGS_ON : U64 := 0x202

def handlerReturned (t : Task) : Task :=
  match signals.find? (hasBit t.running) with
  | some sig => { t with running := t.running &&& ~~~bit sig }
  | none => t

def signalReturn (r : Registers) (s : Machine mask) : Option (Registers × Machine mask) :=
  let at_ := r.rsp
  if at_ &&& 15 ≠ 0 then none
  else if !stackIsThere s.page at_ (at_ + BitVec.ofNat 64 (FPU_AREA + FRAME_SIZE)) then none
  else
    let saved := Registers.ofWords (wordAt s.mem (at_ + BitVec.ofNat 64 FPU_AREA))
    if saved.cs &&& 3 ≠ 3 ∨ saved.ss &&& 3 ≠ 3 then none
    else if saved.rip < USER_SPACE_BASE then none
    else
      some ({ saved with
          intNo := r.intNo
          errCode := r.errCode
          cs := USER_CODE_SEL
          ss := USER_DATA_SEL
          rflags := (saved.rflags &&& FLAGS_CHOSEN) ||| FLAGS_ON },
        { s with
          fpu := fpuRestore mask (bytesAt s.mem at_ FPU_AREA) (bytesAt_length ..)
          task := handlerReturned s.task })

/-- `sys_sigreturn`: a program whose frame is refused ends. -/
def sysSigreturn (r : Registers) (s : Machine mask) : Registers × Machine mask :=
  match signalReturn r s with
  | some done => done
  | none => (r, { s with task := signalEndTask 139 s.task })

end Zelr.Signals
