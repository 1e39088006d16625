import Zelr.Base.Runs
import Zelr.Libc.Calls

/-!
# Where the C library's blocks lie

The allocator over a kernel that may answer anything: the address it answers with is part of the request. A header is 24
bytes, so the first block that is handed out is never on a boundary of 16.
-/

namespace Zelr.Libc

open Zelr.Heap (HDR)

/-! ## The allocator over any kernel -/

/-- What `sbrk` answers where there is no memory to be had. -/
def NoMemory (answer : Nat) : Prop := answer = 0 ∨ answer = 2 ^ 64 - 1

instance (answer : Nat) : Decidable (NoMemory answer) := inferInstanceAs (Decidable (_ ∨ _))

/-- `grow`, for what `sbrk` answers. The loops are given a turn for each byte below the highest address there is. -/
def growFrom (answer want : Nat) (h : Heap) : Nat × Heap :=
  let take := chunkFor want
  if NoMemory answer then (0, { h with errno := ENOMEM })
  else
    let h := { h with brk := max h.brk (answer + take) }
    let m := fresh h.mem answer take
    if h.head = 0 then (answer, { h with mem := m, head := answer })
    else
      let last := lastBlock m h.brk h.head
      let m := setNext m last answer
      let m := joinForward h.brk m last
      (if (block m last).used then answer else last, { h with mem := m })

def mallocFrom (answer n : Nat) (h : Heap) : Nat × Heap :=
  let n := if n = 0 then 1 else n
  if n > 2 ^ 64 - 1 - HDR - ALIGN then (0, { h with errno := ENOMEM })
  else
    let want := roundUp n
    match firstFit h.mem want h.brk h.head with
    | some b => (b + HDR, { h with mem := claim h.mem b want })
    | none =>
      let r := growFrom answer want h
      if r.1 = 0 then r
      else if (block r.2.mem r.1).used ∨ (block r.2.mem r.1).size < want then (0, { r.2 with errno := ENOMEM })
      else (r.1 + HDR, { r.2 with mem := claim r.2.mem r.1 want })

def callocFrom (answer count size : Nat) (h : Heap) : Nat × Heap :=
  if count ≠ 0 ∧ size > (2 ^ 64 - 1) / count then (0, { h with errno := ENOMEM })
  else
    let n := word (count * size)
    let r := mallocFrom answer n h
    if r.1 = 0 then r else (r.1, { r.2 with mem := zeroed r.2.mem r.1 n })

def reallocFrom (answer p n : Nat) (h : Heap) : Nat × Heap :=
  if p = 0 then mallocFrom answer n h
  else if n = 0 then (0, free p h)
  else
    let b := p - HDR
    if (block h.mem b).size ≥ roundUp n then (p, h)
    else
      let r := mallocFrom answer n h
      if r.1 = 0 then r
      else (r.1, free p { r.2 with mem := copied r.2.mem r.1 p (block r.2.mem b).size })

/-! ## Requests -/

/-- With each request goes the address that the kernel answers with, if it is asked. -/
inductive Request
  | malloc (n : UInt64) (answer : Nat)
  | calloc (count size : UInt64) (answer : Nat)
  | realloc (p : Nat) (n : UInt64) (answer : Nat)
  | free (p : Nat)
  deriving DecidableEq

/-- A program's heap, what it holds, and every pointer it was given. -/
structure Program where
  heap : Heap
  held : List Nat
  returned : List Nat

def started (m : Mem) (errno : Nat) : Program := ⟨⟨m, 0, 0, errno⟩, [], []⟩

/-- A call that returned `p` in place of what was held at `old`. -/
def Program.took (s : Program) (old : Nat) (r : Nat × Heap) (freed : Bool) : Program :=
  let held := if r.1 ≠ 0 ∨ freed then s.held.erase old else s.held
  ⟨r.2, if r.1 = 0 then held else r.1 :: held, s.returned ++ [r.1]⟩

/-- What is given back or made larger is nothing, or what is held. -/
def Request.step (s : Program) : Request → Option Program
  | .malloc n answer => some (s.took 0 (mallocFrom answer n.toNat s.heap) false)
  | .calloc count size answer => some (s.took 0 (callocFrom answer count.toNat size.toNat s.heap) false)
  | .realloc p n answer =>
    if p = 0 ∨ p ∈ s.held then some (s.took p (reallocFrom answer p n.toNat s.heap) (n = 0)) else none
  | .free p => if p = 0 ∨ p ∈ s.held then some { s with heap := Libc.free p s.heap, held := s.held.erase p } else none

def Request.answer : Request → Nat
  | .malloc _ answer | .calloc _ _ answer | .realloc _ _ answer => answer
  | .free _ => 0

/-- More than `malloc` has for anybody, or nothing to be had. -/
def RefusedFor (n answer : Nat) : Prop := n > 2 ^ 64 - 1 - HDR - ALIGN ∨ NoMemory answer

/-- A request that no heap without blocks can meet. -/
def Request.Refused : Request → Prop
  | .malloc n answer | .realloc _ n answer => RefusedFor n.toNat answer
  | .calloc count size answer =>
    count.toNat ≠ 0 ∧ size.toNat > (2 ^ 64 - 1) / count.toNat ∨ RefusedFor (count.toNat * size.toNat) answer
  | .free _ => True

/-! ## The first block -/

section
variable {h : Heap} {n answer : Nat}

theorem firstFit_none (m : Mem) (want turns : Nat) : firstFit m want turns 0 = none := by
  cases turns with
  | zero => rfl
  | succ turns => rw [firstFit, if_pos rfl]

theorem asked_big (n : Nat) : (if n = 0 then 1 else n) > 2 ^ 64 - 1 - HDR - ALIGN ↔ n > 2 ^ 64 - 1 - HDR - ALIGN := by
  have hHDR : HDR = 24 := rfl
  have hALIGN : ALIGN = 16 := rfl
  split <;> omega

theorem mallocFrom_refused (hhead : h.head = 0) (hno : RefusedFor n answer) :
    ∃ e, mallocFrom answer n h = (0, { h with errno := e }) := by
  unfold mallocFrom
  dsimp only
  by_cases hn : (if n = 0 then 1 else n) > 2 ^ 64 - 1 - HDR - ALIGN
  · rw [if_pos hn]
    exact ⟨_, rfl⟩
  · have hno : NoMemory answer := hno.resolve_left fun hbig => hn ((asked_big n).mpr hbig)
    rw [if_neg hn, hhead, firstFit_none]
    unfold growFrom
    dsimp only
    rw [if_pos hno, if_pos rfl, hhead]
    exact ⟨_, rfl⟩

theorem mallocFrom_first (hhead : h.head = 0) (hyes : ¬ RefusedFor n answer) :
    (mallocFrom answer n h).1 = answer + HDR := by
  have hHDR : HDR = 24 := rfl
  have hALIGN : ALIGN = 16 := rfl
  unfold RefusedFor at hyes
  obtain ⟨hsmall, hanswer⟩ := not_or.mp hyes
  have hpos : answer ≠ 0 := fun hzero => hanswer (.inl hzero)
  have hn : ¬ (if n = 0 then 1 else n) > 2 ^ 64 - 1 - HDR - ALIGN := fun hbig => hsmall ((asked_big n).mp hbig)
  unfold mallocFrom
  dsimp only
  rw [if_neg hn, hhead, firstFit_none]
  unfold growFrom
  dsimp only
  rw [if_neg hanswer, if_pos hhead, if_neg hpos]
  have hblock : (block (fresh h.mem answer (chunkFor (roundUp (if n = 0 then 1 else n)))) answer) =
      ⟨minus (chunkFor (roundUp (if n = 0 then 1 else n))) HDR, 0, false⟩ := by
    have hlt : minus (chunkFor (roundUp (if n = 0 then 1 else n))) HDR < 2 ^ 64 := Nat.mod_lt _ (by decide)
    rw [fresh, block_setNext (by decide), block_setUsed, block_setSize hlt]
  have hroom : ¬ (block (fresh h.mem answer (chunkFor (roundUp (if n = 0 then 1 else n)))) answer).size <
      roundUp (if n = 0 then 1 else n) := by
    rw [hblock]
    dsimp only
    generalize (if n = 0 then 1 else n) = k at hn
    unfold chunkFor roundUp minus word ALIGN CHUNK
    dsimp only
    split <;> omega
  rw [if_neg]
  rintro (hused | hlt)
  · rw [hblock] at hused
    cases hused
  · exact hroom hlt

/-! ## Runs -/

structure Program.Empty (s : Program) : Prop where
  head : s.heap.head = 0
  held : s.held = []
  returned : ∀ p ∈ s.returned, p = 0

variable {s s' : Program} {q : Request}

theorem Program.Empty.refused (hs : s.Empty) {r : Nat × Heap} (hr : ∃ e, r = (0, { s.heap with errno := e })) (old : Nat)
    (freed : Bool) : (s.took old r freed).Empty := by
  obtain ⟨e, rfl⟩ := hr
  refine ⟨hs.head, ?_, ?_⟩
  · unfold Program.took
    rw [hs.held]
    simp
  · intro p hp
    rcases List.mem_append.mp hp with hp | hp
    · exact hs.returned p hp
    · exact List.mem_singleton.mp hp

theorem callocFrom_of_product {count size : Nat} (hfits : ¬ (count ≠ 0 ∧ size > (2 ^ 64 - 1) / count)) :
    callocFrom answer count size h =
      if (mallocFrom answer (count * size) h).1 = 0 then mallocFrom answer (count * size) h
      else ((mallocFrom answer (count * size) h).1, { (mallocFrom answer (count * size) h).2 with
        mem := zeroed (mallocFrom answer (count * size) h).2.mem (mallocFrom answer (count * size) h).1 (count * size) }) := by
  unfold callocFrom
  rw [if_neg hfits, word_of_lt (product_lt hfits)]

theorem callocFrom_refused {count size : Nat} (hhead : h.head = 0)
    (hno : count ≠ 0 ∧ size > (2 ^ 64 - 1) / count ∨ RefusedFor (count * size) answer) :
    ∃ e, callocFrom answer count size h = (0, { h with errno := e }) := by
  by_cases hfits : count ≠ 0 ∧ size > (2 ^ 64 - 1) / count
  · exact ⟨_, if_pos hfits⟩
  · obtain ⟨e, he⟩ := mallocFrom_refused hhead (hno.resolve_left hfits)
    rw [callocFrom_of_product hfits, he]
    exact ⟨e, rfl⟩

theorem Request.step_realloc {p : Nat} {n : UInt64} (h : (Request.realloc p n answer).step s = some s') :
    (p = 0 ∨ p ∈ s.held) ∧ s.took p (reallocFrom answer p n.toNat s.heap) (n = 0) = s' :=
  (Option.ite_none_right_eq_some.mp h).imp_right Option.some.inj

theorem Request.step_free {p : Nat} (h : (Request.free p).step s = some s') :
    (p = 0 ∨ p ∈ s.held) ∧ { s with heap := Libc.free p s.heap, held := s.held.erase p } = s' :=
  (Option.ite_none_right_eq_some.mp h).imp_right Option.some.inj

theorem Request.step_refused (hs : s.Empty) (hno : q.Refused) (hstep : q.step s = some s') : s'.Empty := by
  cases q with
  | malloc n answer =>
    obtain rfl := Option.some.inj hstep
    exact hs.refused (mallocFrom_refused hs.head hno) 0 false
  | calloc count size answer =>
    obtain rfl := Option.some.inj hstep
    exact hs.refused (callocFrom_refused hs.head hno) 0 false
  | realloc p n answer =>
    obtain ⟨hp, rfl⟩ := step_realloc hstep
    rw [hs.held] at hp
    obtain rfl : p = 0 := hp.resolve_right List.not_mem_nil
    exact hs.refused (mallocFrom_refused hs.head hno) 0 _
  | free p =>
    obtain ⟨hp, rfl⟩ := step_free hstep
    rw [hs.held] at hp
    obtain rfl : p = 0 := hp.resolve_right List.not_mem_nil
    exact ⟨hs.head, by rw [hs.held]; rfl, hs.returned⟩

theorem Request.step_first (hs : s.Empty) (hyes : ¬ q.Refused) (hstep : q.step s = some s') :
    q.answer + HDR ∈ s'.returned := by
  have hlast : ∀ (old : Nat) (r : Nat × Heap) (freed : Bool), r.1 = q.answer + HDR →
      q.answer + HDR ∈ (s.took old r freed).returned := fun old r freed hr =>
    List.mem_append_right _ (List.mem_singleton.mpr hr.symm)
  cases q with
  | malloc n answer =>
    obtain rfl := Option.some.inj hstep
    exact hlast _ _ _ (mallocFrom_first hs.head hyes)
  | calloc count size answer =>
    obtain rfl := Option.some.inj hstep
    apply hlast
    obtain ⟨hfits, hyes⟩ := not_or.mp hyes
    rw [callocFrom_of_product hfits, apply_ite Prod.fst, ite_self]
    exact mallocFrom_first hs.head hyes
  | realloc p n answer =>
    obtain ⟨hp, rfl⟩ := step_realloc hstep
    rw [hs.held] at hp
    obtain rfl : p = 0 := hp.resolve_right List.not_mem_nil
    exact hlast _ _ _ (mallocFrom_first hs.head hyes)
  | free p => exact absurd trivial hyes

theorem Request.step_returned (hstep : q.step s = some s') {p : Nat} (hp : p ∈ s.returned) : p ∈ s'.returned := by
  cases q with
  | malloc n answer =>
    obtain rfl := Option.some.inj hstep
    exact List.mem_append_left _ hp
  | calloc count size answer =>
    obtain rfl := Option.some.inj hstep
    exact List.mem_append_left _ hp
  | realloc p n answer =>
    obtain ⟨-, rfl⟩ := step_realloc hstep
    exact List.mem_append_left _ hp
  | free p =>
    obtain ⟨-, rfl⟩ := step_free hstep
    exact hp

/-- Where the kernel answers on boundaries of 16, every pointer is on one just where every request is refused. -/
theorem aligned_iff {m : Mem} {errno : Nat} {qs : List Request} (hkernel : ∀ q ∈ qs, NoMemory q.answer ∨ 16 ∣ q.answer)
    (hrun : Runs.run (fun s q => q.step s) (started m errno) qs = some s) :
    (∀ p ∈ s.returned, 16 ∣ p) ↔ ∀ q ∈ qs, q.Refused := by
  have hempty : (started m errno).Empty := ⟨rfl, rfl, nofun⟩
  generalize started m errno = s₀ at hempty hrun
  induction qs generalizing s₀ with
  | nil =>
    obtain rfl := Option.some.inj hrun
    refine iff_of_true (fun p hp => ?_) nofun
    rw [hempty.returned p hp]
    exact Nat.dvd_zero 16
  | cons q qs ih =>
    obtain ⟨t, ht, hrest⟩ := Runs.run_cons.mp hrun
    rw [List.forall_mem_cons]
    by_cases hno : q.Refused
    · rw [and_iff_right hno]
      exact ih (fun q hq => hkernel q (List.mem_cons_of_mem _ hq)) t (Request.step_refused hempty hno ht) hrest
    · refine iff_of_false (fun haligned => ?_) fun hall => hno hall.1
      have hfirst : q.answer + HDR ∈ s.returned :=
        Runs.inv_of_step (fun _ _ _ hp hstep => Request.step_returned hstep hp)
          (Request.step_first hempty hno ht) hrest
      have hdvd := haligned _ hfirst
      have hHDR : HDR = 24 := rfl
      have hanswer : 16 ∣ q.answer := by
        refine (hkernel q List.mem_cons_self).resolve_left fun hnone => hno ?_
        cases q with
        | free p => trivial
        | calloc count size answer => exact .inr (.inr hnone)
        | _ => exact .inr hnone
      omega

end

/-- A request that the kernel refuses, and then one that it does not. -/
def askTwice : List Request := [.malloc 1 0, .malloc 1 0x8010000000]

theorem askTwice_aligned : ∃ s, Runs.run (fun s q => Request.step s q) (started (fun _ => 0) 0) askTwice = some s ∧
    ((∀ p ∈ s.returned, 16 ∣ p) ↔ ∀ q ∈ askTwice, q.Refused) :=
  ⟨_, rfl, aligned_iff (by decide) rfl⟩

/-- The first block of a program lies 8 bytes off. -/
theorem first_block_unaligned :
    (Runs.run (fun s q => Request.step s q) (started (fun _ => 0) 0) [.malloc 1 0x8010000000]).map Program.returned =
      some [0x8010000018] ∧ 16 ∣ 0x8010000000 ∧ ¬ 16 ∣ 0x8010000018 := by
  decide +kernel

end Zelr.Libc
