import Zelr.Base.Bytes
import Zelr.User.Memory

/-!
# The stack a program starts on

`user_build_stack` of `user.c`. The kernel writes the top page where it has it, by the number of its frame;
what it writes are the strings from the last down to the first, and below them the vector of their
addresses, on a boundary of sixteen.
-/

namespace Zelr.User

open Act Paging
open Pmm (put_same put_other)

def USER_STACK_PAGES : Nat := 16
def USER_ARGV_MAX : Nat := 64

/-- A string of C: the bytes before the zero that ends it. -/
structure CString where
  bytes : Bytes
  ended : (0 : UInt8) ∉ bytes

namespace CString

def empty : CString := ⟨[], by simp⟩

/-- As it lies in memory, `strlen(w) + 1` bytes. -/
def whole (w : CString) : Bytes := w.bytes ++ [0]

end CString

/-! ## Bytes of a page -/

abbrev Content := Nat → Word

/-- Byte `k` of a word, the low one first. -/
def byteOf (w : Word) (k : Nat) : UInt8 := UInt8.ofBitVec ((w >>> (8 * k)).setWidth 8)

def withByte (w : Word) (k : Nat) (b : UInt8) : Word :=
  (w &&& ~~~((0xFF : Word) <<< (8 * k))) ||| (b.toBitVec.setWidth 64 <<< (8 * k))

def byteIn (words : Content) (off : Nat) : UInt8 := byteOf (words (off / 8)) (off % 8)

def poke (words : Content) (off : Nat) (b : UInt8) : Content :=
  stored words (off / 8) fun w => withByte w (off % 8) b

def pokes (words : Content) (off : Nat) : Bytes → Content
  | [] => words
  | b :: bs => pokes (poke words off b) (off + 1) bs

def putWords (words : Content) (i : Nat) : List Word → Content
  | [] => words
  | w :: ws => putWords (Pmm.put words i w) (i + 1) ws

/-! ## What is built -/

def stackAt (off : Nat) : Word := USER_STACK_TOP - (PAGE - BitVec.ofNat 64 off)

/-- The strings `n - 1` to 0, each right below the one before it, and the addresses of all. -/
def putStrings (argv : Nat → CString) : Nat → Nat → List Word → Act Content (Nat × List Word)
  | 0, off, ptr => pure (off, ptr)
  | i + 1, off, ptr => do
    let n := (argv i).bytes.length + 1
    if n > off then stop
    else do
      modify fun words => pokes words (off - n) (argv i).whole
      putStrings argv i (off - n) (stackAt (off - n) :: ptr)

def layOut (argc : Nat) (argv : Nat → CString) : Act Content Word := do
  let (off, ptr) ← putStrings argv argc PAGE_SIZE []
  let need := (argc + 3) * 8
  if need > off then stop
  else do
    let off := off - need - (off - need) % 16
    -- the two nulls end the vector and the environment
    modify fun words => putWords words (off / 8) (BitVec.ofNat 64 argc :: ptr ++ [0, 0])
    pure (stackAt off)

def argument (argv : Option (Nat → Option CString)) (i : Nat) : CString :=
  match argv with
  | none => CString.empty
  | some v => (v i).getD CString.empty

def stackPage (i : Nat) : Word := USER_STACK_TOP - BitVec.ofNat 64 i * PAGE

/-- The pages of the stack from the `i`-th below its top on, so many of them; the answer is the frame of the first. -/
def stackLoop (dir : Nat) : Nat → Nat → Nat → Act Machine Nat
  | 0, _, top => pure top
  | n + 1, i, top => do
    let f ← allocUserPage dir (stackPage i)
    stackLoop dir n (i + 1) (if i = 1 then f else top)

def onFrame {α : Type} (frame : Nat) (act : Act Content α) : Act Machine α :=
  zoom (fun m => m.mem frame) (fun words m => m.setFrame frame words) act

def userBuildStack (dir : Nat) (argc : Int) (argv : Option (Nat → Option CString)) : Act Machine Word := do
  let top ← stackLoop dir USER_STACK_PAGES 1 0
  let argc := if argc < 0 then 0 else argc.toNat
  if argc > USER_ARGV_MAX then stop
  else onFrame top (layOut argc (argument argv))

/-! ## The page after a write -/

section Written

variable {words : Content} {w : Word} {b : UInt8} {i j k off x : Nat}

theorem low_byte_bit : ∀ n, n < 64 → (255#64).getLsbD n = decide (n < 8) := by decide

theorem byteOf_withByte_same (hk : k < 8) : byteOf (withByte w k b) k = b := by
  unfold byteOf withByte
  apply UInt8.toBitVec_inj.mp
  apply BitVec.eq_of_getLsbD_eq
  intro n hn
  have hin : 8 * k + n < 64 := by omega
  have hwide : n < 64 := by omega
  have hone : (255#64).getLsbD n = true := (low_byte_bit n hwide).trans (decide_eq_true hn)
  simp only [BitVec.getLsbD_setWidth, BitVec.getLsbD_ushiftRight, BitVec.getLsbD_or,
    BitVec.getLsbD_and, BitVec.getLsbD_not, BitVec.getLsbD_shiftLeft, Nat.add_sub_cancel_left]
  simp [hn, hin, hwide, hone]

theorem byteOf_withByte_other (hj : j < 8) (hne : j ≠ k) : byteOf (withByte w k b) j = byteOf w j := by
  unfold byteOf withByte
  apply UInt8.toBitVec_inj.mp
  apply BitVec.eq_of_getLsbD_eq
  intro n hn
  have hin : 8 * j + n < 64 := by omega
  simp only [BitVec.getLsbD_setWidth, BitVec.getLsbD_ushiftRight, BitVec.getLsbD_or,
    BitVec.getLsbD_and, BitVec.getLsbD_not, BitVec.getLsbD_shiftLeft]
  rcases Nat.lt_or_gt_of_ne hne with hlt | hgt
  · have hbelow : 8 * j + n < 8 * k := by omega
    simp [hn, hin, hbelow]
  · have hone := low_byte_bit (8 * j + n - 8 * k) (by omega)
    have hpast : ¬ 8 * j + n - 8 * k < 8 := by omega
    have hnot : ¬ 8 * j + n < 8 * k := by omega
    have hlast : b.toBitVec.getLsbD (8 * j + n - 8 * k) = false := BitVec.getLsbD_of_ge _ _ (by omega)
    simp [hn, hin, hone, hpast, hlast]

theorem byteIn_poke_same : byteIn (poke words off b) off = b := by
  unfold byteIn poke stored
  rw [put_same]
  exact byteOf_withByte_same (Nat.mod_lt _ (by decide))

theorem byteIn_poke_other (hne : x ≠ off) : byteIn (poke words off b) x = byteIn words x := by
  unfold byteIn poke stored
  by_cases hword : x / 8 = off / 8
  · rw [hword, put_same]
    exact byteOf_withByte_other (Nat.mod_lt _ (by decide)) (by omega)
  · rw [put_other _ _ hword]

theorem byteIn_pokes_outside {bs : Bytes} (hx : x < off ∨ off + bs.length ≤ x) :
    byteIn (pokes words off bs) x = byteIn words x := by
  induction bs generalizing words off with
  | nil => rfl
  | cons b bs ih =>
    rw [List.length_cons] at hx
    rw [pokes, ih (by omega), byteIn_poke_other (by omega)]

theorem byteIn_pokes {bs : Bytes} (hk : k < bs.length) : byteIn (pokes words off bs) (off + k) = byteAt bs k := by
  induction bs generalizing words off k with
  | nil => cases hk
  | cons b bs ih =>
    rw [pokes]
    rcases k with _ | k
    · rw [byteIn_pokes_outside (by omega)]
      exact byteIn_poke_same
    · rw [List.length_cons] at hk
      rw [← Nat.add_assoc, Nat.add_right_comm, ih (by omega)]
      exact List.getD_cons_succ.symm

theorem putWords_outside {ws : List Word} (hx : x < i ∨ i + ws.length ≤ x) : putWords words i ws x = words x := by
  induction ws generalizing words i with
  | nil => rfl
  | cons v ws ih =>
    rw [List.length_cons] at hx
    rw [putWords, ih (by omega), put_other _ _ (by omega)]

theorem putWords_inside (words : Content) (i : Nat) (ws : List Word) (hk : k < ws.length) : putWords words i ws (i + k) = ws.getD k 0 := by
  induction ws generalizing words i k with
  | nil => cases hk
  | cons v ws ih =>
    rw [putWords]
    rcases k with _ | k
    · rw [putWords_outside (by omega)]
      exact put_same _ _ _
    · rw [List.length_cons] at hk
      rw [← Nat.add_assoc, Nat.add_right_comm, ih _ _ (by omega)]
      exact List.getD_cons_succ.symm

theorem byteIn_putWords {ws : List Word} (hx : 8 * (i + ws.length) ≤ x) :
    byteIn (putWords words i ws) x = byteIn words x := by
  unfold byteIn
  rw [putWords_outside (by omega)]

end Written

/-! ## The page when it is built -/

def total (argv : Nat → CString) : Nat → Nat
  | 0 => 0
  | n + 1 => total argv n + (argv n).whole.length

/-- There is room for the strings and, below them, for the vector. -/
def Fits (argc : Nat) (argv : Nat → CString) : Prop :=
  argc ≤ USER_ARGV_MAX ∧ total argv argc + (argc + 3) * 8 ≤ PAGE_SIZE

instance (argc : Nat) (argv : Nat → CString) : Decidable (Fits argc argv) :=
  inferInstanceAs (Decidable (_ ∧ _))

/-- String `j` of those that lie side by side from `off` on. -/
def placeOf (argv : Nat → CString) (off j : Nat) : Nat := off + total argv j

section Built

variable {argv : Nat → CString} {words : Content} {argc n off i j k : Nat} {ptr : List Word}

theorem CString.whole_length (w : CString) : w.whole.length = w.bytes.length + 1 := List.length_append

theorem total_add (argv : Nat → CString) (h : j < n) : total argv j + (argv j).whole.length ≤ total argv n := by
  induction n with
  | zero => cases h
  | succ n ih =>
    rw [total]
    rcases Nat.lt_succ_iff_lt_or_eq.mp h with h | rfl
    · have := ih h
      omega
    · exact Nat.le_refl _

theorem putStrings_none (ptr : List Word) (words : Content) (h : off < total argv n) : (putStrings argv n off ptr words).1 = none := by
  induction n generalizing off ptr words with
  | zero => cases h
  | succ n ih =>
    rw [total, CString.whole_length] at h
    unfold putStrings
    simp only
    split
    · rfl
    · exact ih _ _ (by omega)

theorem putStrings_spec (ptr : List Word) (words : Content) (h : total argv n ≤ off) :
    ∃ words', putStrings argv n off ptr words =
        (some (off - total argv n, (List.range n).map (fun j => stackAt (placeOf argv (off - total argv n) j)) ++ ptr),
          words') ∧
      (∀ j k, j < n → k < (argv j).whole.length →
        byteIn words' (placeOf argv (off - total argv n) j + k) = byteAt (argv j).whole k) ∧
      ∀ x, off ≤ x → byteIn words' x = byteIn words x := by
  induction n generalizing off ptr words with
  | zero => exact ⟨words, rfl, fun _ _ hj => absurd hj (Nat.not_lt_zero _), fun _ _ => rfl⟩
  | succ n ih =>
    have hlen := (argv n).whole_length
    rw [total] at h
    obtain ⟨low, hlow⟩ : ∃ low, low = off - (argv n).whole.length := ⟨_, rfl⟩
    have hbase : off - total argv (n + 1) = low - total argv n := by
      rw [total]
      omega
    obtain ⟨words', hrun, hbytes, hkept⟩ :=
      ih (stackAt low :: ptr) (pokes words low (argv n).whole) (show total argv n ≤ low by omega)
    have hlast : placeOf argv (low - total argv n) n = low := by
      unfold placeOf
      omega
    refine ⟨words', ?_, ?_, ?_⟩
    · unfold putStrings
      simp only [← hlen, ← hlow]
      rw [if_neg (by omega)]
      refine Eq.trans hrun ?_
      rw [hbase, List.range_succ, List.map_append, List.map_singleton, hlast, List.append_assoc]
      rfl
    · intro j k hj hk
      rw [hbase]
      rcases Nat.lt_succ_iff_lt_or_eq.mp hj with hj | rfl
      · exact hbytes j k hj hk
      · rw [hlast, hkept _ (Nat.le_add_right _ _)]
        exact byteIn_pokes hk
    · intro x hx
      rw [hkept x (by omega), byteIn_pokes_outside (by omega)]

theorem layOut_none (words : Content) (h : PAGE_SIZE < total argv argc + (argc + 3) * 8) : (layOut argc argv words).1 = none := by
  unfold layOut
  rcases Nat.lt_or_ge PAGE_SIZE (total argv argc) with hover | hroom
  · rcases hrun : putStrings argv argc PAGE_SIZE [] words with ⟨r, words'⟩
    have hnone := putStrings_none [] words hover
    rw [hrun] at hnone
    cases hnone
    rw [bind_of_none hrun]
  · obtain ⟨words', hrun, -, -⟩ := putStrings_spec [] words hroom
    rw [bind_of_some hrun]
    simp only
    rw [if_pos (by omega)]
    rfl

/-- What the page holds: the vector from `off` on, and the strings above it. -/
structure Packed (argc : Nat) (argv : Nat → CString) (off : Nat) (words : Content) : Prop where
  aligned : off % 16 = 0
  room : off + (argc + 3) * 8 ≤ PAGE_SIZE - total argv argc
  count : words (off / 8) = BitVec.ofNat 64 argc
  pointers : ∀ j, j < argc → words (off / 8 + 1 + j) = stackAt (placeOf argv (PAGE_SIZE - total argv argc) j)
  ended : words (off / 8 + 1 + argc) = 0
  environ : words (off / 8 + 2 + argc) = 0
  strings : ∀ j k, j < argc → k < (argv j).whole.length →
    byteIn words (placeOf argv (PAGE_SIZE - total argv argc) j + k) = byteAt (argv j).whole k

theorem layOut_spec (words : Content) (h : total argv argc + (argc + 3) * 8 ≤ PAGE_SIZE) :
    ∃ off words', layOut argc argv words = (some (stackAt off), words') ∧ Packed argc argv off words' := by
  obtain ⟨words', hrun, hbytes, -⟩ := putStrings_spec [] words (show total argv argc ≤ PAGE_SIZE by omega)
  obtain ⟨base, hbase⟩ : ∃ base, base = PAGE_SIZE - total argv argc := ⟨_, rfl⟩
  obtain ⟨ws, hws⟩ : ∃ ws, ws = (List.range argc).map fun j => stackAt (placeOf argv base j) := ⟨_, rfl⟩
  obtain ⟨off, hoff⟩ : ∃ off, off = base - (argc + 3) * 8 - (base - (argc + 3) * 8) % 16 := ⟨_, rfl⟩
  rw [← hbase, ← hws, List.append_nil] at hrun
  rw [← hbase] at hbytes
  have hlen : ws.length = argc := by rw [hws, List.length_map, List.length_range]
  have hall : (BitVec.ofNat 64 argc :: ws ++ [0, 0]).length = argc + 3 := by simp [hlen]
  have hword := fun k (hk : k < argc + 3) =>
    putWords_inside words' (off / 8) (BitVec.ofNat 64 argc :: ws ++ [0, 0]) (hk.trans_eq hall.symm)
  have haligned : off % 16 = 0 := by omega
  refine ⟨off, putWords words' (off / 8) (BitVec.ofNat 64 argc :: ws ++ [0, 0]), ?_, haligned, by omega, ?_, ?_, ?_, ?_, ?_⟩
  · unfold layOut
    rw [bind_of_some hrun]
    simp only
    rw [if_neg (by omega), ← hoff]
    rfl
  · exact hword 0 (by omega)
  · intro j hj
    rw [Nat.add_assoc, hword (1 + j) (by omega), Nat.add_comm 1 j, List.cons_append, List.getD_cons_succ,
      List.getD_append _ _ _ _ (by omega), hws, ← hbase, List.getD_eq_getElem _ _ (by simpa using hj)]
    simp
  · rw [Nat.add_assoc, hword (1 + argc) (by omega), Nat.add_comm 1 argc, List.cons_append, List.getD_cons_succ,
      List.getD_append_right _ _ _ _ (by omega), hlen, Nat.sub_self]
    rfl
  · rw [Nat.add_assoc, hword (2 + argc) (by omega), Nat.add_comm 2 argc, List.cons_append, List.getD_cons_succ,
      List.getD_append_right _ _ _ _ (by omega), hlen, Nat.add_sub_cancel_left]
    rfl
  · intro j k hj hk
    rw [← hbase, byteIn_putWords, hbytes j k hj hk]
    rw [hall]
    unfold placeOf
    omega

end Built

end Zelr.User
