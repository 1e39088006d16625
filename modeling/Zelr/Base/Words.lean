import Zelr.Base.Bytes

/-!
# Memory, byte by byte

Numbers are stored low byte first.
-/

namespace Zelr

variable {m : Mem} {a w v x n i : Nat} {bs : Bytes} {ws : List U64}

abbrev Mem := Nat → UInt8

/-- The `w` bytes at `a`, as a number. -/
def load (m : Mem) (a : Nat) : Nat → Nat
  | 0 => 0
  | w + 1 => (m a).toNat + 256 * load m (a + 1) w

/-- The low `w` bytes of a number, put at `a`. -/
def store (m : Mem) (a : Nat) : Nat → Nat → Mem
  | 0, _ => m
  | w + 1, v => store (Function.update m a (UInt8.ofNat v)) (a + 1) w (v / 256)

theorem store_of_outside (h : x < a ∨ a + w ≤ x) : store m a w v x = m x := by
  induction w generalizing m a v with
  | zero => rfl
  | succ w ih =>
    rw [store, ih (by omega)]
    exact Function.update_of_ne (by omega) _ _

theorem load_congr {m' : Mem} (h : ∀ x, a ≤ x → x < a + w → m' x = m x) :
    load m' a w = load m a w := by
  induction w generalizing a with
  | zero => rfl
  | succ w ih =>
    rw [load, load, h a le_rfl (by omega), ih fun x hlo hhi => h x (by omega) (by omega)]

theorem load_store (m : Mem) (a w v : Nat) : load (store m a w v) a w = v % 256 ^ w := by
  induction w generalizing m a v with
  | zero => simp [load, Nat.mod_one]
  | succ w ih =>
    have hfirst : (store m a (w + 1) v) a = UInt8.ofNat v := by
      rw [store, store_of_outside (.inl (by omega)), Function.update_self]
    have hrest : load (store m a (w + 1) v) (a + 1) w = v / 256 % 256 ^ w := ih _ _ _
    rw [load, hfirst, hrest, pow_succ, mul_comm (256 ^ w) 256, Nat.mod_mul]
    simp

theorem load_store_apart {b k : Nat} (h : a + w ≤ b ∨ b + k ≤ a) :
    load (store m b k v) a w = load m a w :=
  load_congr fun x hlo hhi => store_of_outside (by omega)

/-!
## Memory at 64-bit addresses

Bytes and words at an address of the machine. An address past the last one comes round to the first,
as it does there; what is said of a range is said of one that does not.
-/

abbrev U64 := BitVec 64

/-- The bytes from `a` on. -/
def bytesAt (m : Mem) (a : U64) (n : Nat) : Bytes := (List.range n).map fun i => m (a + BitVec.ofNat 64 i).toNat

def wordAt (m : Mem) (a : U64) (i : Nat) : U64 := BitVec.ofNat 64 (load m (a + BitVec.ofNat 64 (8 * i)).toNat 8)

def storeBytes (m : Mem) (a : U64) : Bytes → Mem
  | [] => m
  | b :: bs => storeBytes (Function.update m a.toNat b) (a + 1) bs

def storeWords (m : Mem) (a : U64) : List U64 → Mem
  | [] => m
  | w :: ws => storeWords (store m a.toNat 8 w.toNat) (a + 8) ws

@[simp] theorem bytesAt_length (m : Mem) (a : U64) (n : Nat) : (bytesAt m a n).length = n := by simp [bytesAt]

section Ranges

variable {m m' : Mem} {a : U64}

theorem offset_toNat (h : a.toNat + n < 2 ^ 64) : (a + BitVec.ofNat 64 n).toNat = a.toNat + n := by
  rw [BitVec.toNat_add, BitVec.toNat_ofNat, Nat.mod_eq_of_lt (by omega : n < 2 ^ 64), Nat.mod_eq_of_lt h]

theorem bytesAt_congr (h : a.toNat + n < 2 ^ 64)
    (heq : ∀ x, a.toNat ≤ x → x < a.toNat + n → m' x = m x) : bytesAt m' a n = bytesAt m a n := by
  unfold bytesAt
  apply List.map_congr_left
  intro i hi
  have hi := List.mem_range.mp hi
  rw [offset_toNat (by omega)]
  exact heq _ (by omega) (by omega)

theorem wordAt_congr (h : a.toNat + 8 * i + 8 < 2 ^ 64)
    (heq : ∀ x, a.toNat + 8 * i ≤ x → x < a.toNat + 8 * i + 8 → m' x = m x) : wordAt m' a i = wordAt m a i := by
  unfold wordAt
  rw [offset_toNat (by omega)]
  rw [load_congr heq]

theorem storeBytes_outside (h : a.toNat + bs.length < 2 ^ 64)
    (hx : x < a.toNat ∨ a.toNat + bs.length ≤ x) : storeBytes m a bs x = m x := by
  induction bs generalizing m a with
  | nil => rfl
  | cons b bs ih =>
    rw [List.length_cons] at h hx
    have hnext : (a + 1).toNat = a.toNat + 1 := offset_toNat (n := 1) (by omega)
    rw [storeBytes, ih (by omega) (by omega)]
    exact Function.update_of_ne (by omega) _ _

theorem storeWords_outside (h : a.toNat + 8 * ws.length < 2 ^ 64)
    (hx : x < a.toNat ∨ a.toNat + 8 * ws.length ≤ x) : storeWords m a ws x = m x := by
  induction ws generalizing m a with
  | nil => rfl
  | cons w ws ih =>
    rw [List.length_cons] at h hx
    have hnext : (a + 8).toNat = a.toNat + 8 := offset_toNat (n := 8) (by omega)
    rw [storeWords, ih (by omega) (by omega)]
    exact store_of_outside (by omega)

theorem bytesAt_storeBytes (h : a.toNat + bs.length < 2 ^ 64) :
    bytesAt (storeBytes m a bs) a bs.length = bs := by
  induction bs generalizing m a with
  | nil => rfl
  | cons b bs ih =>
    rw [List.length_cons] at h ⊢
    have hnext : (a + 1).toNat = a.toNat + 1 := offset_toNat (n := 1) (by omega)
    have hfirst : storeBytes m a (b :: bs) a.toNat = b := by
      rw [storeBytes, storeBytes_outside (by omega) (by omega), Function.update_self]
    have hrest : bytesAt (storeBytes m a (b :: bs)) (a + 1) bs.length = bs := ih (by omega)
    rw [bytesAt, List.range_succ_eq_map, List.map_cons, List.map_map]
    rw [BitVec.add_zero, hfirst]
    refine congrArg _ (Eq.trans ?_ hrest)
    rw [bytesAt]
    apply List.map_congr_left
    intro i _
    rw [Function.comp_apply, BitVec.add_assoc, Nat.succ_eq_add_one, Nat.add_comm i 1, BitVec.ofNat_add]
    rfl

theorem wordAt_storeWords (h : a.toNat + 8 * ws.length < 2 ^ 64) (hi : i < ws.length) :
    wordAt (storeWords m a ws) a i = ws.getD i 0 := by
  induction ws generalizing m a i with
  | nil => cases hi
  | cons w ws ih =>
    rw [List.length_cons] at h hi
    have hnext : (a + 8).toNat = a.toNat + 8 := offset_toNat (n := 8) (by omega)
    cases i with
    | zero =>
      have hload : load (storeWords m a (w :: ws)) a.toNat 8 = w.toNat := by
        rw [storeWords, load_congr fun x _ hx => storeWords_outside (by omega) (by omega), load_store]
        exact Nat.mod_eq_of_lt w.isLt
      rw [wordAt, Nat.mul_zero, BitVec.add_zero, hload, BitVec.ofNat_toNat, BitVec.setWidth_eq]
      rfl
    | succ i =>
      have hrest : wordAt (storeWords m a (w :: ws)) (a + 8) i = ws.getD i 0 := ih (by omega) (by omega)
      rw [← hrest.trans (List.getD_cons_succ ..).symm, wordAt, wordAt, BitVec.add_assoc,
        show 8 * (i + 1) = 8 + 8 * i by omega, BitVec.ofNat_add]
      rfl

end Ranges

end Zelr
