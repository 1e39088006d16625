import Mathlib.Data.List.GetD
import Mathlib.Data.List.Induction
import Mathlib.Tactic.Ring

/-!
# Bytes

What the kernel's byte buffers look like here: a buffer is a list of bytes, and a pointer into one
is the buffer with an offset.
-/

namespace Zelr

variable {off i : Nat} {buf data out : Bytes}

abbrev Bytes := List UInt8

def ascii (s : String) : Bytes := s.toList.map fun c => UInt8.ofNat c.toNat

def beNat (bs : Bytes) : Nat := bs.foldl (fun n b => n * 256 + b.toNat) 0

/-- The low `k` bytes of `n`, high byte first. -/
def beBytes : Nat → Nat → Bytes
  | 0, _ => []
  | k + 1, n => UInt8.ofNat (n / 256 ^ k) :: beBytes k n

@[simp] theorem beBytes_length (k n : Nat) : (beBytes k n).length = k := by
  induction k with
  | zero => rfl
  | succ k ih => simp [beBytes, ih]

theorem beNat_append (xs ys : Bytes) :
    beNat (xs ++ ys) = beNat xs * 256 ^ ys.length + beNat ys := by
  induction ys using List.reverseRecOn with
  | nil => simp [beNat]
  | append_singleton ys y ih =>
    have hstep : ∀ zs : Bytes, beNat (zs ++ [y]) = beNat zs * 256 + y.toNat := by
      intro zs; simp [beNat, List.foldl_append]
    rw [← List.append_assoc, hstep, ih, hstep, List.length_append, List.length_singleton]
    ring

theorem beNat_lt (bs : Bytes) : beNat bs < 256 ^ bs.length := by
  induction bs using List.reverseRecOn with
  | nil => simp [beNat]
  | append_singleton bs b ih =>
    have hb : b.toNat < 256 := b.toNat_lt
    rw [beNat_append, List.length_append, List.length_singleton, pow_succ]
    simp only [beNat, List.foldl_cons, List.foldl_nil] at ih ⊢
    omega

theorem beNat_beBytes (k n : Nat) : beNat (beBytes k n) = n % 256 ^ k := by
  induction k with
  | zero => simp [beBytes, beNat, Nat.mod_one]
  | succ k ih =>
    have hcons : beBytes (k + 1) n = [UInt8.ofNat (n / 256 ^ k)] ++ beBytes k n := rfl
    rw [hcons, beNat_append, ih, beBytes_length, Nat.mod_pow_succ]
    simp [beNat]
    ring

theorem beBytes_mod (k n : Nat) : beBytes k (n % 256 ^ k) = beBytes k n := by
  induction k generalizing n with
  | zero => rfl
  | succ k ih =>
    have hhigh : n % 256 ^ (k + 1) / 256 ^ k = n / 256 ^ k % 256 := by
      rw [pow_succ, Nat.mod_mul_right_div_self]
    have hlow : n % 256 ^ (k + 1) % 256 ^ k = n % 256 ^ k :=
      Nat.mod_mod_of_dvd _ (Dvd.intro _ (pow_succ 256 k).symm)
    have hmod : UInt8.ofNat (n / 256 ^ k % 256) = UInt8.ofNat (n / 256 ^ k) := by
      apply UInt8.toNat_inj.mp
      simp
    simp only [beBytes]
    rw [hhigh, hmod, ← ih (n % 256 ^ (k + 1)), hlow, ih]

theorem beNat_cons (b : UInt8) (bs : Bytes) :
    beNat (b :: bs) = b.toNat * 256 ^ bs.length + beNat bs := by
  have happ := beNat_append [b] bs
  simpa [beNat] using happ

theorem beBytes_beNat (bs : Bytes) : beBytes bs.length (beNat bs) = bs := by
  induction bs with
  | nil => rfl
  | cons b bs ih =>
    have hlt := beNat_lt bs
    have hpos : 0 < 256 ^ bs.length := Nat.pow_pos (by decide)
    simp only [List.length_cons, beBytes]
    rw [beNat_cons]
    congr 1
    · rw [Nat.add_comm, Nat.add_mul_div_right _ _ hpos, Nat.div_eq_of_lt hlt, Nat.zero_add]
      exact UInt8.ofNat_toNat
    · rw [← beBytes_mod, Nat.add_comm, Nat.add_mul_mod_self_right, Nat.mod_eq_of_lt hlt, ih]

theorem forall_byte {P : UInt8 → Prop} (h : ∀ n, n < 256 → P (UInt8.ofNat n)) (b : UInt8) : P b := by
  rw [← @UInt8.ofNat_toNat b]
  exact h _ b.toNat_lt

theorem xor_twice {m s : Bytes} (h : m.length ≤ s.length) : (m.zipWith (· ^^^ ·) s).zipWith (· ^^^ ·) s = m := by
  apply List.ext_getElem
  · simp [h]
  · intro i _ hi
    rw [List.getElem_zipWith, List.getElem_zipWith, UInt8.xor_assoc, UInt8.xor_self, UInt8.xor_zero]

theorem be32_eq (a b c d : UInt8) :
    (a.toUInt32 <<< 24 ||| b.toUInt32 <<< 16 ||| c.toUInt32 <<< 8 ||| d.toUInt32) = UInt32.ofNat (beNat [a, b, c, d]) := by
  have ha := a.toNat_lt
  have hb := b.toNat_lt
  have hc := c.toNat_lt
  have hd := d.toNat_lt
  apply UInt32.toNat_inj.mp
  simp only [UInt32.toNat_or, UInt32.toNat_shiftLeft, UInt8.toNat_toUInt32, UInt32.toNat_ofNat', beNat,
    List.foldl_cons, List.foldl_nil, UInt32.reduceToNat, Nat.reduceMod, Nat.or_assoc]
  have hb16 : b.toNat <<< 16 % 2 ^ 32 = b.toNat <<< 16 := Nat.mod_eq_of_lt (by rw [Nat.shiftLeft_eq]; omega)
  have hc8 : c.toNat <<< 8 % 2 ^ 32 = c.toNat <<< 8 := Nat.mod_eq_of_lt (by rw [Nat.shiftLeft_eq]; omega)
  have ha24 : a.toNat <<< 24 % 2 ^ 32 = a.toNat <<< 24 := Nat.mod_eq_of_lt (by rw [Nat.shiftLeft_eq]; omega)
  rw [ha24, hb16, hc8]
  rw [← Nat.shiftLeft_add_eq_or_of_lt (i := 8) hd, ← Nat.shiftLeft_add_eq_or_of_lt (i := 16),
    ← Nat.shiftLeft_add_eq_or_of_lt (i := 24)]
  · simp only [Nat.shiftLeft_eq]
    omega
  · simp only [Nat.shiftLeft_eq]
    omega
  · simp only [Nat.shiftLeft_eq]
    omega

theorem foldl_or_eq_zero {ι : Type} (l : List ι) (f : ι → UInt8) (acc : UInt8) :
    l.foldl (fun d i => d ||| f i) acc = 0 ↔ acc = 0 ∧ ∀ i ∈ l, f i = 0 := by
  induction l generalizing acc with
  | nil => simp
  | cons i l ih => rw [List.foldl_cons, ih, UInt8.or_eq_zero_iff, List.forall_mem_cons, and_assoc]

/-! ## Slices: a pointer and a length -/

structure Slice where
  buf : Bytes
  off : Nat
  len : Nat
  deriving Repr, DecidableEq

def Slice.bytes (s : Slice) : Bytes := (s.buf.drop s.off).take s.len

def byteAt (buf : Bytes) (i : Nat) : UInt8 := buf.getD i 0

theorem byteAt_drop (bs : Bytes) (k i : Nat) : byteAt (bs.drop k) i = byteAt bs (k + i) := by
  simp [byteAt]

theorem byteAt_take {bs : Bytes} {n i : Nat} (hi : i < n) : byteAt (bs.take n) i = byteAt bs i := by
  simp [byteAt, List.getElem?_take_of_lt hi]

theorem byteAt_append {b c : Bytes} {i : Nat} (h : i < b.length) : byteAt (b ++ c) i = byteAt b i :=
  List.getD_append b c 0 i h

theorem byteAt_append_right {b c : Bytes} {i : Nat} (h : b.length ≤ i) :
    byteAt (b ++ c) i = byteAt c (i - b.length) := List.getD_append_right b c 0 i h

theorem take_drop_append {b c : Bytes} {off n : Nat} (h : off + n ≤ b.length) :
    ((b ++ c).drop off).take n = (b.drop off).take n := by
  rw [List.drop_append_of_le_length (by omega), List.take_append_of_le_length (by rw [List.length_drop]; omega)]

/-! ## Writing into a buffer -/

/-- `memcpy` to an offset of a buffer that has room for it. -/
def put (buf : Bytes) (off : Nat) (data : Bytes) : Bytes :=
  buf.take off ++ data ++ buf.drop (off + data.length)

theorem take_put_zero (buf data : Bytes) {n : Nat} (hn : n ≤ data.length) :
    (put buf 0 data).take n = data.take n := by
  rw [put, List.take_zero, List.nil_append, List.take_append_of_le_length hn]

theorem take_put (buf data : Bytes) (hoff : off ≤ buf.length) :
    (put buf off data).take (off + data.length) = buf.take off ++ data := by
  have hlen : (buf.take off ++ data).length = off + data.length := by simp [hoff]
  rw [put, ← hlen, List.take_left]

theorem put_length (buf data : Bytes) (hoff : off ≤ buf.length) :
    off + data.length ≤ (put buf off data).length := by
  simp [put, hoff]

section Put

variable {buf data : Bytes} {off i k : Nat}

theorem put_length_eq (h : off + data.length ≤ buf.length) : (put buf off data).length = buf.length := by
  rw [put, List.length_append, List.length_append, List.length_take, List.length_drop]
  omega

theorem byteAt_put_inside (h : off ≤ buf.length) (hk : k < data.length) :
    byteAt (put buf off data) (off + k) = byteAt data k := by
  have hlen : (buf.take off).length = off := List.length_take_of_le h
  rw [put, List.append_assoc, byteAt_append_right (by omega), hlen, Nat.add_sub_cancel_left, byteAt_append hk]

theorem byteAt_put_before (h : off ≤ buf.length) (hi : i < off) : byteAt (put buf off data) i = byteAt buf i := by
  have hlen : (buf.take off).length = off := List.length_take_of_le h
  rw [put, List.append_assoc, byteAt_append (by omega), byteAt_take hi]

theorem byteAt_put_behind (h : off + data.length ≤ buf.length) (hi : off + data.length ≤ i) :
    byteAt (put buf off data) i = byteAt buf i := by
  have hlen : (buf.take off ++ data).length = off + data.length := by
    rw [List.length_append, List.length_take_of_le (by omega)]
  rw [put, byteAt_append_right (by omega), hlen, byteAt_drop, Nat.add_sub_cancel' hi]

end Put

theorem eq_of_byteAt {a b : Bytes} (hlen : a.length = b.length) (h : ∀ i, i < a.length → byteAt a i = byteAt b i) :
    a = b := by
  apply List.ext_getElem hlen
  intro i ha hb
  have hi := h i ha
  unfold byteAt at hi
  rwa [List.getD_eq_getElem _ _ ha, List.getD_eq_getElem _ _ hb] at hi

/-- `memcpy` to an offset of a buffer, or nothing when it would write outside the buffer. -/
def blit (buf : Bytes) (off : Nat) (data : Bytes) : Option Bytes :=
  if off + data.length ≤ buf.length then
    some (buf.take off ++ data ++ buf.drop (off + data.length))
  else none

theorem blit_eq_some (h : off + data.length ≤ buf.length) :
    blit buf off data = some (buf.take off ++ data ++ buf.drop (off + data.length)) := if_pos h

theorem blit_length (h : blit buf off data = some out) :
    out.length = buf.length := by
  unfold blit at h
  split at h
  · cases h
    simp
    omega
  · cases h

theorem blit_inside (h : blit buf off data = some out)
    (hlo : off ≤ i) (hhi : i < off + data.length) : out[i]? = data[i - off]? := by
  unfold blit at h
  split at h
  · cases h
    have hoff : (buf.take off).length = off := by simp; omega
    rw [List.append_assoc, List.getElem?_append_right (by omega), hoff,
      List.getElem?_append_left (by omega)]
  · cases h

theorem blit_outside (h : blit buf off data = some out)
    (hout : i < off ∨ off + data.length ≤ i) : out[i]? = buf[i]? := by
  unfold blit at h
  split at h
  · cases h
    have hoff : (buf.take off).length = off := by simp; omega
    rcases hout with hlt | hge
    · rw [List.append_assoc, List.getElem?_append_left (by omega), List.getElem?_take_of_lt hlt]
    · rw [List.getElem?_append_right (by simp; omega), List.length_append, hoff, List.getElem?_drop]
      congr 1
      omega
  · cases h

end Zelr
