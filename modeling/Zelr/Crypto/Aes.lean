import Zelr.Base.Bytes
import Zelr.Base.Runs
import Mathlib.Data.UInt
import Mathlib.Data.Fintype.Vector
import Mathlib.Data.Nat.Bitwise

/-!
# AES

The block cipher of `kernel/crypto.c`, and that its two directions undo each other.
-/

namespace Zelr.Crypto

def AES_BLOCK : Nat := 16

def SBOX : Bytes := [
  0x63, 0x7c, 0x77, 0x7b, 0xf2, 0x6b, 0x6f, 0xc5, 0x30, 0x01, 0x67, 0x2b, 0xfe, 0xd7, 0xab, 0x76,
  0xca, 0x82, 0xc9, 0x7d, 0xfa, 0x59, 0x47, 0xf0, 0xad, 0xd4, 0xa2, 0xaf, 0x9c, 0xa4, 0x72, 0xc0,
  0xb7, 0xfd, 0x93, 0x26, 0x36, 0x3f, 0xf7, 0xcc, 0x34, 0xa5, 0xe5, 0xf1, 0x71, 0xd8, 0x31, 0x15,
  0x04, 0xc7, 0x23, 0xc3, 0x18, 0x96, 0x05, 0x9a, 0x07, 0x12, 0x80, 0xe2, 0xeb, 0x27, 0xb2, 0x75,
  0x09, 0x83, 0x2c, 0x1a, 0x1b, 0x6e, 0x5a, 0xa0, 0x52, 0x3b, 0xd6, 0xb3, 0x29, 0xe3, 0x2f, 0x84,
  0x53, 0xd1, 0x00, 0xed, 0x20, 0xfc, 0xb1, 0x5b, 0x6a, 0xcb, 0xbe, 0x39, 0x4a, 0x4c, 0x58, 0xcf,
  0xd0, 0xef, 0xaa, 0xfb, 0x43, 0x4d, 0x33, 0x85, 0x45, 0xf9, 0x02, 0x7f, 0x50, 0x3c, 0x9f, 0xa8,
  0x51, 0xa3, 0x40, 0x8f, 0x92, 0x9d, 0x38, 0xf5, 0xbc, 0xb6, 0xda, 0x21, 0x10, 0xff, 0xf3, 0xd2,
  0xcd, 0x0c, 0x13, 0xec, 0x5f, 0x97, 0x44, 0x17, 0xc4, 0xa7, 0x7e, 0x3d, 0x64, 0x5d, 0x19, 0x73,
  0x60, 0x81, 0x4f, 0xdc, 0x22, 0x2a, 0x90, 0x88, 0x46, 0xee, 0xb8, 0x14, 0xde, 0x5e, 0x0b, 0xdb,
  0xe0, 0x32, 0x3a, 0x0a, 0x49, 0x06, 0x24, 0x5c, 0xc2, 0xd3, 0xac, 0x62, 0x91, 0x95, 0xe4, 0x79,
  0xe7, 0xc8, 0x37, 0x6d, 0x8d, 0xd5, 0x4e, 0xa9, 0x6c, 0x56, 0xf4, 0xea, 0x65, 0x7a, 0xae, 0x08,
  0xba, 0x78, 0x25, 0x2e, 0x1c, 0xa6, 0xb4, 0xc6, 0xe8, 0xdd, 0x74, 0x1f, 0x4b, 0xbd, 0x8b, 0x8a,
  0x70, 0x3e, 0xb5, 0x66, 0x48, 0x03, 0xf6, 0x0e, 0x61, 0x35, 0x57, 0xb9, 0x86, 0xc1, 0x1d, 0x9e,
  0xe1, 0xf8, 0x98, 0x11, 0x69, 0xd9, 0x8e, 0x94, 0x9b, 0x1e, 0x87, 0xe9, 0xce, 0x55, 0x28, 0xdf,
  0x8c, 0xa1, 0x89, 0x0d, 0xbf, 0xe6, 0x42, 0x68, 0x41, 0x99, 0x2d, 0x0f, 0xb0, 0x54, 0xbb, 0x16]

/-- The table `build_inverse` leaves. -/
def INV_SBOX : Bytes :=
  (List.range 256).foldl (fun t i => t.set (byteAt SBOX i).toNat (UInt8.ofNat i)) (List.replicate 256 0)

def xtime (v : UInt8) : UInt8 := (v <<< 1) ^^^ (if v &&& 0x80 ≠ 0 then 0x1B else 0)

/-- The loop of `mul`, which ends when `b` has no bits left. -/
def mulFrom : Nat → UInt8 → UInt8 → UInt8 → UInt8
  | 0, r, _, _ => r
  | n + 1, r, a, b =>
    if b = 0 then r else mulFrom n (if b &&& 1 ≠ 0 then r ^^^ a else r) (xtime a) (b >>> 1)

def mul (a b : UInt8) : UInt8 := mulFrom 8 0 a b

def sub (b : UInt8) : UInt8 := byteAt SBOX b.toNat

def unsub (b : UInt8) : UInt8 := byteAt INV_SBOX b.toNat

/-! ## The key schedule -/

def word (rk : Bytes) (i : Nat) : Bytes := (List.range 4).map fun j => byteAt rk (i * 4 + j)

def turned (nk i : Nat) (rcon : UInt8) (t : Bytes) : Bytes × UInt8 :=
  if i % nk = 0 then
    ([sub (byteAt t 1) ^^^ rcon, sub (byteAt t 2), sub (byteAt t 3), sub (byteAt t 0)], xtime rcon)
  else if nk > 6 ∧ i % nk = 4 then (t.map sub, rcon)
  else (t, rcon)

def scheduleStep (nk : Nat) (s : Bytes × UInt8) (i : Nat) : Bytes × UInt8 :=
  let (t, rcon) := turned nk i s.2 (word s.1 (i - 1))
  (s.1 ++ (List.range 4).map fun j => byteAt s.1 ((i - nk) * 4 + j) ^^^ byteAt t j, rcon)

def schedule (nk rounds : Nat) (key : Bytes) : Bytes :=
  ((List.range' nk (4 * (rounds + 1) - nk)).foldl (scheduleStep nk)
    ((List.range (nk * 4)).map (byteAt key), 1)).1

theorem schedule_length {nk rounds : Nat} (h : nk ≤ 4 * (rounds + 1)) (key : Bytes) :
    (schedule nk rounds key).length = 16 * (rounds + 1) := by
  have hsteps : ∀ (l : List Nat) (s : Bytes × UInt8),
      (l.foldl (scheduleStep nk) s).1.length = s.1.length + 4 * l.length := by
    intro l
    induction l with
    | nil => intro s; rfl
    | cons i l ih =>
      intro s
      rw [List.foldl_cons, ih, List.length_cons]
      simp [scheduleStep]
      omega
  rw [schedule, hsteps]
  simp
  omega

/-- A key that is set up: a block for each round and one more. -/
structure Aes where
  roundKey : Bytes
  rounds : Nat
  full : roundKey.length = 16 * (rounds + 1)

def aesSetKey (key : Bytes) (bits : Nat) : Option Aes :=
  if bits = 128 then some ⟨schedule 4 10 key, 10, schedule_length (by decide) key⟩
  else if bits = 256 then some ⟨schedule 8 14 key, 14, schedule_length (by decide) key⟩
  else none

/-! ## The rounds -/

def addRoundKey (s rk : Bytes) : Bytes := s.zipWith (· ^^^ ·) rk

/-- Round `r`'s block of the schedule. -/
def Aes.key (a : Aes) (r : Nat) : Bytes := (a.roundKey.drop (r * 16)).take 16

def rowsColumns : List (Nat × Nat) := [1, 2, 3].flatMap fun r => (List.range 4).map fun c => (r, c)

def shiftRows (t : Bytes) : Bytes :=
  rowsColumns.foldl (fun s (r, c) => s.set (c * 4 + r) (byteAt t ((c + r) % 4 * 4 + r))) t

def invShiftRows (t : Bytes) : Bytes :=
  rowsColumns.foldl (fun s (r, c) => s.set ((c + r) % 4 * 4 + r) (byteAt t (c * 4 + r))) t

def mixColumn (a0 a1 a2 a3 : UInt8) : Bytes :=
  [mul a0 2 ^^^ mul a1 3 ^^^ a2 ^^^ a3,
   a0 ^^^ mul a1 2 ^^^ mul a2 3 ^^^ a3,
   a0 ^^^ a1 ^^^ mul a2 2 ^^^ mul a3 3,
   mul a0 3 ^^^ a1 ^^^ a2 ^^^ mul a3 2]

def invMixColumn (a0 a1 a2 a3 : UInt8) : Bytes :=
  [mul a0 14 ^^^ mul a1 11 ^^^ mul a2 13 ^^^ mul a3 9,
   mul a0 9 ^^^ mul a1 14 ^^^ mul a2 11 ^^^ mul a3 13,
   mul a0 13 ^^^ mul a1 9 ^^^ mul a2 14 ^^^ mul a3 11,
   mul a0 11 ^^^ mul a1 13 ^^^ mul a2 9 ^^^ mul a3 14]

def columns (f : UInt8 → UInt8 → UInt8 → UInt8 → Bytes) (s : Bytes) : Bytes :=
  (List.range 4).flatMap fun c =>
    f (byteAt s (c * 4)) (byteAt s (c * 4 + 1)) (byteAt s (c * 4 + 2)) (byteAt s (c * 4 + 3))

def mixColumns : Bytes → Bytes := columns mixColumn
def invMixColumns : Bytes → Bytes := columns invMixColumn

def encryptRound (a : Aes) (s : Bytes) (r : Nat) : Bytes :=
  addRoundKey (mixColumns (shiftRows (s.map sub))) (a.key r)

def decryptRound (a : Aes) (s : Bytes) (r : Nat) : Bytes :=
  invMixColumns (addRoundKey ((invShiftRows s).map unsub) (a.key r))

def aesEncryptBlock (a : Aes) (block : Bytes) : Bytes :=
  let s := addRoundKey block (a.key 0)
  let s := (List.range' 1 (a.rounds - 1)).foldl (encryptRound a) s
  addRoundKey (shiftRows (s.map sub)) (a.key a.rounds)

def aesDecryptBlock (a : Aes) (block : Bytes) : Bytes :=
  let s := addRoundKey block (a.key a.rounds)
  let s := (List.range' 1 (a.rounds - 1)).reverse.foldl (decryptRound a) s
  addRoundKey ((invShiftRows s).map unsub) (a.key 0)

/-! ## Bytes -/

theorem inv_sbox_eq :
    INV_SBOX = [
    0x52, 0x09, 0x6a, 0xd5, 0x30, 0x36, 0xa5, 0x38, 0xbf, 0x40, 0xa3, 0x9e, 0x81, 0xf3, 0xd7, 0xfb,
    0x7c, 0xe3, 0x39, 0x82, 0x9b, 0x2f, 0xff, 0x87, 0x34, 0x8e, 0x43, 0x44, 0xc4, 0xde, 0xe9, 0xcb,
    0x54, 0x7b, 0x94, 0x32, 0xa6, 0xc2, 0x23, 0x3d, 0xee, 0x4c, 0x95, 0x0b, 0x42, 0xfa, 0xc3, 0x4e,
    0x08, 0x2e, 0xa1, 0x66, 0x28, 0xd9, 0x24, 0xb2, 0x76, 0x5b, 0xa2, 0x49, 0x6d, 0x8b, 0xd1, 0x25,
    0x72, 0xf8, 0xf6, 0x64, 0x86, 0x68, 0x98, 0x16, 0xd4, 0xa4, 0x5c, 0xcc, 0x5d, 0x65, 0xb6, 0x92,
    0x6c, 0x70, 0x48, 0x50, 0xfd, 0xed, 0xb9, 0xda, 0x5e, 0x15, 0x46, 0x57, 0xa7, 0x8d, 0x9d, 0x84,
    0x90, 0xd8, 0xab, 0x00, 0x8c, 0xbc, 0xd3, 0x0a, 0xf7, 0xe4, 0x58, 0x05, 0xb8, 0xb3, 0x45, 0x06,
    0xd0, 0x2c, 0x1e, 0x8f, 0xca, 0x3f, 0x0f, 0x02, 0xc1, 0xaf, 0xbd, 0x03, 0x01, 0x13, 0x8a, 0x6b,
    0x3a, 0x91, 0x11, 0x41, 0x4f, 0x67, 0xdc, 0xea, 0x97, 0xf2, 0xcf, 0xce, 0xf0, 0xb4, 0xe6, 0x73,
    0x96, 0xac, 0x74, 0x22, 0xe7, 0xad, 0x35, 0x85, 0xe2, 0xf9, 0x37, 0xe8, 0x1c, 0x75, 0xdf, 0x6e,
    0x47, 0xf1, 0x1a, 0x71, 0x1d, 0x29, 0xc5, 0x89, 0x6f, 0xb7, 0x62, 0x0e, 0xaa, 0x18, 0xbe, 0x1b,
    0xfc, 0x56, 0x3e, 0x4b, 0xc6, 0xd2, 0x79, 0x20, 0x9a, 0xdb, 0xc0, 0xfe, 0x78, 0xcd, 0x5a, 0xf4,
    0x1f, 0xdd, 0xa8, 0x33, 0x88, 0x07, 0xc7, 0x31, 0xb1, 0x12, 0x10, 0x59, 0x27, 0x80, 0xec, 0x5f,
    0x60, 0x51, 0x7f, 0xa9, 0x19, 0xb5, 0x4a, 0x0d, 0x2d, 0xe5, 0x7a, 0x9f, 0x93, 0xc9, 0x9c, 0xef,
    0xa0, 0xe0, 0x3b, 0x4d, 0xae, 0x2a, 0xf5, 0xb0, 0xc8, 0xeb, 0xbb, 0x3c, 0x83, 0x53, 0x99, 0x61,
    0x17, 0x2b, 0x04, 0x7e, 0xba, 0x77, 0xd6, 0x26, 0xe1, 0x69, 0x14, 0x63, 0x55, 0x21, 0x0c, 0x7d] := by
  decide +kernel

theorem unsub_sub (b : UInt8) : unsub (sub b) = b := by
  rw [unsub, inv_sbox_eq]
  revert b
  exact forall_byte (by decide +kernel)

theorem and_xor_right (a b c : UInt8) : (a ^^^ b) &&& c = (a &&& c) ^^^ (b &&& c) := by
  apply UInt8.toBitVec_inj.mp
  apply BitVec.eq_of_getLsbD_eq
  intro i _
  simp only [UInt8.toBitVec_and, UInt8.toBitVec_xor, BitVec.getLsbD_and, BitVec.getLsbD_xor]
  exact Bool.and_xor_distrib_right _ _ _

theorem top_bit (v : UInt8) : v &&& 0x80 = 0 ∨ v &&& 0x80 = 0x80 := by
  have htop : (v &&& 0x80).toNat = (v.toNat.testBit 7).toNat * 2 ^ 7 := Nat.and_two_pow v.toNat 7
  cases hbit : v.toNat.testBit 7
  · exact .inl (UInt8.toNat_inj.mp (by rw [htop, hbit]; rfl))
  · exact .inr (UInt8.toNat_inj.mp (by rw [htop, hbit]; rfl))

theorem xtime_xor (a b : UInt8) : xtime (a ^^^ b) = xtime a ^^^ xtime b := by
  have hfold : (if (a ^^^ b) &&& 0x80 ≠ 0 then (0x1B : UInt8) else 0) =
      (if a &&& 0x80 ≠ 0 then 0x1B else 0) ^^^ (if b &&& 0x80 ≠ 0 then 0x1B else 0) := by
    rw [and_xor_right]
    obtain ha | ha := top_bit a <;> obtain hb | hb := top_bit b <;> rw [ha, hb] <;> decide
  rw [xtime, xtime, xtime, hfold, UInt8.shiftLeft_xor]
  ac_rfl

theorem mulFrom_xor (n : Nat) (r r' a a' b : UInt8) :
    mulFrom n (r ^^^ r') (a ^^^ a') b = mulFrom n r a b ^^^ mulFrom n r' a' b := by
  induction n generalizing r r' a a' b with
  | zero => rfl
  | succ n ih =>
    unfold mulFrom
    split
    · rfl
    · split
      · rw [xtime_xor, ← ih]
        congr 1
        ac_rfl
      · rw [xtime_xor, ih]

theorem mul_xor (a a' b : UInt8) : mul (a ^^^ a') b = mul a b ^^^ mul a' b := mulFrom_xor 8 0 0 a a' b

/-! ## Columns -/

theorem xor_transpose (a0 a1 a2 a3 b0 b1 b2 b3 c0 c1 c2 c3 d0 d1 d2 d3 : UInt8) :
    (a0 ^^^ a1 ^^^ a2 ^^^ a3) ^^^ (b0 ^^^ b1 ^^^ b2 ^^^ b3) ^^^ (c0 ^^^ c1 ^^^ c2 ^^^ c3) ^^^
      (d0 ^^^ d1 ^^^ d2 ^^^ d3) =
    (a0 ^^^ b0 ^^^ c0 ^^^ d0) ^^^ (a1 ^^^ b1 ^^^ c1 ^^^ d1) ^^^ (a2 ^^^ b2 ^^^ c2 ^^^ d2) ^^^
      (a3 ^^^ b3 ^^^ c3 ^^^ d3) := by
  ac_rfl

theorem xor_rotate (a b c d : UInt8) : d ^^^ a ^^^ b ^^^ c = a ^^^ b ^^^ c ^^^ d := by
  ac_rfl

/-! The rows of the product of the two matrices. Each is the one before it turned by one. -/

theorem undo_row0 (b : UInt8) :
    mul (mul b 2) 14 ^^^ mul b 11 ^^^ mul b 13 ^^^ mul (mul b 3) 9 = b ∧
    mul (mul b 3) 14 ^^^ mul (mul b 2) 11 ^^^ mul b 13 ^^^ mul b 9 = 0 ∧
    mul b 14 ^^^ mul (mul b 3) 11 ^^^ mul (mul b 2) 13 ^^^ mul b 9 = 0 ∧
    mul b 14 ^^^ mul b 11 ^^^ mul (mul b 3) 13 ^^^ mul (mul b 2) 9 = 0 := by
  revert b
  exact forall_byte (by decide +kernel)

theorem undo_row1 (b : UInt8) :
    mul (mul b 2) 9 ^^^ mul b 14 ^^^ mul b 11 ^^^ mul (mul b 3) 13 = 0 ∧
    mul (mul b 3) 9 ^^^ mul (mul b 2) 14 ^^^ mul b 11 ^^^ mul b 13 = b ∧
    mul b 9 ^^^ mul (mul b 3) 14 ^^^ mul (mul b 2) 11 ^^^ mul b 13 = 0 ∧
    mul b 9 ^^^ mul b 14 ^^^ mul (mul b 3) 11 ^^^ mul (mul b 2) 13 = 0 := by
  obtain ⟨h0, h1, h2, h3⟩ := undo_row0 b
  exact ⟨(xor_rotate _ _ _ _).trans h3, (xor_rotate _ _ _ _).trans h0, (xor_rotate _ _ _ _).trans h1,
    (xor_rotate _ _ _ _).trans h2⟩

theorem undo_row2 (b : UInt8) :
    mul (mul b 2) 13 ^^^ mul b 9 ^^^ mul b 14 ^^^ mul (mul b 3) 11 = 0 ∧
    mul (mul b 3) 13 ^^^ mul (mul b 2) 9 ^^^ mul b 14 ^^^ mul b 11 = 0 ∧
    mul b 13 ^^^ mul (mul b 3) 9 ^^^ mul (mul b 2) 14 ^^^ mul b 11 = b ∧
    mul b 13 ^^^ mul b 9 ^^^ mul (mul b 3) 14 ^^^ mul (mul b 2) 11 = 0 := by
  obtain ⟨h0, h1, h2, h3⟩ := undo_row1 b
  exact ⟨(xor_rotate _ _ _ _).trans h3, (xor_rotate _ _ _ _).trans h0, (xor_rotate _ _ _ _).trans h1,
    (xor_rotate _ _ _ _).trans h2⟩

theorem undo_row3 (b : UInt8) :
    mul (mul b 2) 11 ^^^ mul b 13 ^^^ mul b 9 ^^^ mul (mul b 3) 14 = 0 ∧
    mul (mul b 3) 11 ^^^ mul (mul b 2) 13 ^^^ mul b 9 ^^^ mul b 14 = 0 ∧
    mul b 11 ^^^ mul (mul b 3) 13 ^^^ mul (mul b 2) 9 ^^^ mul b 14 = 0 ∧
    mul b 11 ^^^ mul b 13 ^^^ mul (mul b 3) 9 ^^^ mul (mul b 2) 14 = b := by
  obtain ⟨h0, h1, h2, h3⟩ := undo_row2 b
  exact ⟨(xor_rotate _ _ _ _).trans h3, (xor_rotate _ _ _ _).trans h0, (xor_rotate _ _ _ _).trans h1,
    (xor_rotate _ _ _ _).trans h2⟩

theorem invMixColumn_mixColumn (a0 a1 a2 a3 : UInt8) :
    ∃ b0 b1 b2 b3, mixColumn a0 a1 a2 a3 = [b0, b1, b2, b3] ∧ invMixColumn b0 b1 b2 b3 = [a0, a1, a2, a3] := by
  refine ⟨_, _, _, _, rfl, ?_⟩
  simp only [invMixColumn, mul_xor, xor_transpose, undo_row0, undo_row1, undo_row2, undo_row3, UInt8.xor_zero,
    UInt8.zero_xor]

/-! ## Blocks -/

variable {s b : Bytes} {r : Nat}

theorem sixteen (h : s.length = 16) :
    ∃ a b c d e f g h i j k l m n o p, s = [a, b, c, d, e, f, g, h, i, j, k, l, m, n, o, p] := by
  have heach : s = (List.range 16).map (byteAt s) := by
    apply List.ext_getElem
    · simp [h]
    · intro i hi _
      simp [byteAt, hi]
  exact ⟨_, _, _, _, _, _, _, _, _, _, _, _, _, _, _, _, heach⟩

theorem columns_eq (f : UInt8 → UInt8 → UInt8 → UInt8 → Bytes) (a b c d e g h i j k l m n o p q : UInt8) :
    columns f [a, b, c, d, e, g, h, i, j, k, l, m, n, o, p, q] =
      f a b c d ++ (f e g h i ++ (f j k l m ++ f n o p q)) := by
  rw [columns, show List.range 4 = [0, 1, 2, 3] from rfl]
  simp only [List.flatMap_cons, List.flatMap_nil, List.append_nil]
  rfl

theorem columns_columns {f g : UInt8 → UInt8 → UInt8 → UInt8 → Bytes}
    (h : ∀ a0 a1 a2 a3, ∃ b0 b1 b2 b3, f a0 a1 a2 a3 = [b0, b1, b2, b3] ∧ g b0 b1 b2 b3 = [a0, a1, a2, a3])
    (hs : s.length = 16) : columns g (columns f s) = s := by
  obtain ⟨a0, a1, a2, a3, a4, a5, a6, a7, a8, a9, a10, a11, a12, a13, a14, a15, rfl⟩ := sixteen hs
  obtain ⟨b0, b1, b2, b3, hf0, hg0⟩ := h a0 a1 a2 a3
  obtain ⟨b4, b5, b6, b7, hf1, hg1⟩ := h a4 a5 a6 a7
  obtain ⟨b8, b9, b10, b11, hf2, hg2⟩ := h a8 a9 a10 a11
  obtain ⟨b12, b13, b14, b15, hf3, hg3⟩ := h a12 a13 a14 a15
  rw [columns_eq, hf0, hf1, hf2, hf3]
  simp only [List.cons_append, List.nil_append]
  rw [columns_eq, hg0, hg1, hg2, hg3]
  rfl

theorem invMixColumns_mixColumns (hs : s.length = 16) : invMixColumns (mixColumns s) = s :=
  columns_columns invMixColumn_mixColumn hs

theorem rowsColumns_eq : rowsColumns =
    [(1, 0), (1, 1), (1, 2), (1, 3), (2, 0), (2, 1), (2, 2), (2, 3), (3, 0), (3, 1), (3, 2), (3, 3)] := rfl

theorem invShiftRows_shiftRows (hs : s.length = 16) : invShiftRows (shiftRows s) = s := by
  obtain ⟨a0, a1, a2, a3, a4, a5, a6, a7, a8, a9, a10, a11, a12, a13, a14, a15, rfl⟩ := sixteen hs
  simp [shiftRows, invShiftRows, rowsColumns_eq, byteAt]

theorem unsub_map (s : Bytes) : (s.map sub).map unsub = s := by
  induction s with
  | nil => rfl
  | cons b s ih => rw [List.map_cons, List.map_cons, unsub_sub, ih]

theorem addRoundKey_twice {rk : Bytes} (h : s.length = rk.length) :
    addRoundKey (addRoundKey s rk) rk = s :=
  xor_twice h.le

/-! ## The cipher -/

theorem Aes.key_length (a : Aes) (hr : r ≤ a.rounds) : (a.key r).length = 16 := by
  rw [Aes.key, List.length_take, List.length_drop, a.full]
  omega

theorem addRoundKey_length (a : Aes) (hs : s.length = 16) (hr : r ≤ a.rounds) :
    (addRoundKey s (a.key r)).length = 16 := by
  rw [addRoundKey, List.length_zipWith, hs, a.key_length hr]
  rfl

theorem shiftRows_length (s : Bytes) : (shiftRows s).length = s.length := by
  simp [shiftRows, rowsColumns_eq]

theorem invShiftRows_length (s : Bytes) : (invShiftRows s).length = s.length := by
  simp [invShiftRows, rowsColumns_eq]

theorem mixColumns_length (s : Bytes) : (mixColumns s).length = 16 := rfl

theorem encryptRound_length (a : Aes) (hr : r ≤ a.rounds) :
    (encryptRound a s r).length = 16 := addRoundKey_length a (mixColumns_length _) hr

theorem substituted_length (hs : s.length = 16) : (shiftRows (s.map sub)).length = 16 := by
  rw [shiftRows_length, List.length_map, hs]

theorem unsubstituted (hs : s.length = 16) : (invShiftRows (shiftRows (s.map sub))).map unsub = s := by
  rw [invShiftRows_shiftRows (by rw [List.length_map, hs]), unsub_map]

theorem le_of_round {a : Aes} (hr : r ∈ List.range' 1 (a.rounds - 1)) : r ≤ a.rounds := by
  rw [List.mem_range'_1] at hr
  omega

theorem rounds_length (a : Aes) (hs : s.length = 16) :
    ((List.range' 1 (a.rounds - 1)).foldl (encryptRound a) s).length = 16 := by
  refine @Runs.foldl_kept _ _ (encryptRound a) (fun s : Bytes => s.length = 16) _ ?_ _ hs
  intro s _ r hr
  exact encryptRound_length a (le_of_round hr)

theorem aesEncryptBlock_length (a : Aes) (hb : b.length = 16) :
    (aesEncryptBlock a b).length = 16 :=
  addRoundKey_length a
    (substituted_length (rounds_length a (addRoundKey_length a hb (Nat.zero_le _)))) le_rfl

theorem aesDecryptBlock_length (a : Aes) (hb : b.length = 16) :
    (aesDecryptBlock a b).length = 16 := by
  have hrounds := @Runs.foldl_kept _ _ (decryptRound a) (fun s : Bytes => s.length = 16)
    (List.range' 1 (a.rounds - 1)).reverse (fun _ _ _ _ => rfl) _ (addRoundKey_length a hb le_rfl)
  refine addRoundKey_length a ?_ (Nat.zero_le _)
  rw [List.length_map, invShiftRows_length]
  exact hrounds

theorem decryptRound_encryptRound (a : Aes) (hs : s.length = 16) (hr : r ≤ a.rounds) :
    decryptRound a (shiftRows ((encryptRound a s r).map sub)) r = shiftRows (s.map sub) := by
  have hmixed := mixColumns_length (shiftRows (s.map sub))
  rw [decryptRound, unsubstituted (encryptRound_length a hr), encryptRound,
    addRoundKey_twice (hmixed.trans (a.key_length hr).symm), invMixColumns_mixColumns (substituted_length hs)]

theorem aes_decrypt_encrypt (a : Aes) (hb : b.length = 16) :
    aesDecryptBlock a (aesEncryptBlock a b) = b := by
  have hfirst := addRoundKey_length a hb (Nat.zero_le _)
  have hrounds := rounds_length a hfirst
  have hback := @Runs.foldl_undone _ _ (encryptRound a) (decryptRound a) (fun s => shiftRows (s.map sub))
    (fun s : Bytes => s.length = 16) (List.range' 1 (a.rounds - 1))
    (fun s _ r hr => encryptRound_length a (le_of_round hr))
    (fun s hs r hr => decryptRound_encryptRound a hs (le_of_round hr)) _ hfirst
  rw [aesDecryptBlock, aesEncryptBlock]
  rw [addRoundKey_twice ((substituted_length hrounds).trans (a.key_length le_rfl).symm), hback,
    unsubstituted hfirst, addRoundKey_twice (hb.trans (a.key_length (Nat.zero_le _)).symm)]

theorem undoes_of_undone {f g : Bytes → Bytes} (hf : ∀ b, b.length = 16 → (f b).length = 16)
    (h : ∀ b, b.length = 16 → g (f b) = b) (hb : b.length = 16) : f (g b) = b := by
  have hfin : Finite (List.Vector UInt8 16) := by
    have hbyte : Finite UInt8 := Finite.of_injective UInt8.toFin fun a b hab => UInt8.toFin_inj.mp hab
    infer_instance
  let F : List.Vector UInt8 16 → List.Vector UInt8 16 := fun v => ⟨f v.1, hf v.1 v.2⟩
  have hinj : Function.Injective F := by
    intro v w hvw
    have hfv : f v.1 = f w.1 := congrArg Subtype.val hvw
    have hv := h v.1 v.2
    rw [hfv, h w.1 w.2] at hv
    exact Subtype.ext hv.symm
  obtain ⟨v, hv⟩ := Finite.surjective_of_injective hinj ⟨b, hb⟩
  have hvb : f v.1 = b := congrArg Subtype.val hv
  rw [← hvb, h v.1 v.2]

theorem aes_encrypt_decrypt (a : Aes) (hb : b.length = 16) :
    aesEncryptBlock a (aesDecryptBlock a b) = b :=
  undoes_of_undone (fun _ h => aesEncryptBlock_length a h) (fun _ h => aes_decrypt_encrypt a h) hb

end Zelr.Crypto
