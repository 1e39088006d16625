import Zelr.Base.Stride
import Zelr.Crypto.Aes
import Zelr.Crypto.Sha
import Zelr.Gf.Block

/-!
# AES-GCM

`kernel/gcm.c`. The loops over data step by sixteen with a counter of thirty-two bits, so each takes a bound
on its turns and may not come to an end within it.
-/

namespace Zelr.Crypto

variable {v b y : Bytes} {g : Gcm} {fuel : Nat}

def GCM_TAG : Nat := 16
def GCM_IV : Nat := 12

/-! ## The field -/

def shiftRight (v : Bytes) : Bytes :=
  v.zipWith (fun (b before : UInt8) => (b >>> 1) ||| (before <<< 7)) (0 :: v)

/-- One bit of `x`: what has been added up, and `y` times the next power. -/
def gfStep (x : Bytes) (s : Bytes × Bytes) (i : Nat) : Bytes × Bytes :=
  let bit := (byteAt x (i / 8) >>> UInt8.ofNat (7 - i % 8)) &&& 1
  let mask := 0 - bit
  let acc := s.1.zipWith (fun a b => a ^^^ (b &&& mask)) s.2
  let lsb := byteAt s.2 15 &&& 1
  let v := shiftRight s.2
  (acc, v.set 0 (byteAt v 0 ^^^ (0xe1 &&& (0 - lsb))))

def gfMul (x y : Bytes) : Bytes := ((List.range 128).foldl (gfStep x) (List.replicate 16 0, y)).1

/-! ## The hash and the counter -/

structure Gcm where
  aes : Aes
  h : Bytes

def gcmInit (key : Bytes) (bits : Nat) : Option Gcm := do
  let a ← aesSetKey key bits
  some ⟨a, aesEncryptBlock a (List.replicate 16 0)⟩

def xor (a b : Bytes) : Bytes := a.zipWith (· ^^^ ·) b

def ghashBlock (g : Gcm) (y block : Bytes) : Bytes :=
  gfMul (xor y (block ++ List.replicate (16 - block.length) 0)) g.h

def piece (data : Bytes) (i : UInt32) : Bytes :=
  let len := UInt32.ofNat data.length
  (data.drop i.toNat).take (if len - i < 16 then len - i else 16).toNat

/-- The loop of `ghash` over the header or the body. -/
def ghashOver (fuel : Nat) (g : Gcm) (y data : Bytes) : Option Bytes :=
  Stride.loop (fun y i => ghashBlock g y (piece data i)) (UInt32.ofNat data.length) fuel 0 y

def lens (aadLen ctLen : Nat) : Bytes :=
  lengthBytes (UInt64.ofNat aadLen * 8) ++ lengthBytes (UInt64.ofNat ctLen * 8)

def ghash (fuel : Nat) (g : Gcm) (aad ct : Bytes) : Option Bytes := do
  let y ← ghashOver fuel g (List.replicate 16 0) aad
  let y ← ghashOver fuel g y ct
  some (ghashBlock g y (lens aad.length ct.length))

def bump : List Nat → Bytes → Bytes
  | [], counter => counter
  | j :: js, counter =>
    let b := byteAt counter j + 1
    if b ≠ 0 then counter.set j b else bump js (counter.set j b)

/-- One turn of `ctr_xor`: the counter and the data. -/
def ctrStep (g : Gcm) (s : Bytes × Bytes) (i : UInt32) : Bytes × Bytes :=
  let counter := bump [15, 14, 13, 12] s.1
  let stream := aesEncryptBlock g.aes counter
  (counter, put s.2 i.toNat (xor (piece s.2 i) stream))

def ctrXor (fuel : Nat) (g : Gcm) (counter data : Bytes) : Option Bytes :=
  (Stride.loop (ctrStep g) (UInt32.ofNat data.length) fuel 0 (counter, data)).map Prod.snd

/-! ## Sealing and opening -/

def counter0 (iv : Bytes) : Bytes := iv.take GCM_IV ++ [0, 0, 0, 1]

def gcmSeal (fuel : Nat) (g : Gcm) (iv aad data : Bytes) : Option (Bytes × Bytes) := do
  let j0 := counter0 iv
  let mask := aesEncryptBlock g.aes j0
  let data ← ctrXor fuel g j0 data
  let h ← ghash fuel g aad data
  some (data, xor h mask)

def gcmOpen (fuel : Nat) (g : Gcm) (iv aad data tag : Bytes) : Option (Bool × Bytes) := do
  let j0 := counter0 iv
  let mask := aesEncryptBlock g.aes j0
  let h ← ghash fuel g aad data
  let want := xor h mask
  let diff := (List.range GCM_TAG).foldl (fun d i => d ||| (byteAt want i ^^^ byteAt tag i)) 0
  if diff ≠ 0 then some (false, List.replicate data.length 0)
  else do
    let data ← ctrXor fuel g j0 data
    some (true, data)

/-!
## What the tag is

The multiplication a bit at a time is the field's, and the hash of a header and a body is the sum GCM is
defined by.
-/

open Gf (value F)

/-! ## Multiplying by the root -/

theorem shiftRight_length (v : Bytes) : (shiftRight v).length = v.length := by simp [shiftRight]

theorem mask_eq (b : UInt8) : 0 - (b &&& 1) = if b.toNat.testBit 0 then 0xff else 0 := by
  revert b
  exact forall_byte (by decide +kernel)

theorem fold_eq : Gf.bytePoly 0xe1 = Polynomial.X ^ 7 + Polynomial.X ^ 2 + Polynomial.X + 1 := by
  have hbits : ∀ k ∈ Finset.range 8, (if (0xe1 : UInt8).toNat.testBit (7 - k) then Polynomial.X ^ k else 0 :
      Polynomial (ZMod 2)) = if k = 0 ∨ k = 1 ∨ k = 2 ∨ k = 7 then Polynomial.X ^ k else 0 := by
    intro k hk
    have hlt := Finset.mem_range.mp hk
    interval_cases k <;> rfl
  rw [Gf.bytePoly, Finset.sum_congr rfl hbits]
  simp only [Finset.sum_range_succ, Finset.sum_range_zero]
  norm_num
  ring

theorem value_times_root (hv : v.length = 16) :
    value ((shiftRight v).set 0 (byteAt (shiftRight v) 0 ^^^ (0xe1 &&& (0 - (byteAt v 15 &&& 1))))) =
      Gf.root * value v := by
  have hlen := shiftRight_length v
  have hne : shiftRight v ≠ [] := List.ne_nil_of_length_pos (by omega)
  rw [byteAt, Gf.value_set_zero _ _ hne, ← Gf.value_shifted hv, mask_eq]
  congr 1
  unfold byteAt
  split
  · rw [← fold_eq]
    rfl
  · rw [UInt8.and_zero, Gf.bytePoly_zero, map_zero]

/-! ## Multiplying -/

theorem bit_mask (x : Bytes) (i : Nat) :
    0 - ((byteAt x (i / 8) >>> UInt8.ofNat (7 - i % 8)) &&& 1) = if Gf.bitAt x i then 0xff else 0 := by
  have hshift : ∀ (b : UInt8) (k : Nat), k < 8 → ((b >>> UInt8.ofNat k).toNat.testBit 0) = b.toNat.testBit k := by
    intro b k hk
    rw [UInt8.toNat_shiftRight, Nat.testBit_shiftRight]
    congr 1
    rw [UInt8.toNat_ofNat']
    omega
  rw [mask_eq, hshift _ _ (by omega)]
  rfl

theorem value_masked {acc : Bytes} (h : acc.length = v.length) (p : Bool) :
    value (acc.zipWith (fun a b => a ^^^ (b &&& if p then 0xff else 0)) v) =
      value acc + if p then value v else 0 := by
  cases p with
  | true =>
    have hsame : acc.zipWith (fun a b => a ^^^ (b &&& if true then 0xff else 0)) v = acc.zipWith (· ^^^ ·) v := by
      congr 1
      funext a b
      rw [if_pos rfl, show (0xff : UInt8) = -1 from rfl, UInt8.and_neg_one]
    rw [hsame, Gf.value_xor h, if_pos rfl]
  | false =>
    have hsame : acc.zipWith (fun a b => a ^^^ (b &&& if false then 0xff else 0)) v = acc := by
      apply List.ext_getElem
      · simp [h]
      · intro i _ _
        simp
    rw [hsame, if_neg Bool.false_ne_true, add_zero]

variable {y data : Bytes}

theorem gfStep_loop (x : Bytes) (hy : y.length = 16) (k : Nat) :
    let s := (List.range k).foldl (gfStep x) (List.replicate 16 0, y)
    s.1.length = 16 ∧ s.2.length = 16 ∧ value s.2 = Gf.root ^ k * value y ∧
      value s.1 = (∑ j ∈ Finset.range k, if Gf.bitAt x j then Gf.root ^ j else 0) * value y := by
  induction k with
  | zero =>
    refine ⟨rfl, hy, ?_, ?_⟩
    · rw [pow_zero, one_mul]
      rfl
    · rw [Finset.range_zero, Finset.sum_empty, zero_mul]
      exact Gf.value_zeros 16
  | succ k ih =>
    obtain ⟨hacc, hv, hpower, hsum⟩ := ih
    rw [List.range_succ, List.foldl_append, List.foldl_cons, List.foldl_nil]
    generalize (List.range k).foldl (gfStep x) (List.replicate 16 0, y) = s at hacc hv hpower hsum
    refine ⟨?_, ?_, ?_, ?_⟩
    · simp [gfStep, hacc, hv]
    · simp [gfStep, shiftRight_length, hv]
    · rw [gfStep]
      dsimp only
      rw [value_times_root hv, hpower, pow_succ']
      ring
    · rw [gfStep]
      dsimp only
      rw [bit_mask, value_masked (hacc.trans hv.symm), hsum, hpower, Finset.sum_range_succ, add_mul]
      congr 1
      split
      · rfl
      · rw [zero_mul]

theorem gfMul_length (x : Bytes) (hy : y.length = 16) : (gfMul x y).length = 16 :=
  (gfStep_loop x hy 128).1

theorem value_gfMul {x : Bytes} (hx : x.length = 16) (hy : y.length = 16) :
    value (gfMul x y) = value x * value y := by
  rw [Gf.value_sum hx]
  exact (gfStep_loop x hy 128).2.2.2

/-! ## The hash -/

def chunks (m : Bytes) : List Bytes :=
  (List.range (Stride.turns m.length)).map fun k =>
    (m.drop (16 * k)).take 16 ++ List.replicate (16 - ((m.drop (16 * k)).take 16).length) 0

def tagBlocks (aad ct : Bytes) : List Bytes := chunks aad ++ chunks ct ++ [lens aad.length ct.length]

noncomputable section

def GHASH (H : F) (blocks : List Bytes) : F := blocks.foldl (fun y b => (y + value b) * H) 0

end

theorem length_of_mem_chunks {m : Bytes} (h : b ∈ chunks m) : b.length = 16 := by
  obtain ⟨k, _, rfl⟩ := List.mem_map.mp h
  rw [List.length_append, List.length_replicate, List.length_take]
  omega

theorem length_of_mem_tagBlocks {aad ct b : Bytes} (h : b ∈ tagBlocks aad ct) : b.length = 16 := by
  obtain h | h := List.mem_append.mp h
  · obtain h | h := List.mem_append.mp h
    · exact length_of_mem_chunks h
    · exact length_of_mem_chunks h
  · rw [List.mem_singleton.mp h]
    rfl

section Hash

variable {g : Gcm} (hg : g.h.length = 16)
include hg

theorem ghashBlock_length (y b : Bytes) : (ghashBlock g y b).length = 16 := gfMul_length _ hg

theorem value_ghashBlock (hy : y.length = 16) (hb : b.length = 16) :
    value (ghashBlock g y b) = (value y + value b) * value g.h := by
  have hpad : b ++ List.replicate (16 - b.length) 0 = b := by
    rw [hb, Nat.sub_self, List.replicate_zero, List.append_nil]
  have hxor : (xor y b).length = 16 := by
    rw [xor, List.length_zipWith, hy, hb]
    rfl
  rw [ghashBlock, hpad, value_gfMul hxor hg, xor, Gf.value_xor (hy.trans hb.symm)]

theorem value_ghash_blocks (hy : y.length = 16) {blocks : List Bytes} (hb : ∀ b ∈ blocks, b.length = 16) :
    (blocks.foldl (ghashBlock g) y).length = 16 ∧
    value (blocks.foldl (ghashBlock g) y) = blocks.foldl (fun y b => (y + value b) * value g.h) (value y) := by
  induction blocks generalizing y with
  | nil => exact ⟨hy, rfl⟩
  | cons b blocks ih =>
    have hrest := ih (ghashBlock_length hg y b) fun c hc => hb c (List.mem_cons_of_mem b hc)
    rw [value_ghashBlock hg hy (hb b List.mem_cons_self)] at hrest
    rw [List.foldl_cons, List.foldl_cons]
    exact hrest

end Hash

theorem piece_eq {k : Nat} (hdata : data.length < 2 ^ 32) (hk : k < Stride.turns data.length) :
    piece data (UInt32.ofNat (16 * k)) = (data.drop (16 * k)).take 16 := by
  unfold Stride.turns at hk
  have hi : (UInt32.ofNat (16 * k)).toNat = 16 * k := by
    rw [UInt32.toNat_ofNat', Nat.mod_eq_of_lt (by omega)]
  have hleft : (UInt32.ofNat data.length - UInt32.ofNat (16 * k)).toNat = data.length - 16 * k := by
    rw [UInt32.toNat_sub_of_le]
    · rw [hi, UInt32.toNat_ofNat', Nat.mod_eq_of_lt hdata]
    · rw [UInt32.le_iff_toNat_le, hi, UInt32.toNat_ofNat', Nat.mod_eq_of_lt hdata]
      omega
  rw [piece, hi]
  split
  next hshort =>
    rw [UInt32.lt_iff_toNat_lt, hleft] at hshort
    have hlt : data.length - 16 * k < 16 := hshort
    rw [hleft, List.take_of_length_le (by rw [List.length_drop]), List.take_of_length_le]
    rw [List.length_drop]
    omega
  · rfl

theorem ghashBlock_piece (g : Gcm) (y b : Bytes) :
    ghashBlock g y b = ghashBlock g y (b ++ List.replicate (16 - b.length) 0) := by
  have htwice : (b ++ List.replicate (16 - b.length) (0 : UInt8)).length ≥ 16 := by
    rw [List.length_append, List.length_replicate]
    omega
  rw [ghashBlock, ghashBlock, Nat.sub_eq_zero_of_le htwice, List.replicate_zero, List.append_nil]

theorem ghashOver_ends (y : Bytes) (hdata : data.length ≤ 2 ^ 32 - 16)
    (hfuel : Stride.turns data.length < fuel) :
    ghashOver fuel g y data = some ((chunks data).foldl (ghashBlock g) y) := by
  have hlen : (UInt32.ofNat data.length).toNat = data.length := by
    rw [UInt32.toNat_ofNat', Nat.mod_eq_of_lt (by omega)]
  rw [ghashOver, Stride.loop_ends (by rw [hlen]; exact hdata) (by rw [hlen]; exact hfuel), hlen, Stride.offsets, chunks,
    List.foldl_map, List.foldl_map]
  refine congrArg some (List.foldl_ext _ _ _ fun y k hk => ?_)
  rw [piece_eq (by omega) (List.mem_range.mp hk), ghashBlock_piece]

theorem ghashOver_never (y : Bytes) (hdata : 2 ^ 32 - 16 < data.length)
    (hlt : data.length < 2 ^ 32) : ghashOver fuel g y data = none := by
  refine Stride.loop_never ?_ rfl
  rw [UInt32.toNat_ofNat', Nat.mod_eq_of_lt hlt]
  exact hdata

theorem ghash_ends {g : Gcm} (hg : g.h.length = 16) {fuel : Nat} {aad ct : Bytes} (haad : aad.length ≤ 2 ^ 32 - 16)
    (hct : ct.length ≤ 2 ^ 32 - 16) (hfuel : Stride.turns aad.length < fuel ∧ Stride.turns ct.length < fuel) :
    ∃ y, ghash fuel g aad ct = some y ∧ y.length = 16 ∧ value y = GHASH (value g.h) (tagBlocks aad ct) := by
  obtain ⟨hlen, hval⟩ := value_ghash_blocks hg (y := List.replicate 16 0) rfl fun b hb =>
    @length_of_mem_tagBlocks aad ct b hb
  refine ⟨(tagBlocks aad ct).foldl (ghashBlock g) (List.replicate 16 0), ?_, hlen, ?_⟩
  · rw [ghash, ghashOver_ends _ haad hfuel.1]
    simp only [Option.bind_eq_bind, Option.bind_some]
    rw [ghashOver_ends _ hct hfuel.2, Option.bind_some, tagBlocks, List.foldl_append, List.foldl_append]
    rfl
  · rw [hval, Gf.value_zeros]
    rfl

end Zelr.Crypto
