import Zelr.Js.Utf16

/-!
# `atob` and `btoa`

`nat_atob` and `nat_btoa` of `jstyped.h`. A binary string has one character for each byte, the one of its value.
-/

namespace Zelr.Js

def AL : Bytes := ascii "ABCDEFGHIJKLMNOPQRSTUVWXYZabcdefghijklmnopqrstuvwxyz0123456789+/"

def PAD : UInt8 := 0x3D

def txB64 (c : UInt8) : Option Nat :=
  if 0x41 ≤ c ∧ c ≤ 0x5A then some (c.toNat - 0x41)
  else if 0x61 ≤ c ∧ c ≤ 0x7A then some (c.toNat - 0x61 + 26)
  else if 0x30 ≤ c ∧ c ≤ 0x39 then some (c.toNat - 0x30 + 52)
  else if c = 0x2B then some 62
  else if c = 0x2F then some 63
  else none

def binaryChar (b : UInt8) : Bytes := if b < 0x80 then [b] else [(0xC0 : UInt8) ||| (b >>> 6), (0x80 : UInt8) ||| (b &&& 0x3F)]

/-- The text `nat_atob` makes of its bytes. -/
def binaryText (bs : Bytes) : Bytes := bs.flatMap binaryChar

def charCodes : Nat → Bytes → List Nat
  | 0, _ => []
  | _ + 1, [] => []
  | k + 1, c :: s => (jsUchar (c :: s)).2 :: charCodes k ((c :: s).drop (jsUchar (c :: s)).1)

def sextet (v : Nat) : UInt8 := byteAt AL (v % 64)

def b64Groups : Bytes → Bytes
  | [] => []
  | [a] =>
    let v := a.toNat * 65536
    [sextet (v / 262144), sextet (v / 4096), PAD, PAD]
  | [a, b] =>
    let v := a.toNat * 65536 + b.toNat * 256
    [sextet (v / 262144), sextet (v / 4096), sextet (v / 64), PAD]
  | a :: b :: c :: bs =>
    let v := a.toNat * 65536 + b.toNat * 256 + c.toNat
    sextet (v / 262144) :: sextet (v / 4096) :: sextet (v / 64) :: sextet v :: b64Groups bs

/-- Nothing for a character past U+00FF. -/
def natBtoa (s : Bytes) : Option Bytes :=
  if ∃ cp ∈ charCodes s.length s, 0xFF < cp then none
  else some (b64Groups ((charCodes s.length s).map UInt8.ofNat))

def isBlank (c : UInt8) : Bool := c = 0x20 ∨ c = 9 ∨ c = 10 ∨ c = 13 ∨ c = 12

def unpadded (clean : Bytes) : Bytes :=
  if clean.length % 4 = 0 ∧ clean.getLast? = some PAD then
    if clean.dropLast.getLast? = some PAD then clean.dropLast.dropLast else clean.dropLast
  else clean

/-- `bits` shifted out of its 32 bits, how many of them are not written yet, and the bytes that are. -/
def atobStep (st : Nat × Nat × Bytes) (d : Nat) : Nat × Nat × Bytes :=
  let bits := (st.1 * 64 + d) % 2 ^ 32
  if 8 ≤ st.2.1 + 6 then (bits, st.2.1 - 2, st.2.2 ++ [UInt8.ofNat (bits / 2 ^ (st.2.1 - 2))])
  else (bits, st.2.1 + 6, st.2.2)

/-- Nothing for a text that is not base64. -/
def natAtob (s : Bytes) : Option Bytes :=
  let clean := unpadded (s.filter fun c => !isBlank c)
  if clean.length % 4 = 1 then none
  else (clean.mapM txB64).map fun ds => binaryText (ds.foldl atobStep (0, 0, [])).2.2

/-! ## Digits -/

/-- What the digits without their padding are the low six bits of. -/
def b64Digits : Bytes → List Nat
  | [] => []
  | [a] => [a.toNat * 65536 / 262144, a.toNat * 65536 / 4096]
  | [a, b] =>
    let v := a.toNat * 65536 + b.toNat * 256
    [v / 262144, v / 4096, v / 64]
  | a :: b :: c :: bs =>
    let v := a.toNat * 65536 + b.toNat * 256 + c.toNat
    v / 262144 :: v / 4096 :: v / 64 :: v :: b64Digits bs

theorem txB64_sextet (v : Nat) : txB64 (sextet v) = some (v % 64) := by
  have hall : ∀ d < 64, txB64 (byteAt AL d) = some d := by decide +kernel
  exact hall (v % 64) (Nat.mod_lt _ (by decide))

theorem sextet_kept (v : Nat) : isBlank (sextet v) = false ∧ sextet v ≠ PAD := by
  have hread := txB64_sextet v
  -- Neither the padding nor a blank is a digit.
  refine ⟨decide_eq_false fun hblank => ?_, fun hpad => ?_⟩
  · rcases hblank with h | h | h | h | h <;> rw [h] at hread <;> exact absurd hread (Option.some_ne_none _).symm
  · rw [hpad] at hread
    exact absurd hread (Option.some_ne_none _).symm

theorem b64Groups_eq : (bs : Bytes) →
    b64Groups bs = (b64Digits bs).map sextet ++ List.replicate ((3 - bs.length % 3) % 3) PAD
  | [] | [_] | [_, _] => rfl
  | a :: b :: c :: bs => by
    rw [b64Groups, b64Groups_eq bs, show (a :: b :: c :: bs).length % 3 = bs.length % 3 from Nat.add_mod_right _ 3]
    rfl

theorem b64Digits_length : (bs : Bytes) → (b64Digits bs).length = (bs.length * 4 + 2) / 3
  | [] => rfl
  | [_] | [_, _] => by simp [b64Digits]
  | a :: b :: c :: bs => by
    have hlen : (b64Digits (a :: b :: c :: bs)).length = (b64Digits bs).length + 4 := rfl
    rw [hlen, b64Digits_length bs]
    simp only [List.length_cons]
    omega

theorem mapM_digits (ds : List Nat) : (ds.map sextet).mapM txB64 = some (ds.map (· % 64)) := by
  induction ds with
  | nil => rfl
  | cons d ds ih => simp [txB64_sextet, ih]

theorem atobStep_groups (bs : Bytes) (bits : Nat) (w : Bytes) :
    (((b64Digits bs).map (· % 64)).foldl atobStep (bits, 0, w)).2.2 = w ++ bs := by
  fun_induction b64Digits bs generalizing bits w with
  | case1 => simp
  | case2 a =>
    have ha := a.toNat_lt
    simp [atobStep, ← UInt8.toNat_inj]
    omega
  | case3 a b v =>
    have ha := a.toNat_lt
    have hb := b.toNat_lt
    simp [atobStep, ← UInt8.toNat_inj]
    omega
  | case4 a b c bs v ih =>
    have ha := a.toNat_lt
    have hb := b.toNat_lt
    have hc := c.toNat_lt
    simp only [List.map_cons, List.foldl_cons]
    simp [atobStep, ih, ← UInt8.toNat_inj]
    omega

theorem unpadded_append {l : Bytes} {k : Nat} (hl : l.getLast? ≠ some PAD) (hk : k ≤ 2) (hlen : k ≠ 0 → (l.length + k) % 4 = 0) :
    unpadded (l ++ List.replicate k PAD) = l := by
  unfold unpadded
  obtain rfl | rfl | rfl : k = 0 ∨ k = 1 ∨ k = 2 := by omega
  · simp [hl]
  · simp [hl, hlen]
  · rw [show l ++ List.replicate 2 PAD = (l ++ [PAD]) ++ [PAD] by simp]
    simp [hlen]

theorem digits_last (ds : List Nat) : (ds.map sextet).getLast? ≠ some PAD := fun h => by
  obtain ⟨d, -, hd⟩ := List.mem_map.mp (List.mem_of_getLast? h)
  exact (sextet_kept d).2 hd

/-! ## Binary strings -/

theorem jsUchar_binary (b : UInt8) (s : Bytes) : jsUchar (binaryChar b ++ s) = ((binaryChar b).length, b.toNat) := by
  have hhigh : ∀ a : UInt8, ¬ a < 0x80 → 0xC2 ≤ ((0xC0 : UInt8) ||| (a >>> 6)).toNat ∧ ((0xC0 : UInt8) ||| (a >>> 6)).toNat ≤ 0xDF ∧
      IsTail ((0x80 : UInt8) ||| (a &&& 0x3F)) ∧
      ((0xC0 : UInt8) ||| (a >>> 6)).toNat % 32 * 64 + ((0x80 : UInt8) ||| (a &&& 0x3F)).toNat % 64 = a.toNat :=
    forall_byte (by decide +kernel)
  unfold binaryChar
  by_cases hb : b < 0x80
  · rw [if_pos hb]
    exact if_pos hb
  · obtain ⟨hlow, hle, htail, hvalue⟩ := hhigh b hb
    rw [if_neg hb]
    have htwo : uTwo (((0xC0 : UInt8) ||| (b >>> 6)) :: ((0x80 : UInt8) ||| (b &&& 0x3F)) :: s) := ⟨hlow, hle, by simp, htail⟩
    exact (jsUchar_two htwo).trans (congrArg _ hvalue)

theorem charCodes_binary {k : Nat} (bs : Bytes) (hk : (binaryText bs).length ≤ k) :
    charCodes k (binaryText bs) = bs.map UInt8.toNat := by
  induction bs generalizing k with
  | nil => cases k <;> rfl
  | cons b bs ih =>
    have hstep := jsUchar_binary b (binaryText bs)
    change charCodes k (binaryChar b ++ binaryText bs) = _
    replace hk : (binaryChar b ++ binaryText bs).length ≤ k := hk
    rw [List.length_append] at hk
    have hpos : 1 ≤ (binaryChar b).length := by
      unfold binaryChar
      split <;> simp
    obtain ⟨k, rfl⟩ := Nat.exists_eq_add_of_le' (hpos.trans (by omega : _ ≤ k))
    cases hs : binaryChar b ++ binaryText bs with
    | nil => simp [List.append_eq_nil_iff.mp hs] at hpos
    | cons c s =>
      rw [charCodes, ← hs, hstep, List.drop_left, ih (by omega)]
      rfl

/-- What is written with spaces anywhere, or without its padding, is read back too. -/
theorem natAtob_natBtoa (bs : Bytes) :
    ∃ t, natBtoa (binaryText bs) = some t ∧ t.filter (!isBlank ·) = t ∧
      ∀ t' : Bytes, t'.filter (!isBlank ·) = t ∨ t'.filter (!isBlank ·) = t.filter (· ≠ PAD) → natAtob t' = some (binaryText bs) := by
  have hlast := digits_last (b64Digits bs)
  have hlen := b64Digits_length bs
  have hcodes := charCodes_binary bs le_rfl
  refine ⟨b64Groups bs, ?_, ?_, fun t' ht' => ?_⟩
  · have hsmall : ¬ ∃ cp ∈ bs.map UInt8.toNat, 0xFF < cp := by
      rintro ⟨cp, hcp, hlt⟩
      obtain ⟨b, -, rfl⟩ := List.mem_map.mp hcp
      exact absurd b.toNat_lt (by omega)
    have hback : UInt8.ofNat ∘ UInt8.toNat = id := funext fun b => by simp
    rw [natBtoa, hcodes, if_neg hsmall, List.map_map, hback, List.map_id]
  · rw [b64Groups_eq, List.filter_eq_self]
    intro c hc
    rcases List.mem_append.mp hc with hc | hc
    · obtain ⟨d, -, rfl⟩ := List.mem_map.mp hc
      simp [(sextet_kept d).1]
    · rw [List.eq_of_mem_replicate hc]
      rfl
  · have hclean : unpadded (t'.filter (!isBlank ·)) = (b64Digits bs).map sextet := by
      rcases ht' with ht' | ht'
      · have hmod : bs.length % 3 = 0 ∨ bs.length % 3 = 1 ∨ bs.length % 3 = 2 := by omega
        rw [ht', b64Groups_eq, unpadded_append hlast (by omega)]
        rw [List.length_map]
        rcases hmod with h | h | h <;> rw [h] <;> omega
      · have hkept : ((b64Digits bs).map sextet).filter (· ≠ PAD) = (b64Digits bs).map sextet := by
          rw [List.filter_eq_self]
          intro c hc
          obtain ⟨d, -, rfl⟩ := List.mem_map.mp hc
          exact decide_eq_true (sextet_kept d).2
        rw [ht', b64Groups_eq, List.filter_append, hkept, List.filter_eq_nil_iff.mpr (by simp)]
        exact unpadded_append hlast (Nat.zero_le 2) (absurd rfl)
    rw [natAtob, hclean, mapM_digits, Option.map_some, atobStep_groups, List.length_map, if_neg (by omega)]
    rfl

end Zelr.Js
