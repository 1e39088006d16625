import Zelr.Crypto.Aes
import Zelr.Crypto.Sha

/-!
# Wrapping a key in a key

`aes_wrap_key` and `aes_unwrap_key` of `kernel/crypto.c`: six passes over a key's blocks with a check
value, one way and the other.
-/

namespace Zelr.Crypto

variable {n : Nat} {s : Bytes × Bytes} {w : Bytes}

def mixed (acc : Bytes) (t : UInt32) : Bytes := acc.take 4 ++ (acc.drop 4).zipWith (· ^^^ ·) (wordBytes t)

/-- Block `i` of the key, the first of them block 1. -/
def keyPart (r : Bytes) (i : Nat) : Bytes := (r.drop ((i - 1) * 8)).take 8

def stepNumber (n : Nat) (k : Nat × Nat) : UInt32 := UInt32.ofNat n * UInt32.ofNat k.1 + UInt32.ofNat k.2

def wrapStep (a : Aes) (n : Nat) (s : Bytes × Bytes) (k : Nat × Nat) : Bytes × Bytes :=
  let block := aesEncryptBlock a (s.1 ++ keyPart s.2 k.2)
  (mixed (block.take 8) (stepNumber n k), put s.2 ((k.2 - 1) * 8) (block.drop 8))

def unwrapStep (a : Aes) (n : Nat) (s : Bytes × Bytes) (k : Nat × Nat) : Bytes × Bytes :=
  let block := aesDecryptBlock a (mixed s.1 (stepNumber n k) ++ keyPart s.2 k.2)
  (block.take 8, put s.2 ((k.2 - 1) * 8) (block.drop 8))

def wrapSteps (n : Nat) : List (Nat × Nat) :=
  (List.range 6).flatMap fun round => (List.range' 1 n).map fun i => (round, i)

def unwrapSteps (n : Nat) : List (Nat × Nat) :=
  (List.range 6).reverse.flatMap fun round => (List.range' 1 n).reverse.map fun i => (round, i)

def aesWrapKey (kek : Bytes) (kekBits : Nat) (input : Bytes) : Option Bytes :=
  if input.length < 16 ∨ input.length % 8 ≠ 0 then none
  else do
    let a ← aesSetKey kek kekBits
    let n := input.length / 8
    let s := (wrapSteps n).foldl (wrapStep a n) (List.replicate 8 0xA6, input)
    some (s.1 ++ s.2)

def aesUnwrapKey (kek : Bytes) (kekBits : Nat) (input : Bytes) : Option Bytes :=
  if input.length < 16 ∨ input.length % 8 ≠ 0 then none
  else do
    let a ← aesSetKey kek kekBits
    let n := input.length / 8 - 1
    let s := (unwrapSteps n).foldl (unwrapStep a n) (input.take 8, input.drop 8)
    -- Nothing but the constant may be left of the check value.
    if s.1.any (· ≠ 0xA6) then none else some s.2

/-! ## One step -/

structure Shaped (n : Nat) (s : Bytes × Bytes) : Prop where
  acc : s.1.length = 8
  parts : s.2.length = 8 * n

variable {acc kek p : Bytes} {bits : Nat}

theorem mixed_length (h : acc.length = 8) (t : UInt32) : (mixed acc t).length = 8 := by
  simp [mixed, wordBytes, h]

theorem mixed_mixed (h : acc.length = 8) (t : UInt32) : mixed (mixed acc t) t = acc := by
  have hhead : (acc.take 4).length = 4 := by simp [h]
  have htail : (acc.drop 4).length = (wordBytes t).length := by simp [h, wordBytes]
  have hback := addRoundKey_twice htail
  unfold addRoundKey at hback
  rw [mixed, mixed, List.take_append_of_le_length hhead.ge, List.drop_append_of_le_length hhead.ge,
    List.drop_of_length_le hhead.le, List.nil_append, hback, List.take_take, Nat.min_self, List.take_append_drop]

section Step

variable {n : Nat} {s : Bytes × Bytes} {k : Nat × Nat} (hs : Shaped n s) (hk : k ∈ wrapSteps n)
include hs hk

theorem part_inside : (k.2 - 1) * 8 + 8 ≤ s.2.length := by
  obtain ⟨round, _, hk⟩ := List.mem_flatMap.mp hk
  obtain ⟨i, hi, rfl⟩ := List.mem_map.mp hk
  rw [List.mem_range'_1] at hi
  rw [hs.parts]
  dsimp only
  omega

theorem keyPart_length : (keyPart s.2 k.2).length = 8 := by
  have hin := part_inside hs hk
  rw [keyPart, List.length_take, List.length_drop]
  omega

variable {x : Bytes}

theorem shaped_put (hacc : acc.length = 8) (hx : x.length = 8) :
    Shaped n (acc, put s.2 ((k.2 - 1) * 8) x) := by
  have hin := part_inside hs hk
  refine ⟨hacc, ?_⟩
  have hparts := hs.parts
  simp only [put, List.length_append, List.length_take, List.length_drop]
  omega

theorem keyPart_put (hx : x.length = 8) : keyPart (put s.2 ((k.2 - 1) * 8) x) k.2 = x := by
  have hin := part_inside hs hk
  have hhead : (s.2.take ((k.2 - 1) * 8)).length = (k.2 - 1) * 8 := by
    rw [List.length_take]
    omega
  rw [keyPart, put, List.append_assoc, List.drop_left' hhead, List.take_left' hx]

theorem put_put {y : Bytes} (hx : x.length = 8) (hy : y.length = 8) :
    put (put s.2 ((k.2 - 1) * 8) x) ((k.2 - 1) * 8) y = put s.2 ((k.2 - 1) * 8) y := by
  have hin := part_inside hs hk
  have hhead : (s.2.take ((k.2 - 1) * 8)).length = (k.2 - 1) * 8 := by
    rw [List.length_take]
    omega
  have hfront : (s.2.take ((k.2 - 1) * 8) ++ x).length = (k.2 - 1) * 8 + 8 := by
    rw [List.length_append, hhead, hx]
  unfold put
  rw [hx, hy, List.drop_left' hfront, List.append_assoc _ x, List.take_left' hhead]

theorem put_keyPart : put s.2 ((k.2 - 1) * 8) (keyPart s.2 k.2) = s.2 := by
  rw [put, keyPart_length hs hk, keyPart, List.append_assoc, ← List.drop_drop, List.take_append_drop,
    List.take_append_drop]

theorem wrapStep_shaped (a : Aes) : Shaped n (wrapStep a n s k) := by
  have hblock := aesEncryptBlock_length a (b := s.1 ++ keyPart s.2 k.2) (by
    rw [List.length_append, hs.acc, keyPart_length hs hk])
  refine shaped_put hs hk (mixed_length ?_ _) ?_
  · rw [List.length_take, hblock]
    rfl
  · rw [List.length_drop, hblock]

theorem unwrapStep_shaped (a : Aes) : Shaped n (unwrapStep a n s k) := by
  have hblock := aesDecryptBlock_length a (b := mixed s.1 (stepNumber n k) ++ keyPart s.2 k.2) (by
    rw [List.length_append, mixed_length hs.acc, keyPart_length hs hk])
  refine shaped_put hs hk ?_ ?_
  · rw [List.length_take, hblock]
    rfl
  · rw [List.length_drop, hblock]

theorem unwrapStep_wrapStep (a : Aes) : unwrapStep a n (wrapStep a n s k) k = s := by
  have hpart := keyPart_length hs hk
  have hin : (s.1 ++ keyPart s.2 k.2).length = 16 := by rw [List.length_append, hs.acc, hpart]
  have hblock := aesEncryptBlock_length a hin
  have htake : ((aesEncryptBlock a (s.1 ++ keyPart s.2 k.2)).take 8).length = 8 := by
    rw [List.length_take, hblock]
    rfl
  have hdrop : ((aesEncryptBlock a (s.1 ++ keyPart s.2 k.2)).drop 8).length = 8 := by
    rw [List.length_drop, hblock]
  rw [unwrapStep, wrapStep]
  dsimp only
  rw [mixed_mixed htake, keyPart_put hs hk hdrop, List.take_append_drop, aes_decrypt_encrypt a hin,
    List.take_left' hs.acc, List.drop_left' hs.acc, put_put hs hk hdrop hpart, put_keyPart hs hk]

theorem wrapStep_unwrapStep (a : Aes) : wrapStep a n (unwrapStep a n s k) k = s := by
  have hpart := keyPart_length hs hk
  have hmixed := mixed_length hs.acc (stepNumber n k)
  have hin : (mixed s.1 (stepNumber n k) ++ keyPart s.2 k.2).length = 16 := by
    rw [List.length_append, hmixed, hpart]
  have hblock := aesDecryptBlock_length a hin
  have hdrop : ((aesDecryptBlock a (mixed s.1 (stepNumber n k) ++ keyPart s.2 k.2)).drop 8).length = 8 := by
    rw [List.length_drop, hblock]
  rw [wrapStep, unwrapStep]
  dsimp only
  rw [keyPart_put hs hk hdrop, List.take_append_drop, aes_encrypt_decrypt a hin,
    List.take_left' hmixed, List.drop_left' hmixed, mixed_mixed hs.acc, put_put hs hk hdrop hpart,
    put_keyPart hs hk]

end Step

/-! ## All of them -/

theorem unwrapSteps_eq (n : Nat) : unwrapSteps n = (wrapSteps n).reverse := by
  rw [unwrapSteps, wrapSteps, List.reverse_flatMap]
  congr 1
  funext round
  exact List.map_reverse

theorem unwraps (a : Aes) (hs : Shaped n s) :
    (unwrapSteps n).foldl (unwrapStep a n) ((wrapSteps n).foldl (wrapStep a n) s) = s := by
  rw [unwrapSteps_eq]
  exact @Runs.foldl_undone _ _ (wrapStep a n) (unwrapStep a n) id (Shaped n) (wrapSteps n)
    (fun s hs k hk => wrapStep_shaped hs hk a) (fun s hs k hk => unwrapStep_wrapStep hs hk a) s hs

theorem wraps (a : Aes) (hs : Shaped n s) :
    (wrapSteps n).foldl (wrapStep a n) ((unwrapSteps n).foldl (unwrapStep a n) s) = s := by
  have hback := @Runs.foldl_undone _ _ (unwrapStep a n) (wrapStep a n) id (Shaped n) (unwrapSteps n)
    (fun s hs k hk => unwrapStep_shaped hs (by rwa [unwrapSteps_eq, List.mem_reverse] at hk) a)
    (fun s hs k hk => wrapStep_unwrapStep hs (by rwa [unwrapSteps_eq, List.mem_reverse] at hk) a) s hs
  rw [unwrapSteps_eq, List.reverse_reverse] at hback
  rw [unwrapSteps_eq]
  exact hback

theorem wrapped_shaped (a : Aes) (hs : Shaped n s) :
    Shaped n ((wrapSteps n).foldl (wrapStep a n) s) :=
  @Runs.foldl_kept _ _ (wrapStep a n) (Shaped n) _ (fun _ hs _ hk => wrapStep_shaped hs hk a) s hs

theorem unwrapped_shaped (a : Aes) (hs : Shaped n s) :
    Shaped n ((unwrapSteps n).foldl (unwrapStep a n) s) :=
  @Runs.foldl_kept _ _ (unwrapStep a n) (Shaped n) _
    (fun _ hs _ hk => unwrapStep_shaped hs (by rwa [unwrapSteps_eq, List.mem_reverse] at hk) a) s hs

theorem intact_iff (h : acc.length = 8) :
    acc.any (· ≠ 0xA6) = false ↔ acc = List.replicate 8 0xA6 := by
  rw [List.eq_replicate_iff, List.any_eq_false]
  simp [h]

theorem aes_unwrap_wrap (h : aesWrapKey kek bits p = some w) :
    aesUnwrapKey kek bits w = some p := by
  unfold aesWrapKey at h
  split at h
  · cases h
  next hlen =>
    rw [not_or, Nat.not_lt, not_not] at hlen
    obtain ⟨a, ha, hw⟩ := Option.bind_eq_some_iff.mp h
    have hstart : Shaped (p.length / 8) (List.replicate 8 0xA6, p) := ⟨rfl, by dsimp only; omega⟩
    have hend := wrapped_shaped a hstart
    have hback := unwraps a hstart
    dsimp only at hw
    obtain rfl := Option.some.inj hw
    generalize (wrapSteps (p.length / 8)).foldl (wrapStep a (p.length / 8)) (List.replicate 8 0xA6, p) = s at hend hback
    have hsize : (s.1 ++ s.2).length = p.length + 8 := by
      rw [List.length_append, hend.acc, hend.parts]
      omega
    have hn : (s.1 ++ s.2).length / 8 - 1 = p.length / 8 := by omega
    rw [aesUnwrapKey, if_neg (by omega), ha]
    simp only [Option.bind_eq_bind, Option.bind_some]
    rw [hn, List.take_left' hend.acc, List.drop_left' hend.acc, hback,
      (intact_iff hstart.acc).mpr rfl, if_neg Bool.false_ne_true]

theorem aes_wrap_unwrap (hw : 24 ≤ w.length)
    (h : aesUnwrapKey kek bits w = some p) : aesWrapKey kek bits p = some w := by
  unfold aesUnwrapKey at h
  split at h
  · cases h
  next hlen =>
    rw [not_or, Nat.not_lt, not_not] at hlen
    obtain ⟨a, ha, hp⟩ := Option.bind_eq_some_iff.mp h
    have hstart : Shaped (w.length / 8 - 1) (w.take 8, w.drop 8) := by
      refine ⟨?_, ?_⟩
      · rw [List.length_take]
        omega
      · rw [List.length_drop]
        omega
    have hend := unwrapped_shaped a hstart
    have hback := wraps a hstart
    dsimp only at hp
    generalize (unwrapSteps (w.length / 8 - 1)).foldl (unwrapStep a (w.length / 8 - 1)) (w.take 8, w.drop 8) = s
      at hend hback hp
    split at hp
    · cases hp
    next hintact =>
      obtain rfl := Option.some.inj hp
      have hacc := (intact_iff hend.acc).mp (Bool.eq_false_iff.mpr hintact)
      have hparts := hend.parts
      have hn : s.2.length / 8 = w.length / 8 - 1 := by omega
      rw [aesWrapKey, if_neg (by omega), ha]
      simp only [Option.bind_eq_bind, Option.bind_some]
      rw [hn, ← hacc, hback, List.take_append_drop]

theorem aes_wrap_some (hbits : bits = 128 ∨ bits = 256) (hp : 16 ≤ p.length)
    (h8 : p.length % 8 = 0) : ∃ w, aesWrapKey kek bits p = some w := by
  rw [aesWrapKey, if_neg (by omega)]
  obtain rfl | rfl := hbits
  · exact ⟨_, rfl⟩
  · exact ⟨_, rfl⟩

/-- Both directions of the cipher undo each other, wrapping is undone by unwrapping, and nothing unwraps
that is not a wrap. -/
theorem ciphers_undone {key : Bytes} {bits : Nat} (hbits : bits = 128 ∨ bits = 256) :
    (∃ a, aesSetKey key bits = some a ∧ ∀ b : Bytes, b.length = AES_BLOCK →
      aesDecryptBlock a (aesEncryptBlock a b) = b ∧ aesEncryptBlock a (aesDecryptBlock a b) = b) ∧
    (∀ p : Bytes, 16 ≤ p.length → p.length % 8 = 0 →
      ∃ w, aesWrapKey key bits p = some w ∧ aesUnwrapKey key bits w = some p) ∧
    ∀ w : Bytes, 24 ≤ w.length →
      ((aesUnwrapKey key bits w).isSome ↔ ∃ p, aesWrapKey key bits p = some w) := by
  refine ⟨?_, ?_, ?_⟩
  · obtain rfl | rfl := hbits
    · exact ⟨_, rfl, fun b hb => ⟨aes_decrypt_encrypt _ hb, aes_encrypt_decrypt _ hb⟩⟩
    · exact ⟨_, rfl, fun b hb => ⟨aes_decrypt_encrypt _ hb, aes_encrypt_decrypt _ hb⟩⟩
  · intro p hp h8
    obtain ⟨w, hw⟩ := @aes_wrap_some key p bits hbits hp h8
    exact ⟨w, hw, aes_unwrap_wrap hw⟩
  · intro w hw
    rw [Option.isSome_iff_exists]
    exact exists_congr fun p => ⟨aes_wrap_unwrap hw, aes_unwrap_wrap⟩

def countingKey : Bytes := (List.range 16).map UInt8.ofNat

def countingBlock : Bytes := (List.range 16).map fun i => UInt8.ofNat (i * 0x11)

theorem ciphers_known :
    (∃ a, aesSetKey countingKey 128 = some a ∧
      aesDecryptBlock a [0x69, 0xc4, 0xe0, 0xd8, 0x6a, 0x7b, 0x04, 0x30,
        0xd8, 0xcd, 0xb7, 0x80, 0x70, 0xb4, 0xc5, 0x5a] = countingBlock) ∧
    ∃ w, aesWrapKey countingKey 128 countingBlock = some w ∧
      aesUnwrapKey countingKey 128 w = some countingBlock := by
  have h := @ciphers_undone countingKey 128 (Or.inl rfl)
  refine ⟨?_, h.2.1 countingBlock (by decide) (by decide)⟩
  obtain ⟨a, ha, hundo⟩ := h.1
  have hct : (aesSetKey countingKey 128).map (fun a => aesEncryptBlock a countingBlock) =
      some [0x69, 0xc4, 0xe0, 0xd8, 0x6a, 0x7b, 0x04, 0x30,
        0xd8, 0xcd, 0xb7, 0x80, 0x70, 0xb4, 0xc5, 0x5a] := by
    decide +kernel
  rw [ha, Option.map_some] at hct
  have hsample := (hundo countingBlock (by decide)).1
  rw [Option.some.inj hct] at hsample
  exact ⟨a, ha, hsample⟩

end Zelr.Crypto
