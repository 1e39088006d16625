import Zelr.Crypto.Sha
import Mathlib.Tactic.IntervalCases

/-!
# Hashing in pieces

A message given to the kernel's hashes in any number of pieces has the digest FIPS 180-4 gives the whole
of it, and their HMACs are HMAC.
-/

namespace Zelr.Crypto

open Fips (Five Eight)

/-! ## Words and bytes -/

variable {p data key : Bytes}

theorem wordAt_eq {i : Nat} (h : 4 * i + 4 ≤ p.length) : wordAt p i = Fips.M p i := by
  have hfour : (p.drop (4 * i)).take 4 =
      [byteAt p (i * 4), byteAt p (i * 4 + 1), byteAt p (i * 4 + 2), byteAt p (i * 4 + 3)] := by
    apply List.ext_getElem
    · simp
      omega
    · intro j hj hj'
      simp only [List.length_cons, List.length_nil] at hj'
      rw [List.getElem_take, List.getElem_drop]
      unfold byteAt
      interval_cases j <;> simp [Nat.mul_comm] <;> rw [List.getElem?_eq_getElem (by omega)] <;> rfl
  rw [Fips.M, hfour, wordAt]
  generalize byteAt p (i * 4) = a, byteAt p (i * 4 + 1) = b, byteAt p (i * 4 + 2) = c, byteAt p (i * 4 + 3) = d
  exact be32_eq a b c d

theorem wordBytes_eq (w : UInt32) : wordBytes w = beBytes 4 w.toNat := by
  have hbyte : ∀ k : Nat, k < 4 → (w >>> UInt32.ofNat (8 * k)).toUInt8 = UInt8.ofNat (w.toNat / 256 ^ k) := by
    intro k hk
    apply UInt8.toNat_inj.mp
    interval_cases k <;> simp [Nat.shiftRight_eq_div_pow]
  simp only [wordBytes, beBytes]
  rw [← hbyte 3 (by decide), ← hbyte 2 (by decide), ← hbyte 1 (by decide), ← hbyte 0 (by decide)]
  simp

theorem lengthBytes_eq (bits : UInt64) : lengthBytes bits = beBytes 8 bits.toNat := by
  have hbyte : ∀ i : Nat, i < 8 →
      (bits >>> (56 - UInt64.ofNat i * 8)).toUInt8 = UInt8.ofNat (bits.toNat / 256 ^ (7 - i)) := by
    intro i hi
    apply UInt8.toNat_inj.mp
    interval_cases i <;> simp [Nat.shiftRight_eq_div_pow]
  rw [lengthBytes, List.map_congr_left fun i hi => hbyte i (List.mem_range.mp hi)]
  rfl

/-! ## Functions and schedules -/

theorem choose_eq (b c d : UInt32) : ((b &&& c) ||| (~~~b &&& d)) = Fips.Ch b c d := by
  apply UInt32.toBitVec_inj.mp
  apply BitVec.eq_of_getLsbD_eq
  intro i hi
  simp only [Fips.Ch, UInt32.toBitVec_or, UInt32.toBitVec_and, UInt32.toBitVec_not, UInt32.toBitVec_xor,
    BitVec.getLsbD_or, BitVec.getLsbD_and, BitVec.getLsbD_not, BitVec.getLsbD_xor, hi, decide_true]
  cases b.toBitVec.getLsbD i <;> simp

theorem majority_eq (b c d : UInt32) : ((b &&& c) ||| (b &&& d) ||| (c &&& d)) = Fips.Maj b c d := by
  apply UInt32.toBitVec_inj.mp
  apply BitVec.eq_of_getLsbD_eq
  intro i _
  simp only [Fips.Maj, UInt32.toBitVec_or, UInt32.toBitVec_and, UInt32.toBitVec_xor,
    BitVec.getLsbD_or, BitVec.getLsbD_and, BitVec.getLsbD_xor]
  cases b.toBitVec.getLsbD i <;> cases c.toBitVec.getLsbD i <;> simp

theorem getD_map_range (W : Nat → UInt32) {n i : Nat} (hi : i < n) :
    ((List.range n).map W).getD i 0 = W i := by
  rw [List.getD_eq_getElem?_getD, List.getElem?_map, List.getElem?_range hi]
  rfl

theorem schedule_eq (W : Nat → UInt32) (next : List UInt32 → Nat → UInt32)
    (hnext : ∀ n, 16 ≤ n → next ((List.range n).map W) n = W n) (k : Nat) :
    (List.range' 16 k).foldl (fun w i => w ++ [next w i]) ((List.range 16).map W) =
      (List.range (16 + k)).map W := by
  induction k with
  | zero => rfl
  | succ k ih =>
    rw [List.range'_concat, List.foldl_append, ih, Nat.one_mul, List.foldl_cons, List.foldl_nil,
      hnext _ (Nat.le_add_right 16 k), ← Nat.add_assoc, List.range_succ, List.map_append, List.map_singleton]

theorem firstWords_eq (hp : p.length = Merkle.BLOCK) (W : Nat → UInt32)
    (hW : ∀ t, t < 16 → W t = Fips.M p t) : (List.range 16).map (wordAt p) = (List.range 16).map W := by
  apply List.map_congr_left
  intro t ht
  have hlt := List.mem_range.mp ht
  rw [hW t hlt, wordAt_eq]
  unfold Merkle.BLOCK at hp
  omega

theorem sha1Schedule_eq (hp : p.length = Merkle.BLOCK) :
    sha1Schedule p = (List.range 80).map (Fips.Sha1.W p) := by
  have hfirst := firstWords_eq hp (Fips.Sha1.W p) fun t ht => by rw [Fips.Sha1.W, if_pos ht]
  rw [sha1Schedule, hfirst]
  refine schedule_eq (Fips.Sha1.W p) (fun w i =>
    rol (w.getD (i - 3) 0 ^^^ w.getD (i - 8) 0 ^^^ w.getD (i - 14) 0 ^^^ w.getD (i - 16) 0) 1) ?_ 64
  intro n hn
  rw [getD_map_range _ (by omega), getD_map_range _ (by omega), getD_map_range _ (by omega),
    getD_map_range _ (by omega)]
  conv_rhs => rw [Fips.Sha1.W, if_neg (Nat.not_lt.mpr hn)]
  rfl

theorem sha256Schedule_eq (hp : p.length = Merkle.BLOCK) :
    sha256Schedule p = (List.range 64).map (Fips.Sha256.W p) := by
  have hfirst := firstWords_eq hp (Fips.Sha256.W p) fun t ht => by rw [Fips.Sha256.W, if_pos ht]
  rw [sha256Schedule, hfirst]
  refine schedule_eq (Fips.Sha256.W p) (fun w i =>
    w.getD (i - 16) 0 +
      (ror (w.getD (i - 15) 0) 7 ^^^ ror (w.getD (i - 15) 0) 18 ^^^ (w.getD (i - 15) 0 >>> 3)) +
      w.getD (i - 7) 0 +
      (ror (w.getD (i - 2) 0) 17 ^^^ ror (w.getD (i - 2) 0) 19 ^^^ (w.getD (i - 2) 0 >>> 10))) ?_ 48
  intro n hn
  rw [getD_map_range _ (by omega), getD_map_range _ (by omega), getD_map_range _ (by omega),
    getD_map_range _ (by omega)]
  conv_rhs => rw [Fips.Sha256.W, if_neg (Nat.not_lt.mpr hn)]
  have hcomm : ∀ a b c d : UInt32, a + b + c + d = d + c + b + a := by
    intro a b c d
    ac_rfl
  exact hcomm _ _ _ _

/-! ## One block -/

theorem sha1Block_eq (s : Five) (p : Bytes) (hp : p.length = Merkle.BLOCK) :
    sha1Block s p = Fips.Sha1.compress s p := by
  have hround : (List.range 80).foldl (sha1Round (sha1Schedule p)) s =
      (List.range 80).foldl (Fips.Sha1.round p) s := by
    apply List.foldl_ext
    intro v t ht
    rw [sha1Round, sha1Schedule_eq hp, getD_map_range _ (List.mem_range.mp ht), choose_eq, majority_eq]
    unfold Fips.Sha1.round Fips.Sha1.f Fips.Sha1.K
    by_cases h20 : t < 20
    · simp only [h20, if_true]
      rfl
    by_cases h40 : t < 40
    · simp only [h20, h40, if_true, if_false]
      rfl
    by_cases h60 : t < 60
    · simp only [h20, h40, h60, if_true, if_false]
      rfl
    · simp only [h20, h40, h60, if_false]
      rfl
  rw [sha1Block, hround]
  simp only [Fips.Sha1.compress, UInt32.add_comm]

theorem compress_eq (s : Eight) (p : Bytes) (hp : p.length = Merkle.BLOCK) :
    compress s p = Fips.Sha256.compress s p := by
  have hround : (List.range 64).foldl (sha256Round (sha256Schedule p)) s =
      (List.range 64).foldl (Fips.Sha256.round p) s := by
    apply List.foldl_ext
    intro v t ht
    rw [sha256Round, sha256Schedule_eq hp, getD_map_range _ (List.mem_range.mp ht)]
    rfl
  rw [compress, hround]
  simp only [Fips.Sha256.compress, UInt32.add_comm]

/-! ## The digest -/

theorem bits_toNat {n : Nat} (h : n < 2 ^ 61) : (UInt64.ofNat n * 8).toNat = n * 8 := by
  rw [UInt64.toNat_mul, UInt64.toNat_ofNat', Nat.mod_eq_of_lt (by omega : n < 2 ^ 64)]
  exact Nat.mod_eq_of_lt (by change n * 8 < _; omega)

theorem wordBytes_flatMap (ws : List UInt32) :
    ws.flatMap wordBytes = ws.flatMap fun w => beBytes 4 w.toNat := by
  congr 1
  funext w
  exact wordBytes_eq w

theorem sha1Final_eq {s : Sha1} {m : Bytes}
    (hs : Merkle.Given sha1Block Fips.Sha1.H0 m s.h s.buf) (hbits : s.bits = UInt64.ofNat m.length * 8)
    (hm : m.length < 2 ^ 61) : sha1Final s = Fips.sha1 m := by
  have hlast : (sha1Update (Merkle.zeros sha1Block (fun t => { t with bits := s.bits }) 64
      { sha1Update s [0x80] with bits := s.bits }) (lengthBytes s.bits)).h =
      Merkle.hash Fips.Sha1.compress Fips.Sha1.H0 m := by
    rw [lengthBytes_eq, hbits, bits_toNat hm, ← Merkle.hash_congr sha1Block_eq]
    exact hs.padded (by intro t; exact ⟨rfl, rfl⟩) ⟨rfl, rfl⟩
  rw [sha1Final, Fips.sha1]
  dsimp only at hlast ⊢
  rw [hlast, wordBytes_flatMap]

theorem sha256Final_eq {s : Sha256} {m : Bytes}
    (hs : Merkle.Given compress Fips.Sha256.H0 m s.h s.buf) (hbits : s.bits = UInt64.ofNat m.length * 8)
    (hm : m.length < 2 ^ 61) : sha256Final s = Fips.sha256 m := by
  have hlast : compress (Merkle.zeros compress id 64 (sha256Update s [0x80])).h
      ((Merkle.zeros compress id 64 (sha256Update s [0x80])).buf ++ lengthBytes s.bits) =
      Merkle.hash Fips.Sha256.compress Fips.Sha256.H0 m := by
    rw [lengthBytes_eq, hbits, bits_toNat hm, ← Merkle.hash_congr compress_eq]
    exact hs.closed (by intro t; exact ⟨rfl, rfl⟩) ⟨rfl, rfl⟩
  rw [sha256Final, Fips.sha256]
  rw [hlast, wordBytes_flatMap]

/-! ## Pieces -/

theorem sha1_pieces {pieces : List Bytes} (h : pieces.flatten.length < 2 ^ 61) :
    sha1Final (pieces.foldl sha1Update sha1Init) = Fips.sha1 pieces.flatten := by
  have hgiven := @Merkle.Given.updates _ sha1Block Fips.Sha1.H0 [] sha1Init (Merkle.given_nil _) pieces
  rw [List.nil_append] at hgiven
  have hbits := @Merkle.updates_bits _ sha1Block sha1Init pieces
  exact sha1Final_eq hgiven (hbits.trans (UInt64.zero_add _)) h

theorem sha256_pieces {pieces : List Bytes} (h : pieces.flatten.length < 2 ^ 61) :
    sha256Final (pieces.foldl sha256Update sha256Init) = Fips.sha256 pieces.flatten := by
  have hgiven := @Merkle.Given.updates _ compress Fips.Sha256.H0 [] sha256Init (Merkle.given_nil _) pieces
  rw [List.nil_append] at hgiven
  have hbits := @Merkle.updates_bits _ compress sha256Init pieces
  exact sha256Final_eq hgiven (hbits.trans (UInt64.zero_add _)) h

theorem sha1_eq (h : data.length < 2 ^ 61) : sha1 data = Fips.sha1 data := by
  have hone := @sha1_pieces [data]
  rw [List.flatten_singleton] at hone
  exact hone h

theorem sha256_eq (h : data.length < 2 ^ 61) : sha256 data = Fips.sha256 data := by
  have hone := @sha256_pieces [data]
  rw [List.flatten_singleton] at hone
  exact hone h

/-! ## HMAC -/

theorem keyBlock_eq (k : Bytes) : keyBlock k = k ++ List.replicate (Merkle.BLOCK - k.length) 0 := by
  rw [keyBlock, put, List.take_zero, List.nil_append, List.drop_replicate, Nat.zero_add]
  rfl

theorem flatMap_beBytes_length (ws : List UInt32) : (ws.flatMap fun w => beBytes 4 w.toNat).length = 4 * ws.length := by
  induction ws with
  | nil => rfl
  | cons w ws ih => simp [ih]; omega

theorem blockKey_length {hash : Bytes → Bytes} (hhash : ∀ m, (hash m).length ≤ Merkle.BLOCK) (key : Bytes) :
    (Fips.blockKey hash key).length = Merkle.BLOCK := by
  have hle : (if key.length > Merkle.BLOCK then hash key else key).length ≤ Merkle.BLOCK := by
    split
    · exact hhash key
    · omega
  rw [Fips.blockKey]
  rw [List.length_append, List.length_replicate]
  omega

theorem fips_sha1_length (m : Bytes) : (Fips.sha1 m).length = SHA1_SIZE := flatMap_beBytes_length _

theorem fips_sha256_length (m : Bytes) : (Fips.sha256 m).length = SHA256_SIZE := flatMap_beBytes_length _

theorem hmacSha1Vector_eq {parts : List Bytes} (hkey : key.length < 2 ^ 61)
    (hparts : 64 + parts.flatten.length < 2 ^ 61) :
    hmacSha1Vector key parts = Fips.hmac Fips.sha1 key parts.flatten := by
  have hk : keyBlock (if key.length > 64 then sha1 key else key) = Fips.blockKey Fips.sha1 key := by
    rw [keyBlock_eq, sha1_eq hkey]
    rfl
  have hlen := blockKey_length (fun m => (fips_sha1_length m).le.trans (by decide)) key
  have hinner := @sha1_pieces ((Fips.blockKey Fips.sha1 key).map (· ^^^ 0x36) :: parts) (by
    rw [List.flatten_cons, List.length_append, List.length_map, hlen]
    exact hparts)
  have houter := @sha1_pieces [(Fips.blockKey Fips.sha1 key).map (· ^^^ 0x5c),
    Fips.sha1 ((Fips.blockKey Fips.sha1 key).map (· ^^^ 0x36) ++ parts.flatten)] (by
    simp only [List.flatten_cons, List.flatten_nil, List.length_append, List.length_map, hlen, fips_sha1_length,
      List.length_nil]
    decide)
  rw [hmacSha1Vector, hk]
  rw [List.foldl_cons, List.flatten_cons] at hinner
  rw [hinner]
  rw [List.flatten_cons, List.flatten_singleton] at houter
  exact houter

theorem hmacSha1_eq (hkey : key.length < 2 ^ 61) (hdata : 64 + data.length < 2 ^ 61) :
    hmacSha1 key data = Fips.hmac Fips.sha1 key data := by
  have hone := @hmacSha1Vector_eq key [data] hkey
  rw [List.flatten_singleton] at hone
  exact hone hdata

theorem hmacSha256_eq (hkey : key.length < 2 ^ 61) (hdata : 64 + data.length < 2 ^ 61) :
    hmacSha256 key data = Fips.hmac Fips.sha256 key data := by
  have hk : keyBlock (if key.length > SHA256_BLOCK then sha256 key else key) = Fips.blockKey Fips.sha256 key := by
    rw [keyBlock_eq, sha256_eq hkey]
    rfl
  have hlen := blockKey_length (fun m => (fips_sha256_length m).le.trans (by decide)) key
  have hinner := @sha256_pieces [(Fips.blockKey Fips.sha256 key).map (· ^^^ 0x36), data] (by
    rw [List.flatten_cons, List.flatten_singleton, List.length_append, List.length_map, hlen]
    exact hdata)
  have houter := @sha256_pieces [(Fips.blockKey Fips.sha256 key).map (· ^^^ 0x5c),
    Fips.sha256 ((Fips.blockKey Fips.sha256 key).map (· ^^^ 0x36) ++ data)] (by
    simp only [List.flatten_cons, List.flatten_nil, List.length_append, List.length_map, hlen, fips_sha256_length,
      List.length_nil]
    decide)
  rw [hmacSha256, hk]
  rw [List.flatten_cons, List.flatten_singleton] at hinner houter
  rw [List.foldl_cons, List.foldl_cons, List.foldl_nil] at hinner
  rw [hinner]
  exact houter

/-- Messages whose length in bits fits eight bytes have the standard's digests however they come, and every key gives the
standard's HMAC. -/
theorem digests_standard :
    (∀ pieces : List Bytes, pieces.flatten.length < 2 ^ 61 →
      sha1Final (pieces.foldl sha1Update sha1Init) = Fips.sha1 pieces.flatten ∧
      sha256Final (pieces.foldl sha256Update sha256Init) = Fips.sha256 pieces.flatten) ∧
    ∀ (key : Bytes) (parts : List Bytes), key.length < 2 ^ 61 → 64 + parts.flatten.length < 2 ^ 61 →
      hmacSha1Vector key parts = Fips.hmac Fips.sha1 key parts.flatten ∧
      hmacSha1 key parts.flatten = Fips.hmac Fips.sha1 key parts.flatten ∧
      hmacSha256 key parts.flatten = Fips.hmac Fips.sha256 key parts.flatten := by
  refine ⟨fun pieces h => ⟨sha1_pieces h, sha256_pieces h⟩, ?_⟩
  intro key parts hkey hparts
  exact ⟨hmacSha1Vector_eq hkey hparts, hmacSha1_eq hkey hparts, hmacSha256_eq hkey hparts⟩

theorem digests_known :
    Fips.sha1 (ascii "abc") = [0xa9, 0x99, 0x3e, 0x36, 0x47, 0x06, 0x81, 0x6a, 0xba, 0x3e, 0x25, 0x71, 0x78, 0x50, 0xc2, 0x6c,
      0x9c, 0xd0, 0xd8, 0x9d] ∧
    Fips.sha256 (ascii "abc") = [0xba, 0x78, 0x16, 0xbf, 0x8f, 0x01, 0xcf, 0xea, 0x41, 0x41, 0x40, 0xde, 0x5d, 0xae, 0x22, 0x23,
      0xb0, 0x03, 0x61, 0xa3, 0x96, 0x17, 0x7a, 0x9c, 0xb4, 0x10, 0xff, 0x61, 0xf2, 0x00, 0x15, 0xad] ∧
    hmacSha256 (ascii "Jefe") (ascii "what") = Fips.hmac Fips.sha256 (ascii "Jefe") (ascii "what") := by
  have habc := digests_standard.1 [ascii "a", [], ascii "bc"] (by decide)
  exact ⟨habc.1.symm.trans (by decide +kernel), habc.2.symm.trans (by decide +kernel),
    (digests_standard.2 (ascii "Jefe") [ascii "what"] (by decide) (by decide)).2.2⟩

end Zelr.Crypto
