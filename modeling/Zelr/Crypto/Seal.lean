import Zelr.Crypto.Gcm

/-!
# Sealing and opening

`gcm_seal` and `gcm_open` undo each other and the tag decides, for everything short enough that the loops
come to an end.
-/

namespace Zelr.Crypto

open Gf (value)

variable {n j fuel : Nat} {data a b c tag : Bytes}

/-! ## The counter -/

theorem bump_length (js : List Nat) (c : Bytes) : (bump js c).length = c.length := by
  induction js generalizing c with
  | nil => rfl
  | cons j js ih =>
    rw [bump]
    split
    · exact List.length_set
    · rw [ih, List.length_set]

def counterAt (c : Bytes) : Nat → Bytes
  | 0 => c
  | k + 1 => bump [15, 14, 13, 12] (counterAt c k)

theorem counterAt_length (c : Bytes) (k : Nat) : (counterAt c k).length = c.length := by
  induction k with
  | zero => rfl
  | succ k ih => rw [counterAt, bump_length, ih]

/-- Byte `j` of what the data is mixed with. -/
def streamAt (g : Gcm) (c : Bytes) (j : Nat) : UInt8 :=
  byteAt (aesEncryptBlock g.aes (counterAt c (j / 16 + 1))) (j % 16)

/-- Data with its first `n` bytes mixed. -/
def keyed (g : Gcm) (c : Bytes) (n : Nat) (data : Bytes) : Bytes :=
  (List.range data.length).map fun j => if j < n then byteAt data j ^^^ streamAt g c j else byteAt data j

@[simp] theorem keyed_length (g : Gcm) (c : Bytes) (n : Nat) (data : Bytes) :
    (keyed g c n data).length = data.length := by simp [keyed]

theorem byteAt_map_range (f : Nat → UInt8) (hj : j < n) : byteAt ((List.range n).map f) j = f j := by
  simp [byteAt, hj]

theorem eq_map_byteAt (data : Bytes) : data = (List.range data.length).map (byteAt data) := by
  apply List.ext_getElem
  · simp
  · intro j hj _
    simp [byteAt, hj]

theorem byteAt_keyed (g : Gcm) (c : Bytes) (n : Nat) (hj : j < data.length) :
    byteAt (keyed g c n data) j = if j < n then byteAt data j ^^^ streamAt g c j else byteAt data j :=
  byteAt_map_range _ hj

theorem keyed_none (g : Gcm) (c data : Bytes) : keyed g c 0 data = data := by
  conv_rhs => rw [eq_map_byteAt data]
  exact List.map_congr_left fun j _ => if_neg (Nat.not_lt_zero j)

theorem keyed_keyed (g : Gcm) (c data : Bytes) : keyed g c n (keyed g c n data) = data := by
  conv_rhs => rw [eq_map_byteAt data]
  rw [keyed, keyed_length]
  refine List.map_congr_left fun j hj => ?_
  rw [byteAt_keyed g c n (List.mem_range.mp hj)]
  split
  · rw [UInt8.xor_assoc, UInt8.xor_self, UInt8.xor_zero]
  · rfl

theorem byteAt_xor (ha : j < a.length) (hb : j < b.length) :
    byteAt (xor a b) j = byteAt a j ^^^ byteAt b j := by
  simp [byteAt, xor, ha, hb]

theorem byteAt_take_drop {m : Bytes} {off : Nat} (hj : j < n) :
    byteAt ((m.drop off).take n) j = byteAt m (off + j) := by
  rw [byteAt_take hj, byteAt_drop]

theorem ctrStep_eq (g : Gcm) (c d : Bytes) (i : UInt32) :
    ctrStep g (c, d) i = (bump [15, 14, 13, 12] c,
      put d i.toNat (xor (piece d i) (aesEncryptBlock g.aes (bump [15, 14, 13, 12] c)))) := rfl

theorem ctrStep_keyed (g : Gcm) {k : Nat} (hc : c.length = 16) (hdata : data.length < 2 ^ 32)
    (hk : k < Stride.turns data.length) :
    ctrStep g (counterAt c k, keyed g c (16 * k) data) (UInt32.ofNat (16 * k)) =
      (counterAt c (k + 1), keyed g c (16 * (k + 1)) data) := by
  have hlen := keyed_length g c (16 * k) data
  have hpiece := @piece_eq (keyed g c (16 * k) data) k (by omega) (by rw [hlen]; exact hk)
  have hstream : (aesEncryptBlock g.aes (counterAt c (k + 1))).length = 16 :=
    aesEncryptBlock_length _ (by rw [counterAt_length, hc])
  unfold Stride.turns at hk
  have hi : (UInt32.ofNat (16 * k)).toNat = 16 * k := by
    rw [UInt32.toNat_ofNat', Nat.mod_eq_of_lt (by omega)]
  have hnext : bump [15, 14, 13, 12] (counterAt c k) = counterAt c (k + 1) := rfl
  rw [ctrStep_eq, hnext, hpiece, hi, Prod.mk.injEq]
  refine ⟨rfl, ?_⟩
  -- What is mixed, and where it lies.
  have hmixed : (xor (((keyed g c (16 * k) data).drop (16 * k)).take 16)
      (aesEncryptBlock g.aes (counterAt c (k + 1)))).length = min 16 (data.length - 16 * k) := by
    rw [xor, List.length_zipWith, hstream, List.length_take, List.length_drop, hlen]
    omega
  have hfit : 16 * k + min 16 (data.length - 16 * k) ≤ (keyed g c (16 * k) data).length := by
    rw [hlen]
    omega
  refine eq_of_byteAt ?_ ?_
  · rw [put_length_eq (by rw [hmixed]; exact hfit), hlen, keyed_length]
  · intro j hj
    rw [put_length_eq (by rw [hmixed]; exact hfit), hlen] at hj
    rw [byteAt_keyed g c _ hj]
    obtain hlt | hge := Nat.lt_or_ge j (16 * k)
    · rw [byteAt_put_before (by omega) hlt, byteAt_keyed g c _ hj, if_pos hlt, if_pos (by omega)]
    · obtain hlt' | hge' := Nat.lt_or_ge j (16 * (k + 1))
      · obtain ⟨r, rfl⟩ := Nat.exists_eq_add_of_le hge
        have hr : r < min 16 (data.length - 16 * k) := by omega
        have hin : r < (((keyed g c (16 * k) data).drop (16 * k)).take 16).length := by
          rw [List.length_take, List.length_drop, hlen]
          omega
        have hdiv : (16 * k + r) / 16 = k := by omega
        have hmod : (16 * k + r) % 16 = r := by omega
        rw [byteAt_put_inside (by omega) (by rw [hmixed]; exact hr), if_pos hlt', streamAt, hdiv, hmod,
          byteAt_xor hin (by omega), byteAt_take_drop (by omega), byteAt_keyed g c _ hj, if_neg (by omega)]
      · rw [byteAt_put_behind (by rw [hmixed]; exact hfit) (by rw [hmixed]; omega), byteAt_keyed g c _ hj,
          if_neg (by omega), if_neg (by omega)]

theorem ctrXor_ends (g : Gcm) (hc : c.length = 16) (hdata : data.length ≤ 2 ^ 32 - 16)
    (hfuel : Stride.turns data.length < fuel) :
    ctrXor fuel g c data = some (keyed g c data.length data) := by
  have hlen : (UInt32.ofNat data.length).toNat = data.length := by
    rw [UInt32.toNat_ofNat', Nat.mod_eq_of_lt (by omega)]
  have hturns : ∀ k, k ≤ Stride.turns data.length →
      (List.range k).foldl (fun s j => ctrStep g s (UInt32.ofNat (16 * j))) (c, data) =
        (counterAt c k, keyed g c (16 * k) data) := by
    intro k
    induction k with
    | zero =>
      intro _
      rw [Nat.mul_zero, keyed_none]
      rfl
    | succ k ih =>
      intro hk
      rw [List.range_succ, List.foldl_append, ih (by omega), List.foldl_cons, List.foldl_nil]
      exact ctrStep_keyed g hc (by omega) hk
  have hall : keyed g c (16 * Stride.turns data.length) data = keyed g c data.length data := by
    refine List.map_congr_left fun j hj => ?_
    have hlt := List.mem_range.mp hj
    rw [if_pos hlt, if_pos]
    unfold Stride.turns
    omega
  rw [ctrXor, Stride.loop_ends (by rw [hlen]; exact hdata) (by rw [hlen]; exact hfuel), hlen, Stride.offsets,
    List.foldl_map, hturns _ le_rfl, Option.map_some, hall]

theorem ctrXor_never (g : Gcm) (hdata : 2 ^ 32 - 16 < data.length)
    (hlt : data.length < 2 ^ 32) : ctrXor fuel g c data = none := by
  rw [ctrXor, Stride.loop_never _ rfl]
  · rfl
  · rw [UInt32.toNat_ofNat', Nat.mod_eq_of_lt hlt]
    exact hdata

/-! ## The tag -/

theorem differ_iff (ha : a.length = 16) (hb : b.length = 16) :
    (List.range GCM_TAG).foldl (fun d i => d ||| (byteAt a i ^^^ byteAt b i)) 0 = 0 ↔ b = a := by
  rw [foldl_or_eq_zero]
  constructor
  · rintro ⟨_, h⟩
    refine (eq_of_byteAt (ha.trans hb.symm) fun i hi => ?_).symm
    exact UInt8.xor_eq_zero_iff.mp (h i (List.mem_range.mpr (by rw [ha] at hi; exact hi)))
  · rintro rfl
    exact ⟨rfl, fun i _ => UInt8.xor_self⟩

def IsTag (g : Gcm) (iv aad ct tag : Bytes) : Prop :=
  tag.length = GCM_TAG ∧
  value (xor tag (aesEncryptBlock g.aes (iv ++ [0, 0, 0, 1]))) = GHASH (value g.h) (tagBlocks aad ct)

theorem xor_length (h : a.length = b.length) : (xor a b).length = a.length := by
  rw [xor, List.length_zipWith, h, Nat.min_self]

theorem xor_xor (h : a.length = b.length) : xor (xor a b) b = a := addRoundKey_twice h

/-- What is sealed opens, a tag is right exactly when it is the one of what came, nothing is left of what came with a
wrong one, and the field is the field. -/
def SealsAndOpens (g : Gcm) (iv aad data : Bytes) : Prop :=
  (∃ ct tag, (∃ fuel, gcmSeal fuel g iv aad data = some (ct, tag)) ∧
    ∃ fuel, gcmOpen fuel g iv aad ct tag = some (true, data)) ∧
  (∀ tag : Bytes, tag.length = GCM_TAG → ∃ ok out, (∃ fuel, gcmOpen fuel g iv aad data tag = some (ok, out)) ∧
    (ok = true ↔ IsTag g iv aad data tag) ∧ (ok = false → out = List.replicate data.length 0)) ∧
  ∀ x y : Bytes, x.length = 16 → y.length = 16 → value (gfMul x y) = value x * value y

theorem subkey_length {key : Bytes} {bits : Nat} {g : Gcm} (h : gcmInit key bits = some g) : g.h.length = 16 := by
  obtain ⟨a, _, hg⟩ := Option.bind_eq_some_iff.mp h
  obtain rfl := Option.some.inj hg
  have hzeros : (List.replicate 16 (0 : UInt8)).length = 16 := List.length_replicate
  have hsub := aesEncryptBlock_length a hzeros
  dsimp only
  exact hsub

section Within

variable {g : Gcm} {iv aad data : Bytes} (hg : g.h.length = 16) (hiv : iv.length = GCM_IV)

theorem counter0_eq (hiv : iv.length = GCM_IV) : counter0 iv = iv ++ [0, 0, 0, 1] := by
  rw [counter0, List.take_of_length_le hiv.le]

theorem counter0_length (hiv : iv.length = GCM_IV) : (counter0 iv).length = 16 := by
  rw [counter0_eq hiv, List.length_append, hiv]
  rfl

theorem mask_length (hiv : iv.length = GCM_IV) : (aesEncryptBlock g.aes (counter0 iv)).length = 16 :=
  aesEncryptBlock_length _ (counter0_length hiv)

theorem isTag_iff {y ct : Bytes} (hiv : iv.length = GCM_IV) (hlen : y.length = 16)
    (hy : value y = GHASH (value g.h) (tagBlocks aad ct)) (htag : tag.length = GCM_TAG) :
    IsTag g iv aad ct tag ↔ tag = xor y (aesEncryptBlock g.aes (counter0 iv)) := by
  have hmask := @mask_length g iv hiv
  have htag' : tag.length = 16 := htag
  rw [IsTag, ← hy, ← counter0_eq hiv]
  constructor
  · rintro ⟨_, h⟩
    rw [← Gf.value_injective ((xor_length (htag'.trans hmask.symm)).trans htag') hlen h,
      xor_xor (htag'.trans hmask.symm)]
  · rintro rfl
    rw [xor_xor (hlen.trans hmask.symm)]
    exact ⟨htag, rfl⟩

include hg hiv

theorem gcmOpen_ends (haad : aad.length ≤ 2 ^ 32 - 16) (hdata : data.length ≤ 2 ^ 32 - 16)
    (hfuel : Stride.turns aad.length < fuel ∧ Stride.turns data.length < fuel) (htag : tag.length = GCM_TAG) :
    (IsTag g iv aad data tag ∧
      gcmOpen fuel g iv aad data tag = some (true, keyed g (counter0 iv) data.length data)) ∨
    (¬ IsTag g iv aad data tag ∧
      gcmOpen fuel g iv aad data tag = some (false, List.replicate data.length 0)) := by
  obtain ⟨y, hghash, hlen, hy⟩ := ghash_ends hg haad hdata hfuel
  have hmask := @mask_length g iv hiv
  have hwant := (xor_length (hlen.trans hmask.symm)).trans hlen
  rw [isTag_iff hiv hlen hy htag, ← differ_iff hwant htag]
  by_cases hdiff : (List.range GCM_TAG).foldl (fun d i => d |||
      (byteAt (xor y (aesEncryptBlock g.aes (counter0 iv))) i ^^^ byteAt tag i)) 0 = 0
  · refine Or.inl ⟨hdiff, ?_⟩
    simp only [gcmOpen, hghash, Option.bind_eq_bind, Option.bind_some, hdiff, ne_eq, not_true_eq_false, if_false,
      ctrXor_ends g (counter0_length hiv) hdata hfuel.2]
  · refine Or.inr ⟨hdiff, ?_⟩
    simp only [gcmOpen, hghash, Option.bind_eq_bind, Option.bind_some, hdiff, ne_eq, not_false_eq_true, if_true]

theorem gcmSeal_ends (haad : aad.length ≤ 2 ^ 32 - 16) (hdata : data.length ≤ 2 ^ 32 - 16)
    (hfuel : Stride.turns aad.length < fuel ∧ Stride.turns data.length < fuel) :
    ∃ tag, gcmSeal fuel g iv aad data = some (keyed g (counter0 iv) data.length data, tag) ∧
      IsTag g iv aad (keyed g (counter0 iv) data.length data) tag := by
  have hsame := keyed_length g (counter0 iv) data.length data
  obtain ⟨y, hghash, hlen, hy⟩ := @ghash_ends g hg fuel aad (keyed g (counter0 iv) data.length data) haad
    (by rw [hsame]; exact hdata) (by rw [hsame]; exact hfuel)
  have hmask := @mask_length g iv hiv
  refine ⟨xor y (aesEncryptBlock g.aes (counter0 iv)), ?_, ?_⟩
  · simp only [gcmSeal, ctrXor_ends g (counter0_length hiv) hdata hfuel.2, hghash, Option.bind_eq_bind,
      Option.bind_some]
  · exact (isTag_iff hiv hlen hy ((xor_length (hlen.trans hmask.symm)).trans hlen)).mpr rfl

omit hg hiv in
theorem gcmSeal_never (haad : aad.length < 2 ^ 32) (hdata : data.length < 2 ^ 32)
    (hlong : 2 ^ 32 - 16 < aad.length ∨ 2 ^ 32 - 16 < data.length) : gcmSeal fuel g iv aad data = none := by
  obtain hlong | hlong := hlong
  · have hghash : ∀ ct, ghash fuel g aad ct = none := by
      intro ct
      rw [ghash, ghashOver_never _ hlong haad]
      rfl
    simp only [gcmSeal, hghash, Option.bind_eq_bind, Option.bind_none, Option.bind_fun_none]
  · simp only [gcmSeal, ctrXor_never g hlong hdata, Option.bind_eq_bind, Option.bind_none]

end Within

/-- Sealing and opening work exactly when the loops over the header and the body end. -/
theorem sealsAndOpens_iff {key : Bytes} {bits : Nat} {g : Gcm} {iv aad data : Bytes} (hg : gcmInit key bits = some g)
    (hiv : iv.length = GCM_IV) (haad : aad.length < 2 ^ 32) (hdata : data.length < 2 ^ 32) :
    SealsAndOpens g iv aad data ↔ aad.length ≤ 2 ^ 32 - 16 ∧ data.length ≤ 2 ^ 32 - 16 := by
  have hsub := subkey_length hg
  constructor
  · rintro ⟨⟨ct, tag, ⟨fuel, hseal⟩, _⟩, _⟩
    by_contra hlong
    rw [gcmSeal_never haad hdata (by omega)] at hseal
    cases hseal
  · rintro ⟨haad', hdata'⟩
    obtain ⟨fuel, hfuel⟩ : ∃ fuel, Stride.turns aad.length < fuel ∧ Stride.turns data.length < fuel :=
      ⟨max (Stride.turns aad.length) (Stride.turns data.length) + 1, by omega, by omega⟩
    have hsame := keyed_length g (counter0 iv) data.length data
    refine ⟨?_, ?_, fun x y => value_gfMul⟩
    · obtain ⟨tag, hseal, htag⟩ := gcmSeal_ends hsub hiv haad' hdata' hfuel
      refine ⟨_, tag, ⟨fuel, hseal⟩, fuel, ?_⟩
      obtain ⟨_, hopen⟩ | ⟨hwrong, _⟩ := gcmOpen_ends hsub hiv haad' (by rw [hsame]; exact hdata')
        (by rw [hsame]; exact hfuel) htag.1
      · rw [hopen, hsame, keyed_keyed]
      · exact absurd htag hwrong
    · intro tag htag
      obtain ⟨hright, hopen⟩ | ⟨hwrong, hopen⟩ := gcmOpen_ends hsub hiv haad' hdata' hfuel htag
      · exact ⟨true, _, ⟨fuel, hopen⟩, ⟨fun _ => hright, fun _ => rfl⟩, fun h => Bool.noConfusion h⟩
      · exact ⟨false, _, ⟨fuel, hopen⟩, ⟨fun h => Bool.noConfusion h, fun h => absurd h hwrong⟩, fun _ => rfl⟩

/-- Sealing the longest buffer there can be never ends. -/
theorem longest_never_seals :
    ∃ g, gcmInit (List.replicate 16 0) 128 = some g ∧
      (∀ fuel, gcmSeal fuel g (List.replicate 12 0) [] (List.replicate (2 ^ 32 - 1) 0) = none) ∧
      ¬ SealsAndOpens g (List.replicate 12 0) [] (List.replicate (2 ^ 32 - 1) 0) := by
  have hlen : (List.replicate (2 ^ 32 - 1) (0 : UInt8)).length = 2 ^ 32 - 1 := List.length_replicate
  refine ⟨_, rfl, ?_⟩
  generalize List.replicate (2 ^ 32 - 1) (0 : UInt8) = data at hlen ⊢
  have hnever : ∀ g fuel, gcmSeal fuel g (List.replicate 12 0) [] data = none := fun g fuel =>
    gcmSeal_never (by decide) (by omega) (Or.inr (by omega))
  refine ⟨hnever _, ?_⟩
  rintro ⟨⟨ct, tag, ⟨fuel, hseal⟩, _⟩, _⟩
  rw [hnever] at hseal
  cases hseal

theorem sealsAndOpens_sample :
    ∃ g, gcmInit (List.replicate 16 0) 128 = some g ∧
      (SealsAndOpens g (List.replicate 12 0) [1, 2] [3, 4, 5] ↔ [(1 : UInt8), 2].length ≤ 2 ^ 32 - 16 ∧
        [(3 : UInt8), 4, 5].length ≤ 2 ^ 32 - 16) :=
  ⟨_, rfl, @sealsAndOpens_iff (List.replicate 16 0) 128 _ (List.replicate 12 0) [1, 2] [3, 4, 5] rfl rfl (by decide)
    (by decide)⟩

end Zelr.Crypto
