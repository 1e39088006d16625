import Zelr.Wlan.Mic

/-!
# What CCMP seals, it opens

CCM with its tag check is an inverse pair, and so is the frame around it, whatever becomes on the way of the header
bits that are not sealed.
-/

namespace Zelr.Wlan

variable {b m s f g : Bytes} {n i off len : Nat} {qos : Bool}

/-! ## Counter mode -/

theorem kernel_block_length (key : Bytes) (hb : b.length = 16) :
    (kernel.aesEncryptBlock key b).length = 16 := by
  simp only [kernel]
  split
  · exact Crypto.aesEncryptBlock_length _ hb
  · exact hb

theorem xorBytes_xorBytes (h : m.length ≤ s.length) : xorBytes (xorBytes m s) s = m := xor_twice h

theorem xorBytes_length (h : m.length ≤ s.length) : (xorBytes m s).length = m.length := by
  simp [xorBytes, h]

theorem ctr_length {a nonce : Bytes} (hnonce : nonce.length = 13) (i : Nat) :
    (ccmCtr kernel a nonce i).length = 16 :=
  kernel_block_length a (by simp [hnonce, len16])

theorem length_of_mem_blocks (h : b ∈ blocks n m) : b.length = 16 := by
  induction n generalizing m with
  | zero => cases h
  | succ n ih =>
    obtain rfl | h := List.mem_cons.mp h
    · simp
      omega
    · exact ih h

theorem mixed_length (a : Bytes) (n : Nat) (m : Bytes) {x : Bytes} (hx : x.length = 16) :
    ((blocks n m).foldl (fun x b => kernel.aesEncryptBlock a (xorBytes b x)) x).length = 16 := by
  refine @Runs.foldl_kept _ _ (fun x b => kernel.aesEncryptBlock a (xorBytes b x))
    (fun x : Bytes => x.length = 16) _ ?_ _ hx
  intro x hx b hb
  have hlen := length_of_mem_blocks hb
  exact kernel_block_length a (by rw [xorBytes_length (by omega), hlen])

theorem mac_length {a nonce aad m : Bytes} (hnonce : nonce.length = 13) :
    (ccmMac kernel a nonce aad m).length = 16 := by
  unfold ccmMac
  dsimp only
  refine mixed_length a _ _ ?_
  have hfirst : ∀ flags, (kernel.aesEncryptBlock a (flags :: nonce ++ len16 m.length)).length = 16 :=
    fun flags => kernel_block_length a (by simp [hnonce, len16])
  split
  · exact mixed_length a _ _ (hfirst _)
  · exact hfirst _

theorem mic_length_eight {a nonce aad m : Bytes} (hnonce : nonce.length = 13) :
    (ccmEncrypt kernel a nonce aad m).2.length = CCMP_MIC_LEN := by
  have hmac := @mac_length a nonce aad m hnonce
  have hctr := @ctr_length a nonce hnonce 0
  rw [ccmEncrypt]
  dsimp only
  rw [List.length_take, xorBytes_length (by omega), hmac]
  rfl

section Counter

variable {a nonce : Bytes} (hnonce : nonce.length = 13)

@[simp] theorem cryptFrom_nil (n i : Nat) : cryptFrom kernel a nonce n i [] = [] := by
  induction n generalizing i with
  | zero => rfl
  | succ n ih =>
    rw [cryptFrom, List.drop_nil, ih, List.append_nil]
    rfl

include hnonce

theorem take_le_ctr (m : Bytes) (i : Nat) : (m.take 16).length ≤ (ccmCtr kernel a nonce i).length := by
  rw [ctr_length hnonce, List.length_take]
  exact Nat.min_le_left _ _

theorem cryptFrom_length (hn : m.length ≤ 16 * n) :
    (cryptFrom kernel a nonce n i m).length = m.length := by
  induction n generalizing i m with
  | zero =>
    rw [List.eq_nil_of_length_eq_zero (by omega : m.length = 0)]
    rfl
  | succ n ih =>
    have hrest : (m.drop 16).length ≤ 16 * n := by
      rw [List.length_drop]
      omega
    rw [cryptFrom, List.length_append, ih hrest, xorBytes_length (take_le_ctr hnonce m i), ← List.length_append,
      List.take_append_drop]

theorem cryptFrom_cryptFrom (hn : m.length ≤ 16 * n) :
    cryptFrom kernel a nonce n i (cryptFrom kernel a nonce n i m) = m := by
  induction n generalizing i m with
  | zero =>
    rw [List.eq_nil_of_length_eq_zero (by omega : m.length = 0)]
    rfl
  | succ n ih =>
    have hrest : (m.drop 16).length ≤ 16 * n := by
      rw [List.length_drop]
      omega
    have hone := xorBytes_length (take_le_ctr (a := a) hnonce m i)
    obtain hshort | hlong := Nat.lt_or_ge m.length 16
    · have hnil : m.drop 16 = [] := List.drop_eq_nil_of_le hshort.le
      have htake : m.take 16 = m := List.take_of_length_le hshort.le
      rw [htake] at hone
      have hwhole : cryptFrom kernel a nonce (n + 1) i m = xorBytes m (ccmCtr kernel a nonce i) := by
        rw [cryptFrom, hnil, cryptFrom_nil, List.append_nil, htake]
      rw [hwhole, cryptFrom, List.take_of_length_le (by omega), List.drop_eq_nil_of_le (by omega), cryptFrom_nil,
        List.append_nil, xorBytes_xorBytes (by rw [ctr_length hnonce]; omega)]
    · rw [List.length_take, Nat.min_eq_left hlong] at hone
      rw [cryptFrom, cryptFrom, List.take_left' hone, List.drop_left' hone, ih hrest,
        xorBytes_xorBytes (take_le_ctr hnonce m i), List.take_append_drop]

theorem ccmCrypt_length (m : Bytes) : (ccmCrypt kernel a nonce m).length = m.length :=
  cryptFrom_length hnonce (by unfold blockCount; omega)

theorem ccmCrypt_crypt (m : Bytes) : ccmCrypt kernel a nonce (ccmCrypt kernel a nonce m) = m := by
  rw [ccmCrypt, ccmCrypt_length hnonce, ccmCrypt]
  exact cryptFrom_cryptFrom hnonce (by unfold blockCount; omega)

theorem ccmDecrypt_iff {aad c mic : Bytes} :
    ccmDecrypt kernel a nonce aad c mic = some m ↔ ccmEncrypt kernel a nonce aad m = (c, mic) := by
  rw [ccmDecrypt, ccmEncrypt, Prod.mk.injEq]
  constructor
  · intro h
    split at h
    next hmic =>
      obtain rfl := Option.some.inj h
      exact ⟨ccmCrypt_crypt hnonce c, hmic.symm⟩
    · cases h
  · rintro ⟨rfl, rfl⟩
    rw [ccmCrypt_crypt hnonce]
    exact if_pos rfl

end Counter

/-! ## The header -/

def isQos (f : Bytes) : Bool := byteAt f 0 &&& 0x80 ≠ 0

/-- The bits of byte `i` of a data frame's header that are sealed: all but the subtype below QoS, retry, power management,
more data, duration and sequence number, and on a QoS frame order and the QoS control but its priority. -/
def lasting (qos : Bool) (n i : Nat) : UInt8 :=
  if i = 0 then 0x8F
  else if i = 1 then if qos then 0x47 else 0xC7
  else if i = 22 then 0x0F
  else if i = 2 ∨ i = 3 ∨ i = 23 ∨ (qos ∧ i + 1 = n) then 0
  else if qos ∧ i + 2 = n then 0x0F
  else 0xFF

def Alike (n : Nat) (f g : Bytes) : Prop :=
  ∀ i, i < n → byteAt f i &&& lasting (isQos f) n i = byteAt g i &&& lasting (isQos f) n i

/-- The first `n` bytes are a data frame's header. -/
structure Header (n : Nat) (f : Bytes) : Prop where
  data : frameType f = 2
  size : n = 24 + (if toFromDs f then 6 else 0) + (if isQos f then 2 else 0)
  room : n ≤ f.length

/-- `Alike`, field by field. -/
structure SameFields (n : Nat) (f g : Bytes) : Prop where
  first : byteAt f 0 &&& 0x8F = byteAt g 0 &&& 0x8F
  control : byteAt f 1 &&& lasting (isQos f) n 1 = byteAt g 1 &&& lasting (isQos f) n 1
  addresses : slice f 4 18 = slice g 4 18
  fragment : byteAt f 22 &&& 0x0F = byteAt g 22 &&& 0x0F
  fourth : toFromDs f = true → slice f 24 6 = slice g 24 6
  priority : isQos f = true → byteAt f (n - 2) &&& 0x0F = byteAt g (n - 2) &&& 0x0F

theorem and_of_and {x y m k : UInt8} (h : x &&& m = y &&& m) (hk : m &&& k = k) : x &&& k = y &&& k := by
  rw [← hk, ← UInt8.and_assoc, ← UInt8.and_assoc, h]

theorem slice_length (h : off + len ≤ f.length) : (slice f off len).length = len := by
  rw [slice, List.length_take, List.length_drop]
  omega

theorem slice_inj (hf : off + len ≤ f.length) (hg : off + len ≤ g.length) :
    slice f off len = slice g off len ↔ ∀ i, off ≤ i → i < off + len → byteAt f i = byteAt g i := by
  have hat : ∀ (x : Bytes) (k : Nat), k < len → byteAt (slice x off len) k = byteAt x (off + k) := by
    intro x k hk
    rw [slice, byteAt_take hk, byteAt_drop]
  constructor
  · intro h i hi hlt
    rw [show i = off + (i - off) by omega, ← hat f _ (by omega), ← hat g _ (by omega), h]
  · intro h
    refine eq_of_byteAt (by rw [slice_length hf, slice_length hg]) fun k hk => ?_
    rw [slice_length hf] at hk
    rw [hat f k hk, hat g k hk]
    exact h _ (Nat.le_add_right _ _) (by omega)

theorem lasting_one (qos : Bool) (n : Nat) : lasting qos n 1 = if qos then 0x47 else 0xC7 := rfl

theorem lasting_whole (h : i ∉ [0, 1, 2, 3, 22, 23]) (hn : qos = true → i + 2 < n) :
    lasting qos n i = 0xFF := by
  simp only [List.mem_cons, List.not_mem_nil, or_false, not_or] at h
  rw [lasting, if_neg h.1, if_neg h.2.1, if_neg h.2.2.2.2.1, if_neg, if_neg]
  · rintro ⟨hqos, hi⟩
    have := hn hqos
    omega
  · rintro (hi | hi | hi | ⟨hqos, hi⟩)
    · exact h.2.2.1 hi
    · exact h.2.2.2.1 hi
    · exact h.2.2.2.2.2 hi
    · have := hn hqos
      omega

/-- What the masks of the header keep of a byte. -/
@[mk_iff] structure Masked (b : UInt8) : Prop where
  whole : b &&& 0xFF = b
  qos : (b >>> 4) &&& 8 ≠ 0 ↔ b &&& 0x80 ≠ 0
  type : ((b >>> 2) &&& 3 : UInt8) = ((b &&& 0x8F) >>> 2) &&& 3
  ordered : (b &&& 0xC7 ||| 0x40) &&& 0x7F = b &&& 0x47 ||| 0x40
  control : ∀ qos : Bool, b &&& (if qos then 0x47 else 0xC7) =
    (b &&& (if qos then 0x47 else 0xC7) ||| 0x40) &&& (if b &&& 0x40 ≠ 0 then 0xFF else 0xBF)
  direction : (b ||| 0x40) &&& 3 = b &&& 3
  protect : (b ||| 0x40) &&& 0x40 ≠ 0
  extended : (0x20 ||| b) &&& 0x20 ≠ 0

theorem masked : ∀ b, Masked b := forall_byte fun n hn => by
  revert n hn
  simp only [masked_iff]
  decide +kernel

theorem header_iff (hdata : frameType f = 2) (hn : 0 < n) : ccmpHdrLen f = n ↔ Header n f := by
  have hqos : ((byteAt f 0 >>> 4) &&& 8 ≠ 0) = (isQos f = true) := by
    rw [isQos, decide_eq_true_eq, (masked _).qos]
  rw [ccmpHdrLen]
  simp only [hdata, if_true, hqos]
  obtain ⟨k, hk⟩ : ∃ k, 24 + (if toFromDs f then 6 else 0) + (if isQos f then 2 else 0) = k := ⟨_, rfl⟩
  rw [hk]
  constructor
  · intro h
    obtain hshort | hlong := Nat.lt_or_ge f.length 24
    · rw [if_pos hshort] at h
      omega
    · rw [if_neg (by omega)] at h
      obtain hin | hout := Nat.lt_or_ge f.length k
      · rw [if_neg (by omega)] at h
        omega
      · rw [if_pos hout] at h
        exact ⟨hdata, by rw [hk, h], h ▸ hout⟩
  · intro h
    have hroom := h.room
    have hsize := h.size
    rw [hk] at hsize
    rw [if_neg (by omega), if_pos (by omega), hsize]

namespace Header

variable {n : Nat} {f g : Bytes} (hf : Header n f)
include hf

theorem long : 24 ≤ n := by
  have := hf.size
  omega

theorem fourth_room (h : toFromDs f = true) : 30 ≤ n := by
  have hsize := hf.size
  rw [if_pos h] at hsize
  omega

theorem priority_room (h : isQos f = true) : 26 ≤ n ∧ (toFromDs f = true → 32 ≤ n) := by
  have hsize := hf.size
  rw [if_pos h] at hsize
  refine ⟨by omega, fun hds => ?_⟩
  rw [if_pos hds] at hsize
  omega

theorem alike_iff (hg : n ≤ g.length) : Alike n f g ↔ SameFields n f g := by
  have hlong := hf.long
  have hroom := hf.room
  constructor
  · intro h
    have hwhole : ∀ off len, off + len ≤ n → (isQos f = true → off + len + 2 ≤ n) →
        (∀ i, off ≤ i → i < off + len → i ∉ [0, 1, 2, 3, 22, 23]) → slice f off len = slice g off len := by
      intro off len hn hqos hout
      refine (slice_inj (by omega) (by omega)).mpr fun i hi hlt => ?_
      have hbyte := h i (by omega)
      rwa [lasting_whole (hout i hi hlt) (fun hq => by have := hqos hq; omega), (masked _).whole, (masked _).whole] at hbyte
    refine ⟨h 0 (by omega), h 1 (by omega),
      hwhole 4 18 (by omega) (fun hqos => by have := hf.priority_room hqos; omega) fun i _ _ => by simp; omega,
      h 22 (by omega), fun hds => ?_, fun hqos => ?_⟩
    · exact hwhole 24 6 (hf.fourth_room hds) (fun hqos => (hf.priority_room hqos).2 hds) fun i _ _ => by simp; omega
    · have := hf.priority_room hqos
      have hbyte := h (n - 2) (by omega)
      rwa [lasting, if_neg (by omega), if_neg (by omega), if_neg (by omega), if_neg (by omega),
        if_pos ⟨hqos, by omega⟩] at hbyte
  · intro h i hi
    have haddr := (slice_inj (by omega) (by omega)).mp h.addresses i
    unfold lasting
    split
    · rename_i h0
      rw [h0]
      exact h.first
    split
    · rename_i h1
      rw [h1]
      exact h.control
    split
    · rename_i h22
      rw [h22]
      exact h.fragment
    split
    · rw [UInt8.and_zero, UInt8.and_zero]
    split
    · rename_i hlast
      rw [show i = n - 2 by omega]
      exact h.priority hlast.1
    · rename_i h0 h1 h22 hgone hlast
      congr 1
      obtain hlow | hhigh := Nat.lt_or_ge i 24
      · exact haddr (by omega) (by omega)
      · have hsize := hf.size
        obtain hds | hds := Bool.eq_false_or_eq_true (toFromDs f)
        · rw [if_pos hds] at hsize
          refine (slice_inj (by omega) (by omega)).mp (h.fourth hds) i hhigh ?_
          split at hsize
          · rename_i hqos
            simp only [hqos, true_and] at hgone hlast
            omega
          · omega
        · rw [if_neg (by rw [hds]; nofun)] at hsize
          split at hsize
          · rename_i hqos
            simp only [hqos, true_and] at hgone hlast
            omega
          · omega

omit hf in
theorem type_qos_of_first (h : byteAt f 0 &&& 0x8F = byteAt g 0 &&& 0x8F) : frameType f = frameType g ∧ isQos f = isQos g := by
  refine ⟨?_, ?_⟩
  · rw [frameType, frameType, (masked _).type, h, ← (masked _).type]
  · have hbit : byteAt f 0 &&& 0x80 = byteAt g 0 &&& 0x80 := and_of_and h (by decide)
    rw [isQos, isQos, hbit]

theorem of_sameFields (h : SameFields n f g) (hg : n ≤ g.length) : Header n g ∧ isQos g = isQos f ∧ toFromDs g = toFromDs f := by
  obtain ⟨htype, hqos⟩ := type_qos_of_first h.first
  have hds : toFromDs f = toFromDs g := by
    have hcontrol := h.control
    rw [lasting_one] at hcontrol
    have hbits : byteAt f 1 &&& 3 = byteAt g 1 &&& 3 := and_of_and hcontrol (by split <;> decide)
    rw [toFromDs, toFromDs, hbits]
  exact ⟨⟨htype ▸ hf.data, by rw [← hds, ← hqos]; exact hf.size, hg⟩, hqos.symm, hds.symm⟩

theorem aad_nonce_eq (pn : Nat) : ccmpAadNonce f n pn =
    ((byteAt f 0 &&& 0x8F) :: (byteAt f 1 &&& lasting (isQos f) n 1 ||| 0x40) :: slice f 4 18 ++
      [byteAt f 22 &&& 0x0F, 0] ++ (if toFromDs f then slice f 24 6 else []) ++
      (if isQos f then [byteAt f (n - 2) &&& 0x0F, 0] else []),
    (if isQos f then byteAt f (n - 2) &&& 0x0F else 0) :: slice f 10 6 ++ pnBytes pn) := by
  have hsize := hf.size
  have hdec : decide (byteAt f 0 &&& 0x80 ≠ 0) = isQos f := rfl
  rw [ccmpAadNonce]
  simp only [hf.data, true_and, if_true, Bool.decide_and, hdec, Bool.decide_eq_true]
  cases hqos : isQos f <;> cases hds : toFromDs f <;> rw [hqos, hds] at hsize <;>
    simp [hsize, lasting_one, (masked _).ordered]

theorem aad_nonce_of_alike (hg : n ≤ g.length) (h : Alike n f g) (pn : Nat) :
    ccmpAadNonce f n pn = ccmpAadNonce g n pn := by
  have hin := hf.long
  have hroom := hf.room
  have hsame := (hf.alike_iff hg).mp h
  obtain ⟨hheader, hqos, hds⟩ := hf.of_sameFields hsame hg
  have hsource : slice f 10 6 = slice g 10 6 :=
    (slice_inj (by omega) (by omega)).mpr fun i hi hlt =>
      (slice_inj (by omega) (by omega)).mp hsame.addresses i (by omega) (by omega)
  have hfourth : (if toFromDs f then slice f 24 6 else []) = if toFromDs f then slice g 24 6 else [] := by
    split
    · exact hsame.fourth ‹_›
    · rfl
  have hpriority : (if isQos f then byteAt f (n - 2) &&& 0x0F else 0) = if isQos f then byteAt g (n - 2) &&& 0x0F else 0 := by
    split
    · exact hsame.priority ‹_›
    · rfl
  have htail : (if isQos f then [byteAt f (n - 2) &&& 0x0F, 0] else []) =
      if isQos f then [byteAt g (n - 2) &&& 0x0F, 0] else [] := by
    split
    · rw [hsame.priority ‹_›]
    · rfl
  rw [hf.aad_nonce_eq, hheader.aad_nonce_eq, hqos, hds, hsame.first, hsame.control, hsame.addresses, hsame.fragment, hsource,
    hfourth, hpriority, htail]

omit hf in
theorem sealed_control (h : isProtected f = isProtected g)
    (hor : byteAt f 1 &&& (if qos then 0x47 else 0xC7) ||| 0x40 = byteAt g 1 &&& (if qos then 0x47 else 0xC7) ||| 0x40) :
    byteAt f 1 &&& (if qos then 0x47 else 0xC7) = byteAt g 1 &&& (if qos then 0x47 else 0xC7) := by
  have hbit : (byteAt f 1 &&& 0x40 ≠ 0) = (byteAt g 1 &&& 0x40 ≠ 0) := propext (decide_eq_decide.mp h)
  have hf := (masked (byteAt f 1)).control qos
  have hg := (masked (byteAt g 1)).control qos
  rw [hf, hg, hor]
  simp only [hbit]

theorem aad_nonce_iff {m pn pn' : Nat} (hg : Header m g) (hprotected : isProtected f = isProtected g) (hpn : pn < 2 ^ 48)
    (hpn' : pn' < 2 ^ 48) : ccmpAadNonce f n pn = ccmpAadNonce g m pn' ↔ n = m ∧ Alike n f g ∧ pn = pn' := by
  have hin := hf.long
  have hroom := hf.room
  have hgroom := hg.room
  have hglong := hg.long
  constructor
  · intro h
    rw [hf.aad_nonce_eq, hg.aad_nonce_eq, Prod.mk.injEq] at h
    simp only [List.cons_append, List.append_assoc, List.cons.injEq] at h
    obtain ⟨⟨hfirst, hcontrol, haad⟩, -, hnonce⟩ := h
    have hqos := (type_qos_of_first hfirst).2
    obtain ⟨haddresses, hrest⟩ := List.append_inj haad (by rw [slice_length (by omega), slice_length (by omega)])
    simp only [List.nil_append, List.cons.injEq, true_and] at hrest
    obtain ⟨hfragment, hrest⟩ := hrest
    rw [lasting_one, lasting_one, ← hqos] at hcontrol
    have hlasting := sealed_control hprotected hcontrol
    have hds : toFromDs f = toFromDs g := by
      have hbits : byteAt f 1 &&& 3 = byteAt g 1 &&& 3 := and_of_and hlasting (by split <;> decide)
      rw [toFromDs, toFromDs, hbits]
    have hsize : n = m := by rw [hf.size, hg.size, hds, hqos]
    subst hsize
    rw [← hqos, ← hds] at hrest
    obtain ⟨hfourth, hpriority⟩ := List.append_inj hrest (by
      split
      · rw [slice_length (by have := hf.fourth_room ‹_›; omega), slice_length (by have := hf.fourth_room ‹_›; omega)]
      · rfl)
    refine ⟨rfl, (hf.alike_iff hgroom).mpr ⟨hfirst, hlasting, haddresses, hfragment, fun h => ?_, fun h => ?_⟩, ?_⟩
    · rwa [if_pos h, if_pos h] at hfourth
    · rw [if_pos h, if_pos h] at hpriority
      exact (List.cons.inj hpriority).1
    · have hnumber := congrArg beNat (List.append_inj_right hnonce (by rw [slice_length (by omega), slice_length (by omega)]))
      rw [pnBytes, pnBytes, beNat_beBytes, beNat_beBytes] at hnumber
      rwa [Nat.mod_eq_of_lt (by omega), Nat.mod_eq_of_lt (by omega)] at hnumber
  · rintro ⟨rfl, halike, rfl⟩
    exact hf.aad_nonce_of_alike hgroom halike pn

end Header

theorem alike_of_eq (h : ∀ i, i < n → byteAt f i = byteAt g i) : Alike n f g := fun i hi => by rw [h i hi]

theorem alike_protected (h : Alike n f g) (hn : 1 < n) : isProtected f = isProtected g := by
  have hcontrol := h 1 hn
  rw [lasting_one] at hcontrol
  have hbit : byteAt f 1 &&& 0x40 = byteAt g 1 &&& 0x40 := and_of_and hcontrol (by split <;> decide)
  rw [isProtected, isProtected, hbit]

/-! ## The frame -/

section Behind

variable {n : Nat} {f g : Bytes} (h : f.drop n = g.drop n)
include h

theorem slice_behind (hn : n ≤ off) : slice f off len = slice g off len := by
  have hoff : off = n + (off - n) := by omega
  rw [slice, slice, hoff, ← List.drop_drop, ← List.drop_drop, h]

theorem byteAt_behind (i : Nat) : byteAt f (n + i) = byteAt g (n + i) := by
  rw [← byteAt_drop, ← byteAt_drop, h]

theorem ccmpDecrypt_of_alike (tk : Bytes) (hf : Header n f) (hlen : f.length = g.length) (hsame : Alike n f g) :
    ccmpDecrypt kernel tk f n = ccmpDecrypt kernel tk g n := by
  have hlong := hf.long
  have hnumber : packetNumber f n = packetNumber g n := by rw [packetNumber, packetNumber, h]
  unfold ccmpDecrypt
  rw [hlen, alike_protected hsame (by omega), byteAt_behind h, hnumber]
  split
  · rfl
  next hshort =>
    rw [not_or, Nat.not_lt] at hshort
    simp only [hf.aad_nonce_of_alike (hlen ▸ hf.room) hsame, slice_behind h (Nat.le_add_right n CCMP_HDR_LEN),
      slice_behind h (show n ≤ g.length - CCMP_MIC_LEN by omega)]

end Behind

section Frame

variable {tk hdr body : Bytes} {pn : Nat} (keyId : Nat)

def protectedHeader (hdr : Bytes) : Bytes := put hdr 1 [byteAt hdr 1 ||| 0x40]

theorem protectedHeader_length (h : 24 ≤ hdr.length) : (protectedHeader hdr).length = hdr.length :=
  put_length_eq (show 1 + 1 ≤ hdr.length by omega)

theorem byteAt_one_protectedHeader (h : 24 ≤ hdr.length) :
    byteAt (protectedHeader hdr) 1 = byteAt hdr 1 ||| 0x40 :=
  byteAt_put_inside (k := 0) (by omega) Nat.one_pos

theorem Header.protect (h : Header n hdr) : Header n (protectedHeader hdr) := by
  have hin := h.long
  have hroom := h.room
  have hfirst : byteAt (protectedHeader hdr) 0 = byteAt hdr 0 := byteAt_put_before (by omega) (by decide)
  obtain ⟨htype, hqos⟩ := type_qos_of_first (f := protectedHeader hdr) (g := hdr) (by rw [hfirst])
  have hds : toFromDs (protectedHeader hdr) = toFromDs hdr := by
    rw [toFromDs, toFromDs, byteAt_one_protectedHeader (by omega), (masked _).direction]
  exact ⟨htype.trans h.data, by rw [hds, hqos]; exact h.size, by rwa [protectedHeader_length (by omega)]⟩

theorem ccmpHeader_number {rest : Bytes} (hpn : pn < 2 ^ 48)
    (hf : f.drop n = ccmpHeader pn keyId ++ rest) : packetNumber f n = pn := by
  rw [packetNumber, hf]
  simp only [ccmpHeader, List.cons_append, List.nil_append, byteAt, List.getD_cons_zero, List.getD_cons_succ, beNat,
    List.foldl_cons, List.foldl_nil, UInt8.toNat_ofNat']
  omega

theorem ccmpEncrypt_eq (nonce aad : Bytes)
    (h : ccmpAadNonce (protectedHeader hdr) hdr.length pn = (aad, nonce)) :
    ccmpEncrypt kernel tk pn keyId hdr body = protectedHeader hdr ++
      (ccmpHeader pn keyId ++ ((ccmEncrypt kernel tk nonce aad body).1 ++
        (ccmEncrypt kernel tk nonce aad body).2)) := by
  have hsplit : ccmpEncrypt kernel tk pn keyId hdr body = protectedHeader hdr ++ ccmpHeader pn keyId ++
      (ccmEncrypt kernel tk (ccmpAadNonce (protectedHeader hdr) hdr.length pn).2
        (ccmpAadNonce (protectedHeader hdr) hdr.length pn).1 body).1 ++
      (ccmEncrypt kernel tk (ccmpAadNonce (protectedHeader hdr) hdr.length pn).2
        (ccmpAadNonce (protectedHeader hdr) hdr.length pn).1 body).2 := rfl
  rw [hsplit, h]
  simp only [List.append_assoc]

theorem nonce_length {f : Bytes} {n : Nat} (hf : 24 ≤ f.length) : (ccmpAadNonce f n pn).2.length = 13 := by
  simp [ccmpAadNonce, slice, pnBytes]
  omega

section Undone

variable (hhdr : Header hdr.length hdr)
include hhdr

theorem nonce_of_sealed (pn : Nat) :
    ∃ aad nonce, ccmpAadNonce (protectedHeader hdr) hdr.length pn = (aad, nonce) ∧ nonce.length = 13 := by
  have hlong := hhdr.long
  have hlen := protectedHeader_length hlong
  exact ⟨_, _, rfl, nonce_length (by omega)⟩

theorem ccmpEncrypt_length :
    (ccmpEncrypt kernel tk pn keyId hdr body).length = hdr.length + CCMP_HDR_LEN + body.length + CCMP_MIC_LEN := by
  have hlong := hhdr.long
  have hlen := protectedHeader_length hlong
  obtain ⟨aad, nonce, haad, hnonce⟩ := nonce_of_sealed hhdr pn
  rw [@ccmpEncrypt_eq tk hdr body pn keyId nonce aad haad]
  simp only [List.length_append, hlen, mic_length_eight hnonce]
  rw [ccmEncrypt, ccmCrypt_length hnonce]
  change _ + (8 + _) = _ + 8 + _ + _
  omega

theorem byteAt_ccmpEncrypt (hi : i < hdr.length) :
    byteAt (ccmpEncrypt kernel tk pn keyId hdr body) i = byteAt (protectedHeader hdr) i := by
  rw [@ccmpEncrypt_eq tk hdr body pn keyId _ _ rfl, byteAt_append (by rwa [protectedHeader_length hhdr.long])]

theorem encrypted_alike : Alike hdr.length (protectedHeader hdr) (ccmpEncrypt kernel tk pn keyId hdr body) :=
  alike_of_eq fun _ hi => (byteAt_ccmpEncrypt keyId hhdr hi).symm

theorem encrypted_header : Header hdr.length (ccmpEncrypt kernel tk pn keyId hdr body) := by
  have hroom : hdr.length ≤ (ccmpEncrypt kernel tk pn keyId hdr body).length := by
    rw [ccmpEncrypt_length keyId hhdr]
    omega
  have hsame := (hhdr.protect.alike_iff hroom).mp (encrypted_alike keyId hhdr)
  exact (hhdr.protect.of_sameFields hsame hroom).1

theorem encrypted_protected : isProtected (ccmpEncrypt kernel tk pn keyId hdr body) = true := by
  have hlong := hhdr.long
  rw [isProtected, byteAt_ccmpEncrypt keyId hhdr (by omega), byteAt_one_protectedHeader hlong, decide_eq_true_iff]
  exact (masked _).protect

theorem ccmpDecrypt_encrypt (hpn : pn < 2 ^ 48) :
    ccmpDecrypt kernel tk (ccmpEncrypt kernel tk pn keyId hdr body) hdr.length = some (body, pn) := by
  have hlong := hhdr.long
  have hlen := protectedHeader_length hlong
  obtain ⟨aad, nonce, haad, hnonce⟩ := nonce_of_sealed hhdr pn
  obtain ⟨c, mic, hsealed⟩ : ∃ c mic, ccmEncrypt kernel tk nonce aad body = (c, mic) := ⟨_, _, rfl⟩
  have hopen := (ccmDecrypt_iff hnonce).mpr hsealed
  have hmic : mic.length = CCMP_MIC_LEN := by
    rw [← @mic_length_eight tk nonce aad body hnonce, hsealed]
  have hc : c.length = body.length := by
    rw [← ccmCrypt_length (a := tk) hnonce body, ← show (ccmEncrypt kernel tk nonce aad body).1 = c by rw [hsealed]]
    rfl
  have hsize := @ccmpEncrypt_length tk hdr body pn keyId hhdr
  have hframe := @ccmpEncrypt_eq tk hdr body pn keyId nonce aad haad
  rw [hsealed] at hframe
  dsimp only at hframe
  have hrest : (ccmpEncrypt kernel tk pn keyId hdr body).drop hdr.length =
      ccmpHeader pn keyId ++ (c ++ mic) := by rw [hframe, List.drop_left' hlen]
  have hbody : (ccmpEncrypt kernel tk pn keyId hdr body).drop (hdr.length + CCMP_HDR_LEN) = c ++ mic := by
    rw [← List.drop_drop, hrest]
    rfl
  have hext : byteAt (ccmpEncrypt kernel tk pn keyId hdr body) (hdr.length + 3) &&& 0x20 ≠ 0 := by
    rw [← byteAt_drop, hrest]
    exact (masked _).extended
  have hn : (ccmpEncrypt kernel tk pn keyId hdr body).length - hdr.length - CCMP_HDR_LEN - CCMP_MIC_LEN =
      c.length := by omega
  have hslice : slice (ccmpEncrypt kernel tk pn keyId hdr body) (hdr.length + CCMP_HDR_LEN) c.length = c := by
    rw [slice, hbody, List.take_left' rfl]
  have htag : slice (ccmpEncrypt kernel tk pn keyId hdr body)
      ((ccmpEncrypt kernel tk pn keyId hdr body).length - CCMP_MIC_LEN) CCMP_MIC_LEN = mic := by
    rw [slice, hsize, Nat.add_sub_cancel, ← hc, ← List.drop_drop, hbody, List.drop_left' rfl,
      List.take_of_length_le hmic.le]
  have hnumber := ccmpHeader_number keyId hpn hrest
  have hagain := hhdr.protect.aad_nonce_of_alike (by omega) (@encrypted_alike tk hdr body pn keyId hhdr) pn
  rw [haad] at hagain
  rw [ccmpDecrypt, if_neg (by rw [encrypted_protected keyId hhdr]; simp; omega), if_neg hext]
  dsimp only
  rw [hnumber, ← hagain, hn, hslice, htag]
  dsimp only
  rw [hopen]
  rfl

end Undone

end Frame

/-- A data frame's header with QoS control, priority 5. -/
def qosHeader : Bytes := [0x88, 0x02, 0, 0] ++ List.replicate 18 7 ++ [0x30, 0x12, 5, 0]

def qosFrame : Bytes := ccmpEncrypt kernel Crypto.countingKey 7 1 qosHeader (ascii "hello")

theorem qosHeader_header : Header qosHeader.length qosHeader := (header_iff (by decide) (by decide)).mp (by decide)

theorem qosFrame_length : qosFrame.length = 47 := ccmpEncrypt_length 1 qosHeader_header

theorem byteAt_qosFrame (hi : i < 26) : byteAt qosFrame i = byteAt (protectedHeader qosHeader) i :=
  byteAt_ccmpEncrypt 1 qosHeader_header hi

theorem qosFrame_put {i : Nat} {b : UInt8} (hi : i < 26)
    (hb : byteAt (protectedHeader qosHeader) i &&& lasting true 26 i = b &&& lasting true 26 i) :
    (put qosFrame i [b]).length = qosFrame.length ∧ (put qosFrame i [b]).drop 26 = qosFrame.drop 26 ∧
      Alike 26 qosFrame (put qosFrame i [b]) := by
  have hlen := qosFrame_length
  refine ⟨put_length_eq (by rw [hlen, List.length_singleton]; omega), ?_, fun k hk => ?_⟩
  · have hhead : (qosFrame.take i ++ [b]).length = i + 1 := by
      rw [List.length_append, List.length_take, List.length_singleton]
      omega
    rw [put, List.drop_append, hhead, List.drop_of_length_le (by omega), List.nil_append, List.drop_drop, List.length_singleton]
    congr 1
    omega
  · have hqos : isQos qosFrame = true := by
      rw [isQos, byteAt_qosFrame (by decide)]
      decide
    rw [hqos]
    obtain hlt | rfl | hgt := Nat.lt_trichotomy k i
    · rw [byteAt_put_before (by omega) hlt]
    · have hself : byteAt (put qosFrame k [b]) k = b := byteAt_put_inside (k := 0) (by omega) Nat.one_pos
      rw [byteAt_qosFrame hk, hb, hself]
    · rw [byteAt_put_behind (by rw [hlen, List.length_singleton]; omega) (by rw [List.length_singleton]; omega)]

end Zelr.Wlan
