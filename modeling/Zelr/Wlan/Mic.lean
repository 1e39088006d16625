import Zelr.Crypto.Digest
import Zelr.Crypto.KeyWrap
import Zelr.Wlan.Wpa

/-!
# What the signature on a handshake message covers

`mic_of` of `kernel/wpa.c` hashes a copy of the message, and the copy holds 256 bytes.
-/

namespace Zelr.Wlan

variable {frame mic other : Bytes}

def kernel : Primitives where
  pbkdf2Sha1 := Crypto.pbkdf2Sha1
  hmacSha1 := Crypto.hmacSha1
  aesEncryptBlock key block :=
    match Crypto.aesSetKey key 128 with
    | some a => Crypto.aesEncryptBlock a block
    | none => block
  aesUnwrapKey kek input := Crypto.aesUnwrapKey kek 128 input

def cleared (frame : Bytes) : Bytes := put frame EAPOL_MIC_OFFSET (List.replicate MIC_LEN 0)

/-- The copy `mic_of` hashes. -/
def checked (frame : Bytes) : Bytes :=
  let copy := frame.take 256
  if copy.length ≥ EAPOL_MIC_OFFSET + MIC_LEN then cleared copy else copy

theorem micOf_eq (C : Primitives) (kck frame : Bytes) :
    micOf C kck frame = (C.hmacSha1 kck (checked frame)).take MIC_LEN := rfl

/-- The signature covers the message: what is signed passes, and the hash is of all of it, every byte but the signature's
own. -/
def MicCovers (kck frame : Bytes) : Prop :=
  (wpaCheckMic kernel kck frame = true ↔
    slice frame EAPOL_MIC_OFFSET MIC_LEN = (Crypto.Fips.hmac Crypto.Fips.sha1 kck (cleared frame)).take MIC_LEN) ∧
  wpaCheckMic kernel kck (wpaSign kernel kck frame) = true ∧
  ∀ i, i < frame.length → (i < EAPOL_MIC_OFFSET ∨ EAPOL_MIC_OFFSET + MIC_LEN ≤ i) →
    ∀ b, b ≠ byteAt frame i → checked (frame.set i b) ≠ checked frame

/-! ## The field and the rest -/

theorem cleared_put (hframe : EAPOL_MIC_OFFSET + MIC_LEN ≤ frame.length)
    (hmic : mic.length = MIC_LEN) : cleared (put frame EAPOL_MIC_OFFSET mic) = cleared frame := by
  have hhead : (frame.take EAPOL_MIC_OFFSET).length = EAPOL_MIC_OFFSET := by
    rw [List.length_take]
    omega
  have hfront : (frame.take EAPOL_MIC_OFFSET ++ mic).length = EAPOL_MIC_OFFSET + MIC_LEN := by
    rw [List.length_append, hhead, hmic]
  rw [cleared, cleared, put, put, put, List.length_replicate, hmic, List.drop_left' hfront, List.append_assoc _ mic,
    List.take_left' hhead]

theorem byteAt_cleared {i : Nat} (hframe : EAPOL_MIC_OFFSET + MIC_LEN ≤ frame.length)
    (hi : i < EAPOL_MIC_OFFSET ∨ EAPOL_MIC_OFFSET + MIC_LEN ≤ i) : byteAt (cleared frame) i = byteAt frame i := by
  obtain hi | hi := hi
  · exact byteAt_put_before (by omega) hi
  · exact byteAt_put_behind (by rwa [List.length_replicate]) (by rwa [List.length_replicate])

theorem checked_whole (hmin : EAPOL_MIN_LEN ≤ frame.length) (h : frame.length ≤ 256) :
    checked frame = cleared frame := by
  rw [checked, List.take_of_length_le h]
  exact if_pos (le_trans (by decide) hmin)

theorem checked_congr (h : frame.take 256 = other.take 256) : checked frame = checked other := by
  rw [checked, checked, h]

theorem take_put_mic (hframe : EAPOL_MIN_LEN ≤ frame.length) (hmic : mic.length = MIC_LEN) :
    (put frame EAPOL_MIC_OFFSET mic).take 256 = put (frame.take 256) EAPOL_MIC_OFFSET mic := by
  have hmin : (99 : Nat) ≤ frame.length := hframe
  have hlen : mic.length = 16 := hmic
  change (put frame 81 mic).take 256 = put (frame.take 256) 81 mic
  have hhead : (frame.take 81 ++ mic).length = 97 := by
    rw [List.length_append, List.length_take, hlen]
    omega
  rw [put, put, hlen, List.take_append, List.take_of_length_le (by omega), hhead, List.take_take, List.drop_take]
  congr 2

theorem checked_put (hframe : EAPOL_MIN_LEN ≤ frame.length) (hmic : mic.length = MIC_LEN) :
    checked (put frame EAPOL_MIC_OFFSET mic) = checked frame := by
  have hmin : (99 : Nat) ≤ frame.length := hframe
  have hcopy : EAPOL_MIC_OFFSET + MIC_LEN ≤ (frame.take 256).length := by
    rw [List.length_take]
    change 97 ≤ _
    omega
  have hput : EAPOL_MIC_OFFSET + MIC_LEN ≤ (put (frame.take 256) EAPOL_MIC_OFFSET mic).length := by
    rw [← hmic]
    exact put_length _ _ (le_trans (by decide) hcopy)
  rw [checked, checked, take_put_mic hframe hmic]
  rw [if_pos hput, if_pos hcopy, cleared_put hcopy hmic]

/-! ## Signing and checking -/

theorem mic_length (kck frame : Bytes) : (micOf kernel kck frame).length = MIC_LEN := rfl

theorem check_sign {kck frame : Bytes} (hframe : EAPOL_MIN_LEN ≤ frame.length) :
    wpaCheckMic kernel kck (wpaSign kernel kck frame) = true := by
  have hmic := mic_length kck frame
  have hfield : slice (put frame EAPOL_MIC_OFFSET (micOf kernel kck frame)) EAPOL_MIC_OFFSET MIC_LEN =
      micOf kernel kck frame := by
    have hhead : (frame.take EAPOL_MIC_OFFSET).length = EAPOL_MIC_OFFSET := by
      rw [List.length_take]
      exact Nat.min_eq_left (le_trans (by decide) hframe)
    rw [slice, put, List.append_assoc, List.drop_left' hhead, List.take_left' hmic]
  have hlong : EAPOL_MIN_LEN ≤ (put frame EAPOL_MIC_OFFSET (micOf kernel kck frame)).length := by
    refine hframe.trans ?_
    simp only [put, List.length_append, List.length_take, List.length_drop]
    omega
  rw [wpaSign, if_neg (Nat.not_lt.mpr hframe), wpaCheckMic, decide_eq_true_iff]
  refine ⟨hlong, ?_⟩
  rw [hfield, micOf_eq, checked_put hframe hmic, ← micOf_eq]

theorem check_congr {kck : Bytes} (h : frame.take 256 = other.take 256)
    (hlen : frame.length = other.length) : wpaCheckMic kernel kck frame = wpaCheckMic kernel kck other := by
  have hfield : ∀ f : Bytes, slice f EAPOL_MIC_OFFSET MIC_LEN = slice (f.take 256) EAPOL_MIC_OFFSET MIC_LEN := by
    intro f
    rw [slice, slice, List.drop_take, List.take_take]
    rfl
  rw [wpaCheckMic, wpaCheckMic, micOf_eq, micOf_eq, checked_congr h, hfield frame, h, ← hfield other, hlen]

/-- The signature covers a message exactly when the copy holds it. -/
theorem micCovers_iff {kck frame : Bytes} (hkck : kck.length = KCK_LEN) (hmin : EAPOL_MIN_LEN ≤ frame.length) :
    MicCovers kck frame ↔ frame.length ≤ 256 := by
  constructor
  · rintro ⟨_, _, hevery⟩
    refine Nat.not_lt.mp fun hlong => ?_
    refine hevery 256 hlong (Or.inr (by decide)) (byteAt frame 256 + 1) ?_ (checked_congr ?_)
    · simp
    · rw [List.take_set_of_le le_rfl]
  · intro hshort
    have hin : EAPOL_MIC_OFFSET + MIC_LEN ≤ frame.length := le_trans (by decide) hmin
    refine ⟨?_, check_sign hmin, ?_⟩
    · have hsize : (cleared frame).length = frame.length := by
        simp only [cleared, put, List.length_append, List.length_take, List.length_drop, List.length_replicate]
        omega
      have hmac : kernel.hmacSha1 kck (cleared frame) = Crypto.Fips.hmac Crypto.Fips.sha1 kck (cleared frame) :=
        Crypto.hmacSha1_eq (by rw [hkck]; decide) (by omega)
      rw [wpaCheckMic, decide_eq_true_iff, micOf_eq, checked_whole hmin hshort, hmac]
      exact ⟨fun h => h.2.symm, fun h => ⟨hmin, h.symm⟩⟩
    · intro i hi hout b hb hsame
      have hlen : (frame.set i b).length = frame.length := List.length_set
      rw [checked_whole (by rw [hlen]; exact hmin) (by rw [hlen]; exact hshort), checked_whole hmin hshort] at hsame
      have hbyte := congrArg (byteAt · i) hsame
      rw [byteAt_cleared (by rw [hlen]; exact hin) hout, byteAt_cleared hin hout, byteAt,
        List.getD_eq_getElem?_getD, List.getElem?_set_self hi, Option.getD_some] at hbyte
      exact hb hbyte

/-- A message of 257 bytes with the header of a network's new group key. -/
def longMessage : Bytes := [2, 3, 0, 253, 2, 0x03, 0x82] ++ List.replicate 250 0

/-- Its last byte can be changed once it is signed. -/
theorem tail_unsigned :
    ¬ MicCovers Crypto.countingKey longMessage ∧
    wpaCheckMic kernel Crypto.countingKey (wpaSign kernel Crypto.countingKey longMessage) = true ∧
    wpaCheckMic kernel Crypto.countingKey ((wpaSign kernel Crypto.countingKey longMessage).set 256 1) = true := by
  have hsigned := @check_sign Crypto.countingKey longMessage (by decide +kernel)
  refine ⟨?_, hsigned, ?_⟩
  · rintro ⟨_, _, hevery⟩
    exact hevery 256 (by decide +kernel) (Or.inr (by decide)) 1 (by decide +kernel) (by decide +kernel)
  · exact (check_congr (List.take_set_of_le le_rfl) List.length_set).trans hsigned

theorem micCovers_short :
    MicCovers Crypto.countingKey (longMessage.take 200) ↔ (longMessage.take 200).length ≤ 256 :=
  micCovers_iff (by decide) (by decide +kernel)

end Zelr.Wlan
