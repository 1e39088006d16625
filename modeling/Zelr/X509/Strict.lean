import Mathlib.Data.Nat.Log
import Zelr.X509.Element
import Zelr.X509.Chain

/-!
# How strict the reader is about lengths

A number has one encoding as a DER length. `der_read` means to take only that one, and looks for
a length written too long where it is written in one octet; in two to four it takes any.
-/

namespace Zelr.X509

/-- The octets of a length in DER: itself below 128, else how many follow and no leading zero. -/
def lengthOctets (n : Nat) : Bytes :=
  if n < 0x80 then [UInt8.ofNat n]
  else UInt8.ofNat (0x80 + (Nat.log 256 n + 1)) :: beBytes (Nat.log 256 n + 1) n

def PaddedOctets (os : Bytes) : Prop := ∃ b bs, os = b :: 0 :: bs

/-! ## One length, one encoding -/

theorem log_beNat {b : UInt8} {bs : Bytes} (hb : b ≠ 0) :
    Nat.log 256 (beNat (b :: bs)) = bs.length := by
  have hlt := beNat_lt (b :: bs)
  rw [List.length_cons] at hlt
  refine Nat.log_eq_of_pow_le_of_lt_pow ?_ hlt
  have hpos : 1 ≤ b.toNat := by
    have hne : b.toNat ≠ 0 := fun hzero => hb (UInt8.toNat_inj.mp hzero)
    omega
  calc 256 ^ bs.length = 1 * 256 ^ bs.length := (Nat.one_mul _).symm
    _ ≤ b.toNat * 256 ^ bs.length := Nat.mul_le_mul_right _ hpos
    _ ≤ beNat (b :: bs) := by rw [beNat_cons]; exact Nat.le_add_right _ _

variable {n : Nat} {os : Bytes} {c : Slice} {d d' : Der} {t : UInt8}

theorem Length.eq_lengthOctets (h : Length os n)
    (hpad : ¬ PaddedOctets os) : os = lengthOctets n := by
  unfold lengthOctets
  cases h with
  | short b hb => rw [if_pos hb, UInt8.ofNat_toNat]
  | long b bs hb hsome hfour hone =>
    cases bs with
    | nil => exact absurd rfl hsome
    | cons x xs =>
      have hx : x ≠ 0 := fun hzero => hpad ⟨b, xs, by rw [hzero]⟩
      have hlog := @log_beNat x xs hx
      have hbig : ¬ beNat (x :: xs) < 0x80 := by
        by_cases hempty : xs = []
        · subst hempty
          exact Nat.not_lt.mpr (hone rfl)
        · have hpos := List.length_pos_iff.mpr hempty
          have hne : beNat (x :: xs) ≠ 0 := by
            intro hzero
            rw [hzero, Nat.log_zero_right] at hlog
            omega
          have hle := Nat.pow_log_le_self 256 hne
          have hone : 256 ^ 1 ≤ 256 ^ xs.length := Nat.pow_le_pow_right (by decide) hpos
          rw [hlog] at hle
          omega
      rw [if_neg hbig, hlog, show xs.length + 1 = (x :: xs).length from rfl, beBytes_beNat, ← hb,
        UInt8.ofNat_toNat]

theorem log_lt_four (h : n < 2 ^ 32) : Nat.log 256 n < 4 :=
  Nat.log_lt_of_lt_pow' (by decide) (by omega)

theorem lengthOctets_not_padded : ¬ PaddedOctets (lengthOctets n) := by
  rintro ⟨b, bs, heq⟩
  unfold lengthOctets at heq
  split at heq
  · simp at heq
  · next hbig =>
    simp only [beBytes, List.cons.injEq] at heq
    have hle := Nat.pow_log_le_self 256 (show n ≠ 0 by omega)
    have hlt := @Nat.lt_pow_succ_log_self 256 (by decide) n
    have hpos : 0 < 256 ^ Nat.log 256 n := Nat.pow_pos (by decide)
    have hone : 1 ≤ n / 256 ^ Nat.log 256 n := (Nat.one_le_div_iff hpos).mpr hle
    have h256 : n / 256 ^ Nat.log 256 n < 256 := by
      rw [Nat.div_lt_iff_lt_mul hpos]
      calc n < 256 ^ (Nat.log 256 n).succ := hlt
        _ = 256 * 256 ^ Nat.log 256 n := by rw [Nat.pow_succ, Nat.mul_comm]
    have hzero := congrArg UInt8.toNat heq.2.1
    rw [UInt8.toNat_ofNat_of_lt' h256] at hzero
    simp at hzero
    omega

theorem Length.of_lengthOctets (h : n < 2 ^ 32) : Length (lengthOctets n) n := by
  unfold lengthOctets
  split
  · next hshort =>
    have hto : (UInt8.ofNat n).toNat = n := UInt8.toNat_ofNat_of_lt' (by simp only [UInt8.size]; omega)
    have hlength := Length.short (UInt8.ofNat n) (by rw [hto]; exact hshort)
    rwa [hto] at hlength
  · next hbig =>
    have hlog := log_lt_four h
    have hvalue : beNat (beBytes (Nat.log 256 n + 1) n) = n := by
      rw [beNat_beBytes]
      exact Nat.mod_eq_of_lt (Nat.lt_pow_succ_log_self (by decide) n)
    have hcount : (UInt8.ofNat (0x80 + (Nat.log 256 n + 1))).toNat = 0x80 + (Nat.log 256 n + 1) :=
      UInt8.toNat_ofNat_of_lt' (by simp only [UInt8.size]; omega)
    have hlength := Length.long (UInt8.ofNat (0x80 + (Nat.log 256 n + 1)))
      (beBytes (Nat.log 256 n + 1) n) (by rw [hcount, beBytes_length]) (by simp [beBytes])
      (by rw [beBytes_length]; omega) (fun _ => by rw [hvalue]; omega)
    rwa [hvalue] at hlength

/-! ## When the reader is strict -/

/-- The element at a reader has a length in two to four octets of which the first is zero, and
fits. -/
def Padded (d : Der) : Prop :=
  ∃ k, 2 ≤ k ∧ k ≤ 4 ∧ (byteAt d.buf (d.p + 1)).toNat = 0x80 + k ∧ byteAt d.buf (d.p + 2) = 0 ∧
    d.p + 2 + k + beNat (Slice.bytes ⟨d.buf, d.p + 2, k⟩) ≤ d.stop

theorem Reads.header_bytes {b : UInt8} {bs : Bytes}
    (hin : d.Inside) (h : Reads d (b :: bs) t c d') :
    byteAt d.buf (d.p + 1) = b ∧ Slice.bytes ⟨d.buf, d.p + 2, bs.length⟩ = bs := by
  have hheader := h.header
  have hfits := h.fits
  have hstop := hin.stop_le
  rw [List.length_cons] at hheader hfits
  rw [show 1 + (bs.length + 1) = bs.length + 1 + 1 by omega, bytes_cons _ _ _ (by omega),
    bytes_cons _ _ _ (by omega)] at hheader
  simp only [List.cons.injEq] at hheader
  exact hheader.2

theorem Reads.octets_eq {os' : Bytes} {t' : UInt8} {d'' : Der}
    (h : Reads d os t c d') (h' : Reads d os' t' c d'') : os = os' := by
  have hoff := h.content
  rw [h'.content] at hoff
  have hlen : os'.length = os.length := by
    have := congrArg Slice.off hoff
    simp only at this
    omega
  have hheader := h.header
  rw [← hlen, h'.header] at hheader
  exact (List.cons.inj hheader).2.symm

theorem Reads.padded (hin : d.Inside)
    (h : Reads d os t c d') (hlen : Length os c.len) (hpad : PaddedOctets os) : Padded d := by
  obtain ⟨b, bs, rfl⟩ := hpad
  obtain ⟨hb, hbs⟩ := h.header_bytes hin
  obtain ⟨buf, off, len⟩ := c
  have hfits := h.fits
  simp only at hlen hfits
  cases hlen with
  | long _ _ hcount _ hfour hone =>
    simp only [List.length_cons] at hcount hfour hone hfits hbs
    have hzero : byteAt d.buf (d.p + 2) = 0 := by
      rw [bytes_cons _ _ _ (by have := hin.stop_le; omega)] at hbs
      exact (List.cons.inj hbs).1
    refine ⟨bs.length + 1, ?_, hfour, by rw [hb, hcount], hzero, ?_⟩
    · by_contra hshort
      have hnil : bs = [] := List.length_eq_zero_iff.mp (by omega)
      subst hnil
      simp [beNat] at hone
    · rw [hbs]
      omega

theorem Padded.reads (hin : d.Inside) (h : Padded d) :
    ∃ os t c d', PaddedOctets os ∧ Length os c.len ∧ Reads d os t c d' := by
  obtain ⟨k, htwo, hfour, hcount, hzero, hfits⟩ := h
  have hstop := hin.stop_le
  obtain ⟨k, rfl⟩ : ∃ j, k = j + 1 := ⟨k - 1, by omega⟩
  have hbs := bytes_cons d.buf (d.p + 2) k (by omega)
  rw [hzero] at hbs
  have hlen : (Slice.bytes ⟨d.buf, d.p + 2, k + 1⟩).length = k + 1 :=
    bytes_length (by unfold Within; simp only; omega)
  have hheader : Slice.bytes ⟨d.buf, d.p, 1 + (k + 2)⟩ =
      byteAt d.buf d.p :: byteAt d.buf (d.p + 1) :: Slice.bytes ⟨d.buf, d.p + 2, k + 1⟩ := by
    rw [show 1 + (k + 2) = k + 1 + 1 + 1 by omega, bytes_cons _ _ _ (by omega),
      bytes_cons _ _ _ (by omega)]
  generalize Slice.bytes ⟨d.buf, d.p + 2, k + 1⟩ = bs at hbs hlen hheader hfits
  refine ⟨byteAt d.buf (d.p + 1) :: bs, byteAt d.buf d.p, ⟨d.buf, d.p + 2 + (k + 1), beNat bs⟩,
    { d with p := d.p + 2 + (k + 1) + beNat bs }, ⟨_, _, by rw [hbs]⟩, ?_, ?_⟩
  · refine Length.long _ bs (by rw [hlen]; exact hcount) (by rw [hbs]; simp) (by omega) ?_
    intro hone
    omega
  · have htotal : d.p + 1 + (byteAt d.buf (d.p + 1) :: bs).length = d.p + 2 + (k + 1) := by
      rw [List.length_cons, hlen]
      omega
    refine ⟨?_, by rw [htotal], by rw [htotal], by rw [htotal]; exact hfits⟩
    rw [List.length_cons, hlen]
    exact hheader

/-- The reader takes exactly the DER elements, where no padded one stands before it; what a
parse hands out lies inside what it was given. -/
theorem derRead_strict_iff (d : Der) (hin : d.Inside) (hlen : d.stop - d.p < 2 ^ 32) :
    ((∀ t c d', derRead d = some (t, c, d') ↔ Reads d (lengthOctets c.len) t c d') ↔ ¬ Padded d) ∧
      ∀ der cert, x509Parse der = some cert → ∀ s ∈ cert.fields, Of der s := by
  refine ⟨?_, fun der cert hparse => x509Parse_fields hparse⟩
  constructor
  · intro hstrict hpad
    obtain ⟨os, t, c, d', hoctets, hlength, hreads⟩ := hpad.reads hin
    have hread := (derRead_iff hin).mpr ⟨os, hlength, hreads⟩
    have hder := (hstrict t c d').mp hread
    rw [hreads.octets_eq hder] at hoctets
    exact lengthOctets_not_padded hoctets
  · intro hpad t c d'
    constructor
    · intro hread
      obtain ⟨os, hlength, hreads⟩ := (derRead_iff hin).mp hread
      have hoctets : ¬ PaddedOctets os := fun hp => hpad (hreads.padded hin hlength hp)
      rw [← hlength.eq_lengthOctets hoctets]
      exact hreads
    · intro hreads
      have hfits := hreads.fits
      exact (derRead_iff hin).mpr ⟨_, Length.of_lengthOctets (by omega), hreads⟩

/-! ### Three bytes and five for one byte of content

A sequence holding one byte, with its length written in one octet and in two. -/

def plain : Der := derInit ⟨[0x30, 0x01, 0x05], 0, 3⟩

theorem plain_not_padded : ¬ Padded plain := by
  rintro ⟨k, -, -, hcount, -⟩
  have hone : (byteAt plain.buf (plain.p + 1)).toNat = 1 := by decide
  omega

theorem plain_strict :
    ¬ Padded plain ∧ ∀ t c d', derRead plain = some (t, c, d') ↔ Reads plain (lengthOctets c.len) t c d' :=
  ⟨plain_not_padded, (derRead_strict_iff plain ⟨by decide, by decide⟩ (by decide)).1.mpr plain_not_padded⟩

def overlong : Der := derInit ⟨[0x30, 0x82, 0x00, 0x01, 0x05], 0, 5⟩

theorem overlong_read :
    overlong.Inside ∧
    derRead overlong = some (DER_SEQ, ⟨overlong.buf, 4, 1⟩, { overlong with p := 5 }) ∧
    ¬ Reads overlong (lengthOctets 1) DER_SEQ ⟨overlong.buf, 4, 1⟩ { overlong with p := 5 } := by
  refine ⟨⟨by decide, by decide⟩, by decide, ?_⟩
  intro hreads
  have hcontent := hreads.content
  revert hcontent
  decide

end Zelr.X509
