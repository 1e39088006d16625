import Mathlib.Data.Nat.Bitwise
import Zelr.X509.Cert

/-!
# Elements as bytes

What `der_read` takes, as bytes: a tag, the octets of a length, and that many bytes of content.
-/

namespace Zelr.X509

variable {s : Slice} {want : UInt8} {ext tbs : Der} {left : Nat}

def Der.rest (d : Der) : Bytes := Slice.bytes ⟨d.buf, d.p, d.stop - d.p⟩

/-- A reader that is not past its end, with its end inside the buffer. -/
structure Der.Inside (d : Der) : Prop where
  p_le : d.p ≤ d.stop
  stop_le : d.stop ≤ d.buf.length

def Within (s : Slice) : Prop := s.off + s.len ≤ s.buf.length

/-- The octets of a length, as `der_read` takes them. -/
inductive Length : Bytes → Nat → Prop
  | short (b : UInt8) (hb : b.toNat < 0x80) : Length [b] b.toNat
  | long (b : UInt8) (bs : Bytes) (hb : b.toNat = 0x80 + bs.length) (hsome : bs ≠ [])
      (hfour : bs.length ≤ 4) (hone : bs.length = 1 → 0x80 ≤ beNat bs) :
      Length (b :: bs) (beNat bs)

/-- The element at a reader has this tag, these length octets and this content, and `d'` is the
reader after it. -/
structure Reads (d : Der) (os : Bytes) (t : UInt8) (c : Slice) (d' : Der) : Prop where
  header : Slice.bytes ⟨d.buf, d.p, 1 + os.length⟩ = t :: os
  content : c = ⟨d.buf, d.p + 1 + os.length, c.len⟩
  next : d' = { d with p := d.p + 1 + os.length + c.len }
  fits : d.p + 1 + os.length + c.len ≤ d.stop

theorem bytes_split (buf : Bytes) (p m n : Nat) :
    Slice.bytes ⟨buf, p, m + n⟩ = Slice.bytes ⟨buf, p, m⟩ ++ Slice.bytes ⟨buf, p + m, n⟩ := by
  simp only [Slice.bytes]
  rw [List.take_add, List.drop_drop]

theorem bytes_cons (buf : Bytes) (p n : Nat) (hp : p < buf.length) :
    Slice.bytes ⟨buf, p, n + 1⟩ = byteAt buf p :: Slice.bytes ⟨buf, p + 1, n⟩ := by
  simp only [Slice.bytes, byteAt]
  rw [List.drop_eq_getElem_cons hp, List.take_succ_cons, List.getD_eq_getElem _ _ hp]

theorem bytes_length (h : Within s) : s.bytes.length = s.len := by
  unfold Within at h
  simp only [Slice.bytes, List.length_take, List.length_drop]
  omega

variable {c : Slice} {d d' : Der} {t : UInt8} {buf : Bytes} {out out' : Exts}

theorem Reads.rest_eq {os : Bytes}
    (h : Reads d os t c d') : d.rest = t :: os ++ c.bytes ++ d'.rest := by
  obtain ⟨hheader, hcontent, rfl, hfits⟩ := h
  have hc : c.bytes = Slice.bytes ⟨d.buf, d.p + (1 + os.length), c.len⟩ := by
    rw [hcontent]
    simp only [Nat.add_assoc]
  have hlen : d.stop - d.p = (1 + os.length) + (c.len + (d.stop - (d.p + 1 + os.length + c.len))) := by
    omega
  unfold Der.rest
  rw [hlen, bytes_split _ _ (1 + os.length), bytes_split _ _ c.len, hheader, hc, List.append_assoc]
  simp only [Nat.add_assoc]

theorem and_high (n : Nat) (h : n < 256) : n &&& 0x80 ≠ 0 ↔ 0x80 ≤ n := by
  have hand : n &&& 0x80 = (n.testBit 7).toNat * 2 ^ 7 := Nat.and_two_pow n 7
  rw [hand, Nat.testBit_eq_decide_div_mod_eq]
  by_cases hbit : n / 2 ^ 7 % 2 = 1
  · simp only [hbit, decide_true, Bool.toNat_true]
    omega
  · simp only [hbit, decide_false, Bool.toNat_false]
    omega

theorem and_low (n : Nat) : n &&& 0x7f = n % 128 := Nat.and_two_pow_sub_one_eq_mod n 7

theorem derTake_iff {tag : UInt8} {p n : Nat} :
    derTake d tag p n = some (t, c, d') ↔
      n ≤ d.stop - p ∧ t = tag ∧ c = ⟨d.buf, p, n⟩ ∧ d' = { d with p := p + n } := by
  unfold derTake
  split
  · next h => simp [Nat.not_le.mpr h]
  · next h =>
    simp only [Option.some.injEq, Prod.mk.injEq, Nat.not_lt.mp h, true_and]
    constructor
    · rintro ⟨rfl, rfl, rfl⟩
      exact ⟨rfl, rfl, rfl⟩
    · rintro ⟨rfl, rfl, rfl⟩
      exact ⟨rfl, rfl, rfl⟩

theorem derRead_short (hroom : d.p + 2 ≤ d.stop)
    (hshort : (byteAt d.buf (d.p + 1)).toNat < 0x80) :
    derRead d =
      derTake d (byteAt d.buf d.p) (d.p + 2) (byteAt d.buf (d.p + 1)).toNat := by
  have hlt : ¬ d.stop - d.p < 2 := by omega
  have hhigh := and_high _ (byteAt d.buf (d.p + 1)).toNat_lt
  unfold derRead
  rw [if_neg hlt]
  dsimp only
  rw [if_neg (by omega), if_neg (by rw [hhigh]; omega)]

theorem derRead_long (hroom : d.p + 2 ≤ d.stop)
    (hlong : 0x80 ≤ (byteAt d.buf (d.p + 1)).toNat) :
    derRead d =
      (let count := (byteAt d.buf (d.p + 1)).toNat - 0x80
       let n := beNat (Slice.bytes ⟨d.buf, d.p + 2, count⟩)
       if count = 0 ∨ 4 < count ∨ d.stop < d.p + 2 + count ∨ count = 1 ∧ n < 0x80 then none
       else derTake d (byteAt d.buf d.p) (d.p + 2 + count) n) := by
  have hlt : ¬ d.stop - d.p < 2 := by omega
  have h256 := (byteAt d.buf (d.p + 1)).toNat_lt
  have hhigh := and_high _ h256
  have hcount : (byteAt d.buf (d.p + 1)).toNat &&& 0x7f = (byteAt d.buf (d.p + 1)).toNat - 0x80 := by
    rw [and_low]
    omega
  unfold derRead
  rw [if_neg hlt]
  dsimp only
  rw [hcount]
  by_cases h0 : (byteAt d.buf (d.p + 1)).toNat = 0x80
  · rw [if_pos h0, if_pos (by omega)]
  · have hsome : (byteAt d.buf (d.p + 1)).toNat - 0x80 ≠ 0 := by omega
    rw [if_neg h0, if_pos (hhigh.mpr hlong)]
    generalize (byteAt d.buf (d.p + 1)).toNat - 0x80 = count at hsome ⊢
    generalize beNat _ = n
    split_ifs <;> first | rfl | omega

theorem derRead_iff (hin : d.Inside) :
    derRead d = some (t, c, d') ↔ ∃ os, Length os c.len ∧ Reads d os t c d' := by
  obtain ⟨hp, hstop⟩ := hin
  constructor
  · intro h
    have hroom : d.p + 2 ≤ d.stop := (derRead_advances h).2.2
    have htwo : Slice.bytes ⟨d.buf, d.p, 2⟩ = [byteAt d.buf d.p, byteAt d.buf (d.p + 1)] := by
      rw [bytes_cons _ _ 1 (by omega), bytes_cons _ _ 0 (by omega)]
      simp [Slice.bytes]
    by_cases hshort : (byteAt d.buf (d.p + 1)).toNat < 0x80
    · rw [derRead_short hroom hshort, derTake_iff] at h
      obtain ⟨hn, rfl, rfl, rfl⟩ := h
      exact ⟨_, Length.short _ hshort, htwo, rfl, rfl, by simp only [List.length_singleton]; omega⟩
    · rw [derRead_long hroom (by omega)] at h
      dsimp only at h
      generalize hcount : (byteAt d.buf (d.p + 1)).toNat - 0x80 = count at h
      split at h
      · cases h
      · next hok =>
        rw [derTake_iff] at h
        obtain ⟨hn, rfl, rfl, rfl⟩ := h
        have hlen : (Slice.bytes ⟨d.buf, d.p + 2, count⟩).length = count :=
          bytes_length (by unfold Within; simp only; omega)
        refine ⟨byteAt d.buf (d.p + 1) :: Slice.bytes ⟨d.buf, d.p + 2, count⟩, ?_, ?_, ?_, ?_, ?_⟩
        · refine Length.long _ (Slice.bytes ⟨d.buf, d.p + 2, count⟩) (by omega) ?_ (by omega) (by omega)
          intro hnil
          rw [hnil] at hlen
          simp only [List.length_nil] at hlen
          omega
        · rw [show 1 + (byteAt d.buf (d.p + 1) :: Slice.bytes ⟨d.buf, d.p + 2, count⟩).length
            = 2 + count by rw [List.length_cons, hlen]; omega, bytes_split, htwo]
          simp only [List.cons_append, List.nil_append]
        · rw [List.length_cons, hlen, show d.p + 1 + (count + 1) = d.p + 2 + count by omega]
        · rw [List.length_cons, hlen, show d.p + 1 + (count + 1) = d.p + 2 + count by omega]
        · rw [List.length_cons, hlen]
          simp only
          omega
  · rintro ⟨os, hlen, hheader, hcontent, rfl, hfits⟩
    cases os with
    | nil => cases hlen
    | cons b bs =>
      simp only [List.length_cons] at hheader hcontent hfits
      have hroom : d.p + 2 ≤ d.stop := by omega
      rw [show 1 + (bs.length + 1) = bs.length + 1 + 1 by omega, bytes_cons _ _ _ (by omega),
        bytes_cons _ _ _ (by omega)] at hheader
      simp only [List.cons.injEq] at hheader
      obtain ⟨ht, hb, hbs⟩ := hheader
      obtain ⟨buf, off, len⟩ := c
      simp only [Slice.mk.injEq, and_true] at hcontent hfits hlen
      obtain ⟨rfl, rfl⟩ := hcontent
      cases hlen with
      | short _ hlt =>
        rw [derRead_short hroom (by rw [hb]; exact hlt), derTake_iff]
        simp only [List.length_nil] at hfits ⊢
        exact ⟨by rw [hb]; omega, ht.symm, by rw [hb], by rw [hb]; simp⟩
      | long _ _ hcount hsome hfour hone =>
        rw [derRead_long hroom (by rw [hb]; omega)]
        have hc : (byteAt d.buf (d.p + 1)).toNat - 0x80 = bs.length := by rw [hb]; omega
        dsimp only
        rw [hc, show d.p + 2 = d.p + 1 + 1 from rfl, hbs, if_neg, derTake_iff]
        · refine ⟨by omega, ht.symm, ?_, ?_⟩
          · rw [show d.p + 1 + (bs.length + 1) = d.p + 1 + 1 + bs.length by omega]
          · simp only [List.length_cons, Der.mk.injEq, true_and, and_true]
            omega
        · have hpos := List.length_pos_iff.mpr hsome
          omega

/-! ## Every reader stays in the buffer it was given -/

/-- A pointer into this buffer, with a length that stays in it. -/
structure Of (buf : Bytes) (s : Slice) : Prop where
  buf_eq : s.buf = buf
  within : Within s

structure Over (buf : Bytes) (d : Der) : Prop where
  buf_eq : d.buf = buf
  inside : d.Inside

theorem of_bind_some {α β : Type} {x : Option α} {f : α → Option β} {b : β}
    (h : (x >>= f) = some b) : ∃ a, x = some a ∧ f a = some b :=
  Option.bind_eq_some_iff.mp h

theorem derInit_over (h : Of buf s) : Over buf (derInit s) :=
  ⟨h.buf_eq, ⟨by simp [derInit], h.within⟩⟩

theorem between_of (h : Over buf d) (h' : Over buf d')
    (hle : d.p ≤ d'.p) : Of buf (between d d') := by
  have hp := h'.inside.p_le
  have hstop := h'.inside.stop_le
  rw [h'.buf_eq, ← h.buf_eq] at hstop
  refine ⟨h.buf_eq, ?_⟩
  unfold Within between
  simp only
  omega

theorem derRead_over (hd : Over buf d)
    (h : derRead d = some (t, c, d')) : Of buf c ∧ Over buf d' ∧ d.p ≤ d'.p := by
  obtain ⟨os, -, hreads⟩ := (derRead_iff hd.inside).mp h
  obtain ⟨-, hc, rfl, hfits⟩ := hreads
  have hstop := hd.inside.stop_le
  refine ⟨⟨by rw [hc]; exact hd.buf_eq, ?_⟩, ⟨hd.buf_eq, ⟨hfits, hstop⟩⟩, by simp only; omega⟩
  rw [hc]
  unfold Within
  simp only
  omega

theorem derExpect_over (hd : Over buf d)
    (h : derExpect d want = some (c, d')) : Of buf c ∧ Over buf d' ∧ d.p ≤ d'.p := by
  unfold derExpect at h
  split at h
  · cases h
  · next tag c0 d0 hread =>
    split at h
    · simp only [Option.some.injEq, Prod.mk.injEq] at h
      obtain ⟨rfl, rfl⟩ := h
      exact derRead_over hd hread
    · cases h

theorem derEnter_over {inner : Der} (hd : Over buf d)
    (h : derEnter d want = some (inner, d')) :
    Over buf inner ∧ Over buf d' ∧ d.p ≤ d'.p := by
  unfold derEnter at h
  split at h
  · cases h
  · next c d0 hexpect =>
    simp only [Option.some.injEq, Prod.mk.injEq] at h
    obtain ⟨rfl, rfl⟩ := h
    obtain ⟨hc, hd', hle⟩ := derExpect_over hd hexpect
    exact ⟨derInit_over hc, hd', hle⟩

/-! ## The extensions -/

theorem parseExtValue_of (hext : Over buf ext)
    (h : parseExtValue ext = some c) : Of buf c := by
  unfold parseExtValue at h
  obtain ⟨⟨tag, c1, after⟩, hread, h⟩ := of_bind_some h
  obtain ⟨hc1, hafter, -⟩ := derRead_over hext hread
  dsimp only at h
  split at h
  · obtain ⟨⟨tag2, c2, after2⟩, hread2, h⟩ := of_bind_some h
    obtain ⟨hc2, -, -⟩ := derRead_over hafter hread2
    dsimp only at h
    split at h
    · cases h
      exact hc2
    · cases h
  · split at h
    · cases h
      exact hc1
    · cases h

theorem parseBasicConstraints_san {value : Slice}
    (h : parseBasicConstraints value out = some out') : out'.san = out.san := by
  unfold parseBasicConstraints at h
  obtain ⟨⟨inner, _⟩, -, h⟩ := of_bind_some h
  obtain ⟨⟨isCa, inner'⟩, -, h⟩ := of_bind_some h
  cases h
  rfl

def SanOf (buf : Bytes) (out : Exts) : Prop := ∀ san, out.san = some san → Of buf san

theorem parseExtension_san (hext : Over buf ext)
    (hout : SanOf buf out) (h : parseExtension ext out = some out') : SanOf buf out' := by
  unfold parseExtension at h
  obtain ⟨⟨oid, ext1⟩, hoid, h⟩ := of_bind_some h
  obtain ⟨c, hvalue, h⟩ := of_bind_some h
  obtain ⟨-, hext1, -⟩ := derExpect_over hext hoid
  have hc := parseExtValue_of hext1 hvalue
  split_ifs at h
  · intro san hsan
    exact hout san (parseBasicConstraints_san h ▸ hsan)
  · cases h
    intro san hsan
    cases hsan
    exact hc
  · cases h
    exact hout

theorem parseExtensions_san {exts : Der}
    (hexts : Over buf exts) (hout : SanOf buf out)
    (h : parseExtensions left exts out = some out') : SanOf buf out' := by
  induction left generalizing exts out with
  | zero =>
    cases h
    exact hout
  | succ left ih =>
    unfold parseExtensions at h
    split at h
    · cases h
      exact hout
    · obtain ⟨⟨ext, exts1⟩, henter, h⟩ := of_bind_some h
      obtain ⟨out1, hone, h⟩ := of_bind_some h
      obtain ⟨hext, hexts1, -⟩ := derEnter_over hexts henter
      exact ih hexts1 (parseExtension_san hext hout hone) h

theorem parseTrailer_san
    (htbs : Over buf tbs) (hout : SanOf buf out)
    (h : parseTrailer left tbs out = some out') : SanOf buf out' := by
  induction left generalizing tbs out with
  | zero =>
    cases h
    exact hout
  | succ left ih =>
    unfold parseTrailer at h
    split at h
    · cases h
      exact hout
    · obtain ⟨⟨tag, c, tbs1⟩, hread, h⟩ := of_bind_some h
      obtain ⟨hc, htbs1, -⟩ := derRead_over htbs hread
      dsimp only at h
      split at h
      · obtain ⟨⟨exts, _⟩, henter, h⟩ := of_bind_some h
        obtain ⟨out1, hexts, h⟩ := of_bind_some h
        obtain ⟨hover, -, -⟩ := derEnter_over (derInit_over hc) henter
        exact ih htbs1 (parseExtensions_san hover hout hexts) h
      · exact ih htbs1 hout h

theorem skipVersion_over {tbs' : Der} (htbs : Over buf tbs)
    (h : skipVersion tbs = some tbs') : Over buf tbs' := by
  unfold skipVersion at h
  obtain ⟨⟨tag, c, after⟩, hread, h⟩ := of_bind_some h
  obtain ⟨-, hafter, -⟩ := derRead_over htbs hread
  cases h
  split_ifs
  · exact hafter
  · exact htbs

/-! ## The whole certificate -/

/-- Every field of a certificate that is a pointer with a length. -/
def Cert.fields (cert : Cert) : List Slice :=
  [cert.tbs, cert.sig, cert.issuer, cert.subject] ++ cert.san.toList

theorem x509Parse_fields {der : Bytes} {cert : Cert} (h : x509Parse der = some cert) :
    ∀ s ∈ cert.fields, Of der s := by
  have htop : Over der (derInit ⟨der, 0, der.length⟩) :=
    derInit_over ⟨rfl, by simp [Within]⟩
  unfold x509Parse at h
  obtain ⟨⟨cert0, _⟩, hcert, h⟩ := of_bind_some h
  obtain ⟨⟨tbs0, cert1⟩, htbs, h⟩ := of_bind_some h
  obtain ⟨⟨oalg, cert2⟩, hoalg, h⟩ := of_bind_some h
  obtain ⟨⟨oid, _⟩, -, h⟩ := of_bind_some h
  obtain ⟨⟨sig, _⟩, hsig, h⟩ := of_bind_some h
  dsimp only at h
  split at h
  · cases h
  next hbits =>
  obtain ⟨tbs1, hversion, h⟩ := of_bind_some h
  obtain ⟨⟨_, tbs2⟩, hserial, h⟩ := of_bind_some h
  obtain ⟨⟨ialg, tbs3⟩, hialg, h⟩ := of_bind_some h
  obtain ⟨⟨ioid, _⟩, -, h⟩ := of_bind_some h
  dsimp only at h
  split at h
  · cases h
  obtain ⟨⟨_, tbs4⟩, hissuer, h⟩ := of_bind_some h
  obtain ⟨⟨validity, tbs5⟩, hvalidity, h⟩ := of_bind_some h
  obtain ⟨⟨t1, v1, validity1⟩, -, h⟩ := of_bind_some h
  obtain ⟨⟨t2, v2, _⟩, -, h⟩ := of_bind_some h
  obtain ⟨notBefore, -, h⟩ := of_bind_some h
  obtain ⟨notAfter, -, h⟩ := of_bind_some h
  obtain ⟨⟨_, tbs6⟩, hsubject, h⟩ := of_bind_some h
  obtain ⟨⟨_, tbs7⟩, hspki, h⟩ := of_bind_some h
  obtain ⟨key, -, h⟩ := of_bind_some h
  obtain ⟨exts, htrailer, h⟩ := of_bind_some h
  cases h
  -- the readers, one after the other
  obtain ⟨hcert0, -, -⟩ := derEnter_over htop hcert
  obtain ⟨htbs0, hcert1, hle1⟩ := derEnter_over hcert0 htbs
  obtain ⟨-, hcert2, -⟩ := derEnter_over hcert1 hoalg
  obtain ⟨hsig, -, -⟩ := derExpect_over hcert2 hsig
  obtain ⟨-, htbs2, -⟩ := derExpect_over (skipVersion_over htbs0 hversion) hserial
  obtain ⟨-, htbs3, -⟩ := derEnter_over htbs2 hialg
  obtain ⟨-, htbs4, hle4⟩ := derExpect_over htbs3 hissuer
  obtain ⟨-, htbs5, -⟩ := derEnter_over htbs4 hvalidity
  obtain ⟨-, htbs6, hle6⟩ := derExpect_over htbs5 hsubject
  obtain ⟨-, htbs7, -⟩ := derExpect_over htbs6 hspki
  have hsan : SanOf der exts := parseTrailer_san htbs7 (fun san hnone => by cases hnone) htrailer
  have hsigWithin := hsig.within
  unfold Within at hsigWithin
  intro s hs
  simp only [Cert.fields, List.mem_append, List.mem_cons, List.not_mem_nil, or_false,
    Option.mem_toList] at hs
  obtain (rfl | rfl | rfl | rfl) | hs := hs
  · exact between_of hcert0 hcert1 hle1
  · exact ⟨hsig.buf_eq, by unfold Within; simp only; omega⟩
  · exact between_of htbs3 htbs4 hle4
  · exact between_of htbs5 htbs6 hle6
  · exact hsan s hs

end Zelr.X509
