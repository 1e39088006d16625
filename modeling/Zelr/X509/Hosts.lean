import Zelr.X509.Chain
import Zelr.X509.Element

/-!
# Which hosts a certificate is for

The rule a name is matched by, and the names that are looked at: the dNSNames of the
alternative name as far as it reads, whatever stands after them.
-/

namespace Zelr.X509

variable {b : UInt8} {a e content : Bytes} {d names : Der} {cert : Cert} {san : Slice}

/-! ## The rule -/

def SameText (a b : Bytes) : Prop := a.map lower = b.map lower

/-- A name of a certificate is for a host when it is the host, or when it is `*.` and a rest,
and the host is one label, a dot and that rest. -/
inductive NameRule : Bytes → Bytes → Prop
  | same (name host : Bytes) (hplain : ¬ ascii "*." <+: name) (hsame : SameText name host) :
      NameRule name host
  | wildcard (rest label tail : Bytes) (hsome : label ≠ []) (hlabel : 46 ∉ label)
      (hrest : SameText rest tail) : NameRule (ascii "*." ++ rest) (label ++ 46 :: tail)

theorem lower_eq_zero (h : lower b = 0) : b = 0 := by
  unfold lower at h
  split at h
  · next hupper =>
    have hle := UInt8.le_iff_toNat_le.mp hupper.1
    have hle' := UInt8.le_iff_toNat_le.mp hupper.2
    have hval := congrArg UInt8.toNat h
    rw [UInt8.toNat_add] at hval
    simp at hle hle' hval
    omega
  · exact h

theorem lower_eq_dot : lower b = 46 ↔ b = 46 := by
  constructor
  · intro h
    unfold lower at h
    split at h
    · next hupper =>
      have hle := UInt8.le_iff_toNat_le.mp hupper.1
      have hle' := UInt8.le_iff_toNat_le.mp hupper.2
      have hval := congrArg UInt8.toNat h
      rw [UInt8.toNat_add] at hval
      simp at hle hle' hval
      omega
    · exact h
  · rintro rfl
    rfl

theorem SameText.zero_not_mem {b : Bytes} (h : SameText a b) (hb : 0 ∉ b) : 0 ∉ a := by
  intro hmem
  have hlow : (0 : UInt8) ∈ b.map lower := by
    rw [← h]
    exact List.mem_map.mpr ⟨0, hmem, rfl⟩
  obtain ⟨c, hc, hzero⟩ := List.mem_map.mp hlow
  rw [lower_eq_zero hzero] at hc
  exact hb hc

theorem SameText.count_dot {b : Bytes} (h : SameText a b) : a.count 46 = b.count 46 := by
  have hlower : ∀ l : Bytes, l.count 46 = (l.map lower).count 46 := by
    intro l
    induction l with
    | nil => rfl
    | cons x xs ih =>
      rw [List.map_cons, List.count_cons, List.count_cons, ih]
      simp only [beq_iff_eq, lower_eq_dot]
  rw [hlower a, hlower b, h]

variable {host name : Bytes} {t : UInt8}

theorem NameRule.zero_not_mem (h : NameRule name host) (hhost : 0 ∉ host) :
    0 ∉ name := by
  cases h with
  | same _ _ _ hsame => exact hsame.zero_not_mem hhost
  | wildcard rest label tail _ _ hrest =>
    simp only [List.mem_append, List.mem_cons, not_or] at hhost ⊢
    exact ⟨by decide, hrest.zero_not_mem hhost.2.2⟩

theorem NameRule.count_dot (h : NameRule name host) :
    name.count 46 = host.count 46 := by
  cases h with
  | same _ _ _ hsame => exact hsame.count_dot
  | wildcard rest label tail _ hlabel hrest =>
    have hstar : (ascii "*.").count 46 = 1 := by decide
    rw [List.count_append, List.count_append, List.count_cons_self, hrest.count_dot, hstar,
      List.count_eq_zero.mpr hlabel]
    omega

/-! ## One name -/

theorem sameFold_iff : sameFold name host = true ↔ SameText name host := by
  unfold SameText
  induction name generalizing host with
  | nil => cases host <;> simp [sameFold]
  | cons a name ih =>
    cases host with
    | nil => simp [sameFold]
    | cons b host => simp [sameFold, ih]

theorem starts_with_star :
    ascii "*." <+: name ↔ 2 ≤ name.length ∧ byteAt name 0 = 42 ∧ byteAt name 1 = 46 := by
  have hstar : ascii "*." = [42, 46] := by decide
  rw [hstar]
  cases name with
  | nil => simp
  | cons a name =>
    cases name with
    | nil => simp [byteAt]
    | cons b name =>
      simp [byteAt, List.cons_prefix_cons]
      tauto

theorem dropWhile_dot :
    host.dropWhile (· ≠ 46) = [] ∧ 46 ∉ host ∨
    ∃ label tail, host = label ++ 46 :: tail ∧ 46 ∉ label ∧
      host.dropWhile (· ≠ 46) = 46 :: tail := by
  induction host with
  | nil => exact Or.inl ⟨rfl, by simp⟩
  | cons b host ih =>
    by_cases hb : b = 46
    · subst hb
      exact Or.inr ⟨[], host, rfl, by simp, by simp⟩
    · rw [List.dropWhile_cons_of_pos (by simpa using hb)]
      obtain ⟨hnil, hmem⟩ | ⟨label, tail, rfl, hlabel, hdrop⟩ := ih
      · exact Or.inl ⟨hnil, by simp [Ne.symm hb, hmem]⟩
      · exact Or.inr ⟨b :: label, tail, rfl, by simp [Ne.symm hb, hlabel], hdrop⟩

theorem label_unique {label label' tail tail' : Bytes} (h : label ++ 46 :: tail = label' ++ 46 :: tail')
    (hl : 46 ∉ label) (hl' : 46 ∉ label') : label = label' ∧ tail = tail' := by
  induction label generalizing label' with
  | nil =>
    cases label' with
    | nil => exact ⟨rfl, (List.cons.inj h).2⟩
    | cons b label' =>
      simp only [List.nil_append, List.cons_append, List.cons.injEq] at h
      exact absurd (by simp [← h.1]) hl'
  | cons a label ih =>
    cases label' with
    | nil =>
      simp only [List.nil_append, List.cons_append, List.cons.injEq] at h
      exact absurd (by simp [h.1]) hl
    | cons b label' =>
      simp only [List.cons_append, List.cons.injEq, List.mem_cons, not_or] at h hl hl'
      obtain ⟨rfl, rfl⟩ := ih h.2 hl.2 hl'.2
      exact ⟨by rw [h.1], rfl⟩

theorem oneNameMatches_iff (hhost : host ≠ []) :
    oneNameMatches name host = true ↔ NameRule name host := by
  unfold oneNameMatches
  by_cases hempty : name = []
  · subst hempty
    rw [if_pos (by rfl)]
    constructor
    · intro h
      cases h
    · intro h
      generalize hname : ([] : Bytes) = name at h
      cases h with
      | same _ _ _ hsame =>
        subst hname
        exact absurd (List.map_eq_nil_iff.mp hsame.symm) hhost
      | wildcard rest label tail _ _ _ => simp [ascii] at hname
  · rw [if_neg (by simpa using hempty)]
    by_cases hstar : ascii "*." <+: name
    · obtain ⟨rest, rfl⟩ := hstar
      rw [if_pos (starts_with_star.mp (List.prefix_append _ _))]
      have hrest : (ascii "*." ++ rest).drop 2 = rest := rfl
      dsimp only
      rw [hrest]
      obtain ⟨hnil, hmem⟩ | ⟨label, tail, rfl, hlabel, hdrop⟩ := @dropWhile_dot host
      · rw [if_pos hnil]
        constructor
        · intro h
          cases h
        · intro h
          generalize hname : ascii "*." ++ rest = name at h
          cases h with
          | same _ _ hplain _ => exact absurd (hname ▸ List.prefix_append _ _) hplain
          | wildcard _ label tail _ _ _ => simp at hmem
      · rw [hdrop, if_neg (by simp)]
        have hlen : (46 :: tail).length = (label ++ 46 :: tail).length ↔ label = [] := by
          rw [List.length_append, ← List.length_eq_zero_iff]
          omega
        simp only [hlen, List.drop_succ_cons, List.drop_zero]
        generalize hname : ascii "*." ++ rest = name
        generalize hwhole : label ++ 46 :: tail = host
        split
        · next hnone =>
          subst hnone
          constructor
          · intro h
            cases h
          · intro h
            cases h with
            | same _ _ hplain _ => exact absurd (hname ▸ List.prefix_append _ _) hplain
            | wildcard _ label' tail' hsome hlabel' _ =>
              exact absurd (label_unique hwhole hlabel hlabel').1.symm hsome
        · next hsome =>
          rw [sameFold_iff]
          constructor
          · intro h
            rw [← hname, ← hwhole]
            exact NameRule.wildcard rest label tail hsome hlabel h
          · intro h
            cases h with
            | same _ _ hplain _ => exact absurd (hname ▸ List.prefix_append _ _) hplain
            | wildcard rest' label' tail' _ hlabel' hrest' =>
              obtain ⟨-, rfl⟩ := label_unique hwhole hlabel hlabel'
              rw [List.append_cancel_left hname]
              exact hrest'
    · rw [if_neg (fun h => hstar (starts_with_star.mpr h)), sameFold_iff]
      constructor
      · exact NameRule.same name host hstar
      · intro h
        cases h with
        | same _ _ _ hsame => exact hsame
        | wildcard rest label tail _ _ _ => exact absurd (List.prefix_append _ _) hstar

/-! ## The names looked at -/

def Element (bs : Bytes) (t : UInt8) (content : Bytes) : Prop :=
  ∃ os, Length os content.length ∧ bs = t :: os ++ content

/-- Bytes that are elements up to and including one with this tag and this content. -/
inductive UpTo (t : UInt8) (content : Bytes) : Bytes → Prop
  | here (e rest : Bytes) (he : Element e t content) : UpTo t content (e ++ rest)
  | later (e rest : Bytes) (t' : UInt8) (content' : Bytes) (he : Element e t' content')
      (hrest : UpTo t content rest) : UpTo t content (e ++ rest)

theorem derInit_rest (s : Slice) : (derInit s).rest = s.bytes := by
  unfold Der.rest derInit
  simp only [Nat.add_sub_cancel_left]

theorem derRead_rest {d' : Der} {c : Slice} (hin : d.Inside)
    (h : derRead d = some (t, c, d')) :
    ∃ e, Element e t c.bytes ∧ d.rest = e ++ d'.rest := by
  obtain ⟨hc, -, -⟩ := derRead_over ⟨rfl, hin⟩ h
  obtain ⟨os, hlength, hreads⟩ := (derRead_iff hin).mp h
  exact ⟨_, ⟨os, by rwa [bytes_length hc.within], rfl⟩, hreads.rest_eq⟩

theorem derRead_of_rest {rest : Bytes} (hin : d.Inside)
    (he : Element e t content) (hrest : d.rest = e ++ rest) :
    ∃ c d', derRead d = some (t, c, d') ∧ c.bytes = content ∧ d'.rest = rest := by
  obtain ⟨os, hlength, rfl⟩ := he
  obtain ⟨hp, hstop⟩ := hin
  have hlen : d.rest.length = d.stop - d.p :=
    bytes_length (by unfold Within; simp only; omega)
  have htotal : d.stop - d.p = (1 + os.length) + (content.length + rest.length) := by
    rw [← hlen, hrest]
    simp only [List.length_append, List.length_cons]
    omega
  unfold Der.rest at hrest
  rw [htotal, bytes_split _ _ (1 + os.length), bytes_split _ _ content.length,
    List.append_assoc] at hrest
  have hheader := List.append_inj hrest (by
    rw [bytes_length (by unfold Within; simp only; omega), List.length_cons]
    simp only
    omega)
  have hbody := List.append_inj hheader.2 (by
    rw [bytes_length (by unfold Within; simp only; omega)])
  refine ⟨⟨d.buf, d.p + 1 + os.length, content.length⟩,
    { d with p := d.p + 1 + os.length + content.length }, ?_, ?_, ?_⟩
  · exact (derRead_iff ⟨hp, hstop⟩).mpr ⟨os, hlength, hheader.1, rfl, rfl, by simp only; omega⟩
  · rw [Nat.add_assoc]
    exact hbody.1
  · unfold Der.rest
    simp only
    rw [show d.stop - (d.p + 1 + os.length + content.length) = rest.length by omega,
      Nat.add_assoc d.p]
    exact hbody.2

theorem Element.ne_nil (h : Element e t content) :
    e ≠ [] := by
  obtain ⟨os, -, rfl⟩ := h
  simp

/-- The loop finds a name when the elements up to one that matches all read. -/
theorem anyNameMatches_iff {left : Nat} (hhost : host ≠ [])
    (hin : names.Inside) (hleft : names.stop - names.p ≤ left) :
    anyNameMatches left names host = true ↔
      ∃ name, UpTo DNS_NAME name names.rest ∧ NameRule name host := by
  have hnone : ∀ {d : Der}, derDone d = true → ∀ name, ¬ UpTo DNS_NAME name d.rest := by
    intro d hdone name hup
    have hnil : d.rest = [] := by
      unfold derDone at hdone
      simp only [decide_eq_true_eq] at hdone
      simp [Der.rest, Slice.bytes, Nat.sub_eq_zero_of_le hdone]
    rw [hnil] at hup
    generalize hbs : ([] : Bytes) = bs at hup
    cases hup with
    | here e rest he => exact he.ne_nil (List.append_eq_nil_iff.mp hbs.symm).1
    | later e rest _ _ he _ => exact he.ne_nil (List.append_eq_nil_iff.mp hbs.symm).1
  induction left generalizing names with
  | zero =>
    have hdone : derDone names = true := by
      unfold derDone
      simp only [decide_eq_true_eq]
      omega
    constructor
    · intro h
      cases h
    · rintro ⟨name, hup, -⟩
      exact absurd hup (hnone hdone name)
  | succ left ih =>
    unfold anyNameMatches
    split
    · next hdone =>
      constructor
      · intro h
        cases h
      · rintro ⟨name, hup, -⟩
        exact absurd hup (hnone hdone name)
    · cases hread : derRead names with
      | none =>
        -- an element there would have been read
        have hstop : ∀ {e rest content : Bytes} {t : UInt8}, Element e t content →
            ¬ names.rest = e ++ rest := by
          intro e rest content t he hrest
          obtain ⟨c, d', hsome, -⟩ := derRead_of_rest hin he hrest
          rw [hread] at hsome
          cases hsome
        simp only
        constructor
        · intro h
          cases h
        · rintro ⟨name, hup, -⟩
          generalize hbs : names.rest = bs at hup
          cases hup with
          | here e rest he => exact absurd hbs (hstop he)
          | later e rest _ _ he _ => exact absurd hbs (hstop he)
      | some item =>
        obtain ⟨tag, c, names'⟩ := item
        obtain ⟨-, hover, -⟩ := derRead_over ⟨rfl, hin⟩ hread
        obtain ⟨hp, hs, -⟩ := derRead_advances hread
        have hrec : anyNameMatches left names' host = true ↔
            ∃ name, UpTo DNS_NAME name names'.rest ∧ NameRule name host :=
          ih hover.inside (by omega)
        obtain ⟨e, he, hrest⟩ := derRead_rest hin hread
        have hsplit : ∀ name, UpTo DNS_NAME name names.rest ↔
            tag = DNS_NAME ∧ c.bytes = name ∨ UpTo DNS_NAME name names'.rest := by
          intro name
          constructor
          · intro hup
            generalize hbs : names.rest = bs at hup
            cases hup with
            | here e' rest' he' =>
              obtain ⟨c', d', hsome, hc', -⟩ := derRead_of_rest hin he' hbs
              rw [hread] at hsome
              cases hsome
              exact Or.inl ⟨rfl, hc'⟩
            | later e' rest' _ _ he' hup' =>
              obtain ⟨c', d', hsome, -, hrest'⟩ := derRead_of_rest hin he' hbs
              rw [hread] at hsome
              cases hsome
              rw [hrest']
              exact Or.inr hup'
          · rintro (⟨rfl, rfl⟩ | hup)
            · rw [hrest]
              exact UpTo.here e _ he
            · rw [hrest]
              exact UpTo.later e _ _ _ he hup
        simp only
        split
        · next hmatch =>
          simp only [Bool.and_eq_true, decide_eq_true_eq] at hmatch
          simp only [true_iff]
          exact ⟨c.bytes, (hsplit _).mpr (Or.inl ⟨hmatch.1, rfl⟩),
            (oneNameMatches_iff hhost).mp hmatch.2⟩
        · next hmatch =>
          simp only [Bool.and_eq_true, decide_eq_true_eq, not_and] at hmatch
          rw [hrec]
          constructor
          · rintro ⟨name, hup, hrule⟩
            exact ⟨name, (hsplit name).mpr (Or.inr hup), hrule⟩
          · rintro ⟨name, hup, hrule⟩
            obtain ⟨htag, rfl⟩ | hup := (hsplit name).mp hup
            · exact absurd ((oneNameMatches_iff hhost).mpr hrule) (hmatch htag)
            · exact ⟨name, hup, hrule⟩

/-! ## The whole certificate -/

/-- The alternative name of a certificate holds a sequence whose elements are well formed up to
and including this dNSName. -/
def Names (cert : Cert) (name : Bytes) : Prop :=
  ∃ san e after body, cert.san = some san ∧ san.bytes = e ++ after ∧ Element e DER_SEQ body ∧
    UpTo DNS_NAME name body

theorem names_iff {r : Der}
    (hin : Of san.buf san) (hsan : cert.san = some san)
    (henter : derEnter (derInit san) DER_SEQ = some (names, r)) :
    Names cert name ↔ UpTo DNS_NAME name names.rest := by
  have hover := derInit_over hin
  have hread : ∃ c d', derRead (derInit san) = some (DER_SEQ, c, d') ∧ names = derInit c := by
    unfold derEnter derExpect at henter
    cases hread : derRead (derInit san) with
    | none => simp [hread] at henter
    | some item =>
      obtain ⟨tag, c, d'⟩ := item
      simp only [hread] at henter
      by_cases htag : tag = DER_SEQ
      · simp only [htag, if_true, Option.some.injEq, Prod.mk.injEq] at henter
        exact ⟨c, d', by rw [htag], henter.1.symm⟩
      · simp [htag] at henter
  obtain ⟨c, d', hread, rfl⟩ := hread
  rw [derInit_rest]
  constructor
  · rintro ⟨san', e, after, body, hsan', hbytes, he, hup⟩
    rw [hsan] at hsan'
    cases hsan'
    rw [← derInit_rest] at hbytes
    obtain ⟨c', d'', hread', hc', -⟩ := derRead_of_rest hover.inside he hbytes
    rw [hread] at hread'
    cases hread'
    rw [hc']
    exact hup
  · intro hup
    obtain ⟨e, he, hrest⟩ := derRead_rest hover.inside hread
    rw [derInit_rest] at hrest
    exact ⟨san, e, _, _, hsan, hrest, he, hup⟩

theorem derEnter_of_names (hin : Of san.buf san)
    (hsan : cert.san = some san) (h : Names cert name) :
    ∃ names r, derEnter (derInit san) DER_SEQ = some (names, r) := by
  obtain ⟨san', e, after, body, hsan', hbytes, he, -⟩ := h
  rw [hsan] at hsan'
  cases hsan'
  rw [← derInit_rest] at hbytes
  obtain ⟨c, d', hread, -⟩ := derRead_of_rest (derInit_over hin).inside he hbytes
  exact ⟨derInit c, d', by simp [derEnter, derExpect, hread]⟩

/-- A certificate matches the hosts its dNSNames are for, no others; and no name with a NUL in
it, nor with more or fewer labels than the host, is for one. -/
theorem x509HostMatches_iff (der : Bytes) (cert : Cert) (host : Bytes)
    (hparse : x509Parse der = some cert) (hhost : host ≠ []) (hnul : 0 ∉ host) :
    (x509HostMatches cert host = true ↔ ∃ name, Names cert name ∧ NameRule name host) ∧
    ∀ name, NameRule name host → 0 ∉ name ∧ name.count 46 = host.count 46 := by
  refine ⟨?_, fun name hrule => ⟨hrule.zero_not_mem hnul, hrule.count_dot⟩⟩
  unfold x509HostMatches
  rw [if_neg hhost]
  cases hsan : cert.san with
  | none =>
    simp only [Bool.false_eq_true, false_iff]
    rintro ⟨name, ⟨san, e, after, body, hsome, -⟩, -⟩
    rw [hsan] at hsome
    cases hsome
  | some san =>
    have hof : Of der san := x509Parse_fields hparse san (by simp [Cert.fields, hsan])
    have hin : Of san.buf san := ⟨rfl, hof.within⟩
    simp only
    split
    · next hzero =>
      simp only [Bool.false_eq_true, false_iff]
      rintro ⟨name, ⟨san', e, after, body, hsome, hbytes, he, -⟩, -⟩
      rw [hsan] at hsome
      cases hsome
      have hnil : san.bytes = [] := by simp [Slice.bytes, hzero]
      rw [hnil] at hbytes
      exact he.ne_nil (List.append_eq_nil_iff.mp hbytes.symm).1
    · cases henter : derEnter (derInit san) DER_SEQ with
      | none =>
        simp only [Bool.false_eq_true, false_iff]
        rintro ⟨name, hnames, -⟩
        obtain ⟨names, r, hsome⟩ := derEnter_of_names hin hsan hnames
        rw [henter] at hsome
        cases hsome
      | some r =>
        obtain ⟨names, after⟩ := r
        obtain ⟨hover, -, -⟩ := derEnter_over (derInit_over hin) henter
        simp only [names_iff hin hsan henter]
        exact anyNameMatches_iff hhost hover.inside le_rfl

theorem sampleSan_matches :
    ∃ cert, x509Parse (sampleCert "ca" "site" (sampleSan "*.B.c")) = some cert ∧
      ∃ name, Names cert name ∧ NameRule name (ascii "a.b.c") := by
  have hsome : (x509Parse (sampleCert "ca" "site" (sampleSan "*.B.c"))).isSome := by
    decide +kernel
  obtain ⟨cert, hparse⟩ := Option.isSome_iff_exists.mp hsome
  refine ⟨cert, hparse, ?_⟩
  have hmatches : (x509Parse (sampleCert "ca" "site" (sampleSan "*.B.c"))).map
      (x509HostMatches · (ascii "a.b.c")) = some true := by decide +kernel
  rw [hparse, Option.map_some, Option.some.injEq] at hmatches
  exact (x509HostMatches_iff _ cert (ascii "a.b.c") hparse (by decide) (by decide)).1.mp hmatches

end Zelr.X509
