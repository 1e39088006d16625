import Mathlib.Tactic.IntervalCases
import Zelr.Base.Bytes
import Zelr.Base.Placed

/-!
# Answers of a name server

`handle_dns_reply` of `kernel/net.c`. A read outside the datagram is none, and so is a loop that goes round for ever.
-/

namespace Zelr.Dns

variable {n : Name} {o : Nat} {r : Record}

/-! ## The code -/

structure State where
  dnsId : UInt16
  dnsGot : Bool
  dnsResult : UInt32
  deriving DecidableEq

def u16 (n : Nat) : Nat := n % 65536

def TURNS : Nat := 65536

/-- `while (off < len && p[off] != 0) off = (u16)(off + p[off] + 1);` -/
def skipLabels (p : Bytes) : Nat → Nat → Option Nat
  | 0, _ => none
  | f + 1, off =>
    if off < p.length then do
      let b ← p[off]?
      if b ≠ 0 then skipLabels p f (u16 (off + b.toNat + 1)) else some off
    else some off

def skipQuestions (p : Bytes) : Nat → Nat → Option Nat
  | 0, off => some off
  | q + 1, off =>
    if off < p.length then do
      let off ← skipLabels p TURNS off
      skipQuestions p q (u16 (off + 5))
    else some off

def word16 (p : Bytes) (off : Nat) : Option Nat := do
  let a ← p[off]?
  let b ← p[off + 1]?
  some (a.toNat * 256 + b.toNat)

def address32 (p : Bytes) (off : Nat) : Option UInt32 := do
  let a ← p[off]?
  let b ← p[off + 1]?
  let c ← p[off + 2]?
  let d ← p[off + 3]?
  some (a.toUInt32 <<< 24 ||| b.toUInt32 <<< 16 ||| c.toUInt32 <<< 8 ||| d.toUInt32)

def skipName (p : Bytes) (off : Nat) : Option Nat := do
  let b ← p[off]?
  if b &&& 0xC0 = 0xC0 then some (u16 (off + 2))
  else do
    let off ← skipLabels p TURNS off
    some (u16 (off + 1))

def readAnswers (p : Bytes) : Nat → Nat → Option UInt32
  | 0, _ => some 0
  | a + 1, off =>
    if off + 12 ≤ p.length then do
      let off ← skipName p off
      if off + 10 > p.length then some 0
      else do
        let type ← word16 p off
        let rdlen ← word16 p (off + 8)
        let off := u16 (off + 10)
        if type = 1 ∧ rdlen = 4 ∧ off + 4 ≤ p.length then address32 p off
        else readAnswers p a (u16 (off + rdlen))
    else some 0

def handleDnsReply (s : State) (p : Bytes) : Option State :=
  if p.length < 12 then some s
  else do
    let id ← word16 p 0
    if id ≠ s.dnsId.toNat then some s
    else do
      let qd ← word16 p 4
      let an ← word16 p 6
      if an = 0 then some { s with dnsGot := true, dnsResult := 0 }
      else do
        let off ← skipQuestions p qd 12
        let result ← readAnswers p an off
        some { s with dnsGot := true, dnsResult := result }

/-! ## The grammar -/

/-- Labels, and then the root or a pointer to where the rest of the name is. -/
structure Name where
  labels : List Bytes
  pointer : Option (UInt8 × UInt8)

def labelBytes (labels : List Bytes) : Bytes := labels.flatMap fun l => UInt8.ofNat l.length :: l

def Name.ending (n : Name) : Bytes :=
  match n.pointer with
  | none => [0]
  | some (a, b) => [a, b]

def Name.encode (n : Name) : Bytes := labelBytes n.labels ++ n.ending

structure Name.Valid (n : Name) : Prop where
  label : ∀ l ∈ n.labels, 1 ≤ l.length ∧ l.length ≤ 63
  pointer : ∀ ab ∈ n.pointer, 0xC0 ≤ ab.1.toNat

structure Question where
  name : Name
  /-- The type and the class. -/
  fixed : Bytes

def Question.encode (q : Question) : Bytes := q.name.encode ++ q.fixed

structure Question.Valid (q : Question) : Prop where
  name : q.name.Valid
  fixed : q.fixed.length = 4

structure Record where
  name : Name
  type : UInt16
  /-- The class and the time to live. -/
  fixed : Bytes
  data : Bytes

def Record.encode (r : Record) : Bytes :=
  r.name.encode ++ (beBytes 2 r.type.toNat ++ r.fixed ++ beBytes 2 r.data.length ++ r.data)

structure Record.Valid (r : Record) : Prop where
  name : r.name.Valid
  fixed : r.fixed.length = 6
  data : r.data.length < 65536
  address : r.type = 1 → r.data.length = 4

structure Message where
  id : UInt16
  flags : Bytes
  /-- How many records the last two sections have. -/
  counts : Bytes
  questions : List Question
  answers : List Record
  rest : Bytes

def Message.encode (m : Message) : Bytes :=
  beBytes 2 m.id.toNat ++ m.flags ++ beBytes 2 m.questions.length ++ beBytes 2 m.answers.length ++ m.counts ++
    m.questions.flatMap Question.encode ++ m.answers.flatMap Record.encode ++ m.rest

structure Message.Valid (m : Message) : Prop where
  flags : m.flags.length = 2
  counts : m.counts.length = 4
  questions : m.questions.length < 65536 ∧ ∀ q ∈ m.questions, q.Valid
  answers : m.answers.length < 65536 ∧ ∀ r ∈ m.answers, r.Valid

/-- The address of the first A record, and none. -/
def addressOf (rs : List Record) : UInt32 :=
  match rs.find? (·.type = 1) with
  | some r => UInt32.ofNat (beNat r.data)
  | none => 0

/-! ### Names that are not followed

A question's name is walked as labels, an answer's as labels or as a pointer. Another pointer is taken for a label of 192
bytes or more, and this is where the walk goes from it.
-/

def pastPointer (n : Name) (off : Nat) : Option Nat := n.pointer.map fun ab => off + (labelBytes n.labels).length + ab.1.toNat + 1

def strayQuestion : List Question → Nat → Option Nat
  | [], _ => none
  | q :: qs, off => (pastPointer q.name off).or (strayQuestion qs (off + q.encode.length))

def strayAnswer : List Record → Nat → Option Nat
  | [], _ => none
  | r :: rs, off =>
    (if r.name.labels = [] then none else pastPointer r.name off).or
      (if r.type = 1 then none else strayAnswer rs (off + r.encode.length))

def Message.astray (m : Message) : Option Nat :=
  (strayQuestion m.questions 12).or (strayAnswer m.answers (12 + (m.questions.flatMap Question.encode).length))

/-- The walk stays with the names, or it leaves the datagram and there is no address to miss. -/
def Message.Kept (m : Message) : Prop :=
  ∀ o, m.astray = some o → m.encode.length ≤ o ∧ addressOf m.answers = 0

/-! ## Within the datagram -/

variable {p : Bytes} {off : Nat}

theorem u16_of_lt {n : Nat} (h : n < 65536) : u16 n = n := Nat.mod_eq_of_lt h

theorem word16_of_le (h : off + 2 ≤ p.length) : ∃ n, word16 p off = some n :=
  ⟨_, by rw [word16, List.getElem?_eq_getElem (by omega), List.getElem?_eq_getElem (by omega)]; rfl⟩

theorem address32_of_le (h : off + 4 ≤ p.length) : ∃ n, address32 p off = some n :=
  ⟨_, by
    rw [address32, List.getElem?_eq_getElem (by omega), List.getElem?_eq_getElem (by omega),
      List.getElem?_eq_getElem (by omega), List.getElem?_eq_getElem (by omega)]
    rfl⟩

section
variable (hlen : p.length + 512 ≤ 65536)
include hlen

theorem skipLabels_ends {f : Nat} (hf : p.length < f + off) (hpos : 0 < f) :
    ∃ off', skipLabels p f off = some off' := by
  induction f generalizing off with
  | zero => omega
  | succ f ih =>
    rw [skipLabels]
    split
    · rename_i hlt
      rw [List.getElem?_eq_getElem hlt, Option.bind_eq_bind, Option.bind_some]
      have := p[off].toNat_lt
      split
      · rw [u16_of_lt (by omega)]
        exact ih (by omega) (by omega)
      · exact ⟨off, rfl⟩
    · exact ⟨off, rfl⟩

theorem skipQuestions_ends (q off : Nat) : ∃ off', skipQuestions p q off = some off' := by
  induction q generalizing off with
  | zero => exact ⟨off, rfl⟩
  | succ q ih =>
    rw [skipQuestions]
    split
    · obtain ⟨off', hskip⟩ := skipLabels_ends hlen (show p.length < TURNS + off by unfold TURNS; omega)
        (by decide)
      rw [hskip]
      exact ih _
    · exact ⟨off, rfl⟩

theorem skipName_ends (hoff : off < p.length) : ∃ off', skipName p off = some off' := by
  rw [skipName, List.getElem?_eq_getElem hoff, Option.bind_eq_bind, Option.bind_some]
  split
  · exact ⟨_, rfl⟩
  · obtain ⟨off', hskip⟩ := skipLabels_ends hlen (show p.length < TURNS + off by unfold TURNS; omega)
      (by decide)
    rw [hskip]
    exact ⟨_, rfl⟩

theorem readAnswers_ends (a off : Nat) : ∃ n, readAnswers p a off = some n := by
  induction a generalizing off with
  | zero => exact ⟨0, rfl⟩
  | succ a ih =>
    rw [readAnswers]
    split
    · rename_i hin
      obtain ⟨off', hname⟩ := skipName_ends hlen (show off < p.length by omega)
      rw [hname, Option.bind_eq_bind, Option.bind_some]
      split
      · exact ⟨0, rfl⟩
      · rename_i hfixed
        obtain ⟨type, htype⟩ := word16_of_le (show off' + 2 ≤ p.length by omega)
        obtain ⟨rdlen, hrdlen⟩ := word16_of_le (show off' + 8 + 2 ≤ p.length by omega)
        simp only [htype, hrdlen, Option.bind_some]
        split
        · rename_i haddress
          exact address32_of_le haddress.2.2
        · exact ih _
    · exact ⟨0, rfl⟩

omit hlen in
theorem handleDnsReply_ends (s : State) (hlen : p.length + 512 ≤ 65536) : ∃ s', handleDnsReply s p = some s' := by
  unfold handleDnsReply
  split
  · exact ⟨s, rfl⟩
  · rename_i hheader
    obtain ⟨id, hid⟩ := word16_of_le (show 0 + 2 ≤ p.length by omega)
    obtain ⟨qd, hqd⟩ := word16_of_le (show 4 + 2 ≤ p.length by omega)
    obtain ⟨an, han⟩ := word16_of_le (show 6 + 2 ≤ p.length by omega)
    obtain ⟨off, hskip⟩ := skipQuestions_ends hlen qd 12
    obtain ⟨n, hread⟩ := readAnswers_ends hlen an off
    simp only [hid, hqd, han, hskip, hread, Option.bind_eq_bind, Option.bind_some]
    split
    · exact ⟨s, rfl⟩
    · split <;> exact ⟨_, rfl⟩

/-! ## Names -/

omit hlen in
theorem labelBytes_cons (l : Bytes) (ls : List Bytes) : labelBytes (l :: ls) = UInt8.ofNat l.length :: l ++ labelBytes ls := rfl

theorem skipLabels_labels {ls : List Bytes} (hvalid : ∀ l ∈ ls, 1 ≤ l.length ∧ l.length ≤ 63)
    (h : LiesAt p off (labelBytes ls)) (f : Nat) :
    skipLabels p (ls.length + f) off = skipLabels p f (off + (labelBytes ls).length) := by
  induction ls generalizing off with
  | nil => rw [List.length_nil, Nat.zero_add, labelBytes, List.flatMap_nil, List.length_nil, Nat.add_zero]
  | cons l ls ih =>
    rw [labelBytes_cons, liesAt_append] at h
    have hl := hvalid l List.mem_cons_self
    have hin := h.1.length_le (Nat.succ_pos _)
    rw [List.length_cons] at hin
    have hbyte : (UInt8.ofNat l.length).toNat = l.length := by
      rw [UInt8.toNat_ofNat']
      omega
    have hne : UInt8.ofNat l.length ≠ 0 := fun hzero => by
      rw [hzero] at hbyte
      exact absurd hbyte (by simp; omega)
    rw [List.length_cons, Nat.add_right_comm, skipLabels, if_pos (by omega), h.1.head, Option.bind_eq_bind, Option.bind_some,
      if_pos hne, hbyte, u16_of_lt (by omega), Nat.add_assoc off]
    rw [List.length_cons] at h
    rw [ih (fun l hl => hvalid l (List.mem_cons_of_mem _ hl)) h.2]
    congr 1
    rw [labelBytes_cons, List.length_append, List.length_cons]
    omega

omit hlen in
theorem labels_length_le (ls : List Bytes) : ls.length ≤ (labelBytes ls).length := by
  induction ls with
  | nil => exact Nat.zero_le _
  | cons l ls ih =>
    rw [labelBytes_cons, List.length_append, List.length_cons, List.length_cons]
    omega

theorem skipLabels_name (hvalid : n.Valid) (h : LiesAt p off (labelBytes n.labels))
    (hin : off + (labelBytes n.labels).length < p.length) :
    ∃ f, skipLabels p TURNS off = skipLabels p (f + 2) (off + (labelBytes n.labels).length) := by
  have hle := labels_length_le n.labels
  refine ⟨TURNS - n.labels.length - 2, ?_⟩
  rw [← skipLabels_labels hlen hvalid.label h]
  congr 1
  unfold TURNS
  omega

theorem skipLabels_plain (hvalid : n.Valid) (hplain : n.pointer = none)
    (h : LiesAt p off n.encode) :
    skipLabels p TURNS off = some (off + (labelBytes n.labels).length) ∧ n.encode.length = (labelBytes n.labels).length + 1 := by
  rw [Name.encode, Name.ending, hplain] at h
  have hin := h.length_le (by rw [List.length_append]; exact Nat.succ_pos _)
  rw [List.length_append, List.length_singleton] at hin
  obtain ⟨hlabels, hroot⟩ := liesAt_append.mp h
  obtain ⟨f, hwalk⟩ := skipLabels_name hlen hvalid hlabels (by omega)
  rw [hwalk, skipLabels, if_pos (by omega), hroot.head, Option.bind_eq_bind, Option.bind_some, if_neg (by decide)]
  exact ⟨rfl, by rw [Name.encode, Name.ending, hplain, List.length_append]; rfl⟩

theorem skipLabels_past (hvalid : n.Valid) (h : LiesAt p off n.encode)
    (ho : pastPointer n off = some o) (hpast : p.length ≤ o) :
    skipLabels p TURNS off = some o ∧ o < p.length + 256 := by
  obtain ⟨⟨a, b⟩, hab, rfl⟩ := Option.map_eq_some_iff.mp ho
  have ha := hvalid.pointer _ hab
  rw [Name.encode, Name.ending, hab] at h
  have hin := h.length_le (by rw [List.length_append]; exact Nat.succ_pos _)
  rw [List.length_append, List.length_cons, List.length_singleton] at hin
  obtain ⟨hlabels, hpointer⟩ := liesAt_append.mp h
  obtain ⟨f, hwalk⟩ := skipLabels_name hlen hvalid hlabels (by omega)
  have hlt := a.toNat_lt
  have hne : a ≠ 0 := by
    rintro rfl
    exact absurd ha (show ¬ 0xC0 ≤ 0 by decide)
  dsimp only at ha hpast ⊢
  refine ⟨?_, by omega⟩
  rw [hwalk, skipLabels, if_pos (by omega), hpointer.head, Option.bind_eq_bind, Option.bind_some, if_pos hne,
    u16_of_lt (by omega), skipLabels, if_neg (by omega)]

/-! ## Sections -/

omit hlen in
theorem skipQuestions_past (q : Nat) (h : p.length ≤ off) : skipQuestions p q off = some off := by
  cases q with
  | zero => rfl
  | succ q => rw [skipQuestions, if_neg (by omega)]

theorem skipQuestions_spec {qs : List Question} (hvalid : ∀ q ∈ qs, q.Valid)
    (h : LiesAt p off (qs.flatMap Question.encode)) (hpast : ∀ o, strayQuestion qs off = some o → p.length ≤ o) :
    ∃ off', skipQuestions p qs.length off = some off' ∧
      (strayQuestion qs off = none → off' = off + (qs.flatMap Question.encode).length) ∧
      (strayQuestion qs off ≠ none → p.length ≤ off') := by
  induction qs generalizing off with
  | nil => exact ⟨off, rfl, fun _ => rfl, fun h => absurd rfl h⟩
  | cons q qs ih =>
    obtain ⟨hq, hqs⟩ := List.forall_mem_cons.mp hvalid
    rw [List.flatMap_cons, liesAt_append] at h
    have hname := (liesAt_append.mp h.1).1
    have hin := h.1.length_le (by rw [Question.encode, List.length_append, hq.fixed]; omega)
    rw [Question.encode, List.length_append, hq.fixed] at hin
    rw [List.length_cons, skipQuestions, if_pos (by omega)]
    unfold strayQuestion at hpast ⊢
    cases hpointer : q.name.pointer with
    | none =>
      obtain ⟨hwalk, hsize⟩ := skipLabels_plain hlen hq.name hpointer hname
      have hnext : u16 (off + (labelBytes q.name.labels).length + 5) = off + q.encode.length := by
        rw [u16_of_lt (by omega), Question.encode, List.length_append, hq.fixed]
        omega
      have hnone : pastPointer q.name off = none := by rw [pastPointer, hpointer]; rfl
      rw [hnone, Option.none_or] at hpast ⊢
      obtain ⟨off', hskip, hon, hoff⟩ := ih hqs h.2 hpast
      rw [hwalk, Option.bind_eq_bind, Option.bind_some, hnext]
      refine ⟨off', hskip, fun hstay => ?_, hoff⟩
      rw [hon hstay, List.flatMap_cons, List.length_append]
      omega
    | some ab =>
      obtain ⟨o, ho⟩ : ∃ o, pastPointer q.name off = some o := ⟨_, by rw [pastPointer, hpointer]; rfl⟩
      rw [ho, Option.some_or] at hpast ⊢
      obtain ⟨hwalk, hlt⟩ := skipLabels_past hlen hq.name hname ho (hpast o rfl)
      have := hpast o rfl
      rw [hwalk, Option.bind_eq_bind, Option.bind_some, u16_of_lt (by omega), skipQuestions_past _ (by omega)]
      exact ⟨o + 5, rfl, nofun, fun _ => by omega⟩

/-! ### The first byte of a name -/

omit hlen in
theorem pointer_bits (a : UInt8) (h : 0xC0 ≤ a.toNat) : a &&& 0xC0 = 0xC0 := by
  revert a
  exact forall_byte (by decide +kernel)

omit hlen in
theorem label_bits {n : Nat} (h : n ≤ 63) : UInt8.ofNat n &&& 0xC0 ≠ 0xC0 := by
  interval_cases n <;> decide

theorem skipName_followed (hvalid : n.Valid) (hsimple : n.labels = [] ∨ n.pointer = none)
    (h : LiesAt p off n.encode) : skipName p off = some (off + n.encode.length) := by
  have hin := h.length_le (by
    rw [Name.encode, List.length_append, Name.ending]
    split <;> simp)
  cases hpointer : n.pointer with
  | none =>
    obtain ⟨hwalk, hsize⟩ := skipLabels_plain hlen hvalid hpointer h
    obtain ⟨b, hb, hbits⟩ : ∃ b, p[off]? = some b ∧ ¬ b &&& 0xC0 = 0xC0 := by
      rw [Name.encode, Name.ending, hpointer] at h
      cases hlabels : n.labels with
      | nil =>
        rw [hlabels] at h
        exact ⟨0, h.head, by decide⟩
      | cons l ls =>
        rw [hlabels, labelBytes_cons] at h
        exact ⟨_, h.head, label_bits (hvalid.label l (by rw [hlabels]; exact List.mem_cons_self)).2⟩
    rw [skipName, hb, Option.bind_eq_bind, Option.bind_some, if_neg hbits, hwalk, Option.bind_eq_bind, Option.bind_some,
      u16_of_lt (by omega), hsize]
    rfl
  | some ab =>
    obtain ⟨a, b⟩ := ab
    have hlabels := hsimple.resolve_right (by rw [hpointer]; nofun)
    rw [Name.encode, Name.ending, hpointer, hlabels] at h hin ⊢
    rw [skipName, LiesAt.head h, Option.bind_eq_bind, Option.bind_some, if_pos (pointer_bits a (hvalid.pointer _ hpointer)),
      u16_of_lt (by simp at hin; omega)]
    rfl

theorem skipName_past (hvalid : n.Valid) (hlabels : n.labels ≠ [])
    (h : LiesAt p off n.encode) (ho : pastPointer n off = some o) (hpast : p.length ≤ o) :
    skipName p off = some (o + 1) := by
  obtain ⟨hwalk, hlt⟩ := skipLabels_past hlen hvalid h ho hpast
  obtain ⟨l, ls, hcons⟩ := List.exists_cons_of_ne_nil hlabels
  have hl := hvalid.label l (by rw [hcons]; exact List.mem_cons_self)
  rw [Name.encode, hcons, labelBytes_cons] at h
  rw [skipName, LiesAt.head h, Option.bind_eq_bind, Option.bind_some, if_neg (label_bits hl.2), hwalk, Option.bind_eq_bind,
    Option.bind_some, u16_of_lt (by omega)]

end


/-! ## Answers -/

theorem word16_eq {n : Nat} (hn : n < 65536) (h : LiesAt p off (beBytes 2 n)) : word16 p off = some n := by
  have ha := h.get (i := 0) (by simp)
  have hb := h.get (i := 1) (by simp)
  rw [Nat.add_zero] at ha
  rw [word16, ha, hb, Option.bind_eq_bind, Option.bind_some, Option.bind_some]
  simp [beBytes]
  omega

theorem address32_eq {bs : Bytes} (hbs : bs.length = 4) (h : LiesAt p off bs) : address32 p off = some (UInt32.ofNat (beNat bs)) := by
  obtain ⟨a, b, c, d, rfl⟩ : ∃ a b c d, bs = [a, b, c, d] := by
    match bs, hbs with
    | [a, b, c, d], _ => exact ⟨a, b, c, d, rfl⟩
  have ha := h.get (i := 0) (by simp)
  have hb := h.get (i := 1) (by simp)
  have hc := h.get (i := 2) (by simp)
  have hd := h.get (i := 3) (by simp)
  rw [Nat.add_zero] at ha
  rw [← be32_eq, address32, ha, hb, hc, hd]
  rfl

theorem Record.encode_length (h : r.Valid) : r.encode.length = r.name.encode.length + 10 + r.data.length := by
  simp only [Record.encode, List.length_append, beBytes_length, h.fixed]
  omega

theorem Name.encode_pos (n : Name) : 0 < n.encode.length := by
  rw [Name.encode, List.length_append, Name.ending]
  split <;> simp

theorem addressOf_cons (r : Record) (rs : List Record) :
    addressOf (r :: rs) = if r.type = 1 then UInt32.ofNat (beNat r.data) else addressOf rs := by
  by_cases h : r.type = 1 <;> simp [addressOf, h]

theorem strayAnswer_simple (h : r.name.labels = [] ∨ r.name.pointer = none) (rs : List Record) (off : Nat) :
    strayAnswer (r :: rs) off = if r.type = 1 then none else strayAnswer rs (off + r.encode.length) := by
  have hnone : (if r.name.labels = [] then none else pastPointer r.name off) = none := by
    rcases h with h | h
    · rw [if_pos h]
    · simp [pastPointer, h]
  rw [strayAnswer, hnone, Option.none_or]

/-- Where the walk stays with the names it finds the first address, and where it leaves the datagram none. -/
theorem readAnswers_spec (hlen : p.length + 512 ≤ 65536) {rs : List Record} (hvalid : ∀ r ∈ rs, r.Valid)
    (h : LiesAt p off (rs.flatMap Record.encode)) (hpast : ∀ o, strayAnswer rs off = some o → p.length ≤ o) :
    readAnswers p rs.length off = some (if strayAnswer rs off = none then addressOf rs else 0) := by
  induction rs generalizing off with
  | nil => rfl
  | cons r rs ih =>
    obtain ⟨hr, hrs⟩ := List.forall_mem_cons.mp hvalid
    rw [List.flatMap_cons, liesAt_append] at h
    have hsize := Record.encode_length hr
    have hin := h.1.length_le (by omega)
    obtain ⟨hname, hfields⟩ := liesAt_append.mp h.1
    obtain ⟨⟨⟨htype, hfixed⟩, hrdlen⟩, hdata⟩ := (by
      simpa only [liesAt_append, List.length_append, beBytes_length, hr.fixed] using hfields :
        ((LiesAt p (off + r.name.encode.length) (beBytes 2 r.type.toNat) ∧
          LiesAt p (off + r.name.encode.length + 2) r.fixed) ∧
          LiesAt p (off + r.name.encode.length + 8) (beBytes 2 r.data.length)) ∧
          LiesAt p (off + r.name.encode.length + 10) r.data)
    rw [List.length_cons, readAnswers]
    split
    · rename_i hroom
      by_cases hsimple : r.name.labels = [] ∨ r.name.pointer = none
      · rw [strayAnswer_simple hsimple] at hpast ⊢
        rw [skipName_followed hlen hr.name hsimple hname, Option.bind_eq_bind, Option.bind_some, if_neg (by omega),
          word16_eq r.type.toNat_lt htype, word16_eq hr.data hrdlen, Option.bind_some, Option.bind_some, u16_of_lt (by omega),
          addressOf_cons]
        by_cases htype1 : r.type = 1
        · have hfour := hr.address htype1
          rw [if_pos ⟨by rw [htype1]; rfl, hfour, by omega⟩, if_pos htype1, if_pos rfl, if_pos htype1]
          exact address32_eq hfour hdata
        · rw [if_neg htype1] at hpast
          rw [if_neg fun h => htype1 (UInt16.toNat_inj.mp h.1), if_neg htype1, if_neg htype1, u16_of_lt (by omega)]
          rw [show off + r.name.encode.length + 10 + r.data.length = off + r.encode.length by omega]
          exact ih hrs h.2 hpast
      · obtain ⟨hlabels, hpointer⟩ := not_or.mp hsimple
        obtain ⟨ab, hab⟩ := Option.ne_none_iff_exists'.mp hpointer
        obtain ⟨o, ho⟩ : ∃ o, pastPointer r.name off = some o := ⟨_, by rw [pastPointer, hab]; rfl⟩
        have hstray : strayAnswer (r :: rs) off = some o := by rw [strayAnswer, if_neg hlabels, ho, Option.some_or]
        have hend := hpast o hstray
        rw [skipName_past hlen hr.name hlabels hname ho hend, Option.bind_eq_bind, Option.bind_some, if_pos (by omega),
          if_neg (by rw [hstray]; nofun)]
    · rename_i hroom
      -- The last record of a datagram may be shorter than the walk asks for.
      have hpos := r.name.encode_pos
      have hrs' : rs = [] := by
        cases rs with
        | nil => rfl
        | cons r' rs =>
          have hr' := Record.encode_length (List.forall_mem_cons.mp hrs).1
          have := h.2.length_le (by rw [List.flatMap_cons, List.length_append]; omega)
          rw [List.flatMap_cons, List.length_append] at this
          omega
      have hplain : r.name.pointer = none := by
        cases hpointer : r.name.pointer with
        | none => rfl
        | some ab =>
          rw [Name.encode, Name.ending, hpointer, List.length_append] at hsize
          simp at hsize
          omega
      have htype1 : r.type ≠ 1 := fun h => by
        have := hr.address h
        omega
      rw [strayAnswer_simple (.inr hplain), addressOf_cons, hrs', if_neg htype1, if_neg htype1]
      rfl

theorem handleDnsReply_spec (s : State) {m : Message} (hm : m.Valid) (hlen : m.encode.length + 512 ≤ 65536)
    (hid : m.id = s.dnsId) (hpast : ∀ o, m.astray = some o → m.encode.length ≤ o) :
    handleDnsReply s m.encode =
      some { s with dnsGot := true, dnsResult := if m.astray = none then addressOf m.answers else 0 } := by
  have hself : LiesAt m.encode 0 m.encode := liesAt_zero.mpr (List.prefix_refl _)
  have hheader : 12 ≤ m.encode.length := by
    simp only [Message.encode, List.length_append, beBytes_length, hm.flags, hm.counts]
    omega
  obtain ⟨⟨⟨⟨⟨⟨⟨hId, -⟩, hqd⟩, han⟩, -⟩, hquestions⟩, hanswers⟩, -⟩ := (by
    simpa only [Message.encode, liesAt_append, List.length_append, beBytes_length, hm.flags, hm.counts, Nat.zero_add] using hself :
      (((((((LiesAt m.encode 0 (beBytes 2 m.id.toNat) ∧ LiesAt m.encode 2 m.flags) ∧
        LiesAt m.encode 4 (beBytes 2 m.questions.length)) ∧ LiesAt m.encode 6 (beBytes 2 m.answers.length)) ∧
        LiesAt m.encode 8 m.counts) ∧ LiesAt m.encode 12 (m.questions.flatMap Question.encode)) ∧
        LiesAt m.encode (12 + (m.questions.flatMap Question.encode).length) (m.answers.flatMap Record.encode)) ∧
        LiesAt m.encode (12 + (m.questions.flatMap Question.encode).length + (m.answers.flatMap Record.encode).length) m.rest))
  have hstray : ∀ o, strayQuestion m.questions 12 = some o → m.encode.length ≤ o := fun o ho =>
    hpast o (by rw [Message.astray, ho, Option.some_or])
  obtain ⟨off, hskip, hon, hoff⟩ := skipQuestions_spec hlen hm.questions.2 hquestions hstray
  rw [handleDnsReply, if_neg (by omega), word16_eq m.id.toNat_lt hId, Option.bind_eq_bind, Option.bind_some, hid,
    if_neg (not_not.mpr rfl), word16_eq hm.questions.1 hqd, Option.bind_some, word16_eq hm.answers.1 han, Option.bind_some]
  split
  · rename_i hzero
    rw [List.length_eq_zero_iff.mp hzero]
    split <;> rfl
  · rw [hskip, Option.bind_some]
    cases hq : strayQuestion m.questions 12 with
    | none =>
      have hastray : m.astray = strayAnswer m.answers (12 + (m.questions.flatMap Question.encode).length) := by
        rw [Message.astray, hq, Option.none_or]
      rw [hastray] at hpast ⊢
      rw [hon hq, readAnswers_spec hlen hm.answers.2 hanswers hpast]
      rfl
    | some o =>
      have hastray : m.astray = some o := by rw [Message.astray, hq, Option.some_or]
      have hend := hoff (by rw [hq]; nofun)
      obtain ⟨a, ha⟩ := Nat.exists_eq_add_one_of_ne_zero ‹_›
      rw [ha, readAnswers, if_neg (by omega), hastray, if_neg (by nofun)]
      rfl

def zelr : Name := ⟨[ascii "zelr", ascii "org"], none⟩

/-- A reply to a question for `zelr.org`, its one address under the given name. -/
def reply (owner : Name) : Message :=
  ⟨0x1234, [0x81, 0x80], [0, 0, 0, 0], [⟨zelr, [0, 1, 0, 1]⟩], [⟨owner, 1, [0, 1, 0, 0, 0, 60], [10, 0, 0, 1]⟩], []⟩

theorem reply_valid {owner : Name} (h : owner.Valid) : (reply owner).Valid where
  flags := rfl
  counts := rfl
  questions := ⟨show 1 < 65536 by decide, List.forall_mem_singleton.mpr ⟨⟨by decide, nofun⟩, rfl⟩⟩
  answers := ⟨show 1 < 65536 by decide, List.forall_mem_singleton.mpr ⟨h, rfl, show 4 < 65536 by decide, fun _ => rfl⟩⟩

def asked : State := ⟨0x1234, false, 0⟩

end Zelr.Dns
