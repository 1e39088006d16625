import Zelr.Base.Runs
import Zelr.Js.Utf16

/-!
# Positions in a string

Strings that know how many units they are once they have been asked, and the context's last place
that a unit was looked for.
-/

namespace Zelr.Js

variable {k i p b q u f : Nat}

def JS_SYM_BIT : UInt32 := 0x80000000
def JS_UWIDE : Nat := 0x80000000

def MEM_MAX : Nat := (384 + 1) * 1024 * 1024

def jsHash (s : Bytes) : UInt32 := s.foldl (fun h c => (h ^^^ c.toUInt32) * 16777619) 2166136261 &&& ~~~JS_SYM_BIT

structure Jstr where
  addr : Nat
  bytes : Bytes
  hash : UInt32
  /-- the units plus one, with `JS_UWIDE` when a byte is past ASCII; 0 until asked -/
  units : Nat
  deriving DecidableEq

/-- The last place a unit was looked for: a string, as it was then, a unit and its byte. -/
structure UCache where
  s : Nat
  len : Nat
  hash : UInt32
  u : Nat
  b : Nat
  deriving DecidableEq

/-! ## Counting -/

def jsSize (s : Bytes) : Nat := if (jsUchar s).1 = 4 then 2 else 1

def jsUcountFrom : Nat → Bytes → Nat × Bool
  | 0, _ => (0, false)
  | _ + 1, [] => (0, false)
  | k + 1, c :: s =>
    if c.toNat < 0x80 then
      let rest := jsUcountFrom k s
      (rest.1 + 1, rest.2)
    else
      let rest := jsUcountFrom k ((c :: s).drop (jsUchar (c :: s)).1)
      (rest.1 + jsSize (c :: s), true)

def jsUcount (s : Bytes) : Nat × Bool := jsUcountFrom s.length s

def unitsField (k : Nat) (wide : Bool) : Nat := k + 1 + if wide then JS_UWIDE else 0

def Jstr.counted (s : Jstr) : Jstr :=
  if s.units = 0 then { s with units := unitsField (jsUcount s.bytes).1 (jsUcount s.bytes).2 } else s

def jsUnits (s : Jstr) : Nat := s.counted.units % JS_UWIDE - 1

def jsUbytes (s : Jstr) : Bool := s.counted.units < JS_UWIDE

/-! ## Looking -/

def ubackFrom (s : Bytes) (b : Nat) : Nat → Nat
  | 0 => 0
  | q + 1 => if b - (q + 1) < 4 ∧ IsTail (byteAt s (q + 1)) then ubackFrom s b q else q + 1

/-- Where the character that ends at byte `b` starts. -/
def jsUback (s : Bytes) (b : Nat) : Nat :=
  let q := ubackFrom s b (b - 1)
  if q < b - 1 ∧ (jsUchar (s.drop q)).1 = b - q then q else b - 1

def jsUcacheOk (J : UCache) (s : Jstr) : Prop :=
  J.s = s.addr ∧ J.len = s.bytes.length ∧ J.hash = s.hash ∧ J.b ≤ s.bytes.length

instance (J : UCache) (s : Jstr) : Decidable (jsUcacheOk J s) := inferInstanceAs (Decidable (_ ∧ _))

def ubyteBack (s : Bytes) (u : Nat) : Nat → Nat → Nat → Nat × Nat
  | 0, k, b => (k, b)
  | f + 1, k, b =>
    if u < k ∧ 0 < b then ubyteBack s u f (k - jsSize (s.drop (jsUback s b))) (jsUback s b) else (k, b)

def ubyteOn (s : Bytes) (u : Nat) : Nat → Nat → Nat → Nat × Nat × Bool
  | 0, k, b => (k, b, false)
  | f + 1, k, b =>
    if b < s.length then
      if u < k + jsSize (s.drop b) then (k, b, k < u)
      else ubyteOn s u f (k + jsSize (s.drop b)) (b + (jsUchar (s.drop b)).1)
    else (k, b, false)

def jsUbyte (J : UCache) (s : Jstr) (u : Nat) : (Nat × Bool) × UCache :=
  if jsUbytes s then ((if u < s.bytes.length then u else s.bytes.length, false), J)
  else if jsUnits s ≤ u then ((s.bytes.length, false), J)
  else
    let start := if jsUcacheOk J s ∧ (J.u ≤ u ∨ J.u - u < u) then ubyteBack s.bytes u J.b J.u J.b else (0, 0)
    let found := ubyteOn s.bytes u (s.bytes.length - start.2) start.1 start.2
    (found.2, ⟨s.addr, s.bytes.length, s.hash, found.1, found.2.1⟩)

def uunitOn (s : Bytes) (b : Nat) : Nat → Nat → Nat → Nat × Nat
  | 0, k, at_ => (k, at_)
  | f + 1, k, at_ =>
    if at_ < b then uunitOn s b f (k + jsSize (s.drop at_)) (at_ + (jsUchar (s.drop at_)).1) else (k, at_)

def jsUunit (J : UCache) (s : Jstr) (b : Nat) : Nat × UCache :=
  let b := min b s.bytes.length
  if jsUbytes s then (b, J)
  else
    let start := if jsUcacheOk J s ∧ J.b ≤ b then (J.u, J.b) else (0, 0)
    let found := uunitOn s.bytes b (b - start.2) start.1 start.2
    (found.1, if found.2 = b then ⟨s.addr, s.bytes.length, s.hash, found.1, b⟩ else J)

/-- The code unit at `u`, which is inside the string. -/
def jsUcode (J : UCache) (s : Jstr) (u : Nat) : Nat × UCache :=
  if jsUbytes s then (byteNum s.bytes u, J)
  else
    let found := jsUbyte J s u
    let cp := (jsUchar (s.bytes.drop found.1.1)).2
    (if cp < 0x10000 then cp
      else if found.1.2 then 0xDC00 + (cp - 0x10000) % 1024 else 0xD800 + (cp - 0x10000) / 1024, found.2)

/-- The bytes of the units from `start` up to `stop`, and what their string is told of its units. -/
def jsUsub (J : UCache) (s : Jstr) (start stop : Nat) : (Bytes × Nat) × UCache :=
  if jsUbytes s then (((s.bytes.drop start).take (stop - start), stop - start + 1), J)
  else if stop ≤ start then (([], 0), J)
  else
    let first := jsUbyte J s start
    let lo := if first.1.2 then jsUcode first.2 s start else (0, first.2)
    let last := jsUbyte lo.2 s stop
    let hi := if last.1.2 then jsUcode last.2 s (stop - 1) else (0, last.2)
    let bf := if first.1.2 then first.1.1 + 4 else first.1.1
    let mid := (s.bytes.drop bf).take (last.1.1 - bf)
    let bytes := (if first.1.2 then jsUhalf lo.1 else []) ++ mid ++ if last.1.2 then jsUhalf hi.1 else []
    let wide := first.1.2 || last.1.2 || mid.any fun a => 0x80 ≤ a.toNat
    ((bytes, if bytes = [] then 0 else unitsField (stop - start) wide), hi.2)

/-! ## Joining -/

def takenForHalves (a b : Bytes) : Prop :=
  3 ≤ a.length ∧ 3 ≤ b.length ∧ byteNum a (a.length - 3) = 0xED ∧ 0xA0 ≤ byteNum a (a.length - 2) ∧
    byteNum a (a.length - 2) < 0xB0 ∧ byteNum b 0 = 0xED ∧ 0xB0 ≤ byteNum b 1

instance (a b : Bytes) : Decidable (takenForHalves a b) := inferInstanceAs (Decidable (_ ∧ _))

def concatBytes (a b : Bytes) : Bytes :=
  if takenForHalves a b then
    let hi := (0xD000 : UInt32) ||| ((byteAt a (a.length - 2)).toUInt32 &&& 63) <<< 6 ||| ((byteAt a (a.length - 1)).toUInt32 &&& 63)
    let lo := (0xD000 : UInt32) ||| ((byteAt b 1).toUInt32 &&& 63) <<< 6 ||| ((byteAt b 2).toUInt32 &&& 63)
    let cp := (0x10000 : UInt32) + (hi - 0xD800) <<< 10 + (lo - 0xDC00)
    a.take (a.length - 3) ++
      [((0xF0 : UInt32) ||| cp >>> 18).toUInt8, ((0x80 : UInt32) ||| (cp >>> 12 &&& 63)).toUInt8,
        ((0x80 : UInt32) ||| (cp >>> 6 &&& 63)).toUInt8, ((0x80 : UInt32) ||| (cp &&& 63)).toUInt8] ++ b.drop 3
  else a ++ b

def concatUnits (a b : Jstr) : Nat := unitsField (jsUnits a + jsUnits b) (!jsUbytes a || !jsUbytes b)

/-! ## Runs -/

structure Strings where
  cache : UCache
  live : List Jstr
  deriving DecidableEq

/-- What is asked of the strings, and what makes new ones, at addresses of the allocator's. -/
inductive Query
  | ubyte (i u : Nat)
  | uunit (i b : Nat)
  | ucode (i u : Nat)
  | usub (i start stop addr : Nat)
  | make (bytes : Bytes) (addr : Nat)
  | concat (i j addr : Nat)

inductive Answer
  | byte (b : Nat) (half : Bool)
  | unit (k : Nat)
  | code (c : Nat)
  | text (bytes : Bytes)
  | made
  deriving DecidableEq

def Strings.asked (S : Strings) (i : Nat) (s : Jstr) (cache : UCache) : Strings :=
  { cache, live := S.live.set i s.counted }

def Strings.more (S : Strings) (bytes : Bytes) (units addr : Nat) : Option Strings :=
  if bytes.length ≤ MEM_MAX then some { S with live := S.live ++ [⟨addr, bytes, jsHash bytes, units⟩] } else none

/-- One query. A unit whose code is asked for is inside its string, and so is what is cut out of one. -/
def Query.act (S : Strings) : Query → Option (Answer × Strings)
  | .ubyte i u => do
    let s ← S.live[i]?
    let r := jsUbyte S.cache s u
    return (.byte r.1.1 r.1.2, S.asked i s r.2)
  | .uunit i b => do
    let s ← S.live[i]?
    let r := jsUunit S.cache s b
    return (.unit r.1, S.asked i s r.2)
  | .ucode i u => do
    let s ← S.live[i]?
    if u < (utf16.decode s.bytes).length then
      let r := jsUcode S.cache s u
      return (.code r.1, S.asked i s r.2)
    else none
  | .usub i start stop addr => do
    let s ← S.live[i]?
    if start ≤ stop ∧ stop ≤ (utf16.decode s.bytes).length then
      let r := jsUsub S.cache s start stop
      let S ← (S.asked i s r.2).more r.1.1 r.1.2 addr
      return (.text r.1.1, S)
    else none
  | .make bytes addr => do
    let S ← S.more bytes 0 addr
    return (.made, S)
  | .concat i j addr => do
    let a ← S.live[i]?
    let b ← S.live[j]?
    let S ← ((S.asked i a S.cache).asked j b S.cache).more (concatBytes a.bytes b.bytes) (concatUnits a b) addr
    return (.made, S)

def Query.step (S : Strings) (q : Query) : Option Strings := (q.act S).map Prod.snd

def noStrings : Strings := ⟨⟨0, 0, 0, 0, 0⟩, []⟩

/-! ## Positions whatever was asked before -/

open Coding

/-! ## Counting -/

section
variable {s : Bytes} {a : UInt8}

theorem jsSize_eq (s : Bytes) : jsSize s = (utf16.units s).length := (units_length s).symm

theorem width_eq (s : Bytes) : utf16.width s = (jsUchar s).1 := rfl

theorem jsSize_le (hs : s ≠ []) : jsSize s ≤ utf16.width s := by
  have hpos := utf16_lawful.pos s hs
  change 1 ≤ (jsUchar s).1 at hpos
  change jsSize s ≤ (jsUchar s).1
  unfold jsSize
  split <;> omega

theorem jsUchar_ascii (ha : a.toNat < 0x80) (s : Bytes) : jsUchar (a :: s) = (1, a.toNat) := by
  rw [jsUchar]
  exact if_pos ha

theorem jsSize_ascii (ha : a.toNat < 0x80) (s : Bytes) : jsSize (a :: s) = 1 := by
  rw [jsSize, jsUchar_ascii ha]
  rfl

theorem width_ascii (ha : a.toNat < 0x80) (s : Bytes) : utf16.width (a :: s) = 1 :=
  congrArg Prod.fst (jsUchar_ascii ha s)

theorem units_ascii (ha : a.toNat < 0x80) (s : Bytes) : (utf16.units (a :: s)).length = 1 := by
  rw [← jsSize_eq, jsSize_ascii ha]

theorem decode_length_step (hs : s ≠ []) :
    (utf16.decode s).length = jsSize s + (utf16.decode (s.drop (jsUchar s).1)).length := by
  rw [decode_step utf16_lawful hs, List.length_append, jsSize_eq]
  rfl

def anyWide (s : Bytes) : Bool := s.any fun a => 0x80 ≤ a.toNat

theorem anyWide_cons (a : UInt8) (s : Bytes) : anyWide (a :: s) = (decide (0x80 ≤ a.toNat) || anyWide s) := rfl

theorem jsUcountFrom_eq (hk : s.length ≤ k) :
    jsUcountFrom k s = ((utf16.decode s).length, anyWide s) := by
  induction k generalizing s with
  | zero =>
    obtain rfl : s = [] := List.length_eq_zero_iff.mp (by omega)
    rfl
  | succ k ih =>
    cases s with
    | nil => rfl
    | cons c s =>
      have hshort := drop_shorter utf16_lawful (List.cons_ne_nil c s)
      change (List.drop (jsUchar (c :: s)).1 (c :: s)).length < _ at hshort
      rw [List.length_cons] at hk hshort
      rw [jsUcountFrom, decode_length_step (List.cons_ne_nil c s)]
      split
      · rename_i hc
        rw [ih (by omega), jsSize_ascii hc, jsUchar_ascii hc, anyWide_cons, decide_eq_false (by omega), Nat.add_comm]
        rfl
      · rename_i hc
        rw [ih (by omega), Nat.add_comm, anyWide_cons, decide_eq_true (by omega), Bool.true_or]

theorem jsUcount_eq (s : Bytes) : jsUcount s = ((utf16.decode s).length, anyWide s) := jsUcountFrom_eq le_rfl

theorem decode_length_le (s : Bytes) : (utf16.decode s).length ≤ s.length := by
  generalize hn : s.length = n
  induction n using Nat.strong_induction_on generalizing s with
  | _ n ih =>
    by_cases hs : s = []
    · subst hs
      exact Nat.zero_le n
    · have hshort := drop_shorter utf16_lawful hs
      have hle := utf16_lawful.le s hs
      have hsize := jsSize_le hs
      have hrest := ih _ (hn ▸ hshort) _ rfl
      rw [List.length_drop] at hrest
      rw [decode_length_step hs]
      change jsSize s + (utf16.decode (s.drop (utf16.width s))).length ≤ n
      omega

theorem anyWide_false (s : Bytes) : anyWide s = false ↔ ∀ a ∈ s, a.toNat < 0x80 := by
  simp [anyWide]

/-! ## ASCII -/

section
variable (hs : ∀ a ∈ s, a.toNat < 0x80)
include hs

theorem place_ascii (u : Nat) : utf16.place s u = (min u s.length, 0) := by
  induction s generalizing u with
  | nil => simp [place, placeIn]
  | cons a s ih =>
    have ha := hs a List.mem_cons_self
    have hrest := ih fun b hb => hs b (List.mem_cons_of_mem a hb)
    rw [place_step utf16_lawful (List.cons_ne_nil a s), units_ascii ha, width_ascii ha, List.drop_one, List.tail_cons, hrest,
      List.length_cons]
    split
    · rename_i hu
      obtain rfl : u = 0 := by omega
      rw [Nat.zero_min]
    · rw [Prod.mk.injEq]
      exact ⟨by omega, rfl⟩

theorem before_ascii (b : Nat) : utf16.before s b = min b s.length := by
  induction s generalizing b with
  | nil => simp [before, beforeIn]
  | cons a s ih =>
    have ha := hs a List.mem_cons_self
    have hrest := ih fun b hb => hs b (List.mem_cons_of_mem a hb)
    rcases Nat.eq_zero_or_pos b with rfl | hb
    · rw [before, beforeIn_zero, Nat.zero_min]
    · rw [before_step utf16_lawful (List.cons_ne_nil a s) hb, units_ascii ha, width_ascii ha, List.drop_one, List.tail_cons, hrest,
        List.length_cons]
      omega

end

/-! ## Back -/

theorem byteAt_isSome (hi : i < s.length) : s[i]? = some (byteAt s i) := by
  rw [byteAt, List.getD_eq_getElem?_getD, List.getElem?_eq_getElem hi, Option.getD_some]

theorem jsUchar_le (s : Bytes) : (jsUchar s).1 ≤ 4 := by
  rcases kinds s with ⟨h2, h3, h4⟩ | h | h | h
  · rw [jsUchar_one h2 h3 h4]
    exact Nat.le_add_left 1 3
  · rw [jsUchar_two h]
    exact Nat.le_add_left 2 2
  · rw [jsUchar_three h]
    exact Nat.le_add_left 3 1
  · rw [jsUchar_four h]

theorem ubackFrom_eq (hq : p ≤ q) (hlow : b - p ≤ 4) (hfirst : p = 0 ∨ ¬ IsTail (byteAt s p))
    (htails : ∀ i, p < i → i ≤ q → IsTail (byteAt s i)) : ubackFrom s b q = p := by
  induction q with
  | zero =>
    obtain rfl := Nat.le_zero.mp hq
    rfl
  | succ q ih =>
    rw [ubackFrom]
    rcases Nat.lt_or_eq_of_le hq with hlt | rfl
    · rw [if_pos ⟨by omega, htails (q + 1) hlt le_rfl⟩]
      exact ih (by omega) fun i hi hiq => htails i hi (by omega)
    · rw [if_neg]
      rintro ⟨-, htail⟩
      rcases hfirst with hzero | hlead
      · cases hzero
      · exact hlead htail

theorem jsUchar_tails (hi : 0 < i) (hlt : i < (jsUchar (s.drop q)).1) (hq : q < s.length) :
    IsTail (byteAt s (q + i)) ∧ ¬ IsTail (byteAt s q) := by
  have hne := drop_ne_nil hq
  have hle := utf16_lawful.le _ hne
  change (jsUchar (s.drop q)).1 ≤ _ at hle
  rw [List.length_drop] at hle
  constructor
  · apply utf16_lawful.tails (s.drop q) i _ hi hlt
    rw [List.getElem?_drop]
    exact byteAt_isSome (by omega)
  · rw [List.drop_eq_getElem_cons hq] at hlt
    have hlead := utf16_lawful.lead _ _ (show 2 ≤ (jsUchar (s[q] :: s.drop (q + 1))).1 by omega)
    rw [byteAt, List.getD_eq_getElem?_getD, List.getElem?_eq_getElem hq]
    exact hlead

theorem jsUback_eq (hp : utf16.Spot s p) (hlt : p < s.length) (hb : p + utf16.width (s.drop p) = b) :
    jsUback s b = p := by
  rw [width_eq] at hb
  have hpos := utf16_lawful.pos _ (drop_ne_nil hlt)
  rw [width_eq] at hpos
  have hspot : utf16.Spot s b := hb ▸ hp.next utf16_lawful hlt
  have hend := hspot.le utf16_lawful
  unfold jsUback
  dsimp only
  by_cases hone : p = b - 1
  · -- a lead byte further back would make a character that ends here too
    rw [if_neg]
    · exact hone.symm
    · rintro ⟨hq, hwidth⟩
      generalize ubackFrom s b (b - 1) = q at hq hwidth
      have hlead := (jsUchar_tails (s := s) (q := q) (i := 1) one_pos (by omega) (by omega)).2
      have hqspot := hspot.of_not_tail utf16_lawful (show q < b by omega) (byteAt_isSome (by omega)) hlead
      have hnext := hqspot.next_le utf16_lawful hp (by omega)
      change q + (jsUchar (s.drop q)).1 ≤ p at hnext
      omega
  · have hscan : ubackFrom s b (b - 1) = p := by
      have hfour := jsUchar_le (s.drop p)
      apply ubackFrom_eq (by omega) (by omega)
      · exact .inr (jsUchar_tails (i := 1) one_pos (by omega) hlt).2
      · intro i hi hib
        have htail := (jsUchar_tails (s := s) (q := p) (i := i - p) (by omega) (by omega) hlt).1
        rwa [Nat.add_sub_cancel' (by omega)] at htail
    rw [hscan]
    exact if_pos ⟨by omega, by omega⟩

/-! ## Walking -/

def At (s : Bytes) (k b : Nat) : Prop := utf16.Spot s b ∧ utf16.before s b = k

theorem At.zero (s : Bytes) : At s 0 0 := ⟨Spot.zero utf16 s, beforeIn_zero _⟩

theorem At.next (h : At s k b) (hb : b < s.length) :
    At s (k + jsSize (s.drop b)) (b + (jsUchar (s.drop b)).1) := by
  obtain ⟨hspot, rfl⟩ := h
  rw [jsSize_eq]
  exact ⟨hspot.next utf16_lawful hb, before_next utf16_lawful hspot hb⟩

theorem At.back (h : At s k b) (hb : 0 < b) :
    At s (k - jsSize (s.drop (jsUback s b))) (jsUback s b) ∧ jsUback s b < b := by
  obtain ⟨hspot, rfl⟩ := h
  obtain ⟨p, hp, hlt, rfl⟩ := hspot.prev utf16_lawful hb
  have hpos := utf16_lawful.pos _ (drop_ne_nil hlt)
  rw [jsUback_eq hp hlt rfl, before_next utf16_lawful hp hlt, jsSize_eq, Nat.add_sub_cancel]
  exact ⟨⟨hp, rfl⟩, by omega⟩

theorem ubyteBack_at (h : At s k b) (hf : b ≤ f) :
    At s (ubyteBack s u f k b).1 (ubyteBack s u f k b).2 ∧ (ubyteBack s u f k b).1 ≤ u := by
  induction f generalizing k b with
  | zero =>
    obtain rfl := Nat.le_zero.mp hf
    obtain rfl : 0 = k := (At.zero s).2.symm.trans h.2
    exact ⟨h, Nat.zero_le u⟩
  | succ f ih =>
    rw [ubyteBack]
    split
    · rename_i hback
      obtain ⟨hat, hlt⟩ := h.back hback.2
      exact ih hat (by omega)
    · rename_i hstop
      refine ⟨h, ?_⟩
      by_contra hu
      obtain rfl : b = 0 := by omega
      obtain rfl : 0 = k := (At.zero s).2.symm.trans h.2
      exact hu (Nat.zero_le u)

theorem ubyteOn_eq (h : At s k b) (hu : k ≤ u) (hf : s.length - b ≤ f) :
    ubyteOn s u f k b = (utf16.before s (utf16.place s u).1, (utf16.place s u).1, decide (0 < (utf16.place s u).2)) := by
  obtain ⟨hspot, hk⟩ := id h
  have hend := hspot.le utf16_lawful
  have hplace := place_from utf16_lawful hspot (hk ▸ hu)
  induction f generalizing k b with
  | zero =>
    rw [List.drop_eq_nil_of_le (by omega)] at hplace
    rw [hplace]
    change (k, b, false) = (utf16.before s b, b, false)
    rw [hk]
  | succ f ih =>
    rw [ubyteOn]
    split
    · rename_i hlt
      have hne := drop_ne_nil hlt
      rw [place_step utf16_lawful hne, ← jsSize_eq, hk] at hplace
      have hpos := utf16_lawful.pos _ hne
      rw [width_eq] at hpos
      split
      · rename_i hhere
        rw [if_pos (by omega)] at hplace
        rw [hplace]
        simp only [Nat.add_zero, hk, Prod.mk.injEq, true_and, decide_eq_decide]
        omega
      · rename_i hpast
        have hnext := h.next hlt
        have hend := hnext.1.le utf16_lawful
        exact ih hnext (by omega) (by omega) hnext.1 hnext.2 hend (place_from utf16_lawful hnext.1 (by rw [hnext.2]; omega))
    · rename_i hlt
      rw [List.drop_eq_nil_of_le (by omega)] at hplace
      rw [hplace]
      change (k, b, false) = (utf16.before s b, b, false)
      rw [hk]

theorem uunitOn_eq {at_ : Nat} (h : At s k at_) (hb : b ≤ s.length) (hf : b - at_ ≤ f)
    (hstart : b ≤ at_ → utf16.before s b = k) :
    (uunitOn s b f k at_).1 = utf16.before s b ∧ ((uunitOn s b f k at_).2 = b → utf16.Spot s b) := by
  induction f generalizing k at_ with
  | zero => exact ⟨(hstart (by omega)).symm, fun hsame => hsame ▸ h.1⟩
  | succ f ih =>
    rw [uunitOn]
    split
    · rename_i hlt
      have hne : s.drop at_ ≠ [] := drop_ne_nil (by omega)
      have hpos := utf16_lawful.pos _ hne
      rw [width_eq] at hpos
      apply ih (h.next (by omega)) (by omega)
      intro hpast
      have hfrom := before_from utf16_lawful h.1 (b - at_)
      rw [Nat.add_sub_cancel' hlt.le, h.2, before_step utf16_lawful hne (by omega), ← jsSize_eq, width_eq,
        show b - at_ - (jsUchar (s.drop at_)).1 = 0 by omega] at hfrom
      rw [hfrom, before, beforeIn_zero, Nat.add_zero]
    · rename_i hlt
      exact ⟨(hstart (by omega)).symm, fun hsame => hsame ▸ h.1⟩

end

end Zelr.Js
