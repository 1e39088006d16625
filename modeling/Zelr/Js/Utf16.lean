import Zelr.Base.Coding
import Zelr.Js.Rewind

/-!
# The units of a string

A string is kept as UTF-8 and counted in UTF-16 units. `js_uchar` reads a character where it is well formed, and a byte
as a unit of its own value where it is not.
-/

namespace Zelr.Js

instance (b : UInt8) : Decidable (IsTail b) := inferInstanceAs (Decidable (_ = _))

def uCont (s : Bytes) (k : Nat) : Prop := k < s.length ∧ IsTail (byteAt s k)

instance (s : Bytes) (k : Nat) : Decidable (uCont s k) := inferInstanceAs (Decidable (_ ∧ _))

def byteNum (s : Bytes) (k : Nat) : Nat := (byteAt s k).toNat

def uTwo (s : Bytes) : Prop := 0xC2 ≤ byteNum s 0 ∧ byteNum s 0 ≤ 0xDF ∧ uCont s 1

def uThree (s : Bytes) : Prop :=
  0xE0 ≤ byteNum s 0 ∧ byteNum s 0 ≤ 0xEF ∧ uCont s 1 ∧ uCont s 2 ∧ (byteNum s 0 ≠ 0xE0 ∨ 0xA0 ≤ byteNum s 1)

def uFour (s : Bytes) : Prop :=
  0xF0 ≤ byteNum s 0 ∧ byteNum s 0 ≤ 0xF4 ∧ uCont s 1 ∧ uCont s 2 ∧ uCont s 3 ∧
    (byteNum s 0 ≠ 0xF0 ∨ 0x90 ≤ byteNum s 1) ∧ (byteNum s 0 ≠ 0xF4 ∨ byteNum s 1 < 0x90)

instance (s : Bytes) : Decidable (uTwo s) := inferInstanceAs (Decidable (_ ∧ _))
instance (s : Bytes) : Decidable (uThree s) := inferInstanceAs (Decidable (_ ∧ _))
instance (s : Bytes) : Decidable (uFour s) := inferInstanceAs (Decidable (_ ∧ _))

def jsUchar (s : Bytes) : Nat × Nat :=
  if byteNum s 0 < 0x80 then (1, byteNum s 0)
  else if uTwo s then (2, byteNum s 0 % 32 * 64 + byteNum s 1 % 64)
  else if uThree s then (3, byteNum s 0 % 16 * 4096 + byteNum s 1 % 64 * 64 + byteNum s 2 % 64)
  else if uFour s then
    (4, byteNum s 0 % 8 * 262144 + byteNum s 1 % 64 * 4096 + byteNum s 2 % 64 * 64 + byteNum s 3 % 64)
  else (1, byteNum s 0)

def codeUnits (cp : Nat) : List Nat :=
  if cp < 0x10000 then [cp] else [0xD800 + (cp - 0x10000) / 1024, 0xDC00 + (cp - 0x10000) % 1024]

def utf16 : Coding UInt8 Nat := ⟨fun s => (jsUchar s).1, fun s => codeUnits (jsUchar s).2⟩

/-! ## Characters -/

section
variable {s t : Bytes} {n k : Nat}

theorem jsUchar_one (h2 : ¬ uTwo s) (h3 : ¬ uThree s) (h4 : ¬ uFour s) : jsUchar s = (1, byteNum s 0) := by
  rw [jsUchar, if_neg h2, if_neg h3, if_neg h4, ite_self]

theorem jsUchar_two (h : uTwo s) : jsUchar s = (2, byteNum s 0 % 32 * 64 + byteNum s 1 % 64) := by
  obtain ⟨hlow, -, -⟩ := id h
  rw [jsUchar, if_neg (by omega), if_pos h]

theorem jsUchar_three (h : uThree s) :
    jsUchar s = (3, byteNum s 0 % 16 * 4096 + byteNum s 1 % 64 * 64 + byteNum s 2 % 64) := by
  obtain ⟨hlow, -⟩ := id h
  have h2 : ¬ uTwo s := fun h2 => by
    have := h2.2.1
    omega
  rw [jsUchar, if_neg (by omega), if_neg h2, if_pos h]

theorem jsUchar_four (h : uFour s) :
    jsUchar s = (4, byteNum s 0 % 8 * 262144 + byteNum s 1 % 64 * 4096 + byteNum s 2 % 64 * 64 + byteNum s 3 % 64) := by
  obtain ⟨hlow, -⟩ := id h
  have h2 : ¬ uTwo s := fun h2 => by
    have := h2.2.1
    omega
  have h3 : ¬ uThree s := fun h3 => by
    have := h3.2.1
    omega
  rw [jsUchar, if_neg (by omega), if_neg h2, if_neg h3, if_pos h]

theorem kinds (s : Bytes) : (¬ uTwo s ∧ ¬ uThree s ∧ ¬ uFour s) ∨ uTwo s ∨ uThree s ∨ uFour s := by tauto

theorem byteNum_take (hk : k < n) : byteNum (s.take n) k = byteNum s k := by
  rw [byteNum, byteNum, byteAt_take hk]

theorem uCont_take : uCont (s.take n) k ↔ k < n ∧ uCont s k := by
  unfold uCont
  rw [List.length_take]
  constructor
  · rintro ⟨hlt, htail⟩
    have hk : k < n := by omega
    rw [byteAt_take hk] at htail
    exact ⟨hk, by omega, htail⟩
  · rintro ⟨hk, hlt, htail⟩
    refine ⟨by omega, ?_⟩
    rwa [byteAt_take hk]

theorem byteNum_append (hk : k < s.length) : byteNum (s ++ t) k = byteNum s k := by
  rw [byteNum, byteNum, byteAt_append hk]

theorem uCont_append (ht : ∀ a ∈ t.head?, ¬ IsTail a) (hk : k ≤ s.length) : uCont (s ++ t) k ↔ uCont s k := by
  unfold uCont
  rw [List.length_append, byteAt, byteAt, List.getD_eq_getElem?_getD, List.getD_eq_getElem?_getD]
  rcases Nat.lt_or_eq_of_le hk with hlt | rfl
  · rw [List.getElem?_append_left hlt]
    exact and_congr_left fun _ => ⟨fun _ => hlt, fun h => by omega⟩
  · refine iff_of_false ?_ fun h => absurd h.1 (lt_irrefl _)
    rintro ⟨hlt, htail⟩
    rw [List.getElem?_append_right le_rfl, Nat.sub_self, ← List.head?_eq_getElem?] at htail
    cases t with
    | nil => exact absurd hlt (by simp)
    | cons a t => exact ht a rfl htail

theorem uTwo_take (hn : 1 ≤ n) : uTwo (s.take n) ↔ 2 ≤ n ∧ uTwo s := by
  rw [uTwo, uTwo, byteNum_take hn, uCont_take]
  tauto

theorem uThree_take (hn : 1 ≤ n) : uThree (s.take n) ↔ 3 ≤ n ∧ uThree s := by
  rw [uThree, uThree, byteNum_take hn, uCont_take, uCont_take]
  by_cases h : 3 ≤ n
  · rw [byteNum_take (by omega : 1 < n)]
    constructor
    · rintro ⟨hlow, hhigh, ⟨-, h1⟩, ⟨-, h2⟩, hsecond⟩
      exact ⟨h, hlow, hhigh, h1, h2, hsecond⟩
    · rintro ⟨-, hlow, hhigh, h1, h2, hsecond⟩
      exact ⟨hlow, hhigh, ⟨by omega, h1⟩, ⟨by omega, h2⟩, hsecond⟩
  · exact iff_of_false (fun hthree => h hthree.2.2.2.1.1) fun hthree => h hthree.1

theorem uFour_take (hn : 1 ≤ n) : uFour (s.take n) ↔ 4 ≤ n ∧ uFour s := by
  rw [uFour, uFour, byteNum_take hn, uCont_take, uCont_take, uCont_take]
  by_cases h : 4 ≤ n
  · rw [byteNum_take (by omega : 1 < n)]
    constructor
    · rintro ⟨hlow, hhigh, ⟨-, h1⟩, ⟨-, h2⟩, ⟨-, h3⟩, hsecond⟩
      exact ⟨h, hlow, hhigh, h1, h2, h3, hsecond⟩
    · rintro ⟨-, hlow, hhigh, h1, h2, h3, hsecond⟩
      exact ⟨hlow, hhigh, ⟨by omega, h1⟩, ⟨by omega, h2⟩, ⟨by omega, h3⟩, hsecond⟩
  · exact iff_of_false (fun hfour => h hfour.2.2.2.2.1.1) fun hfour => h hfour.1

section
variable (hs : s ≠ []) (ht : ∀ a ∈ t.head?, ¬ IsTail a)
include hs ht

theorem uTwo_append : uTwo (s ++ t) ↔ uTwo s := by
  have hlen := List.length_pos_iff.mpr hs
  rw [uTwo, uTwo, byteNum_append hlen, uCont_append ht hlen]

theorem uThree_append : uThree (s ++ t) ↔ uThree s := by
  have hlen := List.length_pos_iff.mpr hs
  rw [uThree, uThree, byteNum_append hlen, uCont_append ht hlen]
  refine and_congr_right fun _ => and_congr_right fun _ => and_congr_right fun h1 => ?_
  have hlen := h1.1
  rw [uCont_append ht hlen, byteNum_append hlen]

theorem uFour_append : uFour (s ++ t) ↔ uFour s := by
  have hlen := List.length_pos_iff.mpr hs
  rw [uFour, uFour, byteNum_append hlen, uCont_append ht hlen]
  refine and_congr_right fun _ => and_congr_right fun _ => and_congr_right fun h1 => ?_
  have hlen := h1.1
  rw [uCont_append ht hlen, byteNum_append hlen]
  refine and_congr_right fun h2 => ?_
  rw [uCont_append ht h2.1]

end

theorem jsUchar_take (hn : (jsUchar s).1 ≤ n) : jsUchar (s.take n) = jsUchar s := by
  rcases kinds s with ⟨h2, h3, h4⟩ | h | h | h
  · rw [jsUchar_one h2 h3 h4] at hn
    have hone : 1 ≤ n := hn
    rw [jsUchar_one h2 h3 h4, jsUchar_one (fun h => h2 ((uTwo_take hone).mp h).2) (fun h => h3 ((uThree_take hone).mp h).2)
      (fun h => h4 ((uFour_take hone).mp h).2), byteNum_take hone]
  · rw [jsUchar_two h] at hn
    have htwo : 2 ≤ n := hn
    rw [jsUchar_two h, jsUchar_two ((uTwo_take (by omega)).mpr ⟨htwo, h⟩), byteNum_take (by omega), byteNum_take (by omega)]
  · rw [jsUchar_three h] at hn
    have hthree : 3 ≤ n := hn
    rw [jsUchar_three h, jsUchar_three ((uThree_take (by omega)).mpr ⟨hthree, h⟩), byteNum_take (by omega),
      byteNum_take (by omega), byteNum_take (by omega)]
  · rw [jsUchar_four h] at hn
    have hfour : 4 ≤ n := hn
    rw [jsUchar_four h, jsUchar_four ((uFour_take (by omega)).mpr ⟨hfour, h⟩), byteNum_take (by omega),
      byteNum_take (by omega), byteNum_take (by omega), byteNum_take (by omega)]

theorem jsUchar_append (hs : s ≠ []) (ht : ∀ a ∈ t.head?, ¬ IsTail a) : jsUchar (s ++ t) = jsUchar s := by
  have hlen := List.length_pos_iff.mpr hs
  rcases kinds s with ⟨h2, h3, h4⟩ | h | h | h
  · rw [jsUchar_one h2 h3 h4, jsUchar_one (mt (uTwo_append hs ht).mp h2) (mt (uThree_append hs ht).mp h3)
      (mt (uFour_append hs ht).mp h4), byteNum_append hlen]
  · have h1 := h.2.2.1
    rw [jsUchar_two h, jsUchar_two ((uTwo_append hs ht).mpr h), byteNum_append hlen, byteNum_append h1]
  · obtain ⟨-, -, ⟨h1, -⟩, ⟨h2, -⟩, -⟩ := id h
    rw [jsUchar_three h, jsUchar_three ((uThree_append hs ht).mpr h), byteNum_append hlen, byteNum_append h1, byteNum_append h2]
  · obtain ⟨-, -, ⟨h1, -⟩, ⟨h2, -⟩, ⟨h3, -⟩, -⟩ := id h
    rw [jsUchar_four h, jsUchar_four ((uFour_append hs ht).mpr h), byteNum_append hlen, byteNum_append h1, byteNum_append h2,
      byteNum_append h3]

/-! ## The coding -/

theorem uCont_tail {a : UInt8} (h : uCont s k) (ha : s[k]? = some a) : IsTail a := by
  have htail := h.2
  rw [byteAt, List.getD_eq_getElem?_getD, ha] at htail
  exact htail

theorem lead_not_tail {a : UInt8} (h : 0xC2 ≤ a.toNat) : ¬ IsTail a := fun htail => by
  have := tail_lt a htail
  omega

end

theorem utf16_lawful : utf16.Lawful IsTail := by
  refine ⟨fun s hs => ?_, fun s hs => ?_, fun s hs => ?_, fun s n hs hn => ?_, fun s t hs ht => ?_, fun a s h => ?_,
    fun s i a hi hlt ha => ?_⟩
  · change 1 ≤ (jsUchar s).1
    rcases kinds s with ⟨h2, h3, h4⟩ | h | h | h
    · rw [jsUchar_one h2 h3 h4]
    · rw [jsUchar_two h]
      exact Nat.le_add_left 1 1
    · rw [jsUchar_three h]
      exact Nat.le_add_left 1 2
    · rw [jsUchar_four h]
      exact Nat.le_add_left 1 3
  · change (jsUchar s).1 ≤ s.length
    rcases kinds s with ⟨h2, h3, h4⟩ | h | h | h
    · rw [jsUchar_one h2 h3 h4]
      exact List.length_pos_iff.mpr hs
    · rw [jsUchar_two h]
      exact h.2.2.1
    · rw [jsUchar_three h]
      exact h.2.2.2.1.1
    · rw [jsUchar_four h]
      exact h.2.2.2.2.1.1
  · change codeUnits _ ≠ []
    unfold codeUnits
    split <;> simp
  · have hsame := jsUchar_take hn
    exact ⟨congrArg Prod.fst hsame, congrArg (fun c : Nat × Nat => codeUnits c.2) hsame⟩
  · have hsame := jsUchar_append hs ht
    exact ⟨congrArg Prod.fst hsame, congrArg (fun c : Nat × Nat => codeUnits c.2) hsame⟩
  · change 2 ≤ (jsUchar (a :: s)).1 at h
    apply lead_not_tail
    change 0xC2 ≤ byteNum (a :: s) 0
    rcases kinds (a :: s) with ⟨h2, h3, h4⟩ | h | h | h
    · rw [jsUchar_one h2 h3 h4] at h
      exact absurd (show 2 ≤ 1 from h) (by decide)
    · exact h.1
    · exact le_trans (by decide) h.1
    · exact le_trans (by decide) h.1
  · change i < (jsUchar s).1 at hlt
    rcases kinds s with ⟨h2, h3, h4⟩ | h | h | h
    · rw [jsUchar_one h2 h3 h4] at hlt
      exact absurd hlt (by omega)
    · rw [jsUchar_two h] at hlt
      obtain rfl : i = 1 := by
        change i < 2 at hlt
        omega
      exact uCont_tail h.2.2 ha
    · rw [jsUchar_three h] at hlt
      obtain ⟨-, -, h1, h2, -⟩ := h
      obtain rfl | rfl : i = 1 ∨ i = 2 := by
        change i < 3 at hlt
        omega
      · exact uCont_tail h1 ha
      · exact uCont_tail h2 ha
    · rw [jsUchar_four h] at hlt
      obtain ⟨-, -, h1, h2, h3, -⟩ := h
      obtain rfl | rfl | rfl : i = 1 ∨ i = 2 ∨ i = 3 := by
        change i < 4 at hlt
        omega
      · exact uCont_tail h1 ha
      · exact uCont_tail h2 ha
      · exact uCont_tail h3 ha

section
variable {s t : Bytes}

theorem units_length (s : Bytes) : (utf16.units s).length = if (jsUchar s).1 = 4 then 2 else 1 := by
  have hlt : ∀ k, byteNum s k < 256 := fun k => (byteAt s k).toNat_lt
  change (codeUnits (jsUchar s).2).length = _
  unfold codeUnits
  rcases kinds s with ⟨h2, h3, h4⟩ | h | h | h
  · have h0 := hlt 0
    rw [jsUchar_one h2 h3 h4, if_pos (by dsimp only; omega)]
    rfl
  · rw [jsUchar_two h, if_pos (by dsimp only; omega)]
    rfl
  · rw [jsUchar_three h, if_pos (by dsimp only; omega)]
    rfl
  · obtain ⟨hlow, hhigh, ⟨-, h1⟩, -, -, hfirst, -⟩ := id h
    have hsecond : byteNum s 1 < 0xC0 := tail_lt _ h1
    rw [jsUchar_four h, if_neg (by dsimp only; omega)]
    rfl

/-! ## Halves of a pair -/

def jsUhalf (cu : Nat) : Bytes := [UInt8.ofNat (0xE0 + cu / 4096), UInt8.ofNat (0x80 + cu / 64 % 64), UInt8.ofNat (0x80 + cu % 64)]

theorem tail_ofNat (n : Nat) : IsTail (UInt8.ofNat (0x80 + n % 64)) := by
  have hall : ∀ m < 64, IsTail (UInt8.ofNat (0x80 + m)) := by decide +kernel
  exact hall (n % 64) (Nat.mod_lt _ (by decide))

theorem chars_half {cu : Nat} (hlow : 0xD800 ≤ cu) (hhigh : cu < 0xE000) (t : Bytes) :
    utf16.chars (jsUhalf cu ++ t) = (3, [cu]) :: utf16.chars t := by
  have h0 : byteNum (jsUhalf cu ++ t) 0 = 0xED := by
    change (UInt8.ofNat (0xE0 + cu / 4096)).toNat = _
    rw [UInt8.toNat_ofNat']
    omega
  have h1 : byteNum (jsUhalf cu ++ t) 1 = 0x80 + cu / 64 % 64 := by
    change (UInt8.ofNat (0x80 + cu / 64 % 64)).toNat = _
    rw [UInt8.toNat_ofNat']
    omega
  have h2 : byteNum (jsUhalf cu ++ t) 2 = 0x80 + cu % 64 := by
    change (UInt8.ofNat (0x80 + cu % 64)).toNat = _
    rw [UInt8.toNat_ofNat']
    omega
  have hthree : uThree (jsUhalf cu ++ t) :=
    ⟨by omega, by omega, ⟨by simp [jsUhalf], tail_ofNat (cu / 64)⟩, ⟨by simp [jsUhalf], tail_ofNat cu⟩, .inl (by omega)⟩
  have hchar : jsUchar (jsUhalf cu ++ t) = (3, cu) := by
    rw [jsUchar_three hthree, h0, h1, h2]
    congr 1
    omega
  rw [Coding.chars_step utf16_lawful (by simp [jsUhalf])]
  change ((jsUchar _).1, codeUnits (jsUchar _).2) :: utf16.chars (List.drop (jsUchar _).1 _) = _
  rw [hchar, codeUnits, if_pos (by omega)]
  rfl

/-! ## ASCII -/

theorem decode_ascii (h : ∀ a ∈ s, a.toNat < 0x80) : utf16.decode s = s.map UInt8.toNat := by
  induction s with
  | nil => rfl
  | cons a s ih =>
    have ha := h a List.mem_cons_self
    have hchar : jsUchar (a :: s) = (1, a.toNat) := by
      rw [jsUchar, if_pos]
      · rfl
      · exact ha
    rw [Coding.decode, Coding.chars_step utf16_lawful (List.cons_ne_nil a s), List.flatMap_cons]
    change codeUnits (jsUchar (a :: s)).2 ++ utf16.decode (List.drop (jsUchar (a :: s)).1 (a :: s)) = _
    rw [hchar, codeUnits, if_pos (by omega)]
    change a.toNat :: utf16.decode s = _
    rw [ih fun b hb => h b (List.mem_cons_of_mem a hb)]
    rfl

end

end Zelr.Js
