import Mathlib.Algebra.GroupWithZero.Nat
import Mathlib.Data.List.Basic
import Mathlib.Order.Monotone.Basic

/-!
# Texts of characters of several widths

A text is read from its front, one character after another. A character takes some elements of the
text and makes some units.
-/

namespace Zelr

variable {b q u : Nat}

/-- How many elements the character in front takes, and its units. -/
structure Coding (α β : Type) where
  width : List α → Nat
  units : List α → List β

namespace Coding

variable {α β : Type}

/-- What a coding has to keep for its characters to be told apart from the front. -/
structure Lawful (C : Coding α β) (tail : α → Prop) : Prop where
  pos : ∀ s, s ≠ [] → 1 ≤ C.width s
  le : ∀ s, s ≠ [] → C.width s ≤ s.length
  some_unit : ∀ s, s ≠ [] → C.units s ≠ []
  /-- what is behind a character is not read -/
  cut : ∀ s n, s ≠ [] → C.width s ≤ n → C.width (s.take n) = C.width s ∧ C.units (s.take n) = C.units s
  /-- nothing but a tail goes on with a character -/
  ends : ∀ s t, s ≠ [] → (∀ a ∈ t.head?, ¬ tail a) → C.width (s ++ t) = C.width s ∧ C.units (s ++ t) = C.units s
  /-- a character of several begins with no tail and goes on with tails -/
  lead : ∀ a s, 2 ≤ C.width (a :: s) → ¬ tail a
  tails : ∀ s i a, 0 < i → i < C.width s → s[i]? = some a → tail a

variable (C : Coding α β)

def charsFrom : Nat → List α → List (Nat × List β)
  | 0, _ => []
  | _ + 1, [] => []
  | k + 1, a :: s => (C.width (a :: s), C.units (a :: s)) :: charsFrom k ((a :: s).drop (C.width (a :: s)))

def chars (s : List α) : List (Nat × List β) := C.charsFrom s.length s

def decode (s : List α) : List β := (C.chars s).flatMap Prod.snd

def widths (cs : List (Nat × List β)) : Nat := (cs.map Prod.fst).sum

def placeIn : List (Nat × List β) → Nat → Nat × Nat
  | [], _ => (0, 0)
  | c :: cs, u =>
    if u < c.2.length then (0, u) else (c.1 + (placeIn cs (u - c.2.length)).1, (placeIn cs (u - c.2.length)).2)

def beforeIn : List (Nat × List β) → Nat → Nat
  | [], _ => 0
  | c :: cs, b => if b = 0 then 0 else c.2.length + beforeIn cs (b - c.1)

def place (s : List α) (u : Nat) : Nat × Nat := placeIn (C.chars s) u

def before (s : List α) (b : Nat) : Nat := beforeIn (C.chars s) b

def Spot (s : List α) (b : Nat) : Prop := ∃ front, C.chars s = front ++ C.chars (s.drop b) ∧ widths front = b

variable {C} {tail : α → Prop} {s : List α}

/-! ## Reading on -/

section
variable (hC : C.Lawful tail)
include hC

theorem drop_shorter (hs : s ≠ []) : (s.drop (C.width s)).length < s.length := by
  have hpos := hC.pos s hs
  have hlen := List.length_pos_iff.mpr hs
  rw [List.length_drop]
  omega

theorem charsFrom_eq {k : Nat} (hk : s.length ≤ k) : C.charsFrom k s = C.chars s := by
  unfold chars
  generalize hn : s.length = n
  induction n using Nat.strong_induction_on generalizing k s with
  | _ n ih =>
    cases s with
    | nil =>
      obtain rfl : 0 = n := hn
      cases k <;> rfl
    | cons a s =>
      have hshort := drop_shorter hC (List.cons_ne_nil a s)
      obtain ⟨k, rfl⟩ := Nat.exists_eq_add_one_of_ne_zero (show k ≠ 0 by rw [List.length_cons] at hk; omega)
      obtain ⟨n, rfl⟩ := Nat.exists_eq_add_one_of_ne_zero (show n ≠ 0 by rw [List.length_cons] at hn; omega)
      rw [charsFrom, charsFrom, ih _ (by omega) (by omega) rfl, ih _ (by omega) (show _ ≤ n by omega) rfl]

omit hC in
@[simp] theorem chars_nil : C.chars [] = [] := rfl

theorem chars_step (hs : s ≠ []) : C.chars s = (C.width s, C.units s) :: C.chars (s.drop (C.width s)) := by
  obtain ⟨a, s, rfl⟩ := List.exists_cons_of_ne_nil hs
  have hshort := drop_shorter hC hs
  rw [List.length_cons] at hshort
  rw [chars, List.length_cons, charsFrom, charsFrom_eq hC (by omega)]

theorem chars_eq_nil : C.chars s = [] ↔ s = [] := by
  constructor
  · intro h
    by_contra hs
    rw [chars_step hC hs] at h
    cases h
  · rintro rfl
    rfl

omit hC in
theorem widths_cons (c : Nat × List β) (cs : List (Nat × List β)) : widths (c :: cs) = c.1 + widths cs := rfl

omit hC in
theorem widths_append (cs cs' : List (Nat × List β)) : widths (cs ++ cs') = widths cs + widths cs' := by
  rw [widths, List.map_append, List.sum_append]
  rfl

theorem chars_split {front back : List (Nat × List β)} (h : C.chars s = front ++ back) : back = C.chars (s.drop (widths front)) := by
  induction front generalizing s with
  | nil => exact h.symm
  | cons c front ih =>
    have hs : s ≠ [] := by
      rintro rfl
      cases h
    rw [chars_step hC hs, List.cons_append] at h
    obtain ⟨rfl, hrest⟩ := List.cons.inj h
    rw [ih hrest, List.drop_drop]
    rfl

theorem widths_chars (s : List α) : widths (C.chars s) = s.length := by
  generalize hn : s.length = n
  induction n using Nat.strong_induction_on generalizing s with
  | _ n ih =>
    by_cases hs : s = []
    · subst hs
      exact hn
    · have hshort := drop_shorter hC hs
      have hle := hC.le s hs
      rw [chars_step hC hs]
      change C.width s + widths _ = n
      rw [ih _ (by omega) _ rfl, List.length_drop]
      omega

/-! ## Spots -/

omit hC in
theorem Spot.zero (C : Coding α β) (s : List α) : C.Spot s 0 := ⟨[], rfl, rfl⟩

theorem Spot.le (h : C.Spot s b) : b ≤ s.length := by
  obtain ⟨front, hchars, hb⟩ := h
  have hwidths := congrArg widths hchars
  rw [widths_append, hb, widths_chars hC] at hwidths
  omega

theorem Spot.end (s : List α) : C.Spot s s.length :=
  ⟨C.chars s, by rw [List.drop_length, chars_nil, List.append_nil], widths_chars hC s⟩

omit hC in
theorem drop_ne_nil (hb : b < s.length) : s.drop b ≠ [] := by
  rw [ne_eq, List.drop_eq_nil_iff]
  omega

theorem Spot.next (h : C.Spot s b) (hb : b < s.length) : C.Spot s (b + C.width (s.drop b)) := by
  obtain ⟨front, hchars, hfront⟩ := h
  refine ⟨front ++ [(C.width (s.drop b), C.units (s.drop b))], ?_, ?_⟩
  · rw [List.append_assoc, List.singleton_append, ← List.drop_drop, ← chars_step hC (drop_ne_nil hb), hchars]
  · rw [widths_append, hfront]
    rfl

theorem Spot.prev (h : C.Spot s b) (hb : 0 < b) : ∃ p, C.Spot s p ∧ p < s.length ∧ p + C.width (s.drop p) = b := by
  obtain ⟨front, hchars, hfront⟩ := h
  rcases List.eq_nil_or_concat front with rfl | ⟨front, c, rfl⟩
  · cases hfront
    cases hb
  · rw [List.concat_eq_append, List.append_assoc, List.singleton_append] at hchars
    rw [List.concat_eq_append, widths_append] at hfront
    have hrest := chars_split hC hchars
    have hne : s.drop (widths front) ≠ [] := by
      rw [ne_eq, ← chars_eq_nil hC, ← hrest]
      exact List.cons_ne_nil _ _
    refine ⟨widths front, ⟨front, by rw [← hrest]; exact hchars, rfl⟩, ?_, ?_⟩
    · rw [ne_eq, List.drop_eq_nil_iff] at hne
      omega
    · rw [chars_step hC hne] at hrest
      rw [← hfront, (List.cons.inj hrest).1]
      rfl

theorem Spot.next_le {p : Nat} (hq : C.Spot s q) (hp : C.Spot s p) (h : q < p) : q + C.width (s.drop q) ≤ p := by
  obtain ⟨front, hchars, rfl⟩ := hq
  obtain ⟨front', hchars', rfl⟩ := hp
  have hqs : widths front < s.length := by
    have := Spot.le hC ⟨front', hchars', rfl⟩
    omega
  rw [hchars] at hchars'
  rcases List.append_eq_append_iff.mp hchars' with ⟨mid, rfl, hmid⟩ | ⟨mid, rfl, -⟩
  · cases mid with
    | nil =>
      rw [List.append_nil] at h
      omega
    | cons c mid =>
      rw [chars_step hC (drop_ne_nil hqs)] at hmid
      rw [widths_append, ← (List.cons.inj hmid).1]
      exact Nat.add_le_add_left (Nat.le_add_right _ _) _
  · rw [widths_append] at h
    omega

theorem Spot.of_not_tail (hb : C.Spot s b) (hq : q < b) {a : α} (ha : s[q]? = some a) (hno : ¬ tail a) :
    C.Spot s q := by
  induction b using Nat.strong_induction_on with
  | _ b ih =>
    obtain ⟨p, hp, hlt, rfl⟩ := hb.prev hC (by omega)
    rcases Nat.lt_trichotomy q p with h | rfl | h
    · exact ih p (by have := hC.pos _ (drop_ne_nil hlt); omega) hp h
    · exact hp
    · refine absurd (hC.tails (s.drop p) (q - p) a (by omega) (by omega) ?_) hno
      rw [List.getElem?_drop, ← ha]
      congr 1
      omega

/-! ## Units -/

omit hC in
theorem length_units_append (cs cs' : List (Nat × List β)) :
    ((cs ++ cs').flatMap Prod.snd).length = (cs.flatMap Prod.snd).length + (cs'.flatMap Prod.snd).length := by
  rw [List.flatMap_append, List.length_append]

theorem chars_pos {c : Nat × List β} (h : c ∈ C.chars s) : 1 ≤ c.1 ∧ c.2 ≠ [] := by
  generalize hn : s.length = n
  induction n using Nat.strong_induction_on generalizing s with
  | _ n ih =>
    have hs : s ≠ [] := by
      rintro rfl
      cases h
    rw [chars_step hC hs] at h
    rcases List.mem_cons.mp h with rfl | h
    · exact ⟨hC.pos s hs, hC.some_unit s hs⟩
    · exact ih _ (hn ▸ drop_shorter hC hs) h rfl

omit hC in
theorem placeIn_append {front cs : List (Nat × List β)} (h : (front.flatMap Prod.snd).length ≤ u) :
    placeIn (front ++ cs) u =
      (widths front + (placeIn cs (u - (front.flatMap Prod.snd).length)).1, (placeIn cs (u - (front.flatMap Prod.snd).length)).2) := by
  induction front generalizing u with
  | nil =>
    change placeIn cs u = (0 + (placeIn cs u).1, (placeIn cs u).2)
    rw [Nat.zero_add]
  | cons c front ih =>
    rw [List.flatMap_cons, List.length_append] at h
    rw [List.cons_append, placeIn, if_neg (by omega), ih (by omega), List.flatMap_cons, List.length_append, Nat.sub_sub,
      widths_cons, Nat.add_assoc]

omit hC in
theorem beforeIn_append {front cs : List (Nat × List β)} (h : ∀ c ∈ front, 1 ≤ c.1) :
    beforeIn (front ++ cs) (widths front + b) = (front.flatMap Prod.snd).length + beforeIn cs b := by
  induction front with
  | nil =>
    change beforeIn cs (0 + b) = 0 + beforeIn cs b
    rw [Nat.zero_add, Nat.zero_add]
  | cons c front ih =>
    have hc := h c List.mem_cons_self
    rw [List.cons_append, widths_cons, beforeIn, if_neg (by omega), Nat.add_assoc, Nat.add_sub_cancel_left,
      ih fun d hd => h d (List.mem_cons_of_mem c hd), List.flatMap_cons, List.length_append, Nat.add_assoc]

omit hC in
@[simp] theorem beforeIn_zero (cs : List (Nat × List β)) : beforeIn cs 0 = 0 := by
  cases cs <;> rfl

theorem Spot.front (h : C.Spot s b) :
    ∃ front, C.chars s = front ++ C.chars (s.drop b) ∧ widths front = b ∧ (front.flatMap Prod.snd).length = C.before s b := by
  obtain ⟨front, hchars, hb⟩ := h
  have hpos : ∀ c ∈ front, 1 ≤ c.1 := fun c hc =>
    (chars_pos hC (s := s) (by rw [hchars]; exact List.mem_append_left _ hc)).1
  refine ⟨front, hchars, hb, ?_⟩
  rw [before, hchars, ← hb]
  exact ((beforeIn_append (b := 0) hpos).trans (by rw [beforeIn_zero, Nat.add_zero])).symm

theorem decode_drop (h : C.Spot s b) : C.decode (s.drop b) = (C.decode s).drop (C.before s b) := by
  obtain ⟨front, hchars, -, hunits⟩ := h.front hC
  rw [decode, decode, hchars, List.flatMap_append, ← hunits, List.drop_left]

theorem place_from (h : C.Spot s b) (hu : C.before s b ≤ u) :
    C.place s u = (b + (C.place (s.drop b) (u - C.before s b)).1, (C.place (s.drop b) (u - C.before s b)).2) := by
  obtain ⟨front, hchars, hb, hunits⟩ := h.front hC
  rw [place, hchars, placeIn_append (by omega), hb, hunits]
  rfl

theorem before_from (h : C.Spot s b) (c : Nat) : C.before s (b + c) = C.before s b + C.before (s.drop b) c := by
  obtain ⟨front, hchars, hb, hunits⟩ := h.front hC
  have hpos : ∀ c ∈ front, 1 ≤ c.1 := fun c hc =>
    (chars_pos hC (s := s) (by rw [hchars]; exact List.mem_append_left _ hc)).1
  rw [← hunits, before, hchars, ← hb, beforeIn_append hpos]
  rfl

theorem before_width (hs : s ≠ []) : C.before s (C.width s) = (C.units s).length := by
  have hpos := hC.pos s hs
  rw [before, chars_step hC hs, beforeIn, if_neg (by omega), Nat.sub_self, beforeIn_zero, Nat.add_zero]

theorem before_next (h : C.Spot s b) (hb : b < s.length) :
    C.before s (b + C.width (s.drop b)) = C.before s b + (C.units (s.drop b)).length := by
  rw [before_from hC h, before_width hC (drop_ne_nil hb)]

theorem before_step (hs : s ≠ []) {c : Nat} (hc : 0 < c) :
    C.before s c = (C.units s).length + C.before (s.drop (C.width s)) (c - C.width s) := by
  rw [before, chars_step hC hs, beforeIn, if_neg (by omega)]
  rfl

theorem decode_step (hs : s ≠ []) : C.decode s = C.units s ++ C.decode (s.drop (C.width s)) := by
  rw [decode, chars_step hC hs]
  rfl

theorem place_step (hs : s ≠ []) (u : Nat) : C.place s u =
    if u < (C.units s).length then (0, u)
    else (C.width s + (C.place (s.drop (C.width s)) (u - (C.units s).length)).1,
      (C.place (s.drop (C.width s)) (u - (C.units s).length)).2) := by
  rw [place, chars_step hC hs]
  rfl

theorem chars_take {front back : List (Nat × List β)} (h : C.chars s = front ++ back) :
    C.chars (s.take (widths front)) = front := by
  induction front generalizing s with
  | nil => rfl
  | cons c front ih =>
    have hs : s ≠ [] := by
      rintro rfl
      cases h
    have hpos := hC.pos s hs
    rw [chars_step hC hs, List.cons_append] at h
    obtain ⟨rfl, hrest⟩ := List.cons.inj h
    rw [widths_cons]
    obtain ⟨hwidth, hunits⟩ := hC.cut s (C.width s + widths front) hs (Nat.le_add_right _ _)
    have hne : s.take (C.width s + widths front) ≠ [] := by
      rw [ne_eq, List.take_eq_nil_iff]
      rintro (hzero | hnil)
      · omega
      · exact hs hnil
    rw [chars_step hC hne, hwidth, hunits, List.drop_take, Nat.add_sub_cancel_left, ih hrest]

omit hC in
theorem placeIn_inside {cs : List (Nat × List β)} (hu : u < (cs.flatMap Prod.snd).length) :
    ∃ front c back, cs = front ++ c :: back ∧ (placeIn cs u).1 = widths front ∧
      (front.flatMap Prod.snd).length + (placeIn cs u).2 = u ∧ (placeIn cs u).2 < c.2.length := by
  induction cs generalizing u with
  | nil => cases hu
  | cons c cs ih =>
    rw [List.flatMap_cons, List.length_append] at hu
    rw [placeIn]
    split
    · rename_i hhere
      exact ⟨[], c, cs, rfl, rfl, Nat.zero_add u, hhere⟩
    · rename_i hpast
      obtain ⟨front, d, back, rfl, hplace, hrest, hlt⟩ := ih (u := u - c.2.length) (by omega)
      refine ⟨c :: front, d, back, rfl, ?_, ?_, hlt⟩
      · rw [widths_cons, ← hplace]
      · rw [List.flatMap_cons, List.length_append]
        omega

omit hC in
theorem placeIn_past {cs : List (Nat × List β)} (hu : (cs.flatMap Prod.snd).length ≤ u) :
    placeIn cs u = (widths cs, 0) := by
  have h : placeIn (cs ++ []) u = _ := placeIn_append hu
  rw [List.append_nil] at h
  exact h

theorem place_inside (hu : u < (C.decode s).length) :
    C.Spot s (C.place s u).1 ∧ (C.place s u).1 < s.length ∧ C.before s (C.place s u).1 + (C.place s u).2 = u ∧
      (C.place s u).2 < (C.units (s.drop (C.place s u).1)).length := by
  obtain ⟨front, c, back, hchars, hplace, hunit, hlt⟩ := placeIn_inside hu
  have hrest := chars_split hC hchars
  have hspot : C.Spot s (C.place s u).1 := ⟨front, by rw [place, hplace, ← hrest]; exact hchars, hplace.symm⟩
  obtain ⟨front', hchars', hb, hbefore⟩ := hspot.front hC
  have hsame : front = front' := by
    rw [place, hplace, ← hrest, hchars] at hchars'
    exact List.append_cancel_right hchars'
  subst hsame
  have hne : s.drop (widths front) ≠ [] := by
    rw [ne_eq, ← chars_eq_nil hC, ← hrest]
    exact List.cons_ne_nil _ _
  rw [chars_step hC hne] at hrest
  refine ⟨hspot, ?_, ?_, ?_⟩
  · rw [ne_eq, List.drop_eq_nil_iff] at hne
    rw [← hb]
    omega
  · rw [← hbefore]
    exact hunit
  · have hc : c.2 = C.units (s.drop (widths front)) := congrArg Prod.snd (List.cons.inj hrest).1
    rw [← hb, ← hc]
    exact hlt

theorem place_past (hu : (C.decode s).length ≤ u) : C.place s u = (s.length, 0) := by
  rw [place, placeIn_past hu, widths_chars hC]

theorem place_spot (u : Nat) : C.Spot s (C.place s u).1 := by
  rcases Nat.lt_or_ge u (C.decode s).length with hu | hu
  · exact (place_inside hC hu).1
  · rw [place_past hC hu]
    exact Spot.end hC s

theorem before_end (hb : s.length ≤ b) : C.before s b = (C.decode s).length := by
  have hall : beforeIn (C.chars s ++ []) (widths (C.chars s) + (b - s.length)) = _ :=
    beforeIn_append fun c hc => (chars_pos hC hc).1
  rw [List.append_nil, widths_chars hC, Nat.add_sub_cancel' hb] at hall
  exact hall

theorem place_unit (hu : u ≤ (C.decode s).length) : C.before s (C.place s u).1 + (C.place s u).2 = u := by
  rcases Nat.lt_or_eq_of_le hu with hlt | rfl
  · exact (place_inside hC hlt).2.2.1
  · rw [place_past hC le_rfl]
    exact before_end hC le_rfl

theorem decode_at (hu : u < (C.decode s).length) :
    (C.decode s)[u]? = (C.units (s.drop (C.place s u).1))[(C.place s u).2]? := by
  obtain ⟨hspot, hlt, hunit, hin⟩ := place_inside hC hu
  have hdrop := decode_drop hC hspot
  rw [decode_step hC (drop_ne_nil hlt)] at hdrop
  have hsame := congrArg (·[(C.place s u).2]?) hdrop
  rw [List.getElem?_append_left hin, List.getElem?_drop, hunit] at hsame
  exact hsame.symm

theorem decode_slice {b' : Nat} (h : C.Spot s b) (h' : C.Spot s b') (hle : b ≤ b') :
    C.decode ((s.drop b).take (b' - b)) = ((C.decode s).drop (C.before s b)).take (C.before s b' - C.before s b) ∧
      C.before s b ≤ C.before s b' := by
  obtain ⟨front, hchars, hb, hunits⟩ := h.front hC
  obtain ⟨front', hchars', hb', hunits'⟩ := h'.front hC
  obtain ⟨mid, rfl, hmid⟩ : ∃ mid, front' = front ++ mid ∧ C.chars (s.drop b) = mid ++ C.chars (s.drop b') := by
    rcases List.append_eq_append_iff.mp (hchars.symm.trans hchars') with h | ⟨mid, rfl, hmid⟩
    · exact h
    · -- the spots are the same
      cases mid with
      | nil => exact ⟨[], by rw [List.append_nil, List.append_nil], hmid.symm⟩
      | cons c mid =>
        have hc := (chars_pos hC (s := s) (c := c) (by rw [hchars]; simp)).1
        rw [widths_append, widths_cons] at hb
        omega
  rw [widths_append] at hb'
  rw [length_units_append] at hunits'
  have hslice := chars_take hC hmid
  have hwidths : b' - b = widths mid := by omega
  refine ⟨?_, by omega⟩
  rw [hwidths, decode, decode, hslice, hchars', ← hunits, ← hunits', Nat.add_sub_cancel_left, List.flatMap_append,
    List.flatMap_append, List.append_assoc, List.drop_left, List.take_left]

theorem chars_append {t : List α} (ht : ∀ a ∈ t.head?, ¬ tail a) : C.chars (s ++ t) = C.chars s ++ C.chars t := by
  generalize hn : s.length = n
  induction n using Nat.strong_induction_on generalizing s with
  | _ n ih =>
    by_cases hs : s = []
    · subst hs
      rfl
    · obtain ⟨hwidth, hunits⟩ := hC.ends s t hs ht
      rw [chars_step hC hs, chars_step hC (by simp [hs]), hwidth, hunits, List.drop_append_of_le_length (hC.le s hs),
        ih _ (hn ▸ drop_shorter hC hs) rfl, List.cons_append]

end

end Coding

end Zelr
