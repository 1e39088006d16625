import Mathlib.Data.List.Flatten
import Mathlib.Data.List.GetD
import Mathlib.Data.List.Lattice
import Mathlib.Data.List.Nodup
import Mathlib.Data.List.OfFn

/-!
# Linked lists

Nodes with one link each, followed from a head until there is no next.
-/

namespace Zelr.Nodes

variable {α : Type} {link link' : α → Option α} {p q prev : Option α} {l l' r r' : List α} {a b : α} {found : α → Bool} {f : Nat}

def Linked (link : α → Option α) : Option α → List α → Prop
  | p, [] => p = none
  | p, a :: l => p = some a ∧ Linked link (link a) l

/-- A loop over them: `for (a = p; a; a = link a)`. -/
def follow (link : α → Option α) : Nat → Option α → List α
  | 0, _ => []
  | _ + 1, none => []
  | f + 1, some a => a :: follow link f (link a)

def seek (link : α → Option α) (found : α → Bool) : Nat → Option α → Option α → Option (Option α × α)
  | 0, _, _ => none
  | _ + 1, _, none => none
  | f + 1, prev, some a => if found a then some (prev, a) else seek link found f (some a) (link a)

theorem find?_one {P : α → Prop} (hfound : ∀ a, found a = true ↔ P a) (hin : ∀ a, P a → a ∈ l)
    (hone : ∀ a b, P a → P b → a = b) (a : α) : l.find? found = some a ↔ P a := by
  constructor
  · intro h
    exact (hfound a).mp (List.find?_some h)
  · intro ha
    have hsome : (l.find? found).isSome := List.find?_isSome.mpr ⟨a, hin a ha, (hfound a).mpr ha⟩
    obtain ⟨b, hb⟩ := Option.isSome_iff_exists.mp hsome
    rw [hb, hone b a ((hfound b).mp (List.find?_some hb)) ha]

namespace Linked

@[simp] theorem nil_iff : Linked link p [] ↔ p = none := Iff.rfl

theorem follow_eq (h : Linked link p l) (hf : l.length ≤ f) : follow link f p = l := by
  induction l generalizing p f with
  | nil =>
    obtain rfl := h
    cases f <;> rfl
  | cons a l ih =>
    obtain ⟨rfl, h⟩ := h
    obtain ⟨f, rfl⟩ := Nat.exists_eq_add_one_of_ne_zero (show f ≠ 0 by rw [List.length_cons] at hf; omega)
    rw [follow, ih h (Nat.le_of_succ_le_succ hf)]

theorem same (h : Linked link p l) (hsame : ∀ a ∈ l, link' a = link a) : Linked link' p l := by
  induction l generalizing p with
  | nil => exact h
  | cons a l ih =>
    refine ⟨h.1, ?_⟩
    rw [hsame a List.mem_cons_self]
    exact ih h.2 fun b hb => hsame b (List.mem_cons_of_mem a hb)

theorem unique (h : Linked link p l) (h' : Linked link p l') : l = l' := by
  induction l generalizing p l' with
  | nil =>
    obtain rfl := h
    cases l' with
    | nil => rfl
    | cons a l' => cases h'.1
  | cons a l ih =>
    obtain ⟨rfl, h⟩ := h
    cases l' with
    | nil => cases h'
    | cons b l' =>
      obtain rfl := Option.some.inj h'.1
      rw [ih h h'.2]

theorem drop (h : Linked link p (l ++ a :: r)) : Linked link (some a) (a :: r) := by
  induction l generalizing p with
  | nil => exact ⟨rfl, h.2⟩
  | cons b l ih => exact ih h.2

theorem nodup (h : Linked link p l) : l.Nodup := by
  induction l generalizing p with
  | nil => exact List.nodup_nil
  | cons a l ih =>
    refine List.nodup_cons.mpr ⟨fun ha => ?_, ih h.2⟩
    obtain ⟨s, t, rfl⟩ := List.append_of_mem ha
    have htwice : Linked link (some a) (a :: (s ++ a :: t)) := ⟨rfl, h.2⟩
    have hlen := congrArg List.length (htwice.unique h.2.drop)
    simp only [List.length_cons, List.length_append] at hlen
    omega

theorem turn (h : Linked link p (l ++ r)) (hlast : ∀ b ∈ l.getLast?, link' b = q) (hsame : ∀ b ∈ l.dropLast, link' b = link b)
    (hrest : Linked link' q r') : Linked link' (if l = [] then q else p) (l ++ r') := by
  induction l generalizing p with
  | nil => exact hrest
  | cons a l ih =>
    rw [if_neg (List.cons_ne_nil a l)]
    refine ⟨h.1, ?_⟩
    cases l with
    | nil =>
      rw [hlast a rfl]
      exact hrest
    | cons b l =>
      rw [hsame a List.mem_cons_self]
      have hnext := ih h.2 hlast fun c hc => hsame c (List.mem_cons_of_mem a hc)
      rwa [if_neg (List.cons_ne_nil b l)] at hnext

theorem not_last (h : Linked link p (l ++ r)) (hb : b ∈ l.dropLast) : l.getLast? ≠ some b := by
  intro hlast
  have hl : l.Nodup := (List.nodup_append.mp h.nodup).1
  rw [← List.dropLast_append_getLast? b hlast] at hl
  exact (List.nodup_append.mp hl).2.2 b hb b List.mem_cons_self rfl

theorem append (h : Linked link p l) (hlast : ∀ b ∈ l.getLast?, link' b = some a)
    (hsame : ∀ b ∈ l, l.getLast? ≠ some b → link' b = link b) (ha : link' a = none) :
    Linked link' (if l = [] then some a else p) (l ++ [a]) := by
  have h' : Linked link p (l ++ []) := by rwa [List.append_nil]
  exact h'.turn hlast (fun b hb => hsame b (List.dropLast_subset l hb) (h'.not_last hb)) ⟨rfl, ha⟩

theorem remove (h : Linked link p (l ++ a :: r)) (hlast : ∀ b ∈ l.getLast?, link' b = link a)
    (hsame : ∀ b ∈ l ++ r, l.getLast? ≠ some b → link' b = link b) :
    Linked link' (if l = [] then link a else p) (l ++ r) := by
  have hrest : Linked link (link a) r := h.drop.2
  refine h.turn hlast (fun b hb => hsame b (List.mem_append_left _ (List.dropLast_subset l hb)) (h.not_last hb)) ?_
  refine hrest.same fun b hb => hsame b (List.mem_append_right _ hb) fun hbl => ?_
  exact (List.nodup_append.mp h.nodup).2.2 b (List.mem_of_getLast? hbl) b (List.mem_cons_of_mem a hb) rfl

theorem seek_eq (h : Linked link p (l ++ a :: r)) (hno : ∀ b ∈ l, found b = false) (ha : found a = true) (hf : l.length < f) :
    seek link found f prev p = some (l.getLast?.or prev, a) := by
  induction l generalizing p f prev with
  | nil =>
    obtain ⟨f, rfl⟩ := Nat.exists_eq_add_one_of_ne_zero (show f ≠ 0 by omega)
    obtain ⟨rfl, -⟩ := h
    rw [seek, if_pos ha]
    rfl
  | cons b l ih =>
    rw [List.length_cons] at hf
    obtain ⟨f, rfl⟩ := Nat.exists_eq_add_one_of_ne_zero (show f ≠ 0 by omega)
    obtain ⟨rfl, h⟩ := h
    rw [seek, hno b List.mem_cons_self, if_neg Bool.false_ne_true,
      ih h (fun c hc => hno c (List.mem_cons_of_mem b hc)) (by omega)]
    cases l with
    | nil => rfl
    | cons c l => rw [List.getLast?_cons_cons, List.getLast?_eq_some_getLast (List.cons_ne_nil c l), Option.some_or, Option.some_or]

theorem seek_none (h : Linked link p l) (hno : ∀ b ∈ l, found b = false) : seek link found f prev p = none := by
  induction l generalizing p f prev with
  | nil =>
    obtain rfl := h
    cases f <;> rfl
  | cons b l ih =>
    obtain ⟨rfl, h⟩ := h
    cases f with
    | zero => rfl
    | succ f =>
      rw [seek, hno b List.mem_cons_self, if_neg Bool.false_ne_true]
      exact ih h fun c hc => hno c (List.mem_cons_of_mem b hc)

theorem all_same {ps : List (Option α)} {ls : List (List α)} (h : List.Forall₂ (Linked link) ps ls)
    (hsame : ∀ a ∈ ls.flatten, link' a = link a) : List.Forall₂ (Linked link') ps ls := by
  induction h with
  | nil => exact .nil
  | cons hhead _ ih =>
    rw [List.flatten_cons] at hsame
    exact .cons (hhead.same fun a ha => hsame a (List.mem_append_left _ ha)) (ih fun a ha => hsame a (List.mem_append_right _ ha))

end Linked

/-! ## Tables of lists -/

def Held (link : α → Option α) (slot : α → Nat) (bs : List (Option α)) (P : α → Prop) : Prop :=
  ∀ i < bs.length, ∃ c, Linked link (bs.getD i none) c ∧ ∀ a, a ∈ c ↔ P a ∧ slot a = i

theorem held_none (link : α → Option α) (slot : α → Nat) (n : Nat) :
    Held link slot (List.replicate n none) fun _ => False := fun i _ => by
  refine ⟨[], ?_, fun a => ?_⟩
  · rw [Linked.nil_iff, List.getD_eq_getElem?_getD, List.getElem?_replicate]
    split <;> rfl
  · simp

namespace Held

variable {slot slot' : α → Nat} {bs : List (Option α)} {P Q : α → Prop}

section
variable (h : Held link slot bs P)
include h

theorem congr (hPQ : ∀ a, P a ↔ Q a) : Held link slot bs Q := fun i hi => by
  obtain ⟨c, hlinked, hmem⟩ := h i hi
  exact ⟨c, hlinked, fun a => (hmem a).trans (and_congr_left fun _ => hPQ a)⟩

theorem same (hlink : ∀ a, P a → link' a = link a) (hslot : ∀ a, P a → slot' a = slot a) :
    Held link' slot' bs P := fun i hi => by
  obtain ⟨c, hlinked, hmem⟩ := h i hi
  refine ⟨c, hlinked.same fun a ha => hlink a ((hmem a).mp ha).1, fun a => ?_⟩
  rw [hmem]
  exact and_congr_right fun ha => by rw [hslot a ha]

theorem push (hno : ¬ P a) (ha : link' a = bs.getD (slot' a) none)
    (hlink : ∀ b, b ≠ a → link' b = link b) (hslot : ∀ b, b ≠ a → slot' b = slot b) :
    Held link' slot' (bs.set (slot' a) (some a)) fun b => P b ∨ b = a := fun i hi => by
  rw [List.length_set] at hi
  obtain ⟨c, hlinked, hmem⟩ := h i hi
  have hne : ∀ b ∈ c, b ≠ a := by
    rintro b hb rfl
    exact hno ((hmem b).mp hb).1
  have hlinked' : Linked link' (bs.getD i none) c := hlinked.same fun b hb => hlink b (hne b hb)
  have hmem' : ∀ b, b ≠ a → (b ∈ c ↔ (P b ∨ b = a) ∧ slot' b = i) := fun b hb => by
    rw [hmem, hslot b hb, or_iff_left hb]
  by_cases hi' : slot' a = i
  · subst hi'
    refine ⟨a :: c, ?_, fun b => ?_⟩
    · rw [List.getD_eq_getElem?_getD, List.getElem?_set_self hi]
      refine ⟨rfl, ?_⟩
      rw [ha]
      exact hlinked'
    · rw [List.mem_cons]
      by_cases hb : b = a
      · simp [hb]
      · rw [or_iff_right hb]
        exact hmem' b hb
  · refine ⟨c, ?_, fun b => ?_⟩
    · rw [List.getD_eq_getElem?_getD, List.getElem?_set_ne hi', ← List.getD_eq_getElem?_getD]
      exact hlinked'
    · by_cases hb : b = a
      · subst hb
        exact iff_of_false (fun hbc => hne b hbc rfl) fun hbs => hi' hbs.2
      · exact hmem' b hb

theorem pull {i : Nat} (hi : i < bs.length)
    (hlinked : Linked link (bs.getD i none) (l ++ a :: r)) (hmem : ∀ b, b ∈ l ++ a :: r ↔ P b ∧ slot b = i)
    (hlast : ∀ b ∈ l.getLast?, link' b = link a) (hlink : ∀ b, l.getLast? ≠ some b → link' b = link b) :
    Held link' slot (bs.set i (if l = [] then link a else bs.getD i none)) fun b => P b ∧ b ≠ a := fun j hj => by
  rw [List.length_set] at hj
  by_cases hij : i = j
  · subst hij
    refine ⟨l ++ r, ?_, fun b => ?_⟩
    · rw [List.getD_eq_getElem?_getD, List.getElem?_set_self hi]
      exact hlinked.remove hlast fun b _ hb => hlink b hb
    · rw [and_right_comm, ← hmem]
      have hout : a ∉ l ++ r := (List.nodup_cons.mp (List.nodup_middle.mp hlinked.nodup)).1
      constructor
      · intro hb
        refine ⟨?_, fun heq => hout (heq ▸ hb)⟩
        rw [List.mem_append] at hb ⊢
        exact hb.imp_right (List.mem_cons_of_mem a)
      · rintro ⟨hb, hne⟩
        rw [List.mem_append] at hb ⊢
        exact hb.imp_right fun hr => (List.mem_cons.mp hr).resolve_left hne
  · obtain ⟨c, hc, hcmem⟩ := h j hj
    have hother : ∀ b ∈ c, b ∉ l ++ a :: r := fun b hb hbl => hij (((hmem b).mp hbl).2.symm.trans ((hcmem b).mp hb).2)
    refine ⟨c, ?_, fun b => ?_⟩
    · rw [List.getD_eq_getElem?_getD, List.getElem?_set_ne hij, ← List.getD_eq_getElem?_getD]
      exact hc.same fun b hb => hlink b fun hbl => hother b hb (List.mem_append_left _ (List.mem_of_getLast? hbl))
    · rw [and_right_comm, hcmem, iff_self_and]
      rintro hb rfl
      exact hother b ((hcmem b).mpr hb) (List.mem_append_right _ List.mem_cons_self)

theorem lists (hin : ∀ a, P a → slot a < bs.length) :
    ∃ cs, List.Forall₂ (Linked link) bs cs ∧ cs.flatten.Nodup ∧ ∀ a, a ∈ cs.flatten ↔ P a := by
  choose c hlinked hmem using h
  refine ⟨List.ofFn fun i : Fin bs.length => c i i.2, ?_, List.nodup_flatten.mpr ⟨?_, ?_⟩, fun a => ?_⟩
  · refine List.forall₂_iff_get.mpr ⟨by rw [List.length_ofFn], fun i hi hi' => ?_⟩
    have hget := hlinked i hi
    rw [List.getD_eq_getElem _ _ hi] at hget
    rw [List.get_ofFn]
    exact hget
  · rintro l hl
    obtain ⟨i, rfl⟩ := List.mem_ofFn.mp hl
    exact (hlinked i i.2).nodup
  · rw [List.pairwise_ofFn]
    intro i j hij a hi hj
    have hsame := ((hmem i i.2 a).mp hi).2.symm.trans ((hmem j j.2 a).mp hj).2
    omega
  · rw [List.mem_flatten]
    constructor
    · rintro ⟨l, hl, ha⟩
      obtain ⟨i, rfl⟩ := List.mem_ofFn.mp hl
      exact ((hmem i i.2 a).mp ha).1
    · intro ha
      exact ⟨c _ (hin a ha), List.mem_ofFn.mpr ⟨⟨_, hin a ha⟩, rfl⟩, (hmem _ (hin a ha) a).mpr ⟨ha, rfl⟩⟩

end

end Held

end Zelr.Nodes
