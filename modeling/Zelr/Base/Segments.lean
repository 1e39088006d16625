import Mathlib.Data.List.DropRight

/-!
# Segments

A text cut at a separator, and the walk over its segments in which one kind stays where it is and
one kind goes back to where the last came from.
-/

namespace Zelr.Segments

variable {α : Type}

/-! ## Cutting and joining -/

/-- What stands first, and the others each behind a separator. -/
def joined (sep : α) (first : List α) (more : List (List α)) : List α := first ++ more.flatMap (sep :: ·)

def Plain (sep : α) (more : List (List α)) : Prop := ∀ m ∈ more, sep ∉ m

section join
variable {sep : α} {first first' : List α} {more more' : List (List α)} {s t : List α}

@[simp] theorem joined_nil : joined sep first [] = first := List.append_nil _

theorem joined_append : joined sep first (more ++ more') = joined sep (joined sep first more) more' := by
  simp [joined]

theorem joined_snoc : joined sep first (more ++ [s]) = joined sep first more ++ sep :: s := by
  simp [joined]

theorem joined_cons : joined sep first (s :: more) = first ++ sep :: joined sep s more := by
  simp [joined]

theorem joined_joined : joined sep first (more ++ [s]) ++ joined sep t more' = joined sep first (more ++ (s ++ t) :: more') := by
  simp [joined]

variable [DecidableEq α]

def firstOf (sep : α) (s : List α) : List α := (s.splitOn sep).headD []

def moreOf (sep : α) (s : List α) : List (List α) := (s.splitOn sep).tail

theorem splitOn_joined (hfirst : sep ∉ first) (hmore : Plain sep more) : (joined sep first more).splitOn sep = first :: more := by
  induction more generalizing first with
  | nil => rw [joined_nil, List.splitOn_eq_singleton hfirst]
  | cons s more ih =>
    have hs : sep ∉ s := hmore s List.mem_cons_self
    rw [joined_cons, List.splitOn_append_cons_self, List.splitOn_eq_singleton hfirst,
      ih hs fun m hm => hmore m (List.mem_cons_of_mem _ hm)]
    rfl

theorem firstOf_joined (hfirst : sep ∉ first) (hmore : Plain sep more) : firstOf sep (joined sep first more) = first := by
  rw [firstOf, splitOn_joined hfirst hmore]
  rfl

theorem moreOf_joined (hfirst : sep ∉ first) (hmore : Plain sep more) : moreOf sep (joined sep first more) = more := by
  rw [moreOf, splitOn_joined hfirst hmore]
  rfl

theorem joined_inj (hfirst : sep ∉ first) (hmore : Plain sep more) (hfirst' : sep ∉ first') (hmore' : Plain sep more') :
    joined sep first more = joined sep first' more' ↔ first = first' ∧ more = more' := by
  constructor
  · intro h
    have hsplit := congrArg (List.splitOn sep) h
    rw [splitOn_joined hfirst hmore, splitOn_joined hfirst' hmore'] at hsplit
    exact List.cons.inj hsplit
  · rintro ⟨rfl, rfl⟩
    rfl

theorem exists_joined (sep : α) (s : List α) : ∃ first more, sep ∉ first ∧ Plain sep more ∧ s = joined sep first more := by
  induction s with
  | nil => exact ⟨[], [], List.not_mem_nil, fun _ h => absurd h List.not_mem_nil, rfl⟩
  | cons c s ih =>
    obtain ⟨first, more, hfirst, hmore, rfl⟩ := ih
    by_cases hc : c = sep
    · refine ⟨[], first :: more, List.not_mem_nil, ?_, by rw [hc, joined_cons]; rfl⟩
      intro m hm
      rcases List.mem_cons.mp hm with rfl | hm
      · exact hfirst
      · exact hmore m hm
    · refine ⟨c :: first, more, ?_, hmore, rfl⟩
      rw [List.mem_cons, not_or]
      exact ⟨fun h => hc h.symm, hfirst⟩

theorem joined_parts (sep : α) (s : List α) : joined sep (firstOf sep s) (moreOf sep s) = s := by
  obtain ⟨first, more, hfirst, hmore, rfl⟩ := exists_joined sep s
  rw [firstOf_joined hfirst hmore, moreOf_joined hfirst hmore]

theorem firstOf_plain (sep : α) (s : List α) : sep ∉ firstOf sep s := by
  obtain ⟨first, more, hfirst, hmore, rfl⟩ := exists_joined sep s
  rwa [firstOf_joined hfirst hmore]

theorem moreOf_plain (sep : α) (s : List α) : Plain sep (moreOf sep s) := by
  obtain ⟨first, more, hfirst, hmore, rfl⟩ := exists_joined sep s
  rwa [moreOf_joined hfirst hmore]

theorem moreOf_eq_nil : moreOf sep s = [] ↔ sep ∉ s := by
  constructor
  · intro h
    have hs := joined_parts sep s
    rw [h, joined_nil] at hs
    exact hs ▸ firstOf_plain sep s
  · intro h
    rw [moreOf, List.splitOn_eq_singleton h]
    rfl

theorem moreOf_append_sep (a b : List α) : moreOf sep (a ++ sep :: b) = moreOf sep a ++ firstOf sep b :: moreOf sep b := by
  rw [moreOf, List.splitOn_append_cons_self]
  have hne := List.splitOn_ne_nil sep a
  rw [List.tail_append_of_ne_nil hne]
  congr 1
  have hb := List.splitOn_ne_nil sep b
  rw [firstOf, moreOf]
  cases h : b.splitOn sep with
  | nil => exact absurd h hb
  | cons c cs => rfl

theorem firstOf_append_sep (a b : List α) : firstOf sep (a ++ sep :: b) = firstOf sep a := by
  rw [firstOf, firstOf, List.splitOn_append_cons_self]
  cases h : a.splitOn sep with
  | nil => exact absurd h (List.splitOn_ne_nil sep a)
  | cons c cs => rfl

end join

/-! ## Walking -/

/-- Where a walk has come: what stands first, and the segments behind it, the last in front. -/
structure Walk (α : Type) where
  first : List α
  above : List (List α)
  deriving DecidableEq

def Walk.up : Walk α → Walk α
  | ⟨_, []⟩ => ⟨[], []⟩
  | ⟨first, _ :: above⟩ => ⟨first, above⟩

/-- The walk over one segment; `dot` stays and `dots` goes back. -/
def Walk.step [DecidableEq α] (dot dots : List α) (w : Walk α) (seg : List α) : Walk α :=
  if seg = dot then w else if seg = dots then w.up else ⟨w.first, seg :: w.above⟩

def Walk.text (sep : α) (w : Walk α) : List α := joined sep w.first w.above.reverse

structure Walk.Plain (sep : α) (w : Walk α) : Prop where
  first : sep ∉ w.first
  above : Segments.Plain sep w.above

/-- No segment of the walk is one that stays or goes back. -/
def Walk.Clean (dot dots : List α) (w : Walk α) : Prop := ∀ seg ∈ w.above, seg ≠ dot ∧ seg ≠ dots

section walk
variable {sep : α} {dot dots seg : List α} {w w' : Walk α} {more : List (List α)}

theorem Walk.Plain.reverse (h : w.Plain sep) : Segments.Plain sep w.above.reverse :=
  fun m hm => h.above m (List.mem_reverse.mp hm)

theorem Walk.Plain.up (h : w.Plain sep) : w.up.Plain sep := by
  obtain ⟨first, above⟩ := w
  cases above with
  | nil => exact ⟨List.not_mem_nil, fun _ hm => absurd hm List.not_mem_nil⟩
  | cons seg above => exact ⟨h.first, fun m hm => h.above m (List.mem_cons_of_mem _ hm)⟩

theorem Walk.Clean.up (h : w.Clean dot dots) : w.up.Clean dot dots := by
  obtain ⟨first, above⟩ := w
  cases above with
  | nil => exact fun _ hm => absurd hm List.not_mem_nil
  | cons seg above => exact fun m hm => h m (List.mem_cons_of_mem _ hm)

theorem Walk.text_cons (first seg : List α) (above : List (List α)) :
    Walk.text sep ⟨first, seg :: above⟩ = Walk.text sep ⟨first, above⟩ ++ sep :: seg := by
  rw [Walk.text, List.reverse_cons, joined_snoc, Walk.text]

variable [DecidableEq α]

theorem Walk.Plain.step (h : w.Plain sep) (hseg : sep ∉ seg) : (w.step dot dots seg).Plain sep := by
  unfold Walk.step
  split
  · exact h
  · split
    · exact h.up
    · refine ⟨h.first, fun m hm => ?_⟩
      rcases List.mem_cons.mp hm with rfl | hm
      · exact hseg
      · exact h.above m hm

theorem Walk.Plain.steps (h : w.Plain sep) (hmore : Segments.Plain sep more) : (more.foldl (Walk.step dot dots) w).Plain sep := by
  induction more generalizing w with
  | nil => exact h
  | cons seg more ih =>
    exact ih (h.step (hmore seg List.mem_cons_self)) fun m hm => hmore m (List.mem_cons_of_mem _ hm)

theorem Walk.Clean.step (h : w.Clean dot dots) : (w.step dot dots seg).Clean dot dots := by
  unfold Walk.step
  split
  · exact h
  · rename_i hdot
    split
    · exact h.up
    · rename_i hdots
      intro m hm
      rcases List.mem_cons.mp hm with rfl | hm
      · exact ⟨hdot, hdots⟩
      · exact h m hm

theorem Walk.Clean.steps (h : w.Clean dot dots) : (more.foldl (Walk.step dot dots) w).Clean dot dots := by
  induction more generalizing w with
  | nil => exact h
  | cons seg more ih => exact ih h.step

theorem Walk.text_inj (h : w.Plain sep) (h' : w'.Plain sep) : w.text sep = w'.text sep ↔ w = w' := by
  obtain ⟨first, above⟩ := w
  obtain ⟨first', above'⟩ := w'
  rw [Walk.text, Walk.text, joined_inj h.first h.reverse h'.first h'.reverse, List.reverse_inj]
  simp

theorem Walk.text_snoc_inj {seg' : List α} (h : w.Plain sep) (hseg : sep ∉ seg) (h' : w'.Plain sep) (hseg' : sep ∉ seg') :
    w.text sep ++ sep :: seg = w'.text sep ++ sep :: seg' ↔ w = w' ∧ seg = seg' := by
  obtain ⟨first, above⟩ := w
  obtain ⟨first', above'⟩ := w'
  have hplain : Walk.Plain sep ⟨first, seg :: above⟩ := by
    refine ⟨h.first, fun m hm => ?_⟩
    rcases List.mem_cons.mp hm with rfl | hm
    · exact hseg
    · exact h.above m hm
  have hplain' : Walk.Plain sep ⟨first', seg' :: above'⟩ := by
    refine ⟨h'.first, fun m hm => ?_⟩
    rcases List.mem_cons.mp hm with rfl | hm
    · exact hseg'
    · exact h'.above m hm
  rw [← Walk.text_cons, ← Walk.text_cons, Walk.text_inj hplain hplain']
  simp
  tauto

theorem steps_kept (h : ∀ seg ∈ more, seg ≠ dot ∧ seg ≠ dots) :
    more.foldl (Walk.step dot dots) w = ⟨w.first, more.reverse ++ w.above⟩ := by
  induction more generalizing w with
  | nil => rfl
  | cons seg more ih =>
    obtain ⟨hdot, hdots⟩ := h seg List.mem_cons_self
    rw [List.foldl_cons, ih fun m hm => h m (List.mem_cons_of_mem _ hm), Walk.step, if_neg hdot, if_neg hdots]
    simp

theorem text_steps_kept (h : ∀ seg ∈ more, seg ≠ dot ∧ seg ≠ dots) :
    (more.foldl (Walk.step dot dots) w).text sep = joined sep (w.text sep) more := by
  rw [steps_kept h, Walk.text, Walk.text, List.reverse_append, List.reverse_reverse, joined_append]

theorem rdropWhile_sep (a : List α) (hseg : sep ∉ seg) : (a ++ sep :: seg).rdropWhile (· ≠ sep) = a ++ [sep] := by
  have hall : ∀ c ∈ seg.reverse, decide (c ≠ sep) = true := by
    intro c hc
    rw [decide_eq_true_iff]
    rintro rfl
    exact hseg (List.mem_reverse.mp hc)
  rw [List.rdropWhile, List.reverse_append, List.reverse_cons, List.append_assoc, List.dropWhile_append_of_pos hall]
  simp

theorem rdropWhile_plain {s : List α} (hs : sep ∉ s) : s.rdropWhile (· ≠ sep) = [] := by
  rw [List.rdropWhile_eq_nil_iff]
  intro c hc
  rw [decide_eq_true_iff]
  rintro rfl
  exact hs hc

theorem text_up (h : w.Plain sep) : w.up.text sep = ((w.text sep).rdropWhile (· ≠ sep)).dropLast := by
  obtain ⟨first, above⟩ := w
  cases above with
  | nil =>
    change [] = (List.rdropWhile _ (joined sep first [])).dropLast
    rw [joined_nil, rdropWhile_plain h.first]
    rfl
  | cons seg above =>
    rw [Walk.text_cons, rdropWhile_sep _ (h.above seg List.mem_cons_self), List.dropLast_concat]
    rfl

end walk

end Zelr.Segments
