import Zelr.Fat.Found

/-!
# Paths, and what a volume holds

A path is walked to the directory of its last component.
-/

namespace Zelr.Fat

def SLASH : UInt8 := 47

structure Path where
  text : Bytes
  plain : 0 ∉ text

/-! ## Walking -/

/-- What `next_component` gives, time after time. A component is cut at what a name can hold. -/
def components : Bytes → Bytes → List Bytes
  | part, [] => if part = [] then [] else [part]
  | part, c :: s =>
    if c = SLASH then if part = [] then components [] s else part :: components [] s
    else components (if part.length < FAT_NAME_MAX - 1 then part ++ [c] else part) s

def descend (v : Volume) (here : Nat) (part : Bytes) : Option Nat :=
  if part = [DOT] then some here
  else if part = [DOT, DOT] then
    if here = 0 then some here
    else (dirFind (v.dir here) part).map fun i => v.inside ((v.dir here).entry i)
  else
    match dirFind (v.dir here) part with
    | none => none
    | some i => if ((v.dir here).entry i).isDir then some (v.inside ((v.dir here).entry i)) else none

def descendAll (v : Volume) : Nat → List Bytes → Option Nat
  | here, [] => some here
  | here, part :: parts => (descend v here part).bind fun here => descendAll v here parts

theorem components_good {part s : Bytes} (hpart : 0 ∉ part ∧ part.length < FAT_NAME_MAX) (hs : 0 ∉ s) :
    ∀ q ∈ components part s, 0 ∉ q ∧ q.length < FAT_NAME_MAX := by
  have hnil : (0 : UInt8) ∉ ([] : Bytes) ∧ ([] : Bytes).length < FAT_NAME_MAX := ⟨List.not_mem_nil, by decide⟩
  induction s generalizing part with
  | nil =>
    intro q hq
    unfold components at hq
    split at hq
    · cases hq
    · rw [List.mem_singleton.mp hq]
      exact hpart
  | cons c s ih =>
    have hrest : (0 : UInt8) ∉ s := fun h => hs (List.mem_cons_of_mem _ h)
    have hc : (0 : UInt8) ≠ c := fun h => hs (h ▸ List.mem_cons_self)
    intro q hq
    unfold components at hq
    split at hq
    · split at hq
      · exact ih hnil hrest q hq
      · rcases List.mem_cons.mp hq with rfl | hq
        · exact hpart
        · exact ih hnil hrest q hq
    · refine ih ?_ hrest q hq
      split
      · rename_i hlt
        refine ⟨fun h => ?_, ?_⟩
        · rcases List.mem_append.mp h with h | h
          · exact hpart.1 h
          · exact hc (List.mem_singleton.mp h)
        · rw [List.length_append, List.length_singleton]
          omega
      · exact hpart

theorem Path.components_good (p : Path) : ∀ q ∈ components [] p.text, 0 ∉ q ∧ q.length < FAT_NAME_MAX :=
  Fat.components_good ⟨List.not_mem_nil, by decide⟩ p.plain

def Path.leaf (p : Path) : Leaf where
  name := (components [] p.text).getLastD []
  plain := by
    rw [List.getLastD_eq_getLast?]
    cases h : (components [] p.text).getLast? with
    | none => exact List.not_mem_nil
    | some q => exact (p.components_good q (List.mem_of_getLast? h)).1
  short := by
    rw [List.getLastD_eq_getLast?]
    cases h : (components [] p.text).getLast? with
    | none => decide
    | some q => exact (p.components_good q (List.mem_of_getLast? h)).2

def resolveParent (v : Volume) (p : Path) : Option (Nat × Leaf) :=
  (descendAll v 0 (components [] p.text).dropLast).map fun here => (here, p.leaf)

/-! ## A volume by the format -/

/-- A directory begins with `.` and `..`, and the second is a directory. -/
structure Dotted (d : Dir) : Prop where
  dot : (d.entry 0).name = blanks 11 [DOT]
  up : (d.entry 1).name = blanks 11 [DOT, DOT]
  upDir : (d.entry 1).isDir = true
  upReal : entryIsReal (d.entry 1) = true

def Consistent (v : Volume) : Prop :=
  ∀ p, ∀ i < (v.dir p).ending, entryIsReal ((v.dir p).entry i) = true → ((v.dir p).entry i).isDir = true →
    v.inside ((v.dir p).entry i) ≠ 0 → Dotted (v.dir (v.inside ((v.dir p).entry i)))

section walk
variable {v : Volume} {d : Dir} {here p i : Nat} {name : Bytes}

theorem dirFind_ending (hdots : isDots name = false) (h : dirFind d name = some i) :
    i < d.ending ∧ entryIsReal (d.entry i) = true := by
  unfold dirFind at h
  rw [hdots, if_neg (by nofun)] at h
  have hans := List.find?_some h
  exact ⟨List.mem_range.mp (List.mem_of_find?_eq_some h), (Bool.and_eq_true_iff.mp hans).1⟩

theorem Dotted.first (h : Dotted d) : (d.entry 0).first ≠ ENT_FREE ∧ (d.entry 1).first ≠ ENT_FREE := by
  simp only [Dirent.first, h.dot, h.up]
  decide

theorem Dotted.lt_ending (h : Dotted d) : 1 < d.ending := by
  refine Fat.lt_ending (entry_lt h.first.2) fun j hj => ?_
  rcases Nat.le_one_iff_eq_zero_or_eq_one.mp hj with rfl | rfl
  · exact h.first.1
  · exact h.first.2

theorem Dotted.find (h : Dotted d) (hfind : dirFind d [DOT, DOT] = some i) : i = 1 := by
  unfold dirFind at hfind
  rw [if_pos (by rfl)] at hfind
  obtain ⟨-, hfind⟩ := Option.ite_none_left_eq_some.mp hfind
  have hlt := List.mem_range.mp (List.mem_of_find?_eq_some hfind)
  have hfound := List.find?_some hfind
  have hname : (d.entry i).name = blanks 11 [DOT, DOT] := of_decide_eq_true hfound
  have hne : i ≠ 0 := by
    rintro rfl
    rw [h.dot] at hname
    exact absurd hname (by decide)
  omega

def Standing (v : Volume) (p : Nat) : Prop := p = 0 ∨ Dotted (v.dir p)

theorem Consistent.inside (h : Consistent v) (hi : i < (v.dir p).ending) (hreal : entryIsReal ((v.dir p).entry i) = true)
    (hdir : ((v.dir p).entry i).isDir = true) : Standing v (v.inside ((v.dir p).entry i)) := by
  by_cases hroot : v.inside ((v.dir p).entry i) = 0
  · exact .inl hroot
  · exact .inr (h p i hi hreal hdir hroot)

theorem descend_standing (h : Consistent v) (hhere : Standing v here) {part : Bytes} (hgo : descend v here part = some p) :
    Standing v p := by
  unfold descend at hgo
  split at hgo
  · cases hgo
    exact hhere
  · rename_i hdot
    split at hgo
    · rename_i hup
      split at hgo
      · cases hgo
        exact hhere
      · rename_i hroot
        obtain ⟨i, hfind, rfl⟩ := Option.map_eq_some_iff.mp hgo
        have hdotted := hhere.resolve_left hroot
        rw [hup] at hfind
        rw [hdotted.find hfind]
        exact h.inside hdotted.lt_ending hdotted.upReal hdotted.upDir
    · rename_i hup
      split at hgo
      · cases hgo
      · rename_i i hfind
        obtain ⟨hdir, hgo⟩ := Option.ite_none_right_eq_some.mp hgo
        cases hgo
        have hdots : isDots part = false := by
          rw [isDots, decide_eq_false hdot, decide_eq_false hup]
          rfl
        obtain ⟨hi, hreal⟩ := dirFind_ending hdots hfind
        exact h.inside hi hreal hdir

theorem descendAll_standing (h : Consistent v) {parts : List Bytes} (hhere : Standing v here)
    (hgo : descendAll v here parts = some p) : Standing v p := by
  induction parts generalizing here with
  | nil =>
    cases hgo
    exact hhere
  | cons part parts ih =>
    obtain ⟨next, hnext, hgo⟩ := Option.bind_eq_some_iff.mp hgo
    exact ih (descend_standing h hhere hnext) hgo

theorem resolveParent_standing (h : Consistent v) {path : Path} {leaf : Leaf} (hgo : resolveParent v path = some (p, leaf)) :
    Standing v p := by
  obtain ⟨here, hhere, heq⟩ := Option.map_eq_some_iff.mp hgo
  cases heq
  exact descendAll_standing h (.inl rfl) hhere

end walk

/-! ## What is held -/

/-- What a directory holds: its entries under the names they are listed by, each with its attribute, its size and the
first cluster of its content. -/
def shown (d : Dir) : List (Bytes × Dirent) :=
  ((List.range d.ending).filter fun i => entryIsReal (d.entry i)).map fun i => (shownName d i, d.entry i)

def Same (v v' : Volume) : Prop := ∀ p, shown (v'.dir p) = shown (v.dir p)

theorem Same.refl (v : Volume) : Same v v := fun _ => rfl

theorem shown_congr {d d' : Dir} (hending : d'.ending = d.ending)
    (h : ∀ i < d.ending, d'.entry i = d.entry i ∧ longNameOf d'.slots i (d.entry i) = longNameOf d.slots i (d.entry i)) :
    shown d' = shown d := by
  unfold shown
  rw [hending]
  have hfilter : ((List.range d.ending).filter fun i => entryIsReal (d'.entry i)) =
      (List.range d.ending).filter fun i => entryIsReal (d.entry i) := by
    refine List.filter_congr fun i hi => ?_
    rw [(h i (List.mem_range.mp hi)).1]
  rw [hfilter]
  refine List.map_congr_left fun i hi => ?_
  obtain ⟨hentry, hlong⟩ := h i (List.mem_range.mp (List.mem_filter.mp hi).1)
  rw [shownName, shownName, hentry, hlong]

theorem findIdx_zeros {slots : List Dirent} (n : Nat) :
    (slots ++ List.replicate n Dirent.zero).findIdx (fun e => e.first = ENT_FREE) =
      slots.findIdx fun e => e.first = ENT_FREE := by
  induction slots with
  | nil =>
    cases n with
    | zero => rfl
    | succ n =>
      rw [List.nil_append, List.replicate_succ, List.findIdx_cons]
      rfl
  | cons e slots ih => rw [List.cons_append, List.findIdx_cons, List.findIdx_cons, ih]

theorem grown_shown {d : Dir} {g : List Dirent} (hg : Grown d g) : shown ⟨d.root, g⟩ = shown d := by
  have hentry := grown_entry hg
  have hlen := grown_length hg
  refine shown_congr ?_ fun i hi => ⟨hentry i, ?_⟩
  · obtain ⟨n, rfl⟩ := hg
    exact findIdx_zeros n
  · have hle := ending_le d
    exact longNameOf_alike (show i ≤ g.length by omega) (by omega) (fun k _ => .inl (hentry k)) rfl

theorem put_same {v : Volume} {p : Nat} {slots : List Dirent} (h : shown ⟨(v.dir p).root, slots⟩ = shown (v.dir p)) :
    Same v (v.put p slots) := by
  intro q
  by_cases hq : q = p
  · rw [hq, put_dir, h]
  · rw [Volume.dir, put_other v slots hq]
    rfl

end Zelr.Fat
