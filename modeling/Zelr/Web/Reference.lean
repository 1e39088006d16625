import Zelr.Web.Dots
import Zelr.Web.Links

/-!
# Where a reference points

RFC 3986, 5.2, for a reference that has no scheme and no authority, and when `url_join` agrees with it.
-/

namespace Zelr.Web

open Segments

variable {mids : List Bytes} {last : Bytes}

/-! ## What the standard says -/

def refPath (r : Bytes) : Bytes := r.takeWhile fun c => c ≠ QUESTION ∧ c ≠ HASH

def refQuery (r : Bytes) : Option Bytes :=
  match r.dropWhile fun c => c ≠ QUESTION ∧ c ≠ HASH with
  | [] => none
  | c :: s => if c = QUESTION then some (s.takeWhile (· ≠ HASH)) else none

def recompose (path : Bytes) : Option Bytes → Bytes
  | none => path
  | some query => path ++ QUESTION :: query

def merge (base path : Bytes) : Bytes := if base = [] then SLASH :: path else uptoSlash base ++ path

def target (base r : Bytes) : Bytes :=
  if refPath r = [] then recompose (refPath base) ((refQuery r).or (refQuery base))
  else if (refPath r).head? = some SLASH then recompose (removeDots (refPath r)) (refQuery r)
  else recompose (removeDots (merge (refPath base) (refPath r))) (refQuery r)

def resolve (base : Url) (r : Bytes) : Url := { base with path := target base.path r }

structure HttpUrl (u : Url) : Prop where
  network : u.secure ≠ .file
  rooted : u.path.head? = some SLASH ∨ u.path.head? = some QUESTION
  whole : HASH ∉ u.path
  zero : 0 ∉ u.path

/-- A reference with neither scheme nor authority: a path of either kind, a query alone or a fragment alone. -/
structure Relative (r : Bytes) : Prop where
  zero : 0 ∉ r
  space : r.head? ≠ some SPACE
  authority : ¬ ascii "//" <+: r
  scheme : COLON ∉ (refPath r).takeWhile (· ≠ SLASH)

def JoinFits (base : Url) (r : Bytes) : Prop :=
  ((if r.head? = some SLASH then [] else uptoSlash base.path) ++ r.takeWhile (· ≠ HASH)).length < URL_PATH

/-! ## When the code agrees -/

def Unfolded (s : Bytes) : Prop :=
  (∀ seg ∈ (moreOf SLASH s).dropLast, seg ≠ [DOT] ∧ seg ≠ [DOT, DOT]) ∧ (moreOf SLASH s).getLast? ≠ some [DOT, DOT]

instance (s : Bytes) : Decidable (Unfolded s) := inferInstanceAs (Decidable (_ ∧ _))

def lastSeg (s : Bytes) : Bytes := (moreOf SLASH s).getLastD (firstOf SLASH s)

def leads (s : Bytes) : Walk UInt8 :=
  walk ⟨firstOf SLASH s, []⟩
    (if (moreOf SLASH s).getLast? = some [DOT, DOT] then moreOf SLASH s else (moreOf SLASH s).dropLast)

def folder (s : Bytes) : Bytes := if s = [] then [] else (leads s).text SLASH ++ [SLASH]

/-- What the two foldings make of the base and the reference is the same. -/
def FoldsAlike (base r : Bytes) : Prop :=
  refPath r = [] ∧ refQuery r = none ∨
    COLON ∉ (r.takeWhile (· ≠ SLASH)).take 12 ∧
      if (refPath r).head? = some SLASH then ∀ seg ∈ moreOf SLASH (refPath r), seg ≠ [DOT] ∧ seg ≠ [DOT, DOT]
      else
        (∀ query ∈ refQuery r, Unfolded query ∧ lastSeg (refPath r) ≠ [DOT, DOT]) ∧
          lastSeg (refPath r) ≠ [DOT] ∧
          if refPath r = [] then folder (uptoSlash base) = refPath base
          else leads (uptoSlash base ++ refPath r) = leads (merge (refPath base) (refPath r))

/-- A path from the root has no dot segment. Anything else fits before it is folded, finds the base's last slash in its
path, and leaves the loop nothing to fold behind its `?` and no dot segment to pass over. -/
def JoinsRight (base : Url) (r : Bytes) : Prop :=
  refPath r = [] ∧ refQuery r = none ∨
    COLON ∉ (r.takeWhile (· ≠ SLASH)).take 12 ∧
      if (refPath r).head? = some SLASH then ∀ seg ∈ moreOf SLASH (refPath r), seg ≠ [DOT] ∧ seg ≠ [DOT, DOT]
      else
        JoinFits base r ∧ (∀ query ∈ refQuery base.path, SLASH ∉ query) ∧
          (∀ query ∈ refQuery r, Unfolded query ∧ lastSeg (refPath r) ≠ [DOT, DOT]) ∧
          lastSeg (refPath r) ≠ [DOT] ∧
          if refPath r = [] then
            uptoSlash (refPath base.path) = refPath base.path ∧
              ∀ seg ∈ moreOf SLASH (refPath base.path), seg ≠ [DOT] ∧ seg ≠ [DOT, DOT]
          else refPath base.path ≠ []

instance (base : Url) (r : Bytes) : Decidable (JoinFits base r) := inferInstanceAs (Decidable (_ < _))

instance (base : Url) (r : Bytes) : Decidable (JoinsRight base r) := inferInstanceAs (Decidable (_ ∨ _))

/-! ## Parts -/

section parts
variable {r p s : Bytes}

theorem recompose_parts (r : Bytes) : recompose (refPath r) (refQuery r) = r.takeWhile (· ≠ HASH) := by
  unfold refPath refQuery
  induction r with
  | nil => rfl
  | cons c r ih =>
    by_cases hstop : c ≠ QUESTION ∧ c ≠ HASH
    · rw [List.takeWhile_cons_of_pos (by simpa using hstop), List.dropWhile_cons_of_pos (by simpa using hstop),
        List.takeWhile_cons_of_pos (by simpa using hstop.2), ← ih]
      cases List.dropWhile (fun c => decide (c ≠ QUESTION ∧ c ≠ HASH)) r with
      | nil => rfl
      | cons d t =>
        dsimp only
        split <;> rfl
    · rw [List.takeWhile_cons_of_neg (by simpa using hstop), List.dropWhile_cons_of_neg (by simpa using hstop)]
      dsimp only
      by_cases hq : c = QUESTION
      · rw [if_pos hq, List.takeWhile_cons_of_pos (by rw [hq]; decide), hq]
        rfl
      · obtain rfl : c = HASH := by
          by_contra hne
          exact hstop ⟨hq, hne⟩
        rw [if_neg hq, List.takeWhile_cons_of_neg (by simp)]
        rfl

theorem recompose_inj {q : Option Bytes} : recompose p q = recompose s q ↔ p = s := by
  cases q with
  | none => exact Iff.rfl
  | some q => exact List.append_left_inj _

theorem recompose_whole (h : HASH ∉ r) : recompose (refPath r) (refQuery r) = r := by
  rw [recompose_parts, List.takeWhile_eq_self_iff]
  intro c hc
  rw [decide_eq_true_iff]
  rintro rfl
  exact h hc

theorem refPath_prefix (r : Bytes) : refPath r <+: r := List.takeWhile_prefix _

theorem uptoSlash_cases (s : Bytes) : SLASH ∉ s ∧ uptoSlash s = [] ∨ ∃ a, uptoSlash s = a ++ [SLASH] ∧ a ++ [SLASH] <+: s := by
  obtain ⟨first, more, hfirst, hmore, rfl⟩ := exists_joined SLASH s
  rcases List.eq_nil_or_concat more with rfl | ⟨mids, last, rfl⟩
  · left
    rw [joined_nil]
    exact ⟨hfirst, rdropWhile_plain hfirst⟩
  · right
    rw [List.concat_eq_append, joined_snoc]
    have hlast : SLASH ∉ last := hmore last (by simp)
    exact ⟨_, rdropWhile_sep _ hlast, ⟨last, by simp⟩⟩

theorem lastSeg_of_more (h : moreOf SLASH s = mids ++ [last]) : lastSeg s = last := by
  rw [lastSeg, h, List.getLastD_eq_getLast?, List.getLast?_concat, Option.getD_some]

theorem more_cases (s : Bytes) : moreOf SLASH s = [] ∨ ∃ mids, moreOf SLASH s = mids ++ [lastSeg s] := by
  rcases List.eq_nil_or_concat (moreOf SLASH s) with h | ⟨mids, last, h⟩
  · exact .inl h
  · rw [List.concat_eq_append] at h
    exact .inr ⟨mids, by rw [lastSeg_of_more h, h]⟩

theorem more_behind (a p : Bytes) : ∃ mids, moreOf SLASH (a ++ [SLASH] ++ p) = mids ++ [lastSeg p] := by
  rw [List.append_assoc, List.singleton_append, moreOf_append_sep]
  rcases more_cases p with h | ⟨mids, h⟩
  · rw [h, lastSeg, h]
    exact ⟨_, rfl⟩
  · rw [h]
    exact ⟨moreOf SLASH a ++ firstOf SLASH p :: mids, by simp⟩

theorem more_append (a b : Bytes) : ∃ front, moreOf SLASH (a ++ b) = front ++ moreOf SLASH b := by
  obtain ⟨first, more, hfirst, hmore, rfl⟩ := exists_joined SLASH a
  obtain ⟨first', more', hfirst', hmore', rfl⟩ := exists_joined SLASH b
  rw [moreOf_joined hfirst' hmore']
  rcases List.eq_nil_or_concat more with rfl | ⟨mids, last, rfl⟩
  · refine ⟨[], ?_⟩
    have hplain : SLASH ∉ first ++ first' := by
      rw [List.mem_append, not_or]
      exact ⟨hfirst, hfirst'⟩
    rw [joined_nil, List.nil_append, show first ++ joined SLASH first' more' = joined SLASH (first ++ first') more' by simp [joined],
      moreOf_joined hplain hmore']
  · refine ⟨mids ++ [last ++ first'], ?_⟩
    rw [List.concat_eq_append, joined_joined, moreOf_joined hfirst]
    · simp
    · intro m hm
      rcases List.mem_append.mp hm with hm | hm
      · exact hmore m (by simp [hm])
      · rcases List.mem_cons.mp hm with rfl | hm
        · rw [List.mem_append, not_or]
          exact ⟨hmore last (by simp), hfirst'⟩
        · exact hmore' m hm

theorem Unfolded.behind {a : Bytes} (h : Unfolded (a ++ s)) : Unfolded s := by
  obtain ⟨front, hfront⟩ := more_append a s
  unfold Unfolded at h ⊢
  rw [hfront] at h
  obtain ⟨hmids, hlast⟩ := h
  by_cases hnil : moreOf SLASH s = []
  · rw [hnil]
    exact ⟨fun _ hm => absurd hm List.not_mem_nil, by simp⟩
  · rw [List.dropLast_append_of_ne_nil hnil] at hmids
    rw [List.getLast?_append_of_ne_nil _ hnil] at hlast
    exact ⟨fun seg hseg => hmids seg (List.mem_append_right _ hseg), hlast⟩

end parts

/-! ## Both ways of folding -/

def bare (s : Bytes) : Bytes :=
  if moreOf SLASH s = [] then s
  else (walk ⟨firstOf SLASH s, []⟩ (moreOf SLASH s).dropLast).text SLASH ++ SLASH :: lastSeg s

section fold
variable {s q first : Bytes} {mids : List Bytes}

theorem zero_segs (h : 0 ∉ s) : (0 ∉ firstOf SLASH s) ∧ ∀ seg ∈ moreOf SLASH s, 0 ∉ seg := by
  have hs := joined_parts SLASH s
  rw [joined_eq] at hs
  refine ⟨fun hz => h (hs ▸ List.mem_append_left _ hz), fun seg hseg hz => h (hs ▸ List.mem_append_right _ ?_)⟩
  exact List.mem_flatMap.mpr ⟨seg, hseg, List.mem_cons_of_mem _ hz⟩

theorem start_plain (s : Bytes) : Walk.Plain SLASH ⟨firstOf SLASH s, []⟩ :=
  ⟨firstOf_plain SLASH s, fun _ hm => absurd hm List.not_mem_nil⟩

theorem Plain.dropLast {more : List Bytes} (h : Plain SLASH more) : Plain SLASH more.dropLast :=
  fun m hm => h m ((List.dropLast_sublist more).subset hm)

theorem steps_plain {segs : List Bytes} {seg : Bytes} (h : moreOf SLASH s = segs ++ [seg]) :
    (walk ⟨firstOf SLASH s, []⟩ segs).Plain SLASH :=
  (start_plain s).steps fun m hm => moreOf_plain SLASH s m (by rw [h]; exact List.mem_append_left _ hm)

theorem inner_plain (s : Bytes) : (walk ⟨firstOf SLASH s, []⟩ (moreOf SLASH s).dropLast).Plain SLASH :=
  (start_plain s).steps (Plain.dropLast (moreOf_plain SLASH s))

theorem leads_plain (s : Bytes) : (leads s).Plain SLASH := by
  unfold leads
  split
  · exact (start_plain s).steps (moreOf_plain SLASH s)
  · exact inner_plain s

theorem leads_of_dots (h : moreOf SLASH s = mids ++ [[DOT, DOT]]) :
    leads s = (walk ⟨firstOf SLASH s, []⟩ mids).up := by
  unfold leads
  rw [h, if_pos List.getLast?_concat, walk, List.foldl_append]
  rfl

theorem leads_of_last (h : moreOf SLASH s = mids ++ [last]) (hlast : last ≠ [DOT, DOT]) :
    leads s = walk ⟨firstOf SLASH s, []⟩ mids := by
  unfold leads
  rw [h, List.getLast?_concat, if_neg (by simpa using hlast), List.dropLast_concat]

theorem bare_of_last (h : moreOf SLASH s = mids ++ [last]) :
    bare s = (walk ⟨firstOf SLASH s, []⟩ mids).text SLASH ++ SLASH :: last := by
  unfold bare
  rw [if_neg (by rw [h]; simp), lastSeg_of_more h, h, List.dropLast_concat]

theorem cleaned_eq (hzero : 0 ∉ s) (hlen : s.length < URL_PATH) :
    cleaned 0 [] s = if (moreOf SLASH s).getLast? = some [DOT, DOT] then (leads s).text SLASH ++ [SLASH] else bare s := by
  obtain ⟨hzfirst, hzmore⟩ := zero_segs hzero
  have hfirst := firstOf_plain SLASH s
  have hmore := moreOf_plain SLASH s
  have hs := joined_parts SLASH s
  rcases more_cases s with hnil | ⟨mids, hmids⟩
  · rw [hnil, if_neg (by simp), bare, if_pos hnil]
    have hcopy := @cleaned_plain [] _ [] (moreOf_eq_nil.mp hnil) (by rw [List.length_nil, Nat.zero_add]; exact hlen)
    rw [List.append_nil] at hcopy
    exact hcopy
  · rw [hmids] at hs hzmore hmore
    have hlast : SLASH ∉ lastSeg s := hmore _ (by simp)
    have hfold := @cleaned_trail (lastSeg s) ⟨firstOf SLASH s, []⟩ mids (start_plain s)
      (fun m hm => hmore m (List.mem_append_left _ hm)) hlast (fun m hm => hzmore m (List.mem_append_left _ hm))
      (hzmore _ (by simp)) (by
        change (joined SLASH (firstOf SLASH s) []).length + _ < _
        rw [joined_nil, ← List.length_append, ← joined_eq, hs]
        exact hlen)
    have hcopy := @cleaned_plain [] _ (trail (mids ++ [lastSeg s])) hfirst (by
      have hlength := congrArg List.length hs
      rw [joined_eq, List.length_append] at hlength
      rw [List.length_nil]
      omega)
    change cleaned 0 (joined SLASH (firstOf SLASH s) []) _ = _ at hfold
    rw [joined_nil] at hfold
    rw [← joined_eq, hs, List.nil_append, hfold] at hcopy
    rw [hcopy, hmids, List.getLast?_concat, bare_of_last hmids]
    by_cases hdots : lastSeg s = [DOT, DOT]
    · rw [if_pos hdots, if_pos (by rw [hdots]), leads_of_dots (by rw [hmids, hdots])]
    · rw [if_neg hdots, if_neg (by simpa using hdots)]

theorem removeDots_eq (hroot : firstOf SLASH s = []) (hmids : moreOf SLASH s = mids ++ [lastSeg s]) :
    removeDots s =
      if lastSeg s = [DOT] ∨ lastSeg s = [DOT, DOT] then (leads s).text SLASH ++ [SLASH] else bare s := by
  have hmore := moreOf_plain SLASH s
  have hs := joined_parts SLASH s
  rw [hmids] at hs hmore
  rw [hroot, joined_eq, List.nil_append] at hs
  have hfold := @removeDotsFrom_trail (lastSeg s) ⟨[], []⟩ mids s.length
    ⟨List.not_mem_nil, fun _ hm => absurd hm List.not_mem_nil⟩ (fun m hm => hmore m (List.mem_append_left _ hm))
    (hmore _ (by simp)) (by rw [hs])
  rw [hs] at hfold
  change removeDots s = _ at hfold
  rw [hfold, bare_of_last hmids, hroot]
  by_cases hdot : lastSeg s = [DOT]
  · rw [if_pos hdot, if_pos (.inl hdot), leads_of_last hmids (by rw [hdot]; decide), hroot]
  · rw [if_neg hdot]
    by_cases hdots : lastSeg s = [DOT, DOT]
    · rw [if_pos hdots, if_pos (.inr hdots), leads_of_dots (by rw [hmids, hdots]), hroot]
    · rw [if_neg hdots, if_neg (by simp [hdot, hdots])]

theorem cleaned_unfolded (hzero : 0 ∉ s) (hlen : s.length < URL_PATH) : Unfolded (cleaned 0 [] s) := by
  have hclean : ∀ segs, (walk ⟨firstOf SLASH s, []⟩ segs).Clean [DOT] [DOT, DOT] := fun segs =>
    Walk.Clean.steps fun _ hm => absurd hm List.not_mem_nil
  have hwalk : ∀ {w : Walk UInt8} {last : Bytes}, w.Plain SLASH → w.Clean [DOT] [DOT, DOT] → SLASH ∉ last →
      last ≠ [DOT, DOT] → Unfolded (w.text SLASH ++ SLASH :: last) := by
    intro w last hplain hw hlast hne
    have hmore : moreOf SLASH (w.text SLASH ++ SLASH :: last) = w.above.reverse ++ [last] := by
      rw [Walk.text, ← joined_snoc, moreOf_joined hplain.first]
      intro m hm
      rcases List.mem_append.mp hm with hm | hm
      · exact hplain.reverse m hm
      · rw [List.mem_singleton.mp hm]
        exact hlast
    unfold Unfolded
    rw [hmore, List.dropLast_concat, List.getLast?_concat]
    exact ⟨fun seg hseg => hw seg (List.mem_reverse.mp hseg), by simpa using hne⟩
  rw [cleaned_eq hzero hlen]
  rcases more_cases s with hnil | ⟨mids, hmids⟩
  · rw [hnil, if_neg (by simp), bare, if_pos hnil]
    unfold Unfolded
    rw [hnil]
    exact ⟨fun _ hm => absurd hm List.not_mem_nil, by simp⟩
  · by_cases hdots : lastSeg s = [DOT, DOT]
    · rw [hmids, List.getLast?_concat, if_pos (by rw [hdots]), leads_of_dots (by rw [hmids, hdots])]
      have hplain := steps_plain hmids
      exact hwalk hplain.up (hclean mids).up List.not_mem_nil (by decide)
    · rw [hmids, List.getLast?_concat, if_neg (by simpa using hdots), bare_of_last hmids]
      have hplain := steps_plain hmids
      exact hwalk hplain (hclean mids) (moreOf_plain SLASH s _ (by rw [hmids]; simp)) hdots

theorem cleaned_kept (hzero : 0 ∉ s) (hlen : s.length < URL_PATH) {kept : List Bytes}
    (hmore : moreOf SLASH s = mids ++ kept) (hne : kept ≠ [])
    (hinner : ∀ seg ∈ kept.dropLast, seg ≠ [DOT] ∧ seg ≠ [DOT, DOT]) (hend : kept.getLast? ≠ some [DOT, DOT]) :
    cleaned 0 [] s = (walk ⟨firstOf SLASH s, []⟩ mids).text SLASH ++ trail kept := by
  obtain ⟨front, last, rfl⟩ := (List.eq_nil_or_concat kept).resolve_left hne
  rw [List.concat_eq_append] at hmore hinner hend ⊢
  rw [List.dropLast_concat] at hinner
  rw [List.getLast?_concat] at hend
  rw [← List.append_assoc] at hmore
  rw [cleaned_eq hzero hlen, hmore, List.getLast?_concat, if_neg hend, bare_of_last hmore, walk, List.foldl_append,
    text_steps_kept hinner, ← joined_snoc, joined_eq]

/-- Behind a `?` with nothing to fold, the loop changes nothing, and passes over the segment before it. -/
theorem cleaned_query (hzero : 0 ∉ s ++ QUESTION :: q) (hlen : (s ++ QUESTION :: q).length < URL_PATH) (hq : Unfolded q) :
    cleaned 0 [] (s ++ QUESTION :: q) = bare s ++ QUESTION :: q := by
  obtain ⟨first, more, hfirst, hmore, hqparts⟩ := exists_joined SLASH q
  have hqfirst : SLASH ∉ QUESTION :: first := by
    rw [List.mem_cons, not_or]
    exact ⟨by decide, hfirst⟩
  have hquery : QUESTION :: q = joined SLASH (QUESTION :: first) more := by
    rw [hqparts]
    rfl
  have hmark : ∀ last : Bytes, last ++ QUESTION :: first ≠ [DOT] ∧ last ++ QUESTION :: first ≠ [DOT, DOT] := by
    intro last
    constructor
    all_goals
      intro h
      have hmem : QUESTION ∈ last ++ QUESTION :: first := List.mem_append_right _ List.mem_cons_self
      rw [h] at hmem
      revert hmem
      decide
  rw [hqparts] at hq
  unfold Unfolded at hq
  rw [moreOf_joined hfirst hmore] at hq
  obtain ⟨hinner, hend⟩ := hq
  have hs := joined_parts SLASH s
  have hsfirst := firstOf_plain SLASH s
  have hsmore := moreOf_plain SLASH s
  rcases more_cases s with hnil | ⟨mids, hmids⟩
  · -- no slash before the `?`
    have hplain : SLASH ∉ s ++ QUESTION :: first := by
      rw [List.mem_append, not_or]
      exact ⟨moreOf_eq_nil.mp hnil, hqfirst⟩
    have hwhole : s ++ QUESTION :: q = joined SLASH (s ++ QUESTION :: first) more := by
      rw [hquery]
      simp [joined]
    rw [bare, if_pos hnil]
    rw [hwhole] at hzero hlen ⊢
    by_cases hnone : more = []
    · rw [cleaned_eq hzero hlen, moreOf_joined hplain hmore, hnone, if_neg (by simp), bare, joined_nil,
        if_pos (moreOf_eq_nil.mpr hplain)]
    · rw [@cleaned_kept _ [] hzero hlen _ (moreOf_joined hplain hmore) hnone hinner hend, firstOf_joined hplain hmore]
      change joined SLASH (s ++ QUESTION :: first) [] ++ trail more = _
      rw [joined_nil, joined_eq]
  · rw [hmids] at hs hsmore
    have hlast : SLASH ∉ lastSeg s ++ QUESTION :: first := by
      rw [List.mem_append, not_or]
      exact ⟨hsmore _ (by simp), hqfirst⟩
    have hwhole : s ++ QUESTION :: q =
        joined SLASH (firstOf SLASH s) (mids ++ (lastSeg s ++ QUESTION :: first) :: more) := by
      rw [← joined_joined, ← hquery, hs]
    have hplain : Plain SLASH (mids ++ (lastSeg s ++ QUESTION :: first) :: more) := by
      intro m hm
      rcases List.mem_append.mp hm with hm | hm
      · exact hsmore m (List.mem_append_left _ hm)
      · rcases List.mem_cons.mp hm with rfl | hm
        · exact hlast
        · exact hmore m hm
    have hbare := bare_of_last hmids
    rw [hwhole] at hzero hlen ⊢
    rw [cleaned_kept hzero hlen (moreOf_joined hsfirst hplain) (by simp), firstOf_joined hsfirst hplain, hbare, trail_cons,
      hquery, joined_eq]
    · simp
    · intro seg hseg
      by_cases hnone : more = []
      · rw [hnone] at hseg
        exact absurd hseg (by simp)
      · rw [List.dropLast_cons_of_ne_nil hnone] at hseg
        rcases List.mem_cons.mp hseg with rfl | hseg
        · exact hmark _
        · exact hinner seg hseg
    · by_cases hnone : more = []
      · rw [hnone, List.getLast?_singleton]
        simpa using (hmark (lastSeg s)).2
      · rw [List.getLast?_cons, List.getLast?_eq_some_getLast hnone] at *
        simpa using hend

end fold

/-! ## The two compared -/

section compare
variable {s t p q b r : Bytes} {base : Url}

theorem walk_first (above segs : List Bytes) : (walk ⟨[], above⟩ segs).first = [] := by
  induction segs generalizing above with
  | nil => rfl
  | cons seg segs ih =>
    rw [walk, List.foldl_cons]
    have hstep : ∃ above', Walk.step [DOT] [DOT, DOT] ⟨[], above⟩ seg = ⟨[], above'⟩ := by
      unfold Walk.step
      split
      · exact ⟨_, rfl⟩
      · split
        · cases above <;> exact ⟨_, rfl⟩
        · exact ⟨_, rfl⟩
    obtain ⟨above', hstep⟩ := hstep
    rw [hstep]
    exact ih above'

theorem leads_slashless (hnil : moreOf SLASH s = []) : leads s = ⟨s, []⟩ := by
  have hparts := joined_parts SLASH s
  rw [hnil, joined_nil] at hparts
  unfold leads
  rw [hnil, hparts]
  rfl

/-- What begins with a slash leads somewhere else than what has none. -/
theorem leads_ne (hs : s ≠ []) (hnil : moreOf SLASH s = []) (hroot : firstOf SLASH t = []) : leads s ≠ leads t := by
  intro heq
  have hfirst : (leads t).first = [] := by
    unfold leads
    rw [hroot]
    exact walk_first _ _
  rw [← heq, leads_slashless hnil] at hfirst
  exact hs hfirst

theorem moreOf_text {w : Walk UInt8} {seg : Bytes} (hw : w.Plain SLASH) (hseg : SLASH ∉ seg) :
    moreOf SLASH (w.text SLASH ++ SLASH :: seg) = w.above.reverse ++ [seg] := by
  rw [Walk.text, ← joined_snoc, moreOf_joined hw.first]
  intro m hm
  rcases List.mem_append.mp hm with hm | hm
  · exact hw.reverse m hm
  · rwa [List.mem_singleton.mp hm]

theorem bare_eq_iff (hs : s ≠ []) (hlast : moreOf SLASH s = [] ∨ ∃ mids, moreOf SLASH s = mids ++ [lastSeg t])
    (hroot : firstOf SLASH t = []) (hmids : moreOf SLASH t = mids ++ [lastSeg t]) (hdots : lastSeg t ≠ [DOT, DOT]) :
    bare s = removeDots t ↔ lastSeg t ≠ [DOT] ∧ leads s = leads t := by
  have htlast : SLASH ∉ lastSeg t := moreOf_plain SLASH t _ (by rw [hmids]; simp)
  rw [removeDots_eq hroot hmids]
  rcases hlast with hnil | ⟨smids, hsmids⟩
  · -- what the code has begins with no slash
    have hslash : SLASH ∉ s := moreOf_eq_nil.mp hnil
    rw [bare, if_pos hnil]
    constructor
    · intro heq
      refine absurd ?_ hslash
      rw [heq]
      split
      · simp
      · rw [bare_of_last hmids]
        simp
    · exact fun h => absurd h.2 (leads_ne hs hnil hroot)
  · have hsplain := steps_plain hsmids
    have htplain := steps_plain hmids
    rw [bare_of_last hsmids, leads_of_last hsmids hdots, leads_of_last hmids hdots]
    by_cases hdot : lastSeg t = [DOT]
    · rw [if_pos (.inl hdot), Walk.text_snoc_inj hsplain htlast htplain List.not_mem_nil]
      constructor
      · rintro ⟨-, hnone⟩
        rw [hdot] at hnone
        cases hnone
      · exact fun h => absurd hdot h.1
    · rw [if_neg (by simp [hdot, hdots]), bare_of_last hmids, Walk.text_snoc_inj hsplain htlast htplain htlast]
      simp [hdot]

theorem back_eq_iff (hlast : moreOf SLASH s = [] ∨ ∃ mids, moreOf SLASH s = mids ++ [lastSeg t])
    (hs : s ≠ []) (hroot : firstOf SLASH t = []) (hmids : moreOf SLASH t = mids ++ [lastSeg t])
    (hzero : 0 ∉ s) (hlen : s.length < URL_PATH) :
    cleaned 0 [] s = removeDots t ↔ lastSeg t ≠ [DOT] ∧ leads s = leads t := by
  rw [cleaned_eq hzero hlen]
  by_cases hdots : lastSeg t = [DOT, DOT]
  · rcases hlast with hnil | ⟨smids, hsmids⟩
    · rw [hnil, if_neg (by simp), removeDots_eq hroot hmids, if_pos (.inr hdots), bare, if_pos hnil]
      have hslash : SLASH ∉ s := moreOf_eq_nil.mp hnil
      constructor
      · intro heq
        exact absurd (heq ▸ List.mem_append_right _ List.mem_cons_self) hslash
      · exact fun h => absurd h.2 (leads_ne hs hnil hroot)
    · rw [hsmids, List.getLast?_concat, if_pos (by rw [hdots]), removeDots_eq hroot hmids, if_pos (.inr hdots),
        List.append_left_inj, Walk.text_inj (leads_plain s) (leads_plain t)]
      simp [hdots]
  · rw [if_neg, bare_eq_iff hs hlast hroot hmids hdots]
    rcases hlast with hnil | ⟨smids, hsmids⟩
    · rw [hnil]
      simp
    · rw [hsmids, List.getLast?_concat]
      simpa using hdots

theorem joined_eq_iff {q : Option Bytes} (hs : s ≠ [])
    (hlast : moreOf SLASH s = [] ∨ ∃ mids, moreOf SLASH s = mids ++ [lastSeg t]) (hroot : firstOf SLASH t = [])
    (hmids : moreOf SLASH t = mids ++ [lastSeg t]) (hzero : 0 ∉ recompose s q) (hlen : (recompose s q).length < URL_PATH) :
    cleaned 0 [] (recompose s q) = recompose (removeDots t) q ↔
      (∀ query ∈ q, Unfolded query ∧ lastSeg t ≠ [DOT, DOT]) ∧ lastSeg t ≠ [DOT] ∧ leads s = leads t := by
  cases q with
  | none => simpa [recompose] using back_eq_iff hlast hs hroot hmids hzero hlen
  | some q =>
    unfold recompose at hzero hlen ⊢
    simp only [Option.mem_def, Option.some.injEq, forall_eq']
    by_cases hq : Unfolded q
    · rw [cleaned_query hzero hlen hq, List.append_left_inj]
      by_cases hdots : lastSeg t = [DOT, DOT]
      · simp only [hdots, ne_eq, not_true_eq_false, and_false, false_and, iff_false]
        -- the code leaves it where the standard goes back
        intro heq
        rw [removeDots_eq hroot hmids, if_pos (.inr hdots)] at heq
        have hright := moreOf_text (leads_plain t) (@List.not_mem_nil _ SLASH)
        rw [← heq] at hright
        rcases hlast with hnil | ⟨smids, hsmids⟩
        · rw [bare, if_pos hnil, hnil] at hright
          simp at hright
        · rw [bare_of_last hsmids, moreOf_text (steps_plain hsmids) (by rw [hdots]; decide), hdots] at hright
          have hends := congrArg List.getLast? hright
          rw [List.getLast?_concat, List.getLast?_concat] at hends
          cases hends
      · rw [bare_eq_iff hs hlast hroot hmids hdots]
        simp [hq, hdots]
    · simp only [hq, false_and, iff_false]
      intro heq
      have hclean := cleaned_unfolded hzero hlen
      rw [heq, ← List.singleton_append, ← List.append_assoc] at hclean
      exact hq hclean.behind

theorem removeDots_self_iff (hroot : p.head? = some SLASH) :
    p = removeDots p ↔ ∀ seg ∈ moreOf SLASH p, seg ≠ [DOT] ∧ seg ≠ [DOT, DOT] := by
  obtain ⟨rest, rfl⟩ : ∃ rest, p = SLASH :: rest := by
    cases p with
    | nil => cases hroot
    | cons c rest =>
      obtain rfl := Option.some.inj hroot
      exact ⟨rest, rfl⟩
  have hfirst : firstOf SLASH (SLASH :: rest) = [] := firstOf_append_sep [] rest
  obtain ⟨mids, hmids⟩ : ∃ mids, moreOf SLASH (SLASH :: rest) = mids ++ [lastSeg (SLASH :: rest)] := by
    rcases more_cases (SLASH :: rest) with h | h
    · exact absurd (moreOf_eq_nil.mp h) (by simp)
    · exact h
  have hparts := joined_parts SLASH (SLASH :: rest)
  have hmore := moreOf_plain SLASH (SLASH :: rest)
  rw [hmids] at hparts hmore
  generalize SLASH :: rest = p at *
  have hwalk : Walk.text SLASH ⟨[], mids.reverse⟩ ++ SLASH :: lastSeg p = p := by
    rw [Walk.text, List.reverse_reverse, ← joined_snoc, ← hfirst, hparts]
  have hplain : Walk.Plain SLASH ⟨[], mids.reverse⟩ :=
    ⟨List.not_mem_nil, fun m hm => hmore m (List.mem_append_left _ (List.mem_reverse.mp hm))⟩
  have hlast : SLASH ∉ lastSeg p := hmore _ (by simp)
  rw [removeDots_eq hfirst hmids, hmids]
  constructor
  · intro heq
    split at heq
    · rename_i hdot
      -- what goes back at the end ends in a slash
      have hends := ((Walk.text_snoc_inj hplain hlast (leads_plain p) List.not_mem_nil).mp (hwalk.trans heq)).2
      rcases hdot with hdot | hdot
      all_goals
        rw [hdot] at hends
        cases hends
    · rename_i hdot
      rw [bare_of_last hmids, hfirst] at heq
      have hinner : (walk ⟨[], []⟩ mids).Plain SLASH :=
        Walk.Plain.steps ⟨List.not_mem_nil, fun _ hm => absurd hm List.not_mem_nil⟩
          fun m hm => hmore m (List.mem_append_left _ hm)
      have hsame := ((Walk.text_snoc_inj hplain hlast hinner hlast).mp (hwalk.trans heq)).1
      have hclean : (walk ⟨[], []⟩ mids).Clean [DOT] [DOT, DOT] := Walk.Clean.steps fun _ hm => absurd hm List.not_mem_nil
      rw [← hsame] at hclean
      intro seg hseg
      rcases List.mem_append.mp hseg with hseg | hseg
      · exact hclean seg (List.mem_reverse.mpr hseg)
      · rw [List.mem_singleton.mp hseg]
        exact not_or.mp hdot
  · intro hkept
    have hend := hkept (lastSeg p) (by simp)
    rw [if_neg (not_or.mpr hend), bare_of_last hmids, hfirst, walk,
      steps_kept fun m hm => hkept m (List.mem_append_left _ hm)]
    change p = Walk.text SLASH ⟨[], mids.reverse ++ []⟩ ++ SLASH :: lastSeg p
    rw [List.append_nil, hwalk]

/-! ## The resolver -/

theorem joinPath_eq (hne : uptoSlash b ++ r.takeWhile (· ≠ HASH) ≠ [])
    (hzero : 0 ∉ uptoSlash b ++ r.takeWhile (· ≠ HASH))
    (hlen : (uptoSlash b ++ r.takeWhile (· ≠ HASH)).length < URL_PATH) :
    joinPath b r = cleaned 0 [] (uptoSlash b ++ r.takeWhile (· ≠ HASH)) := by
  have hroom : (uptoSlash b).length ≤ URL_PATH - 1 := by
    rw [List.length_append] at hlen
    omega
  have hfull := cleaned_length (t := []) (k := 0) (s := uptoSlash b ++ r.takeWhile (· ≠ HASH)) (by decide)
  have hclean : cleaned 0 [] (uptoSlash b ++ r.takeWhile (· ≠ HASH)) ≠ [] := by
    rw [cleaned_eq hzero hlen]
    split
    · simp
    · unfold bare
      split
      · exact hne
      · simp
  unfold joinPath
  dsimp only
  rw [List.take_of_length_le hroom, List.take_of_length_le (by omega), if_neg hclean, wCopy, List.take_of_length_le (by omega)]

theorem merge_root (hb : b.head? = some SLASH ∨ b.head? = some QUESTION) :
    firstOf SLASH (merge (refPath b) p) = [] ∧ ∃ mids, moreOf SLASH (merge (refPath b) p) = mids ++ [lastSeg p] := by
  unfold merge
  by_cases hnil : refPath b = []
  · rw [if_pos hnil]
    exact ⟨firstOf_append_sep [] p, more_behind [] p⟩
  · rw [if_neg hnil]
    obtain ⟨c, rest, hc⟩ := List.exists_cons_of_ne_nil hnil
    have hslash : c = SLASH := by
      obtain ⟨t, ht⟩ := refPath_prefix b
      rw [hc] at ht
      rw [← ht] at hb
      rcases hb with hb | hb
      · exact Option.some.inj hb
      · have hmem : c ∈ refPath b := by
          rw [hc]
          exact List.mem_cons_self
        have hstop := List.mem_takeWhile_imp hmem
        rw [Option.some.inj hb] at hstop
        exact absurd hstop (by decide)
    rcases uptoSlash_cases (refPath b) with ⟨hnone, -⟩ | ⟨a, ha, hpre⟩
    · refine absurd ?_ hnone
      rw [hc, hslash]
      exact List.mem_cons_self
    · rw [ha]
      refine ⟨?_, more_behind a p⟩
      rw [List.append_assoc, List.singleton_append, firstOf_append_sep]
      cases a with
      | nil => rfl
      | cons d a =>
        obtain ⟨t, ht⟩ := hpre
        rw [hc] at ht
        obtain ⟨rfl, -⟩ := List.cons.inj ht
        rw [hslash]
        exact firstOf_append_sep [] a

theorem folder_eq (b : Bytes) : folder (uptoSlash b) = bare (uptoSlash b) := by
  rcases uptoSlash_cases b with ⟨-, hnone⟩ | ⟨a, ha, -⟩
  · rw [hnone]
    rfl
  · rw [ha]
    have hmore : moreOf SLASH (a ++ [SLASH]) = moreOf SLASH a ++ [[]] := moreOf_append_sep a []
    rw [folder, if_neg (by simp), leads_of_last hmore (by decide), bare_of_last hmore]

theorem query_eq_iff (hzero : 0 ∉ uptoSlash b ++ QUESTION :: q) (hlen : (uptoSlash b ++ QUESTION :: q).length < URL_PATH) :
    cleaned 0 [] (uptoSlash b ++ QUESTION :: q) = refPath b ++ QUESTION :: q ↔
      Unfolded q ∧ folder (uptoSlash b) = refPath b := by
  by_cases hq : Unfolded q
  · rw [cleaned_query hzero hlen hq, List.append_left_inj, folder_eq]
    simp [hq]
  · simp only [hq, false_and, iff_false]
    intro heq
    have hclean := cleaned_unfolded hzero hlen
    rw [heq, ← List.singleton_append, ← List.append_assoc] at hclean
    exact hq hclean.behind

theorem scheme_colon (hr : Relative r) : ¬ HasScheme r := by
  rintro ⟨c, name, rest, rfl, hc, hname⟩
  refine hr.scheme ?_
  have hall : ∀ d ∈ c :: name, schemeChar d = true := by
    intro d hd
    rcases List.mem_cons.mp hd with rfl | hd
    · rw [schemeChar, hc]
      rfl
    · exact hname d hd
  have hplain : ∀ d : UInt8, schemeChar d = true → (d ≠ QUESTION ∧ d ≠ HASH) ∧ d ≠ SLASH := by
    intro d hd
    refine ⟨⟨?_, ?_⟩, ?_⟩
    all_goals
      rintro rfl
      revert hd
      decide
  have hpath : refPath (c :: name ++ COLON :: rest) = c :: name ++ COLON :: refPath rest := by
    unfold refPath
    rw [List.takeWhile_append_of_pos fun d hd => by simpa using (hplain d (hall d hd)).1,
      List.takeWhile_cons_of_pos (by decide)]
  rw [hpath, List.takeWhile_append_of_pos fun d hd => by simpa using (hplain d (hall d hd)).2,
    List.takeWhile_cons_of_pos (by decide)]
  exact List.mem_append_right _ List.mem_cons_self

theorem urlJoin_relative (base : Url) (hr : Relative r) :
    urlJoin base r =
      if r = [] ∨ r.head? = some HASH then some base
      else if COLON ∈ (r.takeWhile (· ≠ SLASH)).take 12 then none
      else if r.head? = some SLASH then some { base with path := (r.takeWhile (· ≠ HASH)).take (URL_PATH - 1) }
      else some { base with path := joinPath base.path r } := by
  have hspace : trimmed r = r := by
    cases r with
    | nil => rfl
    | cons c r =>
      have hc : c ≠ SPACE := fun h => hr.space (by rw [h]; rfl)
      exact List.dropWhile_cons_of_neg (by simpa using hc)
  have hnone := scheme_colon hr
  have hhttp : ¬ (wStartsFold r (ascii "http://") = true ∨ wStartsFold r (ascii "https://") = true) := by
    rintro (h | h)
    · exact hnone (hasScheme_http h)
    · exact hnone (hasScheme_https h)
  have hfile : ¬ wStartsFold r (ascii "file:") = true := fun h =>
    hnone (hasScheme_of_folded 102 (ascii "ile") [] (by decide) (by decide +kernel) h)
  have hslashes : ¬ wStartsFold r (ascii "//") = true := fun h => hr.authority (slashes_of_folded h)
  unfold urlJoin
  dsimp only
  rw [hspace, if_neg hhttp, if_neg hfile, if_neg hslashes]

theorem head_refPath : r.head? = some SLASH ↔ (refPath r).head? = some SLASH := by
  cases r with
  | nil => exact Iff.rfl
  | cons c r =>
    unfold refPath
    by_cases hc : c ≠ QUESTION ∧ c ≠ HASH
    · rw [List.takeWhile_cons_of_pos (by simpa using hc)]
      exact Iff.rfl
    · rw [List.takeWhile_cons_of_neg (by simpa using hc)]
      refine ⟨fun h => ?_, fun h => by cases h⟩
      rw [Option.some.inj h] at hc
      exact absurd (by decide) hc

theorem uptoSlash_refPath (h : ∀ query ∈ refQuery b, SLASH ∉ query) (hwhole : HASH ∉ b) : uptoSlash b = uptoSlash (refPath b) := by
  have hb := recompose_whole hwhole
  cases hq : refQuery b with
  | none =>
    rw [hq] at hb
    rw [show refPath b = b from hb]
  | some query =>
    have hplain : SLASH ∉ QUESTION :: query := by
      rw [List.mem_cons, not_or]
      exact ⟨by decide, h query hq⟩
    rw [hq] at hb
    conv_lhs => rw [← hb]
    rw [recompose, uptoSlash, List.rdropWhile, List.reverse_append, List.dropWhile_append_of_pos]
    · rfl
    · intro c hc
      rw [decide_eq_true_iff]
      rintro rfl
      exact hplain (List.mem_reverse.mp hc)

theorem folder_self_iff (b : Bytes) :
    folder (uptoSlash b) = b ↔ uptoSlash b = b ∧ ∀ seg ∈ moreOf SLASH b, seg ≠ [DOT] ∧ seg ≠ [DOT, DOT] := by
  rcases uptoSlash_cases b with ⟨-, hnone⟩ | ⟨a, ha, -⟩
  · rw [hnone]
    constructor
    · rintro rfl
      exact ⟨rfl, fun _ hseg => absurd hseg List.not_mem_nil⟩
    · exact fun h => h.1
  · have hmore : moreOf SLASH (a ++ [SLASH]) = moreOf SLASH a ++ [[]] := moreOf_append_sep a []
    have hfirst : firstOf SLASH (a ++ [SLASH]) = firstOf SLASH a := firstOf_append_sep a []
    have hfolder : folder (a ++ [SLASH]) = (walk ⟨firstOf SLASH a, []⟩ (moreOf SLASH a)).text SLASH ++ [SLASH] := by
      rw [folder, if_neg (by simp), leads_of_last hmore (by decide), hfirst]
    have hwhole : Walk.text SLASH ⟨firstOf SLASH a, (moreOf SLASH a).reverse⟩ = a := by
      rw [Walk.text, List.reverse_reverse, joined_parts]
    rw [ha, hfolder]
    constructor
    · intro hsame
      have hself : a ++ [SLASH] = b := by
        rw [← ha, uptoSlash, ← hsame]
        exact List.rdropWhile_concat_neg _ _ _ (by simp)
      refine ⟨hself, ?_⟩
      rw [← hself] at hsame ⊢
      have hends := (Walk.text_inj ((start_plain a).steps (moreOf_plain SLASH a))
        ⟨firstOf_plain SLASH a, fun m hm => moreOf_plain SLASH a m (List.mem_reverse.mp hm)⟩).mp
        ((List.append_left_inj _).mp hsame |>.trans hwhole.symm)
      have hclean : (walk ⟨firstOf SLASH a, []⟩ (moreOf SLASH a)).Clean [DOT] [DOT, DOT] :=
        Walk.Clean.steps fun _ hm => absurd hm List.not_mem_nil
      rw [walk, hends] at hclean
      rw [hmore]
      intro seg hseg
      rcases List.mem_append.mp hseg with hseg | hseg
      · exact hclean seg (List.mem_reverse.mpr hseg)
      · rw [List.mem_singleton.mp hseg]
        decide
    · rintro ⟨rfl, hkept⟩
      rw [hmore] at hkept
      rw [walk, steps_kept fun m hm => hkept m (List.mem_append_left _ hm), List.append_nil, hwhole]

theorem JoinsRight.fits (h : JoinsRight base r) (hfits : (resolve base r).path.length < URL_PATH)
    (hsome : ¬ (refPath r = [] ∧ refQuery r = none)) : JoinFits base r := by
  obtain ⟨-, hright⟩ := h.resolve_left hsome
  split at hright
  · rename_i hroot
    have hne : refPath r ≠ [] := by
      intro hnil
      rw [hnil] at hroot
      cases hroot
    rw [resolve, target, if_neg hne, if_pos hroot, ← (removeDots_self_iff hroot).mpr hright, recompose_parts] at hfits
    rw [JoinFits, if_pos (head_refPath.mpr hroot)]
    exact hfits
  · exact hright.1

theorem JoinsRight.foldsAlike (hwhole : HASH ∉ base.path) (h : JoinsRight base r) : FoldsAlike base.path r := by
  refine h.imp_right fun ⟨hcolon, hright⟩ => ⟨hcolon, ?_⟩
  split
  · rw [if_pos ‹_›] at hright
    exact hright
  · rw [if_neg ‹_›] at hright
    obtain ⟨-, hquery, hends, hdot, hplace⟩ := hright
    have hslash := uptoSlash_refPath hquery hwhole
    refine ⟨hends, hdot, ?_⟩
    split
    · rw [if_pos ‹_›] at hplace
      rw [hslash, folder_self_iff]
      exact hplace
    · rw [if_neg ‹_›] at hplace
      rw [merge, if_neg hplace, hslash]

theorem FoldsAlike.joinsRight (hwhole : HASH ∉ base.path) (h : FoldsAlike base.path r) (hfits : JoinFits base r)
    (hpath : refPath base.path ≠ []) (hquery : ∀ query ∈ refQuery base.path, SLASH ∉ query) : JoinsRight base r := by
  refine h.imp_right fun ⟨hcolon, hright⟩ => ⟨hcolon, ?_⟩
  split
  · rw [if_pos ‹_›] at hright
    exact hright
  · rw [if_neg ‹_›] at hright
    obtain ⟨hends, hdot, hplace⟩ := hright
    refine ⟨hfits, hquery, hends, hdot, ?_⟩
    split
    · rw [if_pos ‹_›, uptoSlash_refPath hquery hwhole, folder_self_iff] at hplace
      exact hplace
    · exact hpath

theorem join_eq_iff (hbase : HttpUrl base) (hr : Relative r)
    (hfits : ¬ (refPath r = [] ∧ refQuery r = none) → JoinFits base r) :
    urlJoin base r = some (resolve base r) ↔ FoldsAlike base.path r := by
  have hurl : ∀ path path' : Bytes, (some { base with path := path } : Option Url) = some { base with path := path' } ↔ path = path' := by
    intro path path'
    simp
  have hwhole := recompose_parts r
  rw [urlJoin_relative base hr]
  by_cases hnone : r = [] ∨ r.head? = some HASH
  · -- nothing, or a fragment alone
    have hpath : refPath r = [] ∧ refQuery r = none := by
      rcases hnone with rfl | h
      · exact ⟨rfl, rfl⟩
      · cases r with
        | nil => cases h
        | cons c r =>
          obtain rfl := Option.some.inj h
          exact ⟨rfl, rfl⟩
    rw [if_pos hnone, FoldsAlike, resolve, target, if_pos hpath.1, hpath.2, Option.none_or, recompose_whole hbase.whole]
    simp [hpath.1]
  · have hsome : ¬ (refPath r = [] ∧ refQuery r = none) := by
      rintro ⟨hp, hq⟩
      rw [hp, hq] at hwhole
      cases r with
      | nil => exact hnone (.inl rfl)
      | cons c r =>
        by_cases hc : c = HASH
        · exact hnone (.inr (by rw [hc]; rfl))
        · rw [List.takeWhile_cons_of_pos (by simpa using hc)] at hwhole
          cases hwhole
    rw [if_neg hnone, FoldsAlike, or_iff_right hsome]
    replace hfits := hfits hsome
    by_cases hcolon : COLON ∈ (r.takeWhile (· ≠ SLASH)).take 12
    · rw [if_pos hcolon]
      exact ⟨fun h => (by cases h), fun h => absurd hcolon h.1⟩
    · rw [if_neg hcolon, and_iff_right hcolon]
      have hzero : 0 ∉ r.takeWhile (· ≠ HASH) := fun h => hr.zero (List.takeWhile_subset _ h)
      unfold JoinFits at hfits
      by_cases hroot : r.head? = some SLASH
      · -- from the root
        rw [if_pos hroot, List.nil_append] at hfits
        have hpath := head_refPath.mp hroot
        have hne : refPath r ≠ [] := by
          intro h
          rw [h] at hpath
          cases hpath
        rw [if_pos hroot, if_pos hpath, resolve, target, if_neg hne, if_pos hpath, hurl, List.take_of_length_le (by omega),
          ← hwhole, recompose_inj, removeDots_self_iff hpath]
      · -- from the base's directory
        have hpath : ¬ (refPath r).head? = some SLASH := fun h => hroot (head_refPath.mpr h)
        rw [if_neg hroot] at hfits
        have hbzero : 0 ∉ uptoSlash base.path := fun h => hbase.zero ((List.rdropWhile_prefix _ _).subset h)
        have hjzero : 0 ∉ uptoSlash base.path ++ r.takeWhile (· ≠ HASH) := by
          rw [List.mem_append, not_or]
          exact ⟨hbzero, hzero⟩
        have hjne : uptoSlash base.path ++ r.takeWhile (· ≠ HASH) ≠ [] := by
          intro h
          have hr' := (List.append_eq_nil_iff.mp h).2
          rw [← hwhole] at hr'
          cases hq : refQuery r with
          | none =>
            rw [hq] at hr'
            exact hsome ⟨hr', hq⟩
          | some q =>
            rw [hq] at hr'
            exact absurd hr' (by simp [recompose])
        rw [if_neg hroot, if_neg hpath, resolve, target, hurl, joinPath_eq hjne hjzero hfits]
        rw [← hwhole] at hjzero hfits ⊢
        by_cases hp : refPath r = []
        · -- a query alone
          obtain ⟨q, hq⟩ := Option.ne_none_iff_exists'.mp fun h => hsome ⟨hp, h⟩
          rw [hp, hq] at hjzero hfits
          rw [if_pos hp, if_pos hp, hp, hq, Option.some_or]
          refine (query_eq_iff hjzero hfits).trans ?_
          have hlast : lastSeg [] = [] := rfl
          simp [hlast]
        · have hmove : uptoSlash base.path ++ recompose (refPath r) (refQuery r) =
              recompose (uptoSlash base.path ++ refPath r) (refQuery r) := by
            cases refQuery r with
            | none => rfl
            | some q => exact (List.append_assoc _ _ _).symm
          obtain ⟨hfirst, mids, hmids⟩ := merge_root (p := refPath r) hbase.rooted
          have hlastSeg : lastSeg (merge (refPath base.path) (refPath r)) = lastSeg (refPath r) := lastSeg_of_more hmids
          have hlast : moreOf SLASH (uptoSlash base.path ++ refPath r) = [] ∨
              ∃ mids, moreOf SLASH (uptoSlash base.path ++ refPath r) = mids ++ [lastSeg (merge (refPath base.path) (refPath r))] := by
            rw [hlastSeg]
            rcases uptoSlash_cases base.path with ⟨-, hnil⟩ | ⟨a, ha, -⟩
            · rw [hnil]
              exact more_cases (refPath r)
            · rw [ha]
              exact .inr (more_behind a (refPath r))
          rw [hmove] at hjzero hfits ⊢
          rw [if_neg hp, if_neg hp, if_neg hpath, joined_eq_iff (by simp [hp]) hlast hfirst (by rw [hmids, hlastSeg]) hjzero hfits,
            hlastSeg]

/-- A reference that joins right resolves as the standard says; and where the joined text fits and the base's last slash is in
its path, no other does. -/
theorem join_resolves (hbase : HttpUrl base) (hr : Relative r) (hfits : (resolve base r).path.length < URL_PATH) :
    (JoinsRight base r → urlJoin base r = some (resolve base r)) ∧
      (urlJoin base r = some (resolve base r) → JoinFits base r → refPath base.path ≠ [] →
        (∀ query ∈ refQuery base.path, SLASH ∉ query) → JoinsRight base r) := by
  constructor
  · intro h
    exact (join_eq_iff hbase hr (h.fits hfits)).mpr (h.foldsAlike hbase.whole)
  · intro hright hjoin hpath hquery
    exact ((join_eq_iff hbase hr fun _ => hjoin).mp hright).joinsRight hbase.whole hjoin hpath hquery

end compare

/-! ### A query alone -/

def sampleBase : Url := { host := ascii "a.example", path := ascii "/a/b", port := 443, secure := .secure }

theorem sampleBase_http : HttpUrl sampleBase := ⟨by decide, by decide, by decide, by decide⟩

/-- One directory up, with a query. -/
theorem join_resolves_sample : urlJoin sampleBase (ascii "../c?d") = some (resolve sampleBase (ascii "../c?d")) :=
  (join_resolves sampleBase_http ⟨by decide, by decide, by decide, by decide⟩ (by decide)).1 (by decide)

/-- The query is put in the place of the last segment. -/
theorem query_loses_page :
    HttpUrl sampleBase ∧ Relative (ascii "?x=1") ∧ (resolve sampleBase (ascii "?x=1")).path.length < URL_PATH ∧
      urlJoin sampleBase (ascii "?x=1") = some { sampleBase with path := ascii "/a/?x=1" } ∧
      resolve sampleBase (ascii "?x=1") = { sampleBase with path := ascii "/a/b?x=1" } ∧
      urlJoin sampleBase (ascii "?x=1") ≠ some (resolve sampleBase (ascii "?x=1")) :=
  ⟨sampleBase_http, ⟨by decide, by decide, by decide, by decide⟩, by decide, by decide, by decide, by decide⟩

end Zelr.Web
