import Zelr.Base.Segments
import Zelr.Web.Url

/-!
# Dot segments

What the loop that folds them away makes of a path, and what RFC 3986, 5.2.4 makes of it: both walk over the
segments, and part at the last one.
-/

namespace Zelr.Web

open Segments

/-- The walk over segments, `.` staying and `..` going back. -/
abbrev walk (w : Walk UInt8) (segs : List Bytes) : Walk UInt8 := segs.foldl (Walk.step [DOT] [DOT, DOT]) w

def trail (segs : List Bytes) : Bytes := segs.flatMap (SLASH :: ·)

theorem joined_eq (first : Bytes) (segs : List Bytes) : joined SLASH first segs = first ++ trail segs := rfl

@[simp] theorem trail_nil : trail [] = [] := rfl

theorem trail_cons (seg : Bytes) (segs : List Bytes) : trail (seg :: segs) = SLASH :: (seg ++ trail segs) := by
  simp [trail]

theorem trail_append (a b : List Bytes) : trail (a ++ b) = trail a ++ trail b := List.flatMap_append

/-- What stands behind a segment: nothing, or another slash. -/
def Ends (rest : Bytes) : Prop := rest = [] ∨ rest.head? = some SLASH

theorem trail_ends (segs : List Bytes) : Ends (trail segs) := by
  cases segs with
  | nil => exact .inl rfl
  | cons seg segs => exact .inr (by rw [trail_cons]; rfl)

/-! ## The bytes behind a slash -/

section behind
variable {seg rest : Bytes}

theorem Ends.byteAt (h : Ends rest) : byteAt rest 0 = if rest = [] then 0 else SLASH := by
  rcases h with rfl | h
  · rfl
  · cases rest with
    | nil => cases h
    | cons c rest =>
      obtain rfl := Option.some.inj h
      rw [if_neg (by simp)]
      rfl

theorem Ends.not_dot (h : Ends rest) : Zelr.byteAt rest 0 ≠ DOT := by
  rw [h.byteAt]
  split <;> decide

theorem dot_ahead (hseg : SLASH ∉ seg) (hrest : Ends rest) :
    byteAt (seg ++ rest) 0 = DOT ∧ byteAt (seg ++ rest) 1 = SLASH ↔ seg = [DOT] ∧ rest ≠ [] := by
  match seg with
  | [] => simp [hrest.not_dot]
  | [c] =>
    have hnext : byteAt ([c] ++ rest) 1 = byteAt rest 0 := rfl
    have hfirst : byteAt ([c] ++ rest) 0 = c := rfl
    rw [hnext, hfirst, hrest.byteAt]
    by_cases hnil : rest = []
    · simp [hnil, SLASH]
    · simp [hnil]
  | c :: d :: seg =>
    have hd : d ≠ SLASH := fun h => hseg (by simp [h])
    have hnext : byteAt (c :: d :: seg ++ rest) 1 = d := rfl
    rw [hnext]
    simp [hd]

theorem dots_ahead (hseg : SLASH ∉ seg) (hzero : 0 ∉ seg) (hrest : Ends rest) :
    byteAt (seg ++ rest) 0 = DOT ∧ byteAt (seg ++ rest) 1 = DOT ∧
      (byteAt (seg ++ rest) 2 = SLASH ∨ byteAt (seg ++ rest) 2 = 0) ↔ seg = [DOT, DOT] := by
  match seg with
  | [] => simp [hrest.not_dot]
  | [c] =>
    have hnext : byteAt ([c] ++ rest) 1 = byteAt rest 0 := rfl
    rw [hnext]
    simp [hrest.not_dot]
  | [c, d] =>
    have hfirst : byteAt ([c, d] ++ rest) 0 = c := rfl
    have hnext : byteAt ([c, d] ++ rest) 1 = d := rfl
    have hlast : byteAt ([c, d] ++ rest) 2 = byteAt rest 0 := rfl
    have hend : byteAt rest 0 = SLASH ∨ byteAt rest 0 = 0 := by
      rw [hrest.byteAt]
      split
      · exact .inr rfl
      · exact .inl rfl
    rw [hfirst, hnext, hlast]
    simp [hend]
  | c :: d :: e :: seg =>
    have he : e ≠ SLASH := fun h => hseg (by simp [h])
    have he0 : e ≠ 0 := fun h => hzero (by simp [h])
    have hlast : byteAt (c :: d :: e :: seg ++ rest) 2 = e := rfl
    rw [hlast]
    simp [he, he0]

end behind

/-! ## The loop -/

section loop
variable {t seg rest : Bytes} {w : Walk UInt8} {segs : List Bytes}

theorem cleaned_plain (hseg : SLASH ∉ seg) (hlen : t.length + seg.length < URL_PATH) :
    cleaned 0 t (seg ++ rest) = cleaned 0 (t ++ seg) rest := by
  induction seg generalizing t with
  | nil => rw [List.nil_append, List.append_nil]
  | cons c seg ih =>
    have hc : c ≠ SLASH := fun h => hseg (by simp [h])
    rw [List.length_cons] at hlen
    rw [List.cons_append, cleaned, if_neg (by simp [hc]), if_neg (by simp [hc]), if_pos (by omega),
      ih (fun h => hseg (List.mem_cons_of_mem _ h)) (by simp; omega), List.append_assoc]
    rfl

theorem cleaned_seg (hseg : SLASH ∉ seg) (hzero : 0 ∉ seg) (hrest : Ends rest) (hlen : t.length + 1 + seg.length < URL_PATH) :
    cleaned 0 t (SLASH :: (seg ++ rest)) =
      if seg = [DOT] ∧ rest ≠ [] then cleaned 0 t rest
      else if seg = [DOT, DOT] then if rest = [] then back t ++ [SLASH] else cleaned 0 (back t) rest
      else cleaned 0 (t ++ SLASH :: seg) rest := by
  rw [cleaned]
  simp only [true_and, dot_ahead hseg hrest, dots_ahead hseg hzero hrest]
  split
  · rename_i h
    rw [h.1]
    rfl
  · split
    · rename_i h
      rw [h]
      have hlast : byteAt ([DOT, DOT] ++ rest) 2 = byteAt rest 0 := rfl
      rw [hlast, hrest.byteAt]
      by_cases hnil : rest = []
      · rw [if_pos hnil, if_pos rfl, if_pos hnil]
      · rw [if_neg hnil, if_neg (by decide), if_neg hnil]
        rfl
    · rw [if_pos (by omega), cleaned_plain hseg (by simp; omega), List.append_assoc]
      rfl

theorem back_text (h : w.Plain SLASH) : back (w.text SLASH) = w.up.text SLASH := (text_up h).symm

theorem up_text_length (h : w.Plain SLASH) : (w.up.text SLASH).length ≤ (w.text SLASH).length := by
  rw [text_up h, List.length_dropLast]
  exact (Nat.sub_le _ _).trans (List.rdropWhile_prefix _ _).length_le

theorem cleaned_trail (hw : w.Plain SLASH) (hsegs : Plain SLASH segs) (hseg : SLASH ∉ seg)
    (hzero : ∀ s ∈ segs, 0 ∉ s) (hzero' : 0 ∉ seg)
    (hlen : (w.text SLASH).length + (trail (segs ++ [seg])).length < URL_PATH) :
    cleaned 0 (w.text SLASH) (trail (segs ++ [seg])) =
      if seg = [DOT, DOT] then (walk w segs).up.text SLASH ++ [SLASH] else (walk w segs).text SLASH ++ SLASH :: seg := by
  induction segs generalizing w with
  | nil =>
    rw [List.nil_append, trail_cons, List.length_cons, List.length_append] at hlen
    rw [List.nil_append, trail_cons, cleaned_seg hseg hzero' (trail_ends []) (by omega),
      if_neg fun h => h.2 rfl]
    split
    · rw [trail_nil, if_pos rfl, back_text hw]
      rfl
    · rfl
  | cons s segs ih =>
    have hs : SLASH ∉ s := hsegs s List.mem_cons_self
    have hs0 : 0 ∉ s := hzero s List.mem_cons_self
    have hmore : Plain SLASH segs := fun m hm => hsegs m (List.mem_cons_of_mem _ hm)
    have hmore0 : ∀ m ∈ segs, 0 ∉ m := fun m hm => hzero m (List.mem_cons_of_mem _ hm)
    have hne : trail (segs ++ [seg]) ≠ [] := by
      rw [trail_append, trail_cons]
      simp
    rw [List.cons_append, trail_cons, List.length_cons, List.length_append] at hlen
    have hup := up_text_length hw
    rw [List.cons_append, trail_cons, cleaned_seg hs hs0 (trail_ends _) (by omega)]
    change _ = if seg = [DOT, DOT] then (walk (w.step [DOT] [DOT, DOT] s) segs).up.text SLASH ++ [SLASH]
      else (walk (w.step [DOT] [DOT, DOT] s) segs).text SLASH ++ SLASH :: seg
    unfold Walk.step
    by_cases hdot : s = [DOT]
    · rw [if_pos ⟨hdot, hne⟩, if_pos hdot, ih hw hmore hmore0 (by omega)]
    · rw [if_neg fun h => hdot h.1, if_neg hdot]
      by_cases hdots : s = [DOT, DOT]
      · rw [if_pos hdots, if_pos hdots, if_neg hne, back_text hw, ih hw.up hmore hmore0 (by omega)]
      · rw [if_neg hdots, if_neg hdots, ← Walk.text_cons]
        refine ih ?_ hmore hmore0 ?_
        · refine ⟨hw.first, fun m hm => ?_⟩
          rcases List.mem_cons.mp hm with rfl | hm
          · exact hs
          · exact hw.above m hm
        · rw [Walk.text_cons, List.length_append, List.length_cons]
          change (w.text SLASH).length + _ + _ < _
          omega

theorem cleaned_length {k : Nat} {s : Bytes} (ht : t.length < URL_PATH) : (cleaned k t s).length < URL_PATH := by
  induction s generalizing k t with
  | nil =>
    rw [cleaned]
    exact ht
  | cons c s ih =>
    have hback : (back t).length ≤ t.length := by
      rw [back, List.length_dropLast]
      exact (Nat.sub_le _ _).trans (List.rdropWhile_prefix _ _).length_le
    cases k with
    | succ k =>
      rw [cleaned]
      exact ih ht
    | zero =>
      rw [cleaned]
      split
      · exact ih ht
      · split
        · split
          · rw [List.length_append, List.length_singleton, back, List.length_dropLast]
            have hle := (List.rdropWhile_prefix (· ≠ SLASH) t).length_le
            have hroom : 1 < URL_PATH := by decide
            unfold uptoSlash
            omega
          · exact ih (by omega)
        · apply ih
          split
          · rw [List.length_append, List.length_singleton]
            omega
          · exact ht

end loop

/-! ## RFC 3986, 5.2.4 -/

def withoutLast (output : Bytes) : Bytes := (output.rdropWhile (· ≠ SLASH)).dropLast

def dotsTurn (input output : Bytes) : Bytes × Bytes :=
  if ascii "../" <+: input then (input.drop 3, output)
  else if ascii "./" <+: input then (input.drop 2, output)
  else if ascii "/./" <+: input then (SLASH :: input.drop 3, output)
  else if input = ascii "/." then ([SLASH], output)
  else if ascii "/../" <+: input then (SLASH :: input.drop 4, withoutLast output)
  else if input = ascii "/.." then ([SLASH], withoutLast output)
  else if input = ascii "." ∨ input = ascii ".." then ([], output)
  else
    let n := 1 + ((input.drop 1).takeWhile (· ≠ SLASH)).length
    (input.drop n, output ++ input.take n)

def removeDotsFrom : Nat → Bytes → Bytes → Bytes
  | 0, _, output => output
  | turns + 1, input, output =>
    if input = [] then output else removeDotsFrom turns (dotsTurn input output).1 (dotsTurn input output).2

def removeDots (path : Bytes) : Bytes := removeDotsFrom path.length path []

section remove
variable {seg rest out : Bytes} {w : Walk UInt8} {segs : List Bytes}

theorem prefix_ahead (hrest : Ends rest) (hseg : SLASH ∉ seg) {p : Bytes} (hp : SLASH ∉ p) :
    SLASH :: (p ++ [SLASH]) <+: SLASH :: (seg ++ rest) ↔ seg = p ∧ rest ≠ [] := by
  rw [List.cons_prefix_cons]
  constructor
  · rintro ⟨-, u, hu⟩
    induction p generalizing seg with
    | nil =>
      cases seg with
      | nil =>
        refine ⟨rfl, ?_⟩
        rintro rfl
        cases hu
      | cons c seg =>
        obtain ⟨rfl, -⟩ := List.cons.inj hu
        exact absurd List.mem_cons_self hseg
    | cons c p ih =>
      simp only [List.cons_append] at hu
      cases seg with
      | nil =>
        rcases hrest with rfl | hrest
        · cases hu
        · rw [List.nil_append] at hu
          rw [← hu] at hrest
          obtain rfl := Option.some.inj hrest
          exact absurd List.mem_cons_self hp
      | cons d seg =>
        obtain ⟨rfl, hu'⟩ := List.cons.inj (show c :: (p ++ [SLASH] ++ u) = d :: (seg ++ rest) from hu)
        obtain ⟨rfl, hne⟩ := ih (fun h => hseg (List.mem_cons_of_mem _ h)) (fun h => hp (List.mem_cons_of_mem _ h)) hu'
        exact ⟨rfl, hne⟩
  · rintro ⟨rfl, hne⟩
    refine ⟨rfl, ?_⟩
    rcases hrest with rfl | hrest
    · exact absurd rfl hne
    · cases rest with
      | nil => exact absurd rfl hne
      | cons c rest =>
        obtain rfl := Option.some.inj hrest
        exact ⟨rest, by simp⟩

theorem whole_ahead (hrest : Ends rest) {p : Bytes} (hp : SLASH ∉ p) :
    SLASH :: (seg ++ rest) = SLASH :: p ↔ seg = p ∧ rest = [] := by
  constructor
  · intro h
    obtain ⟨-, h⟩ := List.cons.inj h
    rcases hrest with rfl | hrest
    · rw [List.append_nil] at h
      exact ⟨h, rfl⟩
    · cases rest with
      | nil => cases hrest
      | cons c rest =>
        obtain rfl := Option.some.inj hrest
        exact absurd (h ▸ List.mem_append_right _ List.mem_cons_self) hp
  · rintro ⟨rfl, rfl⟩
    rw [List.append_nil]

theorem dotsTurn_seg (hseg : SLASH ∉ seg) (hrest : Ends rest) :
    dotsTurn (SLASH :: (seg ++ rest)) out =
      if seg = [DOT] then (if rest = [] then [SLASH] else rest, out)
      else if seg = [DOT, DOT] then (if rest = [] then [SLASH] else rest, withoutLast out)
      else (rest, out ++ SLASH :: seg) := by
  have hdots : SLASH ∉ [DOT, DOT] := by decide
  have hdot : SLASH ∉ [DOT] := by decide
  have hrestCons : rest ≠ [] → SLASH :: rest.drop 1 = rest := by
    intro hne
    rcases hrest with rfl | h
    · exact absurd rfl hne
    · cases rest with
      | nil => cases h
      | cons c rest =>
        obtain rfl := Option.some.inj h
        rfl
  have hone : (ascii "/./" : Bytes) = SLASH :: ([DOT] ++ [SLASH]) := by decide
  have htwo : (ascii "/../" : Bytes) = SLASH :: ([DOT, DOT] ++ [SLASH]) := by decide
  have honeEnd : (ascii "/." : Bytes) = SLASH :: [DOT] := by decide
  have htwoEnd : (ascii "/.." : Bytes) = SLASH :: [DOT, DOT] := by decide
  have hfirst : ¬ ascii "../" <+: SLASH :: (seg ++ rest) := fun h => absurd (List.cons_prefix_cons.mp h).1 (by decide)
  have hsecond : ¬ ascii "./" <+: SLASH :: (seg ++ rest) := fun h => absurd (List.cons_prefix_cons.mp h).1 (by decide)
  have hlone : ¬ (SLASH :: (seg ++ rest) = ascii "." ∨ SLASH :: (seg ++ rest) = ascii "..") := by
    rintro (h | h) <;> exact absurd (List.cons.inj h).1 (by decide)
  unfold dotsTurn
  rw [if_neg hfirst, if_neg hsecond, hone, htwo, honeEnd, htwoEnd]
  simp only [prefix_ahead hrest hseg hdot, prefix_ahead hrest hseg hdots, whole_ahead hrest hdot,
    whole_ahead hrest hdots, if_neg hlone]
  by_cases h1 : seg = [DOT]
  · by_cases hnil : rest = []
    · simp [h1, hnil]
    · rw [if_pos ⟨h1, hnil⟩, if_pos h1, if_neg hnil, h1]
      exact congrArg (·, out) (hrestCons hnil)
  · rw [if_neg fun h => h1 h.1, if_neg fun h => h1 h.1, if_neg h1]
    by_cases h2 : seg = [DOT, DOT]
    · by_cases hnil : rest = []
      · simp [h2, hnil]
      · rw [if_pos ⟨h2, hnil⟩, if_pos h2, if_neg hnil, h2]
        exact congrArg (·, withoutLast out) (hrestCons hnil)
    · rw [if_neg fun h => h2 h.1, if_neg fun h => h2 h.1, if_neg h2]
      have hall : ∀ c ∈ seg, decide (c ≠ SLASH) = true := by
        intro c hc
        rw [decide_eq_true_iff]
        rintro rfl
        exact hseg hc
      have htake : (seg ++ rest).takeWhile (· ≠ SLASH) = seg := by
        rw [List.takeWhile_append_of_pos hall]
        rcases hrest with rfl | h
        · simp
        · cases rest with
          | nil => simp
          | cons c rest =>
            obtain rfl := Option.some.inj h
            simp
      rw [List.drop_one, List.tail_cons, htake, Nat.add_comm 1]
      simp

theorem removeDotsFrom_trail {turns : Nat} (hw : w.Plain SLASH) (hsegs : Plain SLASH segs) (hseg : SLASH ∉ seg)
    (hturns : (trail (segs ++ [seg])).length ≤ turns) :
    removeDotsFrom turns (trail (segs ++ [seg])) (w.text SLASH) =
      if seg = [DOT] then (walk w segs).text SLASH ++ [SLASH]
      else if seg = [DOT, DOT] then (walk w segs).up.text SLASH ++ [SLASH]
      else (walk w segs).text SLASH ++ SLASH :: seg := by
  have hlone : ∀ (turns : Nat) (out : Bytes), 1 ≤ turns → removeDotsFrom turns [SLASH] out = out ++ [SLASH] := by
    intro turns out h
    obtain ⟨turns, rfl⟩ := Nat.exists_eq_add_of_le' h
    have hturn : dotsTurn [SLASH] out = ([], out ++ [SLASH]) := @dotsTurn_seg [] [] out List.not_mem_nil (.inl rfl)
    rw [removeDotsFrom, if_neg (by simp), hturn]
    cases turns <;> rfl
  have hdone : ∀ (turns : Nat) (out : Bytes), removeDotsFrom turns [] out = out := by
    intro turns out
    cases turns <;> rfl
  induction segs generalizing w turns with
  | nil =>
    rw [List.nil_append, trail_cons, List.length_cons, List.length_append] at hturns
    obtain ⟨turns, rfl⟩ := Nat.exists_eq_add_of_le' (Nat.one_le_of_lt hturns)
    rw [List.nil_append, trail_cons, removeDotsFrom, if_neg (by simp), dotsTurn_seg hseg (trail_ends [])]
    by_cases h1 : seg = [DOT]
    · rw [if_pos h1, if_pos h1, trail_nil, if_pos rfl]
      exact hlone _ _ (by rw [h1, List.length_singleton] at hturns; omega)
    · rw [if_neg h1, if_neg h1]
      by_cases h2 : seg = [DOT, DOT]
      · rw [if_pos h2, if_pos h2, trail_nil, if_pos rfl]
        change _ = w.up.text SLASH ++ [SLASH]
        rw [text_up hw]
        exact hlone _ _ (by rw [h2] at hturns; simp at hturns; omega)
      · rw [if_neg h2, if_neg h2]
        exact hdone _ _
  | cons s segs ih =>
    have hs : SLASH ∉ s := hsegs s List.mem_cons_self
    have hmore : Plain SLASH segs := fun m hm => hsegs m (List.mem_cons_of_mem _ hm)
    have hne : trail (segs ++ [seg]) ≠ [] := by
      rw [trail_append, trail_cons]
      simp
    rw [List.cons_append, trail_cons, List.length_cons, List.length_append] at hturns
    obtain ⟨turns, rfl⟩ := Nat.exists_eq_add_of_le' (Nat.one_le_of_lt hturns)
    rw [List.cons_append, trail_cons, removeDotsFrom, if_neg (by simp), dotsTurn_seg hs (trail_ends _)]
    change _ = if seg = [DOT] then (walk (w.step [DOT] [DOT, DOT] s) segs).text SLASH ++ [SLASH]
      else if seg = [DOT, DOT] then (walk (w.step [DOT] [DOT, DOT] s) segs).up.text SLASH ++ [SLASH]
      else (walk (w.step [DOT] [DOT, DOT] s) segs).text SLASH ++ SLASH :: seg
    unfold Walk.step
    by_cases h1 : s = [DOT]
    · rw [if_pos h1, if_pos h1, if_neg hne]
      exact ih hw hmore (by omega)
    · rw [if_neg h1, if_neg h1]
      by_cases h2 : s = [DOT, DOT]
      · rw [if_pos h2, if_pos h2, if_neg hne, withoutLast, ← text_up hw]
        exact ih hw.up hmore (by omega)
      · rw [if_neg h2, if_neg h2, ← Walk.text_cons]
        refine ih ⟨hw.first, fun m hm => ?_⟩ hmore (by omega)
        rcases List.mem_cons.mp hm with rfl | hm
        · exact hs
        · exact hw.above m hm

end remove

end Zelr.Web
