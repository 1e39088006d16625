import Mathlib.Data.List.TakeWhile
import Zelr.Fat.Names

/-!
# Aliases

The short name that a long one is filed under: a few characters, a tilde and a number.
-/

namespace Zelr.Fat

variable {rest a : Bytes} {k : Nat}

/-- `'~'` -/
def TILDE : UInt8 := 126

/-- `'_'` -/
def UNDERSCORE : UInt8 := 95

def aliasHigh (c : UInt8) : Option UInt8 := if c.toNat &&& 0xC0 = 0x80 then none else some UNDERSCORE

def aliasBaseChar (c : UInt8) : Option UInt8 :=
  if c = SPACE then none else if c ≥ 0x80 then aliasHigh c else some (upcase c)

def aliasExtChar (c : UInt8) : Option UInt8 := if c ≥ 0x80 then aliasHigh c else some (upcase c)

def afterLastDot (name : Bytes) : Bytes := (name.reverse.takeWhile (· ≠ DOT)).reverse

structure AliasParts where
  base : Bytes
  ext : Bytes
  deriving DecidableEq

def aliasParts (name : Bytes) : AliasParts :=
  let base := ((stem name).filterMap aliasBaseChar).take 6
  { base := if base = [] then [88] else base
    ext := blanks 3 (if DOT ∈ name then ((afterLastDot name).filterMap aliasExtChar).take 3 else []) }

def digit (n : Nat) : UInt8 := UInt8.ofNat (48 + n % 10)

def aliasTail (n : Nat) : Bytes :=
  TILDE :: ((if n ≥ 100 then [digit (n / 100)] else []) ++ (if n ≥ 10 then [digit (n / 10)] else []) ++ [digit n])

/-- `BASE~N.EXT`, the base cut to make room. -/
def aliasNumbered (p : AliasParts) (n : Nat) : Bytes :=
  blanks 8 (p.base.take (8 - (aliasTail n).length) ++ aliasTail n) ++ p.ext

def hexDigit (n : Nat) : UInt8 := if n % 16 < 10 then UInt8.ofNat (48 + n % 16) else UInt8.ofNat (55 + n % 16)

/-- Two characters of the base, four hex digits and `~1`. -/
def aliasHashed (p : AliasParts) (h : Nat) : Bytes :=
  blanks 8 (p.base.take 2 ++ [hexDigit (h / 4096), hexDigit (h / 256), hexDigit (h / 16), hexDigit h] ++ [TILDE, 49]) ++
    p.ext

def isDigit (c : UInt8) : Bool := 48 ≤ c && c ≤ 57

def aliasNumberOf (p : AliasParts) (name : Bytes) : Nat :=
  match (name.take 8).dropWhile (· ≠ TILDE) with
  | [] => 0
  | _ :: rest =>
    let n := (rest.takeWhile isDigit).foldl (fun n c => n * 10 + (c.toNat - 48)) 0
    if n < 1 ∨ n > 999 then 0 else if aliasNumbered p n = name then n else 0

/-- The hash of the whole name, on a `u32`. -/
def aliasHash (name : Bytes) : Nat := name.foldl (fun h c => (h ^^^ c.toNat) * 16777619 % 2 ^ 32) 2166136261

def aliasChoose (name : Bytes) (p : AliasParts) (used : Nat → Bool) (taken : Bytes → Bool) : Option Bytes :=
  match (List.range' 1 999).find? fun n => !used n with
  | some n => some (aliasNumbered p n)
  | none =>
    ((List.range 256).map fun k => aliasHashed p ((aliasHash name / 256 + k * 40503) % 2 ^ 32)).find? fun a => !taken a

/-! ## The number is read back -/

theorem digit_toNat (n : Nat) : (digit n).toNat = 48 + n % 10 := by
  rw [digit, UInt8.toNat_ofNat']
  omega

theorem isDigit_digit (n : Nat) : isDigit (digit n) = true := by
  have hdigit := digit_toNat n
  rw [isDigit, Bool.and_eq_true_iff, decide_eq_true_eq, decide_eq_true_eq, UInt8.le_iff_toNat_le,
    UInt8.le_iff_toNat_le, hdigit]
  exact ⟨by simp, by simp; omega⟩

variable {n : Nat} {p : AliasParts} {name : Bytes} {c : UInt8}

theorem aliasTail_length (n : Nat) :
    2 ≤ (aliasTail n).length ∧ (aliasTail n).length ≤ 4 := by
  unfold aliasTail
  split <;> split <;> simp

theorem tail_number (hpos : 1 ≤ n) (hn : n ≤ 999) (hrest : ∀ c ∈ rest.head?, isDigit c = false) :
    (((aliasTail n).tail ++ rest).takeWhile isDigit).foldl (fun n c => n * 10 + (c.toNat - 48)) 0 = n := by
  have hstop : rest.takeWhile isDigit = [] := by
    cases rest with
    | nil => rfl
    | cons c rest => exact List.takeWhile_cons_of_neg (by rw [hrest c rfl]; nofun)
  unfold aliasTail
  rw [List.tail_cons]
  by_cases h100 : n ≥ 100
  · rw [if_pos h100, if_pos (show n ≥ 10 by omega)]
    simp only [List.cons_append, List.nil_append, List.takeWhile_cons, isDigit_digit, if_true, hstop, List.foldl_cons,
      List.foldl_nil, digit_toNat]
    omega
  · by_cases h10 : n ≥ 10
    · rw [if_neg h100, if_pos h10]
      simp only [List.cons_append, List.nil_append, List.takeWhile_cons, isDigit_digit, if_true, hstop, List.foldl_cons,
        List.foldl_nil, digit_toNat]
      omega
    · rw [if_neg h100, if_neg h10]
      simp only [List.cons_append, List.nil_append, List.takeWhile_cons, isDigit_digit, if_true, hstop, List.foldl_cons,
        List.foldl_nil, digit_toNat]
      omega

theorem dropWhile_tilde {xs : Bytes} (h : TILDE ∉ xs) (ys : Bytes) :
    (xs ++ TILDE :: ys).dropWhile (· ≠ TILDE) = TILDE :: ys := by
  induction xs with
  | nil => exact List.dropWhile_cons_of_neg (by simp)
  | cons x xs ih =>
    have hx : x ≠ TILDE := fun heq => h (heq ▸ List.mem_cons_self)
    rw [List.cons_append, List.dropWhile_cons_of_pos (by simpa using hx)]
    exact ih fun hmem => h (List.mem_cons_of_mem _ hmem)

theorem aliasNumberOf_numbered (htilde : TILDE ∉ p.base) (hpos : 1 ≤ n) (hn : n ≤ 999) :
    aliasNumberOf p (aliasNumbered p n) = n := by
  obtain ⟨hshort, hlong⟩ := aliasTail_length n
  have hbase : TILDE ∉ p.base.take (8 - (aliasTail n).length) := fun hmem => htilde (List.mem_of_mem_take hmem)
  have htail : aliasTail n = TILDE :: (aliasTail n).tail := rfl
  have hlen : (p.base.take (8 - (aliasTail n).length) ++ aliasTail n).length ≤ 8 := by
    rw [List.length_append, List.length_take]
    omega
  have height : (aliasNumbered p n).take 8 = p.base.take (8 - (aliasTail n).length) ++
      TILDE :: ((aliasTail n).tail ++
        List.replicate (8 - (p.base.take (8 - (aliasTail n).length) ++ aliasTail n).length) SPACE) := by
    have hblanks := blanks_length 8 hlen
    rw [aliasNumbered, List.take_append_of_le_length hblanks.ge, List.take_of_length_le hblanks.le, blanks]
    nth_rewrite 2 [htail]
    rw [List.append_assoc, List.cons_append]
  have hend : ∀ k, ∀ c ∈ (List.replicate k SPACE).head?, isDigit c = false := by
    intro k c hc
    cases k with
    | zero => cases hc
    | succ k =>
      cases hc
      decide
  unfold aliasNumberOf
  rw [height, dropWhile_tilde hbase]
  dsimp only
  rw [tail_number hpos hn (hend _), if_neg (by omega), if_pos rfl]

/-- Every number that is in use is read back from the name it is in. -/
def Readable (p : AliasParts) (shorts : List Bytes) : Prop :=
  ∀ n, 1 ≤ n → n ≤ 999 → aliasNumbered p n ∈ shorts → aliasNumberOf p (aliasNumbered p n) = n

theorem readable_of_no_tilde (htilde : TILDE ∉ p.base) (shorts : List Bytes) : Readable p shorts :=
  fun _ hpos hn _ => aliasNumberOf_numbered htilde hpos hn

theorem aliasChoose_fresh {shorts : List Bytes} (hread : Readable p shorts)
    (h : aliasChoose name p (fun n => shorts.any fun s => aliasNumberOf p s = n) (fun s => s ∈ shorts) = some a) :
    a ∉ shorts := by
  unfold aliasChoose at h
  split at h
  · rename_i n hfind
    cases h
    have hmem := List.mem_range'_1.mp (List.mem_of_find?_eq_some hfind)
    have hunused := List.find?_some hfind
    intro hshort
    rw [Bool.not_eq_true', List.any_eq_false] at hunused
    have hnumber := hread n (by omega) (by omega) hshort
    exact hunused _ hshort (decide_eq_true hnumber)
  · have hfree := List.find?_some h
    rw [Bool.not_eq_true', decide_eq_false_iff_not] at hfree
    exact hfree

/-! ## What an alias is made of -/

theorem blanks_mem {s : Bytes} (h : c ∈ blanks k s) : c ∈ s ∨ c = SPACE := by
  rcases List.mem_append.mp h with h | h
  · exact .inl h
  · exact .inr (List.eq_of_mem_replicate h)

theorem aliasHigh_some {x : UInt8} (h : aliasHigh c = some x) : x = UNDERSCORE := by
  unfold aliasHigh at h
  obtain ⟨-, h⟩ := Option.ite_none_left_eq_some.mp h
  exact (Option.some.inj h).symm

def AliasByte (c : UInt8) : Prop := c ≠ DOT ∧ c ≠ 0 ∧ c < 0x80

theorem aliasByte_upcase (hdot : c ≠ DOT) (hzero : c ≠ 0) (hhigh : ¬ c ≥ 0x80) : AliasByte (upcase c) := by
  refine ⟨fun h => hdot ((upcase_eq_dot c).mp h), fun h => hzero ((upcase_eq_zero c).mp h), ?_⟩
  rw [← UInt8.not_le]
  exact fun h => hhigh ((upcase_high c).mp h)

theorem aliasByte_underscore : AliasByte UNDERSCORE := ⟨by decide, by decide, by decide⟩

theorem stem_mem (h : c ∈ stem name) : c ∈ name ∧ c ≠ DOT := by
  refine ⟨(List.takeWhile_sublist _).subset h, ?_⟩
  have hdot := List.mem_takeWhile_imp h
  simpa using hdot

theorem afterLastDot_mem (h : c ∈ afterLastDot name) : c ∈ name ∧ c ≠ DOT := by
  rw [afterLastDot, List.mem_reverse] at h
  refine ⟨List.mem_reverse.mp ((List.takeWhile_sublist _).subset h), ?_⟩
  have hdot := List.mem_takeWhile_imp h
  simpa using hdot

theorem aliasParts_base (hplain : 0 ∉ name) :
    (aliasParts name).base ≠ [] ∧ ∀ c ∈ (aliasParts name).base, AliasByte c := by
  unfold aliasParts
  dsimp only
  split
  · refine ⟨List.cons_ne_nil _ _, fun c hc => ?_⟩
    rw [List.mem_singleton.mp hc]
    exact ⟨by decide, by decide, by decide⟩
  · rename_i hne
    refine ⟨hne, fun c hc => ?_⟩
    obtain ⟨x, hx, hchar⟩ := List.mem_filterMap.mp (List.mem_of_mem_take hc)
    obtain ⟨hmem, hdot⟩ := stem_mem hx
    have hzero : x ≠ 0 := fun heq => hplain (heq ▸ hmem)
    unfold aliasBaseChar at hchar
    obtain ⟨-, hchar⟩ := Option.ite_none_left_eq_some.mp hchar
    split at hchar
    · rw [aliasHigh_some hchar]
      exact aliasByte_underscore
    · rename_i hhigh
      rw [← Option.some.inj hchar]
      exact aliasByte_upcase hdot hzero hhigh

theorem aliasParts_ext (hplain : 0 ∉ name) : ∀ c ∈ (aliasParts name).ext, AliasByte c := by
  intro c hc
  unfold aliasParts at hc
  dsimp only at hc
  rcases blanks_mem hc with hc | rfl
  · split at hc
    · obtain ⟨x, hx, hchar⟩ := List.mem_filterMap.mp (List.mem_of_mem_take hc)
      obtain ⟨hmem, hdot⟩ := afterLastDot_mem hx
      have hzero : x ≠ 0 := fun heq => hplain (heq ▸ hmem)
      unfold aliasExtChar at hchar
      split at hchar
      · rw [aliasHigh_some hchar]
        exact aliasByte_underscore
      · rename_i hhigh
        rw [← Option.some.inj hchar]
        exact aliasByte_upcase hdot hzero hhigh
    · cases hc
  · exact ⟨by decide, by decide, by decide⟩

theorem digit_aliasByte (n : Nat) : AliasByte (digit n) := by
  have hall : ∀ k < 10, AliasByte (UInt8.ofNat (48 + k)) := by
    unfold AliasByte
    decide
  exact hall _ (Nat.mod_lt _ (by decide))

theorem hexDigit_aliasByte (n : Nat) : AliasByte (hexDigit n) := by
  have hall : ∀ k < 16, AliasByte (if k < 10 then UInt8.ofNat (48 + k) else UInt8.ofNat (55 + k)) := by
    unfold AliasByte
    decide
  exact hall _ (Nat.mod_lt _ (by decide))

theorem aliasTail_aliasByte (n : Nat) : ∀ c ∈ aliasTail n, AliasByte c := by
  intro c hc
  have htilde : AliasByte TILDE := ⟨by decide, by decide, by decide⟩
  rcases List.mem_cons.mp hc with rfl | hc
  · exact htilde
  · rcases List.mem_append.mp hc with hc | hc
    · rcases List.mem_append.mp hc with hc | hc
      · split at hc
        · rw [List.mem_singleton.mp hc]
          exact digit_aliasByte _
        · cases hc
      · split at hc
        · rw [List.mem_singleton.mp hc]
          exact digit_aliasByte _
        · cases hc
    · rw [List.mem_singleton.mp hc]
      exact digit_aliasByte _

theorem alias_bytes (hplain : 0 ∉ name) (hk : 1 ≤ k) (hrest : ∀ c ∈ rest, AliasByte c) :
    AliasByte (byteAt (blanks 8 ((aliasParts name).base.take k ++ rest) ++ (aliasParts name).ext) 0) ∧
      ∀ c ∈ blanks 8 ((aliasParts name).base.take k ++ rest) ++ (aliasParts name).ext, AliasByte c := by
  obtain ⟨hne, hbase⟩ := aliasParts_base hplain
  have hall : ∀ c ∈ blanks 8 ((aliasParts name).base.take k ++ rest) ++ (aliasParts name).ext, AliasByte c := by
    intro c hc
    rcases List.mem_append.mp hc with hc | hc
    · rcases blanks_mem hc with hc | rfl
      · rcases List.mem_append.mp hc with hc | hc
        · exact hbase c (List.mem_of_mem_take hc)
        · exact hrest c hc
      · exact ⟨by decide, by decide, by decide⟩
    · exact aliasParts_ext hplain c hc
  refine ⟨?_, hall⟩
  obtain ⟨b, bs, hb⟩ := List.exists_cons_of_ne_nil hne
  obtain ⟨j, rfl⟩ := Nat.exists_eq_add_of_le hk
  rw [hb, Nat.add_comm 1 j, List.take_succ_cons]
  exact hbase b (by rw [hb]; exact List.mem_cons_self)

theorem aliasChoose_bytes (hplain : 0 ∉ name) {used : Nat → Bool} {taken : Bytes → Bool}
    (h : aliasChoose name (aliasParts name) used taken = some a) : AliasByte (byteAt a 0) ∧ ∀ c ∈ a, AliasByte c := by
  unfold aliasChoose at h
  split at h
  · rename_i n hfind
    cases h
    have hmem := List.mem_range'_1.mp (List.mem_of_find?_eq_some hfind)
    obtain ⟨-, htail⟩ := aliasTail_length n
    exact alias_bytes hplain (by omega) (aliasTail_aliasByte n)
  · obtain ⟨k, -, rfl⟩ := List.mem_map.mp (List.mem_of_find?_eq_some h)
    unfold aliasHashed
    rw [List.append_assoc (List.take 2 _)]
    refine alias_bytes hplain (by decide) fun c hc => ?_
    rcases List.mem_append.mp hc with hc | hc
    · simp only [List.mem_cons, List.not_mem_nil, or_false] at hc
      rcases hc with rfl | rfl | rfl | rfl <;> exact hexDigit_aliasByte _
    · simp only [List.mem_cons, List.not_mem_nil, or_false] at hc
      rcases hc with rfl | rfl
      · exact ⟨by decide, by decide, by decide⟩
      · exact ⟨by decide, by decide, by decide⟩

end Zelr.Fat
