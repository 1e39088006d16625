import Zelr.Base.Bytes

/-!
# 8.3 names

A short name is eleven bytes, folded to upper case. Not every name survives the trip, and not every
name that does not is written the long way.
-/

namespace Zelr.Fat

def upcase (c : UInt8) : UInt8 := if 97 ≤ c ∧ c ≤ 122 then c - 97 + 65 else c

def downcase (c : UInt8) : UInt8 := if 65 ≤ c ∧ c ≤ 90 then c - 65 + 97 else c

/-- `'.'` -/
def DOT : UInt8 := 46

/-- `' '` -/
def SPACE : UInt8 := 32

/-- `memset` to blanks, and then what there is. -/
def blanks (k : Nat) (s : Bytes) : Bytes := s ++ List.replicate (k - s.length) SPACE

def stem (name : Bytes) : Bytes := name.takeWhile (· ≠ DOT)

def afterDot (name : Bytes) : Bytes := (name.dropWhile (· ≠ DOT)).drop 1

def to83 (name : Bytes) : Bytes :=
  blanks 8 (((stem name).take 8).map upcase) ++ blanks 3 (((afterDot name).take 3).map upcase)

def from83 (short : Bytes) : Bytes :=
  ((short.take 8).takeWhile (· ≠ SPACE)).map downcase ++
    if byteAt short 8 = SPACE then []
    else DOT :: (((short.drop 8).take 3).takeWhile (· ≠ SPACE)).map downcase

def sameName : Bytes → Bytes → Bool
  | a :: as, b :: bs => upcase a = upcase b && sameName as bs
  | [], [] => true
  | _, _ => false

/-- The scan of `needs_long`: how long the two parts are so far, and whether there was a dot. -/
def needsLongFrom : Nat → Nat → Bool → Bytes → Bool
  | base, ext, _, [] => base > 8 || ext > 3
  | base, ext, dot, c :: s =>
    if c ≥ 0x80 then true
    else if c = DOT then if dot then true else needsLongFrom base ext true s
    else if c = SPACE then true
    else if dot then needsLongFrom base (ext + 1) dot s
    else needsLongFrom (base + 1) ext dot s

def needsLong (name : Bytes) : Bool := needsLongFrom 0 0 false name

def fits83 (name : Bytes) : Bool := name.all (· < 0x80) && sameName (from83 (to83 name)) name

def isDots (name : Bytes) : Bool := name = [DOT] || name = [DOT, DOT]

/-! ## Folding -/

theorem upcase_facts (c : UInt8) :
    upcase (upcase c) = upcase c ∧ upcase (downcase c) = upcase c ∧ (upcase c = DOT ↔ c = DOT) ∧
      (upcase c = SPACE ↔ c = SPACE) ∧ (upcase c = 0 ↔ c = 0) ∧ (upcase c ≥ 0x80 ↔ c ≥ 0x80) :=
  forall_byte (P := fun c => upcase (upcase c) = upcase c ∧ upcase (downcase c) = upcase c ∧
    (upcase c = DOT ↔ c = DOT) ∧ (upcase c = SPACE ↔ c = SPACE) ∧ (upcase c = 0 ↔ c = 0) ∧
    (upcase c ≥ 0x80 ↔ c ≥ 0x80)) (by decide +kernel) c

@[simp] theorem upcase_downcase (c : UInt8) : upcase (downcase c) = upcase c := (upcase_facts c).2.1

theorem upcase_eq_dot (c : UInt8) : upcase c = DOT ↔ c = DOT := (upcase_facts c).2.2.1

theorem upcase_eq_space (c : UInt8) : upcase c = SPACE ↔ c = SPACE := (upcase_facts c).2.2.2.1

theorem upcase_eq_zero (c : UInt8) : upcase c = 0 ↔ c = 0 := (upcase_facts c).2.2.2.2.1

theorem upcase_high (c : UInt8) : upcase c ≥ 0x80 ↔ c ≥ 0x80 := (upcase_facts c).2.2.2.2.2

theorem sameName_iff (a b : Bytes) : sameName a b = true ↔ a.map upcase = b.map upcase := by
  induction a generalizing b with
  | nil => cases b <;> simp [sameName]
  | cons x a ih =>
    cases b with
    | nil => simp [sameName]
    | cons y b => simp [sameName, ih]

variable {a b : Bytes}

section
variable (h : sameName a b = true)
include h

theorem sameName_symm : sameName b a = true :=
  (sameName_iff b a).mpr ((sameName_iff a b).mp h).symm

omit h in
theorem sameName_trans {c : Bytes} (hab : sameName a b = true) (hbc : sameName b c = true) :
    sameName a c = true :=
  (sameName_iff a c).mpr (((sameName_iff a b).mp hab).trans ((sameName_iff b c).mp hbc))

omit h in
theorem sameName_refl (a : Bytes) : sameName a a = true := (sameName_iff a a).mpr rfl

theorem sameName_length : a.length = b.length := by
  have hlen := congrArg List.length ((sameName_iff a b).mp h)
  rwa [List.length_map, List.length_map] at hlen

/-! ## Only the letters' case is lost -/

omit h in
theorem map_stem (name : Bytes) : (stem name).map upcase = stem (name.map upcase) := by
  have hdot : ((fun c => decide (c ≠ DOT)) ∘ upcase) = fun c => decide (c ≠ DOT) := by
    funext c
    exact decide_eq_decide.mpr (not_congr (upcase_eq_dot c))
  rw [stem, stem, List.takeWhile_map, hdot]

omit h in
theorem map_afterDot (name : Bytes) : (afterDot name).map upcase = afterDot (name.map upcase) := by
  have hdot : ((fun c => decide (c ≠ DOT)) ∘ upcase) = fun c => decide (c ≠ DOT) := by
    funext c
    exact decide_eq_decide.mpr (not_congr (upcase_eq_dot c))
  rw [afterDot, afterDot, List.dropWhile_map, hdot, List.map_drop]

theorem to83_congr : to83 a = to83 b := by
  have hup := (sameName_iff a b).mp h
  unfold to83
  rw [List.map_take, List.map_take, List.map_take, List.map_take, map_stem, map_stem, map_afterDot, map_afterDot, hup]

theorem needsLongFrom_congr (base ext : Nat) (dot : Bool) :
    needsLongFrom base ext dot a = needsLongFrom base ext dot b := by
  induction a generalizing b base ext dot with
  | nil =>
    cases b with
    | nil => rfl
    | cons y b => cases h
  | cons x a ih =>
    cases b with
    | nil => cases h
    | cons y b =>
      simp only [sameName, Bool.and_eq_true, decide_eq_true_eq] at h
      obtain ⟨hup, hrest⟩ := h
      have hhigh : x ≥ 0x80 ↔ y ≥ 0x80 := by rw [← upcase_high x, ← upcase_high y, hup]
      have hdot : x = DOT ↔ y = DOT := by rw [← upcase_eq_dot x, ← upcase_eq_dot y, hup]
      have hspace : x = SPACE ↔ y = SPACE := by rw [← upcase_eq_space x, ← upcase_eq_space y, hup]
      unfold needsLongFrom
      simp only [hhigh, hdot, hspace, ih hrest]

theorem needsLong_congr : needsLong a = needsLong b :=
  needsLongFrom_congr h 0 0 false

theorem all_low_congr : a.all (· < 0x80) = b.all (· < 0x80) := by
  induction a generalizing b with
  | nil =>
    cases b with
    | nil => rfl
    | cons y b => cases h
  | cons x a ih =>
    cases b with
    | nil => cases h
    | cons y b =>
      simp only [sameName, Bool.and_eq_true, decide_eq_true_eq] at h
      have hhigh : x < 0x80 ↔ y < 0x80 := by
        have hx := upcase_high x
        have hy := upcase_high y
        rw [h.1] at hx
        rw [← UInt8.not_le, ← UInt8.not_le]
        exact not_congr (hx.symm.trans hy)
      rw [List.all_cons, List.all_cons, ih h.2, decide_eq_decide.mpr hhigh]

theorem fits83_congr : fits83 a = fits83 b := by
  have hname : sameName (from83 (to83 b)) a = sameName (from83 (to83 b)) b := by
    rw [Bool.eq_iff_iff]
    exact ⟨fun hs => sameName_trans hs h, fun hs => sameName_trans hs (sameName_symm h)⟩
  rw [fits83, fits83, all_low_congr h, to83_congr h, hname]

theorem isDots_congr : isDots a = isDots b := by
  have hone : ∀ {a b : Bytes}, sameName a b = true → isDots a = true → isDots b = true := by
    intro a b h ha
    have hup := (sameName_iff a b).mp h
    simp only [isDots, Bool.or_eq_true, decide_eq_true_eq] at ha ⊢
    rcases ha with rfl | rfl
    · obtain ⟨c, rfl, hc⟩ := List.map_eq_singleton_iff.mp hup.symm
      left
      rw [(upcase_eq_dot c).mp hc]
    · obtain ⟨c, tail, rfl, hc, htail⟩ := List.map_eq_cons_iff.mp hup.symm
      obtain ⟨c', rfl, hc'⟩ := List.map_eq_singleton_iff.mp htail
      right
      rw [(upcase_eq_dot c).mp hc, (upcase_eq_dot c').mp hc']
  rw [Bool.eq_iff_iff]
  exact ⟨hone h, hone (sameName_symm h)⟩

end

/-! ## Names that fit -/

theorem fits83_same {name : Bytes} (h : fits83 name = true) : sameName (from83 (to83 name)) name = true :=
  (Bool.and_eq_true_iff.mp h).2

theorem fits83_inj (ha : fits83 a = true) (hb : fits83 b = true) (h : to83 a = to83 b) :
    sameName a b = true := by
  have hback := fits83_same ha
  rw [h] at hback
  exact sameName_trans (sameName_symm hback) (fits83_same hb)

theorem from83_length (short : Bytes) : (from83 short).length ≤ 12 := by
  have htwo : ∀ s : Bytes, (s.takeWhile (· ≠ SPACE)).length ≤ s.length := fun s => (List.takeWhile_sublist _).length_le
  have hbase := htwo (short.take 8)
  have hext := htwo ((short.drop 8).take 3)
  rw [List.length_take] at hbase hext
  unfold from83
  rw [List.length_append, List.length_map]
  split
  · rw [List.length_nil]
    omega
  · rw [List.length_cons, List.length_map]
    omega

theorem fits83_length {name : Bytes} (h : fits83 name = true) : name.length ≤ 12 := by
  rw [← sameName_length (fits83_same h)]
  exact from83_length _

theorem blanks_length (k : Nat) {s : Bytes} (h : s.length ≤ k) : (blanks k s).length = k := by
  rw [blanks, List.length_append, List.length_replicate]
  omega

end Zelr.Fat
