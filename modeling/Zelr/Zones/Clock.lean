import Zelr.Zones.Civil

/-!
# The clock on the wall

When a zone keeps summer time, from `zones.h`, and the machine's clock as `kernel/zone.c` reads it. Moments are seconds since
1970.
-/

namespace Zelr.Zones

/-! ## Summer -/

inductive Rule
  | none
  | us
  | eu
  | au
  | nz
  deriving DecidableEq

structure Zone where
  /-- Minutes east of UTC, outside summer. -/
  offset : Int
  rule : Rule

def zoneDayOf (t : Int) : Int := if t.tmod 86400 < 0 then t.tdiv 86400 - 1 else t.tdiv 86400

def zoneWeekday (day : Int) : Int :=
  let w := (day + 4).tmod 7
  if w < 0 then w + 7 else w

/-- `while (day + 7 < len) day += 7;` -/
def lastBefore (len : Int) : Nat → Int → Int
  | 0, day => day
  | f + 1, day => if day + 7 < len then lastBefore len f (day + 7) else day

def zoneSunday (year month nth hour off : Int) : Int :=
  let first := zoneDaysFromCivil year month 1
  let day := (7 - zoneWeekday first).tmod 7
  let day :=
    if nth > 0 then day + 7 * (nth - 1)
    else
      let len := zoneDaysFromCivil (if month = 12 then year + 1 else year) (if month = 12 then 1 else month + 1) 1 - first
      -- A month has fewer days than this has turns.
      lastBefore len len.toNat day
  (first + day) * 86400 + hour * 3600 - off * 60

def zoneInSummer (z : Zone) (t : Int) : Bool :=
  let y := (zoneCivilFromDays (zoneDayOf t)).y
  let o := z.offset
  match z.rule with
  | .none => false
  | .us => t ≥ zoneSunday y 3 2 2 o ∧ t < zoneSunday y 11 1 1 o
  | .eu => t ≥ zoneSunday y 3 0 1 0 ∧ t < zoneSunday y 10 0 1 0
  | .au => t < zoneSunday y 4 1 2 o ∨ t ≥ zoneSunday y 10 1 2 o
  | .nz => t < zoneSunday y 4 1 2 o ∨ t ≥ zoneSunday y 9 0 2 o

def zoneOffsetAt (z : Zone) (t : Int) : Int := z.offset + if zoneInSummer z t then 60 else 0

/-! ## Readings -/

structure RtcTime where
  year : UInt32
  month : UInt8
  day : UInt8
  hour : UInt8
  minute : UInt8
  second : UInt8
  weekday : UInt8
  deriving DecidableEq

structure ZoneTime where
  atLocal : RtcTime
  atUtc : RtcTime
  utc : Int
  offset : Int
  summer : Bool

def zoneUtcOf (t : RtcTime) : Int :=
  zoneDaysFromCivil t.year.toNat t.month.toNat t.day.toNat * 86400 + t.hour.toNat * 3600 + t.minute.toNat * 60 + t.second.toNat

def civil (t : Int) : RtcTime :=
  let day := zoneDayOf t
  let rest := t - day * 86400
  let D := zoneCivilFromDays day
  ⟨UInt32.ofInt D.y, UInt8.ofInt D.m, UInt8.ofInt D.d, UInt8.ofInt (rest.tdiv 3600), UInt8.ofInt ((rest.tdiv 60).tmod 60),
    UInt8.ofInt (rest.tmod 60), UInt8.ofInt (zoneWeekday day)⟩

def zoneAt (z : Zone) (utc : Int) : ZoneTime :=
  let off := zoneOffsetAt z utc
  ⟨civil (utc + off * 60), civil utc, utc, off, off ≠ z.offset⟩

def zoneFromReading (z : Zone) (clock_local : Bool) (adjust : Int) (reading : RtcTime) : ZoneTime :=
  let r := zoneUtcOf reading
  let r :=
    if clock_local then
      let summer := r - (z.offset + 60) * 60
      if z.rule ≠ .none ∧ zoneOffsetAt z summer = z.offset + 60 then summer else r - z.offset * 60
    else r
  zoneAt z (r + adjust)

/-! ## A moment's date -/

theorem zoneDayOf_eq (t : Int) : zoneDayOf t = t / 86400 := by
  unfold zoneDayOf
  rcases Int.lt_or_le t 0 with h | h
  · obtain ⟨n, rfl⟩ : ∃ n : Int, t = -n := ⟨-t, by omega⟩
    rw [Int.neg_tmod, Int.neg_tdiv, Int.tmod_eq_emod_of_nonneg (by omega), Int.tdiv_eq_ediv_of_nonneg (by omega)]
    split <;> omega
  · rw [Int.tmod_eq_emod_of_nonneg h, Int.tdiv_eq_ediv_of_nonneg h]
    split <;> omega

theorem ofInt32_toNat (x : UInt32) : UInt32.ofInt x.toNat = x := by
  have := x.toNat_lt
  unfold UInt32.ofInt
  rw [Int.emod_eq_of_lt (by omega) (by omega), Int.toNat_natCast, UInt32.ofNat_toNat]

theorem ofInt8_toNat (x : UInt8) : UInt8.ofInt x.toNat = x := by
  have := x.toNat_lt
  unfold UInt8.ofInt
  rw [Int.emod_eq_of_lt (by omega) (by omega), Int.toNat_natCast, UInt8.ofNat_toNat]

structure RtcTime.Valid (t : RtcTime) : Prop where
  date : Date.Valid ⟨t.year.toNat, t.month.toNat, t.day.toNat⟩
  hour : t.hour.toNat < 24
  minute : t.minute.toNat < 60
  second : t.second.toNat < 60

/-- The chip's weekday goes unread: the one shown is the date's own. -/
def RtcTime.dated (t : RtcTime) : RtcTime :=
  { t with weekday := UInt8.ofInt (zoneWeekday (zoneDaysFromCivil t.year.toNat t.month.toNat t.day.toNat)) }

theorem civil_utc_of {t : RtcTime} (h : t.Valid) : civil (zoneUtcOf t) = t.dated := by
  have hhour := h.hour
  have hminute := h.minute
  have hsecond := h.second
  have hdate := civil_of_days h.date
  dsimp only at hdate
  have hday : zoneDayOf (zoneUtcOf t) = zoneDaysFromCivil t.year.toNat t.month.toNat t.day.toNat := by
    rw [zoneDayOf_eq]
    unfold zoneUtcOf
    omega
  have hrest : zoneUtcOf t - zoneDaysFromCivil t.year.toNat t.month.toNat t.day.toNat * 86400 =
      t.hour.toNat * 3600 + t.minute.toNat * 60 + t.second.toNat := by
    unfold zoneUtcOf
    omega
  unfold civil
  dsimp only
  rw [hday, hrest, hdate, Int.tdiv_eq_ediv_of_nonneg (by omega), Int.tdiv_eq_ediv_of_nonneg (by omega),
    Int.tmod_eq_emod_of_nonneg (by omega), Int.tmod_eq_emod_of_nonneg (by omega),
    show ((t.hour.toNat * 3600 + t.minute.toNat * 60 + t.second.toNat : Int)) / 3600 = t.hour.toNat by omega,
    show ((t.hour.toNat * 3600 + t.minute.toNat * 60 + t.second.toNat : Int)) / 60 % 60 = t.minute.toNat by omega,
    show ((t.hour.toNat * 3600 + t.minute.toNat * 60 + t.second.toNat : Int)) % 60 = t.second.toNat by omega]
  simp only [ofInt32_toNat, ofInt8_toNat]
  rfl

/-! ## The spring gap -/

/-- Summer time begins: the clocks go forward an hour. -/
def Zone.Forward (z : Zone) (s : Int) : Prop := zoneInSummer z (s - 1) = false ∧ zoneInSummer z s = true

/-- The readings the clocks pass over as they go forward. -/
def Zone.SpringGap (z : Zone) (r : Int) : Prop :=
  ∃ s, z.Forward s ∧ s + z.offset * 60 ≤ r ∧ r < s + z.offset * 60 + 3600

/-! ### The rules' Sundays -/

theorem le_lastBefore (len day : Int) (f : Nat) : day ≤ lastBefore len f day ∧ (lastBefore len f day = day ∨ lastBefore len f day < len) := by
  induction f generalizing day with
  | zero => exact ⟨le_refl day, .inl rfl⟩
  | succ f ih =>
    unfold lastBefore
    split
    · have := ih (day + 7)
      omega
    · exact ⟨le_refl day, .inl rfl⟩

def newYear (y : Int) : Int := zoneDaysFromCivil y 1 1 * 86400

theorem newYear_eq (y : Int) : newYear y = (365 * (y - 1) + (y - 1) / 4 - (y - 1) / 100 + (y - 1) / 400 - 719162) * 86400 := by
  unfold newYear
  rw [days_from_march y 1 (le_refl 1)]
  unfold daysBeforeMonth
  norm_num
  omega

theorem month_first {y m : Int} (hm : 3 ≤ m ∧ m ≤ 12) :
    zoneDaysFromCivil y m 1 = 365 * y + y / 4 - y / 100 + y / 400 + daysBeforeMonth (m - 3) - 719468 := by
  rw [days_from_march y 1 (by omega)]
  dsimp only
  rw [if_neg (by omega), if_pos (by omega)]
  omega

theorem sunday_bounds (y hour off : Int) {m nth : Int} (hm : 3 ≤ m ∧ m ≤ 11) (hnth : nth ≤ 2) :
    zoneDaysFromCivil y m 1 * 86400 + hour * 3600 - off * 60 ≤ zoneSunday y m nth hour off ∧
      zoneSunday y m nth hour off ≤ (zoneDaysFromCivil y m 1 + 30) * 86400 + hour * 3600 - off * 60 := by
  have hlen : zoneDaysFromCivil y (m + 1) 1 - zoneDaysFromCivil y m 1 ≤ 31 := by
    rw [month_first (by omega), month_first (by omega)]
    unfold daysBeforeMonth
    omega
  have hweek : 0 ≤ zoneWeekday (zoneDaysFromCivil y m 1) ∧ zoneWeekday (zoneDaysFromCivil y m 1) < 7 := by
    unfold zoneWeekday
    have hlo := Int.lt_tmod_of_pos (zoneDaysFromCivil y m 1 + 4) (show (0 : Int) < 7 by decide)
    have hhi := Int.tmod_lt_of_pos (zoneDaysFromCivil y m 1 + 4) (show (0 : Int) < 7 by decide)
    dsimp only
    split <;> omega
  unfold zoneSunday
  dsimp only
  rw [if_neg (show ¬ m = 12 by omega), if_neg (show ¬ m = 12 by omega)]
  generalize zoneDaysFromCivil y (m + 1) 1 = next at hlen ⊢
  generalize zoneWeekday (zoneDaysFromCivil y m 1) = w at hweek ⊢
  generalize zoneDaysFromCivil y m 1 = first at hlen ⊢
  rw [Int.tmod_eq_emod_of_nonneg (by omega)]
  split
  · omega
  · have := le_lastBefore (next - first) ((7 - w) % 7) (next - first).toNat
    omega

theorem sundays_in_year {m nth m' nth' hour off : Int} (hm : 3 ≤ m ∧ m + 2 ≤ m' ∧ m' ≤ 11) (hnth : nth ≤ 2 ∧ nth' ≤ 2)
    (hhour : 0 ≤ hour ∧ hour ≤ 2) {hour' : Int} (hhour' : hour' = hour ∨ hour' = 1) (hoff : -1440 ≤ off ∧ off ≤ 1440) (y : Int) :
    newYear y < zoneSunday y m nth hour off ∧ zoneSunday y m nth hour off < zoneSunday y m' nth' hour' off ∧
      zoneSunday y m' nth' hour' off < newYear (y + 1) := by
  have hfirst := sunday_bounds y hour off (show 3 ≤ m ∧ m ≤ 11 by omega) hnth.1
  have hsecond := sunday_bounds y hour' off (show 3 ≤ m' ∧ m' ≤ 11 by omega) hnth.2
  rw [month_first (by omega)] at hfirst hsecond
  rw [newYear_eq, newYear_eq]
  unfold daysBeforeMonth at hfirst hsecond
  omega

def yearAt (t : Int) : Int := (zoneCivilFromDays (zoneDayOf t)).y

theorem Date.Valid.in_year {D : Date} (h : D.Valid) :
    zoneDaysFromCivil D.y 1 1 ≤ zoneDaysFromCivil D.y D.m D.d ∧
      zoneDaysFromCivil D.y D.m D.d < zoneDaysFromCivil (D.y + 1) 1 1 := by
  obtain ⟨⟨hlo, hhi⟩, hday⟩ := h
  obtain ⟨y, m, d⟩ := D
  dsimp only at hlo hhi hday ⊢
  have h31 : monthLength y m ≤ 31 := by
    unfold monthLength
    split_ifs <;> omega
  rw [days_from_march _ _ hlo, days_from_march y 1 (le_refl 1), days_from_march (y + 1) 1 (le_refl 1)]
  unfold daysBeforeMonth
  dsimp only
  interval_cases m <;> norm_num <;> omega

theorem newYear_lt_iff {y y' : Int} : newYear y < newYear y' ↔ y < y' := by
  refine (strictMono_int_of_lt_succ fun y => ?_ : StrictMono newYear).lt_iff_lt
  rw [newYear_eq, newYear_eq]
  omega

theorem yearAt_iff (t y : Int) : yearAt t = y ↔ newYear y ≤ t ∧ t < newYear (y + 1) := by
  obtain ⟨hvalid, hdays⟩ := days_of_civil (zoneDayOf t)
  have hin := hvalid.in_year
  have hday := zoneDayOf_eq t
  rw [hdays] at hin
  have hyear : newYear (yearAt t) ≤ t ∧ t < newYear (yearAt t + 1) := by
    unfold newYear yearAt
    omega
  constructor
  · rintro rfl
    exact hyear
  · intro hy
    have hlo := newYear_lt_iff.mp (lt_of_le_of_lt hy.1 hyear.2)
    have hhi := newYear_lt_iff.mp (lt_of_le_of_lt hyear.1 hy.2)
    omega

section Halves

variable {A B : Int → Int} (hyear : ∀ y, newYear y < A y ∧ A y < B y ∧ B y < newYear (y + 1))

include hyear

theorem begins_within (s : Int) :
    (¬ (A (yearAt (s - 1)) ≤ s - 1 ∧ s - 1 < B (yearAt (s - 1))) ∧ A (yearAt s) ≤ s ∧ s < B (yearAt s)) ↔ ∃ y, s = A y := by
  constructor
  · rintro ⟨hbefore, hnow⟩
    have hy := (yearAt_iff s (yearAt s)).mp rfl
    have h := hyear (yearAt s)
    have hsame := (yearAt_iff (s - 1) (yearAt s)).mpr (by omega)
    rw [hsame] at hbefore
    exact ⟨yearAt s, by omega⟩
  · rintro ⟨y, hs⟩
    have h := hyear y
    rw [(yearAt_iff s y).mpr (by omega), (yearAt_iff (s - 1) y).mpr (by omega)]
    omega

theorem begins_over (s : Int) :
    (¬ (s - 1 < A (yearAt (s - 1)) ∨ s - 1 ≥ B (yearAt (s - 1))) ∧ (s < A (yearAt s) ∨ s ≥ B (yearAt s))) ↔ ∃ y, s = B y := by
  constructor
  · rintro ⟨hbefore, hnow⟩
    have hy := (yearAt_iff (s - 1) (yearAt (s - 1))).mp rfl
    have h := hyear (yearAt (s - 1))
    have hsame := (yearAt_iff s (yearAt (s - 1))).mpr (by omega)
    rw [hsame] at hnow
    exact ⟨yearAt (s - 1), by omega⟩
  · rintro ⟨y, hs⟩
    have h := hyear y
    rw [(yearAt_iff s y).mpr (by omega), (yearAt_iff (s - 1) y).mpr (by omega)]
    omega

end Halves

def Zone.spring (z : Zone) (y : Int) : Int :=
  match z.rule with
  | .none => 0
  | .us => zoneSunday y 3 2 2 z.offset
  | .eu => zoneSunday y 3 0 1 0
  | .au => zoneSunday y 10 1 2 z.offset
  | .nz => zoneSunday y 9 0 2 z.offset

theorem forward_iff (z : Zone) (hrule : z.rule ≠ .none) (hoff : -1440 ≤ z.offset ∧ z.offset ≤ 1440) (s : Int) :
    z.Forward s ↔ ∃ y, s = z.spring y := by
  unfold Zone.Forward zoneInSummer Zone.spring
  obtain ⟨o, rule⟩ := z
  dsimp only at hoff ⊢
  cases rule with
  | none => exact absurd rfl hrule
  | us =>
    rw [decide_eq_false_iff_not, decide_eq_true_iff]
    exact begins_within (sundays_in_year (by omega) (by omega) (by omega) (.inr rfl) hoff) s
  | eu =>
    rw [decide_eq_false_iff_not, decide_eq_true_iff]
    exact begins_within (sundays_in_year (by omega) (by omega) (by omega) (.inl rfl) (by omega)) s
  | au =>
    rw [decide_eq_false_iff_not, decide_eq_true_iff]
    exact begins_over (sundays_in_year (by omega) (by omega) (by omega) (.inl rfl) hoff) s
  | nz =>
    rw [decide_eq_false_iff_not, decide_eq_true_iff]
    exact begins_over (sundays_in_year (by omega) (by omega) (by omega) (.inl rfl) hoff) s

/-! ### Readings off the gap -/

theorem exists_forward (z : Zone) {a : Int} (n : Nat) (ha : zoneInSummer z a = false) (hn : zoneInSummer z (a + n) = true) :
    ∃ s, z.Forward s ∧ a < s ∧ s ≤ a + n := by
  induction n with
  | zero => simp [ha] at hn
  | succ n ih =>
    cases hsummer : zoneInSummer z (a + n) with
    | true =>
      obtain ⟨s, hs, hlo, hhi⟩ := ih hsummer
      exact ⟨s, hs, hlo, by omega⟩
    | false =>
      refine ⟨a + (n + 1 : Nat), ⟨?_, hn⟩, by omega, le_refl _⟩
      rw [← hsummer]
      congr 1
      omega

theorem zoneFromReading_utc (z : Zone) (reading : RtcTime) (hgap : ¬ z.SpringGap (zoneUtcOf reading)) :
    (zoneFromReading z true 0 reading).utc + (zoneFromReading z true 0 reading).offset * 60 = zoneUtcOf reading := by
  unfold zoneFromReading zoneAt
  simp only [if_true, Int.add_zero]
  generalize zoneUtcOf reading = r at hgap ⊢
  split
  · rename_i hsummer
    rw [hsummer.2]
    omega
  · rename_i hsummer
    have hwinter : zoneInSummer z (r - z.offset * 60) = false := by
      cases hin : zoneInSummer z (r - z.offset * 60) with
      | false => rfl
      | true =>
        have hrule : z.rule ≠ .none := by
          intro hrule
          simp [zoneInSummer, hrule] at hin
        have hbefore : zoneInSummer z (r - (z.offset + 60) * 60) = false := by
          rw [← Bool.not_eq_true]
          intro hbefore
          exact hsummer ⟨hrule, by simp [zoneOffsetAt, hbefore]⟩
        obtain ⟨s, hs, hlo, hhi⟩ := exists_forward z 3600 hbefore (by
          rw [← hin]
          congr 1
          omega)
        exact absurd ⟨s, hs, by omega, by omega⟩ hgap
    simp only [zoneOffsetAt, hwinter]
    simp

/-- Days and dates are each other's inverse, and a reading off a clock that keeps local time is shown as it was read. -/
theorem clock_consistent (z : Zone) {reading : RtcTime} (hvalid : reading.Valid) (hgap : ¬ z.SpringGap (zoneUtcOf reading)) :
    (∀ day, (zoneCivilFromDays day).Valid ∧
      zoneDaysFromCivil (zoneCivilFromDays day).y (zoneCivilFromDays day).m (zoneCivilFromDays day).d = day) ∧
    (∀ D : Date, D.Valid → zoneCivilFromDays (zoneDaysFromCivil D.y D.m D.d) = D) ∧
    (zoneFromReading z true 0 reading).atLocal = reading.dated := by
  refine ⟨days_of_civil, fun D => civil_of_days, ?_⟩
  rw [← civil_utc_of hvalid, ← zoneFromReading_utc z reading hgap]
  rfl

def sydney : Zone := ⟨600, .au⟩

/-- A Thursday noon in Sydney's summer, off a chip that does not say the weekday. -/
def noon : RtcTime := ⟨2026, 1, 15, 12, 34, 56, 0⟩

theorem noon_off_gap : ¬ sydney.SpringGap (zoneUtcOf noon) := by
  rintro ⟨s, hs, hlo, hhi⟩
  obtain ⟨y, rfl⟩ := (forward_iff sydney (by decide) (by decide) s).mp hs
  have hsunday := sunday_bounds y 2 600 (show (3 : Int) ≤ 10 ∧ (10 : Int) ≤ 11 by decide) (show (1 : Int) ≤ 2 by decide)
  rw [month_first (by decide)] at hsunday
  have hnoon : zoneUtcOf noon = 1768480496 := by decide
  change zoneSunday y 10 1 2 600 + 600 * 60 ≤ _ at hlo
  change _ < zoneSunday y 10 1 2 600 + 600 * 60 + 3600 at hhi
  unfold daysBeforeMonth at hsunday
  rcases Int.lt_or_le y 2026 with h | h <;> omega

theorem sydney_consistent :
    (∀ day, (zoneCivilFromDays day).Valid ∧
      zoneDaysFromCivil (zoneCivilFromDays day).y (zoneCivilFromDays day).m (zoneCivilFromDays day).d = day) ∧
    (∀ D : Date, D.Valid → zoneCivilFromDays (zoneDaysFromCivil D.y D.m D.d) = D) ∧
    (zoneFromReading sydney true 0 noon).atLocal = noon.dated :=
  clock_consistent sydney ⟨⟨by decide, by decide⟩, by decide, by decide, by decide⟩ noon_off_gap

end Zelr.Zones
