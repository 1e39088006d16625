import Mathlib.Tactic.IntervalCases

/-!
# Days and dates

The arithmetic of `zones.h` between days since 1970 and dates of the Gregorian calendar, before and after, over the integers.
C's division rounds towards nought, and so does `tdiv`.
-/

namespace Zelr.Zones

/-! ## The calendar -/

structure Date where
  y : Int
  m : Int
  d : Int
  deriving DecidableEq

def leap (y : Int) : Prop := y % 4 = 0 ∧ (y % 100 ≠ 0 ∨ y % 400 = 0)

instance (y : Int) : Decidable (leap y) := inferInstanceAs (Decidable (_ ∧ _))

def monthLength (y m : Int) : Int :=
  if m = 2 then if leap y then 29 else 28
  else if m = 4 ∨ m = 6 ∨ m = 9 ∨ m = 11 then 30
  else 31

structure Date.Valid (D : Date) : Prop where
  month : 1 ≤ D.m ∧ D.m ≤ 12
  day : 1 ≤ D.d ∧ D.d ≤ monthLength D.y D.m

def Date.tomorrow (D : Date) : Date :=
  if D.d < monthLength D.y D.m then { D with d := D.d + 1 }
  else if D.m < 12 then ⟨D.y, D.m + 1, 1⟩
  else ⟨D.y + 1, 1, 1⟩

/-! ## The code -/

def zoneDaysFromCivil (y m d : Int) : Int :=
  let y := if m ≤ 2 then y - 1 else y
  let era := (if y ≥ 0 then y else y - 399).tdiv 400
  let yoe := y - era * 400
  let mp := if m > 2 then m - 3 else m + 9
  let doy := (153 * mp + 2).tdiv 5 + d - 1
  let doe := yoe * 365 + yoe.tdiv 4 - yoe.tdiv 100 + doy
  era * 146097 + doe - 719468

def zoneCivilFromDays (z : Int) : Date :=
  let z := z + 719468
  let era := (if z ≥ 0 then z else z - 146096).tdiv 146097
  let doe := z - era * 146097
  let yoe := (doe - doe.tdiv 1460 + doe.tdiv 36524 - doe.tdiv 146096).tdiv 365
  let doy := doe - (365 * yoe + yoe.tdiv 4 - yoe.tdiv 100)
  let mp := (5 * doy + 2).tdiv 153
  let m := if mp < 10 then mp + 3 else mp - 9
  ⟨yoe + era * 400 + (if m ≤ 2 then 1 else 0), m, doy - (153 * mp + 2).tdiv 5 + 1⟩

/-! ## Years from March on -/

theorem era_eq (n : Int) : (if n ≥ 0 then n else n - 399).tdiv 400 = n / 400 := by
  split
  · exact Int.tdiv_eq_ediv_of_nonneg (by omega)
  · rw [← Int.neg_neg (n - 399), Int.neg_tdiv, Int.tdiv_eq_ediv_of_nonneg (by omega)]
    omega

theorem eraOfDay_eq (n : Int) : (if n ≥ 0 then n else n - 146096).tdiv 146097 = n / 146097 := by
  split
  · exact Int.tdiv_eq_ediv_of_nonneg (by omega)
  · rw [← Int.neg_neg (n - 146096), Int.neg_tdiv, Int.tdiv_eq_ediv_of_nonneg (by omega)]
    omega

/-- A year of an era by its century, its place among the fours of that, and its place in the four. -/
structure YearOf (c q r n : Int) : Prop where
  century : 0 ≤ c ∧ c ≤ 3
  four : 0 ≤ q ∧ q ≤ 24
  year : 0 ≤ r ∧ r ≤ 3
  eq : n = 100 * c + 4 * q + r

theorem exists_year {n : Int} (h : 0 ≤ n ∧ n < 400) : ∃ c q r, YearOf c q r n :=
  ⟨n / 100, n % 100 / 4, n % 4, ⟨by omega, by omega, by omega, by omega⟩⟩

theorem daysBefore_eq {c q r n : Int} (h : YearOf c q r n) :
    n * 365 + n.tdiv 4 - n.tdiv 100 = 36524 * c + 1461 * q + 365 * r := by
  obtain ⟨hc, hq, hr, rfl⟩ := h
  rw [Int.tdiv_eq_ediv_of_nonneg (by omega), Int.tdiv_eq_ediv_of_nonneg (by omega)]
  omega

/-- A day of an era by its year and its place in that, where only a leap year has a last one. -/
structure DayOf (c q r doy doe : Int) : Prop where
  century : 0 ≤ c ∧ c ≤ 3
  four : 0 ≤ q ∧ q ≤ 24
  year : 0 ≤ r ∧ r ≤ 3
  day : 0 ≤ doy ∧ doy ≤ 365
  last : doy = 365 → r = 3 ∧ (q < 24 ∨ c = 3)
  eq : doe = 36524 * c + 1461 * q + 365 * r + doy

theorem exists_day {doe : Int} (h : 0 ≤ doe ∧ doe < 146097) : ∃ c q r doy, DayOf c q r doy doe := by
  obtain ⟨c, s, hc, hs, hs', rfl⟩ : ∃ c s : Int, (0 ≤ c ∧ c ≤ 3) ∧ (0 ≤ s ∧ s ≤ 36524) ∧ (s = 36524 → c = 3) ∧ doe = 36524 * c + s := by
    by_cases hlast : doe = 146096
    · exact ⟨3, 36524, by omega, by omega, by omega, by omega⟩
    · exact ⟨doe / 36524, doe % 36524, by omega, by omega, by omega, by omega⟩
  obtain ⟨r, doy, hr, hdoy, hlast, hsplit⟩ : ∃ r doy : Int, (0 ≤ r ∧ r ≤ 3) ∧ (0 ≤ doy ∧ doy ≤ 365) ∧ (doy = 365 → r = 3) ∧
      s % 1461 = 365 * r + doy := by
    by_cases hlast : s % 1461 = 1460
    · exact ⟨3, 365, by omega, by omega, by omega, by omega⟩
    · exact ⟨s % 1461 / 365, s % 1461 % 365, by omega, by omega, by omega, by omega⟩
  exact ⟨c, s / 1461, r, doy, hc, by omega, hr, hdoy, fun h => by have := hlast h; omega, by omega⟩

theorem DayOf.bounds {c q r doy doe : Int} (h : DayOf c q r doy doe) : 0 ≤ doe ∧ doe < 146097 := by
  obtain ⟨hc, hq, hr, hd, hlast, rfl⟩ := h
  omega

theorem century_eq {c s : Int} (hc : 0 ≤ c ∧ c ≤ 3) (hs : 0 ≤ s ∧ s ≤ 36524) (hend : s = 36524 → c = 3) :
    (36524 * c + s) / 36524 - (36524 * c + s) / 146096 = c := by
  omega

theorem countedOut {c q r doy : Int} (hc : 0 ≤ c ∧ c ≤ 3) (hq : 0 ≤ q ∧ q ≤ 24) (hr : 0 ≤ r ∧ r ≤ 3)
    (hd : 0 ≤ doy ∧ doy ≤ 365) (hlast : doy = 365 → r = 3) :
    0 ≤ doy - (24 * c + q + 365 * r + doy) / 1460 ∧ doy - (24 * c + q + 365 * r + doy) / 1460 < 365 := by
  omega

theorem yearOfDay_eq {c q r doy doe : Int} (h : DayOf c q r doy doe) :
    (doe - doe.tdiv 1460 + doe.tdiv 36524 - doe.tdiv 146096).tdiv 365 = 100 * c + 4 * q + r := by
  have hdoe := h.bounds
  have hout := countedOut h.century h.four h.year h.day fun h365 => (h.last h365).1
  have hcentury : doe / 36524 - doe / 146096 = c := by
    rw [h.eq, Int.add_assoc, Int.add_assoc, ← Int.add_assoc (1461 * q)]
    obtain ⟨hc, hq, hr, hd, hlast, -⟩ := h
    exact century_eq hc (by omega) (by omega)
  have hfour : doe / 1460 = (24 * c + q + 365 * r + doy) / 1460 + (25 * c + q) := by
    rw [show doe = 24 * c + q + 365 * r + doy + 1460 * (25 * c + q) by have := h.eq; omega,
      Int.add_mul_ediv_left _ _ (by decide)]
  rw [Int.tdiv_eq_ediv_of_nonneg hdoe.1, Int.tdiv_eq_ediv_of_nonneg hdoe.1, Int.tdiv_eq_ediv_of_nonneg hdoe.1, hfour]
  have heq := h.eq
  clear hfour
  generalize (24 * c + q + 365 * r + doy) / 1460 = k at hout ⊢
  have hyear : doe - (k + (25 * c + q)) + doe / 36524 - doe / 146096 = doy - k + 365 * (100 * c + 4 * q + r) := by
    rw [Int.add_sub_assoc, hcentury]
    omega
  rw [hyear, Int.tdiv_eq_ediv_of_nonneg (by have := h.century; have := h.four; have := h.year; omega),
    Int.add_mul_ediv_left _ _ (by decide), Int.ediv_eq_zero_of_lt hout.1 hout.2, Int.zero_add]

theorem leap_iff {c q r n : Int} (h : YearOf c q r n) (e : Int) : leap (n + e * 400 + 1) ↔ r = 3 ∧ (q < 24 ∨ c = 3) := by
  obtain ⟨hc, hq, hr, rfl⟩ := h
  unfold leap
  omega

/-! ## Months from March on -/

def daysBeforeMonth (mp : Int) : Int := (153 * mp + 2) / 5

theorem month_iff {y mp m d : Int} (hmp : 0 ≤ mp ∧ mp ≤ 11) (hm : m = if mp < 10 then mp + 3 else mp - 9) :
    (1 ≤ d ∧ d ≤ monthLength y m) ↔
      1 ≤ d ∧ daysBeforeMonth mp + d ≤ daysBeforeMonth (mp + 1) ∧ (mp = 11 → d ≤ if leap y then 29 else 28) := by
  subst hm
  obtain ⟨hlo, hhi⟩ := hmp
  unfold monthLength daysBeforeMonth
  interval_cases mp <;> norm_num <;> omega

theorem monthOfDay_eq {mp d : Int} (hd : 1 ≤ d ∧ daysBeforeMonth mp + d ≤ daysBeforeMonth (mp + 1)) :
    (5 * (daysBeforeMonth mp + d - 1) + 2) / 153 = mp := by
  unfold daysBeforeMonth at *
  omega

theorem exists_month {doy : Int} (h : 0 ≤ doy ∧ doy ≤ 365) :
    ∃ mp d, (0 ≤ mp ∧ mp ≤ 11) ∧ (1 ≤ d ∧ daysBeforeMonth mp + d ≤ daysBeforeMonth (mp + 1)) ∧
      doy = daysBeforeMonth mp + d - 1 ∧ (mp = 11 → d = doy - 336) := by
  refine ⟨(5 * doy + 2) / 153, doy - daysBeforeMonth ((5 * doy + 2) / 153) + 1, by omega, ?_, by omega, ?_⟩
  all_goals
    unfold daysBeforeMonth
    omega

/-! ## One place on both sides -/

/-- A day by its era, its year in the era, its month from March on, and its day of the month. -/
structure Place where
  era : Int
  c : Int
  q : Int
  r : Int
  mp : Int
  d : Int

namespace Place

variable (P : Place)

def yoe : Int := 100 * P.c + 4 * P.q + P.r

def doy : Int := daysBeforeMonth P.mp + P.d - 1

def date : Date :=
  ⟨P.yoe + P.era * 400 + (if P.mp < 10 then 0 else 1), if P.mp < 10 then P.mp + 3 else P.mp - 9, P.d⟩

def days : Int := P.era * 146097 + (36524 * P.c + 1461 * P.q + 365 * P.r + P.doy) - 719468

structure Proper : Prop where
  year : YearOf P.c P.q P.r P.yoe
  month : 0 ≤ P.mp ∧ P.mp ≤ 11
  day : 1 ≤ P.d ∧ daysBeforeMonth P.mp + P.d ≤ daysBeforeMonth (P.mp + 1)
  last : P.mp = 11 → P.d ≤ if P.r = 3 ∧ (P.q < 24 ∨ P.c = 3) then 29 else 28

variable {P}

theorem date_valid_iff (hyear : YearOf P.c P.q P.r P.yoe) (hmonth : 0 ≤ P.mp ∧ P.mp ≤ 11) : P.date.Valid ↔ P.Proper := by
  have hdays := month_iff (y := P.date.y) (d := P.d) hmonth rfl
  have hlast : P.mp = 11 → (leap P.date.y ↔ P.r = 3 ∧ (P.q < 24 ∨ P.c = 3)) := fun h11 => by
    rw [← leap_iff hyear P.era]
    simp [date, h11]
  constructor
  · intro h
    obtain ⟨hlo, hhi, h11⟩ := hdays.mp h.day
    refine ⟨hyear, hmonth, ⟨hlo, hhi⟩, fun heq => ?_⟩
    simpa only [hlast heq] using h11 heq
  · intro h
    refine ⟨?_, hdays.mpr ⟨h.day.1, h.day.2, fun heq => ?_⟩⟩
    · unfold date
      dsimp only
      split <;> omega
    · simpa only [hlast heq] using h.last heq

theorem Proper.dayOf (h : P.Proper) : DayOf P.c P.q P.r P.doy (36524 * P.c + 1461 * P.q + 365 * P.r + P.doy) := by
  obtain ⟨⟨hc, hq, hr, -⟩, hmonth, hday, hlast⟩ := h
  refine ⟨hc, hq, hr, ?_, ?_, rfl⟩
  · unfold doy daysBeforeMonth at *
    omega
  · intro h365
    unfold doy daysBeforeMonth at *
    have h11 : P.mp = 11 := by omega
    have h29 := hlast h11
    split_ifs at h29
    · assumption
    · rw [h11] at h365
      omega

theorem Proper.days_eq (h : P.Proper) : zoneDaysFromCivil P.date.y P.date.m P.date.d = P.days := by
  have hbefore := daysBefore_eq h.year
  obtain ⟨hyear, hmonth, hday, -⟩ := h
  have hyoe : 0 ≤ P.yoe ∧ P.yoe < 400 := by
    obtain ⟨hc, hq, hr, heq⟩ := hyear
    omega
  have hmarch : (if P.date.m ≤ 2 then P.date.y - 1 else P.date.y) = P.yoe + P.era * 400 := by
    unfold date
    dsimp only
    split_ifs <;> omega
  have hmp : (if P.date.m > 2 then P.date.m - 3 else P.date.m + 9) = P.mp := by
    unfold date
    dsimp only
    split_ifs <;> omega
  have hera : (P.yoe + P.era * 400) / 400 = P.era := by omega
  unfold zoneDaysFromCivil
  dsimp only
  rw [hmarch, hmp, era_eq, hera, Int.add_sub_cancel, hbefore, Int.tdiv_eq_ediv_of_nonneg (by omega)]
  rfl

theorem Proper.civil_eq (h : P.Proper) : zoneCivilFromDays P.days = P.date := by
  have hplace := h.dayOf
  have hbounds := hplace.bounds
  have hyoe := yearOfDay_eq hplace
  have hbefore := daysBefore_eq h.year
  have hmp := monthOfDay_eq h.day
  have hdoy := hplace.day
  have hmonth := h.month
  generalize hdoe : 36524 * P.c + 1461 * P.q + 365 * P.r + P.doy = doe at hbounds hyoe
  have hera : (P.days + 719468) / 146097 = P.era := by
    unfold days
    omega
  have hin : P.days + 719468 - P.era * 146097 = doe := by
    unfold days
    omega
  have hbefore' : 365 * P.yoe + P.yoe.tdiv 4 - P.yoe.tdiv 100 = doe - P.doy := by
    rw [Int.mul_comm, hbefore]
    omega
  have hmp' : (5 * P.doy + 2).tdiv 153 = P.mp := by
    rw [Int.tdiv_eq_ediv_of_nonneg (by omega)]
    exact hmp
  unfold zoneCivilFromDays
  dsimp only
  rw [eraOfDay_eq, hera, hin, hyoe, show 100 * P.c + 4 * P.q + P.r = P.yoe from rfl, hbefore', Int.sub_sub_self, hmp',
    Int.tdiv_eq_ediv_of_nonneg (by omega)]
  have hd : P.doy - (153 * P.mp + 2) / 5 + 1 = P.d := by
    unfold doy daysBeforeMonth
    omega
  unfold date
  rw [hd]
  congr 2
  split_ifs <;> omega

end Place

theorem exists_place_of_date {D : Date} (h : D.Valid) : ∃ P : Place, P.Proper ∧ P.date = D := by
  obtain ⟨n, hn⟩ : ∃ n, n = if D.m ≤ 2 then D.y - 1 else D.y := ⟨_, rfl⟩
  obtain ⟨c, q, r, hyear⟩ := exists_year (n := n % 400) (by omega)
  obtain ⟨P, hP⟩ : ∃ P : Place, P = ⟨n / 400, c, q, r, if D.m > 2 then D.m - 3 else D.m + 9, D.d⟩ := ⟨_, rfl⟩
  have hyoe : P.yoe = n % 400 := by
    rw [hP]
    exact hyear.eq.symm
  have hmonth := h.month
  have hmp : 0 ≤ P.mp ∧ P.mp ≤ 11 := by
    rw [hP]
    dsimp only
    split_ifs <;> omega
  have hdate : P.date = D := by
    unfold Place.date
    rw [hyoe, hP]
    rcases D with ⟨y, m, d⟩
    dsimp only at hn hmonth ⊢
    congr 1 <;> split_ifs at hn ⊢ <;> omega
  refine ⟨P, (Place.date_valid_iff ?_ hmp).mp (hdate ▸ h), hdate⟩
  rw [hyoe, hP]
  exact hyear

theorem exists_place_of_day (z : Int) : ∃ P : Place, P.Proper ∧ P.days = z := by
  obtain ⟨c, q, r, doy, hday⟩ := exists_day (show 0 ≤ (z + 719468) % 146097 ∧ (z + 719468) % 146097 < 146097 by omega)
  obtain ⟨mp, d, hmp, hd, rfl, h11⟩ := exists_month hday.day
  refine ⟨⟨(z + 719468) / 146097, c, q, r, mp, d⟩, ⟨⟨hday.century, hday.four, hday.year, rfl⟩, hmp, hd, fun heq => ?_⟩, ?_⟩
  · have hlast := hday.last
    have hday' := hday.day
    dsimp only at heq ⊢
    rw [h11 heq] at hlast hday' ⊢
    split_ifs <;> omega
  · have := hday.eq
    unfold Place.days Place.doy
    dsimp only
    omega

theorem days_of_civil (z : Int) :
    (zoneCivilFromDays z).Valid ∧
      zoneDaysFromCivil (zoneCivilFromDays z).y (zoneCivilFromDays z).m (zoneCivilFromDays z).d = z := by
  obtain ⟨P, hP, rfl⟩ := exists_place_of_day z
  rw [hP.civil_eq, hP.days_eq]
  exact ⟨(Place.date_valid_iff hP.year hP.month).mpr hP, rfl⟩

theorem civil_of_days {D : Date} (h : D.Valid) : zoneCivilFromDays (zoneDaysFromCivil D.y D.m D.d) = D := by
  obtain ⟨P, hP, rfl⟩ := exists_place_of_date h
  rw [hP.days_eq, hP.civil_eq]

/-! ## Day after day -/

theorem days_from_march (y d : Int) {m : Int} (hm : 1 ≤ m) :
    zoneDaysFromCivil y m d =
      let n := if m ≤ 2 then y - 1 else y
      365 * n + n / 4 - n / 100 + n / 400 + daysBeforeMonth (if m > 2 then m - 3 else m + 9) + d - 719469 := by
  have hmp : 0 ≤ if m > 2 then m - 3 else m + 9 := by
    split <;> omega
  unfold zoneDaysFromCivil daysBeforeMonth
  dsimp only
  generalize (if m > 2 then m - 3 else m + 9) = mp at hmp ⊢
  generalize (if m ≤ 2 then y - 1 else y) = n
  rw [era_eq, Int.tdiv_eq_ediv_of_nonneg (by omega), Int.tdiv_eq_ediv_of_nonneg (by omega),
    Int.tdiv_eq_ediv_of_nonneg (by omega)]
  omega

theorem monthLength_pos (y m : Int) : 1 ≤ monthLength y m := by
  unfold monthLength
  split_ifs <;> omega

theorem days_tomorrow {D : Date} (h : D.Valid) :
    D.tomorrow.Valid ∧
      zoneDaysFromCivil D.tomorrow.y D.tomorrow.m D.tomorrow.d = zoneDaysFromCivil D.y D.m D.d + 1 := by
  obtain ⟨⟨hlo, hhi⟩, hday⟩ := h
  obtain ⟨y, m, d⟩ := D
  dsimp only at hlo hhi hday
  unfold Date.tomorrow
  dsimp only
  split
  · rename_i hlt
    refine ⟨⟨⟨hlo, hhi⟩, by dsimp only; omega⟩, ?_⟩
    rw [days_from_march _ _ hlo, days_from_march _ _ hlo]
    dsimp only
    omega
  · rename_i hend
    obtain rfl : d = monthLength y m := by omega
    split
    · refine ⟨⟨by dsimp only; omega, le_refl 1, monthLength_pos _ _⟩, ?_⟩
      rw [days_from_march _ _ (by dsimp only; omega), days_from_march _ _ hlo]
      unfold monthLength leap daysBeforeMonth
      dsimp only
      interval_cases m <;> norm_num <;> omega
    · obtain rfl : m = 12 := by omega
      refine ⟨⟨by dsimp only; omega, le_refl 1, monthLength_pos _ _⟩, ?_⟩
      rw [days_from_march _ _ (le_refl 1), days_from_march _ _ (by omega)]
      unfold monthLength daysBeforeMonth
      norm_num
      omega

/-- A leap day. -/
theorem days_tomorrow_leap : zoneDaysFromCivil 2000 3 1 = zoneDaysFromCivil 2000 2 29 + 1 :=
  (days_tomorrow (D := ⟨2000, 2, 29⟩) ⟨by decide, by decide⟩).2

/-- The epoch. -/
example : zoneDaysFromCivil 1970 1 1 = 0 := by decide

end Zelr.Zones
