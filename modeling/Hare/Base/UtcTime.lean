import Hare.Base.JulianDay

/-!
# Seconds since the epoch and UTC

`BreakTime` splits a number of seconds into a date and a time of day, and `FromUtcTime` puts
them together again.  The first is exact for all day numbers `GetYMD` can handle.  The second
multiplies the days by the seconds of a day in `int`, so its result is the number of seconds
only up to multiples of `2 ^ 32`.
-/

namespace Hare.Time

open Checked Gregorian

/-- The first of January 1970. -/
def epoch : Date := .newYear 1970

/-- The date of a number of seconds since the epoch. -/
def IsDateOf (t : ℤ) (D : Date) : Prop := D.dayNumber = epoch.dayNumber + t / 86400

theorem dayNumber_epoch : epoch.dayNumber = 2440588 := by decide

theorem julianDayNumber_epoch : julianDayNumber 1970 1 1 = 2440588 := by decide

/-! ## `BreakTime` -/

/-- Division that rounds towards zero, corrected for negative remainders. -/
theorem tdiv_tmod_cases (t : ℤ) :
    (t.tmod 86400 = t % 86400 ∧ t.tdiv 86400 = t / 86400) ∨
      (t.tmod 86400 = t % 86400 - 86400 ∧ t.tdiv 86400 = t / 86400 + 1) := by
  rw [Int.tmod_eq_emod, Int.tdiv_eq_ediv]
  split
  · exact Or.inl ⟨Int.sub_zero _, Int.add_zero _⟩
  · exact Or.inr ⟨rfl, rfl⟩

/-- The seconds and the days `BreakTime` works with. -/
theorem breakTime_split (t : ℤ) :
    (if Int32.ofInt (t.tmod secondsPerDay) < 0 then
      (Int32.ofInt (t.tmod secondsPerDay) + Int32.ofInt secondsPerDay,
        Int32.ofInt (t.tdiv secondsPerDay) - 1)
    else (Int32.ofInt (t.tmod secondsPerDay), Int32.ofInt (t.tdiv secondsPerDay))) =
      (Int32.ofInt (t % 86400), Int32.ofInt (t / 86400)) := by
  have hday : secondsPerDay = 86400 := rfl
  have hlo := Int.emod_nonneg t (show (86400 : ℤ) ≠ 0 by decide)
  have hhi := Int.emod_lt_of_pos t (show (0 : ℤ) < 86400 by decide)
  rw [hday]
  rcases tdiv_tmod_cases t with ⟨hmod, hdiv⟩ | ⟨hmod, hdiv⟩
  · rw [hmod, hdiv, if_neg]
    rw [Int32.lt_iff_toInt_lt, Int32.toInt_ofInt_of_le (by omega) (by omega)]
    exact Int.not_lt.mpr hlo
  · have hone : (1 : Int32) = Int32.ofInt 1 := rfl
    rw [hmod, hdiv, if_pos, ← Int32.ofInt_add, Int.sub_add_cancel, hone, ← Int32.ofInt_sub,
      Int.add_sub_cancel]
    rw [Int32.lt_iff_toInt_lt, Int32.toInt_ofInt_of_le (by omega) (by omega)]
    change t % 86400 - 86400 < 0
    omega

/-- What `BreakTime` computes from the seconds of the day and the number of days. -/
theorem breakTime_eq (t : ℤ) : breakTime t =
    let seconds := Int32.ofInt (t % 86400)
    let date := getYMD (Int32.ofInt (t / 86400) + julianDayNumber 1970 1 1)
    { year := date.1, month := date.2.1, day := date.2.2
      hour := seconds / 60 / 60
      minute := seconds / 60 - seconds / 60 / 60 * 60
      second := seconds - seconds / 60 * 60 } := by
  simp only [breakTime, breakTime_split]

/-- **`BreakTime` is exact**, for the dates `GetYMD` can handle. -/
theorem breakTime_spec {t : ℤ} {D : Date} (hD : IsDateOf t D) (hr : DayRange D.dayNumber) :
    Denotes ((breakTime t).year, (breakTime t).month, (breakTime t).day) D ∧
      (breakTime t).hour.toInt = t % 86400 / 3600 ∧
      (breakTime t).minute.toInt = t % 86400 / 60 % 60 ∧
      (breakTime t).second.toInt = t % 86400 % 60 := by
  rw [IsDateOf, dayNumber_epoch] at hD
  have hlo := Int.emod_nonneg t (show (86400 : ℤ) ≠ 0 by decide)
  have hhi := Int.emod_lt_of_pos t (show (0 : ℤ) < 86400 by decide)
  have hnum : (Int32.ofInt (t / 86400) + julianDayNumber 1970 1 1).toInt = D.dayNumber := by
    have hlit : (2440588 : Int32) = Int32.ofInt 2440588 := by decide
    obtain ⟨h₁, h₂⟩ := hr
    rw [julianDayNumber_epoch, hlit, ← Int32.ofInt_add,
      Int32.toInt_ofInt_of_le (by omega) (by omega), hD, Int.add_comm]
  have hsec : Tracks (value (Int32.ofInt (t % 86400))) (Int32.ofInt (t % 86400)) (t % 86400) :=
    ⟨rfl, Int32.toInt_ofInt_of_le (by omega) (by omega)⟩
  have hmin := hsec.div (.ofNat 60 (by decide)) hlo (by decide)
  have hhour := hmin.div (.ofNat 60 (by decide)) (by omega) (by decide)
  have hminute := hmin.sub (hhour.mul (.ofNat 60 (by decide)) ⟨by omega, by omega⟩)
    ⟨by omega, by omega⟩
  have hsecond := hsec.sub (hmin.mul (.ofNat 60 (by decide)) ⟨by omega, by omega⟩)
    ⟨by omega, by omega⟩
  obtain ⟨D', hnum', hden, -⟩ := getYMD_spec (hnum.symm ▸ hr)
  have hDD : D' = D := Date.dayNumber_injective (hnum'.trans hnum)
  rw [breakTime_eq]
  refine ⟨hDD ▸ hden, hhour.exact.trans ?_, hminute.exact.trans ?_, hsecond.exact.trans ?_⟩ <;>
    omega

/-- The day number `BreakTime` passes to `GetYMD`. -/
def dayNumberOf (t : ℤ) : ℤ := t / 86400 + (julianDayNumber 1970 1 1).toInt

theorem dayNumberOf_eq (t : ℤ) : dayNumberOf t = t / 86400 + 2440588 := by
  rw [dayNumberOf, julianDayNumber_epoch]
  rfl

/-- The date of an instant whose day number is in range. -/
theorem exists_isDateOf {t : ℤ} (hlo : -32044 ≤ dayNumberOf t)
    (hr : NoOverflow (dayNumberOf t)) : ∃ D, IsDateOf t D ∧ DayRange D.dayNumber := by
  obtain ⟨D, hnum, -⟩ := exists_date hlo
  refine ⟨D, ?_, hnum.symm ▸ (noOverflow_iff hlo).mp hr⟩
  rw [IsDateOf, dayNumber_epoch, hnum, dayNumberOf_eq, Int.add_comm]

/-- The fields of a date and time, the weightiest first. -/
def DateTime.fields (dt : DateTime) : List ℤ :=
  [dt.year.toInt, dt.month.toInt, dt.day.toInt, dt.hour.toInt, dt.minute.toInt, dt.second.toInt]

/-- Later instants have later fields. -/
theorem fields_breakTime_lt {t t' : ℤ} {D D' : Date} (hD : IsDateOf t D) (hD' : IsDateOf t' D')
    (hr : DayRange D.dayNumber) (hr' : DayRange D'.dayNumber) (hlt : t < t') :
    (breakTime t).fields < (breakTime t').fields := by
  obtain ⟨⟨hyear, hmonth, hday⟩, hhour, hminute, hsecond⟩ := breakTime_spec hD hr
  obtain ⟨⟨hyear', hmonth', hday'⟩, hhour', hminute', hsecond'⟩ := breakTime_spec hD' hr'
  dsimp only at hyear hmonth hday hyear' hmonth' hday'
  rw [IsDateOf] at hD hD'
  simp only [DateTime.fields, List.cons_lt_cons_iff, hyear, hmonth, hday, hyear', hmonth', hday',
    hhour, hminute, hsecond, hhour', hminute', hsecond']
  rcases lt_or_ge (t / 86400) (t' / 86400) with hdays | hdays
  · -- on another day the date decides
    rcases Date.before_of_dayNumber_lt (show D.dayNumber < D'.dayNumber by omega) with
      h | ⟨hy, h | ⟨hm, h⟩⟩
    · exact .inl h
    · exact .inr ⟨hy, .inl (by exact_mod_cast h)⟩
    · exact .inr ⟨hy, .inr ⟨by exact_mod_cast hm, .inl (by exact_mod_cast h)⟩⟩
  · -- on the same day the time of day does
    have hDD : D = D' := Date.dayNumber_injective (by omega)
    refine .inr ⟨by rw [hDD], .inr ⟨by rw [hDD], .inr ⟨by rw [hDD], ?_⟩⟩⟩
    omega

/-- **`BreakTime` splits an instant exactly**, from the first day number of the formula on: into
a time of day, a date of the calendar, and what adds up to the instant again.  Later instants
have later fields. -/
theorem breakTime_exact {t : ℤ} (hlo : -32044 ≤ dayNumberOf t)
    (hr : NoOverflow (dayNumberOf t)) :
    let dt := breakTime t
    (0 ≤ dt.hour.toInt ∧ dt.hour.toInt < 24) ∧ (0 ≤ dt.minute.toInt ∧ dt.minute.toInt < 60) ∧
      (0 ≤ dt.second.toInt ∧ dt.second.toInt < 60) ∧
      (∃ D : Date, Denotes (dt.year, dt.month, dt.day) D) ∧
      ((julianDayNumber dt.year dt.month dt.day).toInt - (julianDayNumber 1970 1 1).toInt) * 86400 +
        dt.hour.toInt * 3600 + dt.minute.toInt * 60 + dt.second.toInt = t ∧
      ∀ t', -32044 ≤ dayNumberOf t' → NoOverflow (dayNumberOf t') → t < t' →
        dt.fields < (breakTime t').fields := by
  intro dt
  obtain ⟨D, hD, hrange⟩ := exists_isDateOf hlo hr
  obtain ⟨hden, hhour, hminute, hsecond⟩ := breakTime_spec hD hrange
  have hnum := (tracks_date hden hrange).exact
  have hepoch : (2440588 : Int32).toInt = 2440588 := by decide
  have hdate := hD
  rw [IsDateOf, dayNumber_epoch] at hdate
  refine ⟨?_, ?_, ?_, ⟨D, hden⟩, ?_, ?_⟩
  · rw [hhour]
    omega
  · rw [hminute]
    omega
  · rw [hsecond]
    omega
  · rw [hnum, hhour, hminute, hsecond, julianDayNumber_epoch, hepoch, hdate]
    omega
  · intro t' hlo' hr' hlt
    obtain ⟨D', hD', hrange'⟩ := exists_isDateOf hlo' hr'
    exact fields_breakTime_lt hD hD' hrange hrange' hlt

/-- The last second before the epoch. -/
theorem breakTime_exact_1969 : breakTime (-1) = ⟨1969, 12, 31, 23, 59, 59⟩ ∧
    (breakTime (-1)).fields < (breakTime 0).fields := by
  have hlo : ∀ t : ℤ, -1 ≤ t → t ≤ 0 → -32044 ≤ dayNumberOf t := fun t _ _ => by
    rw [dayNumberOf_eq]
    omega
  have hr : NoOverflow (dayNumberOf (-1)) := ⟨1969, 12, 31, by decide⟩
  have hr' : NoOverflow (dayNumberOf 0) := ⟨1970, 1, 1, by decide⟩
  obtain ⟨-, -, -, -, -, hlt⟩ := breakTime_exact (hlo (-1) (by decide) (by decide)) hr
  exact ⟨by decide, hlt 0 (hlo 0 (by decide) (by decide)) hr' (by decide)⟩

/-- The midnight before the first day of the formula: nothing overflows, but the divisions of
`GetYMD` round towards zero, and the day of the month is zero. -/
theorem breakTime_before_first_day :
    dayNumberOf (-213635491200) = -32045 ∧ NoOverflow (dayNumberOf (-213635491200)) ∧
      breakTime (-213635491200) = ⟨-4800, 3, 0, 0, 0, 0⟩ ∧
      ¬ ∃ D : Date, Denotes (-4800, 3, 0) D := by
  refine ⟨by decide, ⟨-4800, 3, 0, by decide⟩, by decide, ?_⟩
  rintro ⟨D, -, -, hday⟩
  have hpos := D.one_le_day
  have hzero : (0 : Int32).toInt = 0 := rfl
  dsimp only at hday
  omega

/-! ## The round trip -/

/-- **The way back is taken modulo `2 ^ 32`.** -/
theorem fromUtcTime_breakTime {t : ℤ} {D : Date} (hD : IsDateOf t D)
    (hr : DayRange D.dayNumber) :
    Timezone.fromUtcTime (Timezone.toUtcTime t) = t.bmod (2 ^ 32) := by
  obtain ⟨hden, hhour, hminute, hsecond⟩ := breakTime_spec hD hr
  have hnum := (tracks_date hden hr).exact
  rw [IsDateOf, dayNumber_epoch] at hD
  have hepoch : (2440588 : Int32).toInt = 2440588 := by decide
  have hday : (Int32.ofInt secondsPerDay).toInt = 86400 := by decide
  have hh : ((60 : Int32) * 60).toInt = 3600 := by decide
  have hm : (60 : Int32).toInt = 60 := by decide
  rw [Timezone.fromUtcTime, Timezone.toUtcTime, julianDayNumber_epoch]
  simp only [Int32.toInt_add, Int32.toInt_mul, Int32.toInt_sub, hnum, hepoch, hday, hh, hm, hhour,
    hminute, hsecond, hD]
  simp only [Int.add_bmod_bmod, Int.bmod_add_bmod, Int.bmod_mul_bmod]
  congr 1
  omega

theorem dayRange_of_year {D : Date} (hlo : 1900 ≤ D.year) (hhi : D.year ≤ 2500) :
    DayRange D.dayNumber := by
  have hstart : daysBeforeYear 1900 = 693595 := by decide
  have hend : daysBeforeYear 2501 = 913106 := by decide
  have h₁ := daysBeforeYear_mono hlo
  have h₂ : daysBeforeYear (D.year + 1) ≤ daysBeforeYear 2501 :=
    daysBeforeYear_mono (Int.add_le_add_right hhi 1)
  have h₃ := D.lt_dayNumber
  have h₄ := D.dayNumber_le
  constructor <;> omega

/-- **When the round trip leads back**: for an instant of the years 1900 to 2500, exactly when
it fits into 32 bits. -/
theorem fromUtcTime_toUtcTime_iff (t : ℤ)
    (h : ∃ D : Date, IsDateOf t D ∧ 1900 ≤ D.year ∧ D.year ≤ 2500) :
    Timezone.fromUtcTime (Timezone.toUtcTime t) = t ↔ -2 ^ 31 ≤ t ∧ t < 2 ^ 31 := by
  obtain ⟨D, hD, hlo, hhi⟩ := h
  rw [fromUtcTime_breakTime hD (dayRange_of_year hlo hhi)]
  constructor
  · intro heq
    have h₁ := Int.le_bmod (x := t) (m := 2 ^ 32) (by decide)
    have h₂ := Int.bmod_lt (x := t) (m := 2 ^ 32) (by decide)
    omega
  · exact bmod_eq_of_inRange

/-- The epoch. -/
theorem fromUtcTime_toUtcTime_epoch : IsDateOf 0 epoch ∧
    Timezone.fromUtcTime (Timezone.toUtcTime 0) = 0 := by
  have hepoch : IsDateOf 0 epoch := by
    rw [IsDateOf]
    decide
  exact ⟨hepoch, (fromUtcTime_toUtcTime_iff 0 ⟨epoch, hepoch, by decide, by decide⟩).mpr
    (by decide)⟩

/-- The nineteenth of January 2038 at 03:14:08, the first instant behind the range of `int`. -/
theorem fromUtcTime_2038 : (∃ D : Date, IsDateOf (2 ^ 31) D ∧ D.year = 2038) ∧
    Timezone.toUtcTime (2 ^ 31) = ⟨2038, 1, 19, 3, 14, 8⟩ ∧
    Timezone.fromUtcTime (Timezone.toUtcTime (2 ^ 31)) = -2 ^ 31 := by
  refine ⟨⟨⟨2038, 1, 19, by decide, by decide, by decide, by decide⟩, ?_, rfl⟩, ?_, ?_⟩
  · rw [IsDateOf]
    decide
  · decide
  · decide

end Hare.Time
