import Mathlib.Algebra.BigOperators.Intervals
import Mathlib.Algebra.Order.BigOperators.Group.Finset
import Mathlib.Data.Int.SuccPred
import Mathlib.Tactic.IntervalCases

/-!
# The proleptic Gregorian calendar

The dates of the calendar, extended to all years before its introduction, and their number in
the count of Julian days.  A `Date` carries the proof that its month and day exist.
-/

namespace Gregorian

/-- Every fourth year, but of the centuries only every fourth. -/
def IsLeap (year : ℤ) : Prop := 4 ∣ year ∧ (¬ 100 ∣ year ∨ 400 ∣ year)

instance : DecidablePred IsLeap := fun year =>
  inferInstanceAs (Decidable (4 ∣ year ∧ (¬ 100 ∣ year ∨ 400 ∣ year)))

/-- The length of a month. -/
def daysInMonth (year : ℤ) : ℕ → ℕ
  | 2 => if IsLeap year then 29 else 28
  | 4 | 6 | 9 | 11 => 30
  | _ => 31

theorem daysInMonth_pos (year : ℤ) (month : ℕ) : 0 < daysInMonth year month := by
  unfold daysInMonth
  split
  · split <;> decide
  all_goals decide

/-- A date of the calendar. -/
structure Date where
  year : ℤ
  month : ℕ
  day : ℕ
  one_le_month : 1 ≤ month
  month_le : month ≤ 12
  one_le_day : 1 ≤ day
  day_le : day ≤ daysInMonth year month
  deriving DecidableEq

/-! ## Counting days -/

/-- The days from the beginning of the year 1 to the beginning of a year. -/
def daysBeforeYear (year : ℤ) : ℤ :=
  365 * (year - 1) + (year - 1) / 4 - (year - 1) / 100 + (year - 1) / 400

/-- The days of a year before a month. -/
def daysBeforeMonth (year : ℤ) (month : ℕ) : ℕ :=
  ∑ k ∈ Finset.Ico 1 month, daysInMonth year k

theorem daysBeforeMonth_succ (year : ℤ) {month : ℕ} (h : 1 ≤ month) :
    daysBeforeMonth year (month + 1) = daysBeforeMonth year month + daysInMonth year month :=
  Finset.sum_Ico_succ_top h _

theorem daysBeforeMonth_mono (year : ℤ) : Monotone (daysBeforeMonth year) := fun _ _ h =>
  Finset.sum_le_sum_of_subset (Finset.Ico_subset_Ico_right h)

/-- The days before each month of a year. -/
theorem daysBeforeMonth_eq (year : ℤ) {month : ℕ} (h₁ : 1 ≤ month) (h₂ : month ≤ 13) :
    daysBeforeMonth year month =
      [0, 0, 31, 59, 90, 120, 151, 181, 212, 243, 273, 304, 334, 365].getD month 0 +
        if 3 ≤ month ∧ IsLeap year then 1 else 0 := by
  induction month, h₁ using Nat.le_induction with
  | base => rfl
  | succ month h₁ ih =>
      have hle : month ≤ 12 := Nat.le_of_succ_le_succ h₂
      rw [daysBeforeMonth_succ year h₁, ih (Nat.le_of_succ_le h₂)]
      by_cases hl : IsLeap year <;> simp only [hl] <;> interval_cases month <;>
        simp only [daysInMonth, hl] <;> rfl

theorem daysBeforeYear_succ (year : ℤ) :
    daysBeforeYear (year + 1) = daysBeforeYear year + daysBeforeMonth year 13 := by
  by_cases hl : IsLeap year
  · have hlen : daysBeforeMonth year 13 = 366 := by simp [daysBeforeMonth_eq, hl]
    rw [IsLeap] at hl
    rw [hlen, daysBeforeYear, daysBeforeYear]
    omega
  · have hlen : daysBeforeMonth year 13 = 365 := by simp [daysBeforeMonth_eq, hl]
    rw [IsLeap] at hl
    rw [hlen, daysBeforeYear, daysBeforeYear]
    omega

theorem daysBeforeYear_mono {year year' : ℤ} (hle : year ≤ year') :
    daysBeforeYear year ≤ daysBeforeYear year' := by
  have hmono : Monotone daysBeforeYear := monotone_int_of_le_succ fun year => by
    rw [daysBeforeYear_succ]
    omega
  exact hmono hle

namespace Date

/-- The Julian day number; the first day of the year 1 has the number 1721426. -/
def dayNumber (d : Date) : ℤ :=
  daysBeforeYear d.year + daysBeforeMonth d.year d.month + d.day + 1721425

/-- The first day of a year. -/
def newYear (year : ℤ) : Date := ⟨year, 1, 1, le_rfl, by decide, le_rfl, daysInMonth_pos _ _⟩

/-- The day after. -/
def next (d : Date) : Date :=
  if h : d.day < daysInMonth d.year d.month then
    { d with day := d.day + 1, one_le_day := Nat.le_add_left 1 _, day_le := h }
  else if h : d.month < 12 then
    ⟨d.year, d.month + 1, 1, Nat.le_add_left 1 _, h, le_rfl, daysInMonth_pos _ _⟩
  else
    newYear (d.year + 1)

/-- The order of the calendar. -/
def Before (d d' : Date) : Prop :=
  d.year < d'.year ∨ d.year = d'.year ∧
    (d.month < d'.month ∨ d.month = d'.month ∧ d.day < d'.day)

theorem ext_iff' {d d' : Date} :
    d = d' ↔ d.year = d'.year ∧ d.month = d'.month ∧ d.day = d'.day := by
  cases d
  cases d'
  simp

/-- **The days are numbered one after the other.** -/
theorem dayNumber_next (d : Date) : d.next.dayNumber = d.dayNumber + 1 := by
  have hmonth := daysBeforeMonth_succ d.year d.one_le_month
  have hday := d.day_le
  unfold next
  split
  · simp only [dayNumber]
    omega
  split
  · simp only [dayNumber, hmonth]
    omega
  · have hdec : d.month + 1 = 13 := by
      have := d.month_le
      omega
    have hfirst : daysBeforeMonth (d.year + 1) 1 = 0 := rfl
    rw [hdec] at hmonth
    simp only [dayNumber, newYear, daysBeforeYear_succ, hfirst, hmonth]
    omega

/-- A date lies in its month. -/
theorem daysBeforeMonth_add_day_le (d : Date) :
    daysBeforeMonth d.year d.month + d.day ≤ daysBeforeMonth d.year (d.month + 1) := by
  rw [daysBeforeMonth_succ d.year d.one_le_month]
  exact Nat.add_le_add_left d.day_le _

/-- A date lies in its year. -/
theorem lt_dayNumber (d : Date) : daysBeforeYear d.year + 1721425 < d.dayNumber := by
  have hday := d.one_le_day
  simp only [dayNumber]
  omega

theorem dayNumber_le (d : Date) : d.dayNumber ≤ daysBeforeYear (d.year + 1) + 1721425 := by
  have hday := d.daysBeforeMonth_add_day_le
  have hend : daysBeforeMonth d.year (d.month + 1) ≤ daysBeforeMonth d.year 13 :=
    daysBeforeMonth_mono d.year (Nat.succ_le_succ d.month_le)
  rw [daysBeforeYear_succ]
  simp only [dayNumber]
  omega

/-- **The days are numbered in the order of the calendar.** -/
theorem dayNumber_lt {d d' : Date} (h : d.Before d') : d.dayNumber < d'.dayNumber := by
  rcases h with hyear | ⟨hyear, hmonth | ⟨hmonth, hlt⟩⟩
  · calc d.dayNumber ≤ daysBeforeYear (d.year + 1) + 1721425 := d.dayNumber_le
      _ ≤ daysBeforeYear d'.year + 1721425 :=
        Int.add_le_add_right (daysBeforeYear_mono (Int.add_one_le_of_lt hyear)) _
      _ < d'.dayNumber := d'.lt_dayNumber
  · have hday := d.daysBeforeMonth_add_day_le
    have hday' := d'.one_le_day
    have hend : daysBeforeMonth d.year (d.month + 1) ≤ daysBeforeMonth d.year d'.month :=
      daysBeforeMonth_mono d.year hmonth
    simp only [dayNumber, ← hyear]
    omega
  · simp only [dayNumber, ← hyear, ← hmonth]
    omega

theorem before_trichotomy (d d' : Date) : d.Before d' ∨ d = d' ∨ d'.Before d := by
  rw [ext_iff']
  simp only [Before]
  omega

theorem before_of_dayNumber_lt {d d' : Date} (h : d.dayNumber < d'.dayNumber) : d.Before d' := by
  rcases before_trichotomy d d' with hlt | heq | hgt
  · exact hlt
  · exact absurd h (heq ▸ lt_irrefl _)
  · exact absurd h (dayNumber_lt hgt).not_gt

/-- **No two dates have one number.** -/
theorem dayNumber_injective : Function.Injective dayNumber := by
  intro d d' heq
  rcases before_trichotomy d d' with h | h | h
  · exact absurd heq (dayNumber_lt h).ne
  · exact h
  · exact absurd heq (dayNumber_lt h).ne'

end Date

end Gregorian
