import Hare.Base.Timezone
import Hare.Lib.Checked
import Hare.Lib.Gregorian

/-!
# Days and dates

`JulianDayNumber` and `GetYMD` are closed formulas with divisions.  Both are written here for
any arithmetic, as the same text read three times: with values that wrap around, which is the
code, with checked values, and with exact integers.
-/

namespace Hare.Time

open Checked Gregorian

section Formulas

variable {α : Type} [Add α] [Sub α] [Mul α] [Div α] [∀ n : ℕ, OfNat α n]

/-- The formula of `JulianDayNumber`. -/
def julianDay (year month day : α) : α :=
  let a := (14 - month) / 12
  let y := year + 4800 - a
  let m := month + 12 * a - 3
  day + (153 * m + 2) / 5 + y * 365 + y / 4 - y / 100 + y / 400 - 32045

/-- The formula of `GetYMD`. -/
def ymd (julianDayNumber : α) : α × α × α :=
  let a := julianDayNumber + 32044
  let b := (4 * a + 3) / 146097
  let c := a - (b * 146097) / 4
  let d := (4 * c + 3) / 1461
  let e := c - (1461 * d) / 4
  let m := (5 * e + 2) / 153
  (b * 100 + d - 4800 + m / 10, m + 3 - 12 * (m / 10), e - (153 * m + 2) / 5 + 1)

end Formulas

theorem julianDayNumber_eq (year month day : Int32) :
    julianDayNumber year month day = julianDay year month day := rfl

theorem getYMD_eq (j : Int32) : getYMD j = ymd j := rfl

/-! ## The formulas in exact integers -/

/-- The years of `julianDay`, which are counted from March 1 of the year -4800. -/
theorem daysBeforeYear_eq (year : ℤ) :
    (year + 4800) * 365 + (year + 4800) / 4 - (year + 4800) / 100 + (year + 4800) / 400 =
      daysBeforeYear (year + 1) + 1753164 := by
  rw [daysBeforeYear, Int.add_sub_cancel]
  omega

theorem daysBeforeMonth_eq_of_le (year : ℤ) {month : ℕ} (h₁ : 1 ≤ month) (h₂ : month ≤ 2) :
    (daysBeforeMonth year month : ℤ) = (153 * ((month : ℤ) + 9) + 2) / 5 - 306 := by
  interval_cases month <;> rfl

theorem daysBeforeMonth_eq_of_ge (year : ℤ) {month : ℕ} (h₁ : 3 ≤ month) (h₂ : month ≤ 12) :
    (daysBeforeMonth year month : ℤ) =
      daysBeforeMonth year 13 + (153 * ((month : ℤ) - 3) + 2) / 5 - 306 := by
  rw [daysBeforeMonth_eq year (by omega) (by omega), daysBeforeMonth_eq year (by decide) le_rfl]
  by_cases hl : IsLeap year <;> simp only [hl] <;> interval_cases month <;> rfl

/-- **`JulianDayNumber` counts the days of the calendar.** -/
theorem dayNumber_eq_julianDay (D : Date) :
    D.dayNumber = julianDay D.year (D.month : ℤ) (D.day : ℤ) := by
  have hlo := D.one_le_month
  have hhi := D.month_le
  rw [Date.dayNumber, julianDay]
  -- the years of the formula begin in March, so January and February belong to the one before
  rcases Nat.lt_or_ge 2 D.month with hm | hm
  · have ha : (14 - (D.month : ℤ)) / 12 = 0 := by omega
    have hyear := daysBeforeYear_eq D.year
    rw [daysBeforeYear_succ] at hyear
    have hmonth := daysBeforeMonth_eq_of_ge D.year hm hhi
    simp only [ha, Int.sub_zero, Int.mul_zero, Int.add_zero]
    omega
  · have ha : (14 - (D.month : ℤ)) / 12 = 1 := by omega
    have hyear := daysBeforeYear_eq (D.year - 1)
    have hmonth := daysBeforeMonth_eq_of_le D.year hlo hm
    have hshift : D.year - 1 + 4800 = D.year + 4800 - 1 := by omega
    have hnine : (D.month : ℤ) + 12 * 1 - 3 = D.month + 9 := by omega
    rw [Int.sub_add_cancel, hshift] at hyear
    simp only [ha, hnine]
    omega

/-- Division by the mean length of a cycle of four that has one day more than four times `n`:
`x` whole parts of `n` or `n + 1` days, and `z` days left. -/
theorem leapCycle_spec {n x y z : ℤ} (hn : 0 ≤ n) (hx : x = (4 * y + 3) / (4 * n + 1))
    (hz : z = y - (4 * n + 1) * x / 4) (hy : 0 ≤ y) :
    0 ≤ x ∧ y = n * x + x / 4 + z ∧ 0 ≤ z ∧ z ≤ n ∧ (z = n → x % 4 = 3) := by
  have hpos : 0 ≤ x := hx ▸ Int.ediv_nonneg (by omega) (by omega)
  have hlo : (4 * n + 1) * x ≤ 4 * y + 3 := hx ▸ Int.mul_ediv_self_le (by omega)
  have hhi : 4 * y + 3 < (4 * n + 1) * x + (4 * n + 1) :=
    hx ▸ Int.lt_mul_ediv_self_add (by omega)
  have hprod : (4 * n + 1) * x = 4 * (n * x) + x := by
    rw [Int.add_mul, Int.one_mul, Int.mul_assoc]
  rw [hprod] at hz hlo hhi
  clear hx
  generalize n * x = p at *
  omega

theorem month_spec {e m : ℤ} (hm : m = (5 * e + 2) / 153) (he : 0 ≤ e ∧ e ≤ 365) :
    0 ≤ m ∧ m ≤ 11 ∧ (153 * m + 2) / 5 ≤ e ∧ e < (153 * (m + 1) + 2) / 5 := by
  omega

/-- The day `e` of the month `m`, both counted from March, of the year `100 * b + d`. -/
theorem exists_date_of_parts {b d e m : ℤ} (hd : 0 ≤ d ∧ d ≤ 99) (he : 0 ≤ e ∧ e ≤ 365)
    (hleap : e = 365 → d % 4 = 3 ∧ (d = 99 → b % 4 = 3)) (hm : m = (5 * e + 2) / 153) :
    ∃ D : Date, D.year = b * 100 + d - 4800 + m / 10 ∧
      (D.month : ℤ) = m + 3 - 12 * (m / 10) ∧ (D.day : ℤ) = e - (153 * m + 2) / 5 + 1 := by
  obtain ⟨hm₀, hm₁, hlo, hhi⟩ := month_spec hm he
  clear hm
  obtain ⟨day, hday⟩ := Int.eq_ofNat_of_zero_le (show 0 ≤ e - (153 * m + 2) / 5 + 1 by omega)
  obtain ⟨month, hmonth⟩ := Int.eq_ofNat_of_zero_le (show 0 ≤ m + 3 - 12 * (m / 10) by omega)
  refine ⟨⟨b * 100 + d - 4800 + m / 10, month, day, by omega, by omega, by omega, ?_⟩, rfl,
    hmonth.symm, hday.symm⟩
  rcases lt_or_ge 10 m with hfeb | hm₁
  · obtain rfl : m = 11 := by omega
    obtain rfl : month = 2 := by omega
    rw [daysInMonth]
    split
    · omega
    · next hl =>
        rw [IsLeap] at hl
        omega
  · interval_cases m <;> obtain rfl : month = _ := Int.ofNat.inj hmonth.symm <;>
      simp only [daysInMonth] <;> omega

/-- The day number of such a day. -/
theorem julianDay_parts {b d e m : ℤ} (hd : 0 ≤ d ∧ d ≤ 99) (hm : 0 ≤ m ∧ m ≤ 11) :
    julianDay (b * 100 + d - 4800 + m / 10) (m + 3 - 12 * (m / 10)) (e - (153 * m + 2) / 5 + 1) =
      36524 * b + b / 4 + (365 * d + d / 4 + e) - 32044 := by
  have ha : (14 - (m + 3 - 12 * (m / 10))) / 12 = m / 10 := by omega
  have hyear : b * 100 + d - 4800 + m / 10 + 4800 - m / 10 = b * 100 + d := by omega
  have hmonth : m + 3 - 12 * (m / 10) + 12 * (m / 10) - 3 = m := by omega
  have h4 : (b * 100 + d) / 4 = 25 * b + d / 4 := by omega
  have h100 : (b * 100 + d) / 100 = b := by omega
  have h400 : (b * 100 + d) / 400 = b / 4 := by omega
  simp only [julianDay, ha, hyear, hmonth, h4, h100, h400]
  omega

/-- The values `ymd` names on its way. -/
structure Stages (j a b c d e : ℤ) : Prop where
  a_eq : a = j + 32044
  b_eq : b = (4 * a + 3) / 146097
  c_eq : c = a - b * 146097 / 4
  d_eq : d = (4 * c + 3) / 1461
  e_eq : e = c - 1461 * d / 4

theorem exists_stages (j : ℤ) : ∃ a b c d e, Stages j a b c d e :=
  ⟨_, _, _, _, _, rfl, rfl, rfl, rfl, rfl⟩

/-- What the values are: `b` centuries and `c` days from March 1 of the year -4800 on, and the
latter are `d` years and `e` days. -/
structure Stages.Spec (a b c d e : ℤ) : Prop where
  b_nonneg : 0 ≤ b
  a_eq : a = 36524 * b + b / 4 + c
  c_mem : 0 ≤ c ∧ c ≤ 36524
  d_mem : 0 ≤ d ∧ d ≤ 99
  c_eq : c = 365 * d + d / 4 + e
  e_mem : 0 ≤ e ∧ e ≤ 365
  leap : e = 365 → d % 4 = 3 ∧ (d = 99 → b % 4 = 3)

namespace Stages

variable {j a b c d e : ℤ}

theorem spec (S : Stages j a b c d e) (hj : -32044 ≤ j) : Spec a b c d e := by
  have ha := S.a_eq
  have hc : c = a - (4 * 36524 + 1) * b / 4 := by
    rw [Int.mul_comm]
    exact S.c_eq
  obtain ⟨hb₀, hab, hc₀, hc₁, hb⟩ := leapCycle_spec (by decide) S.b_eq hc (by omega)
  obtain ⟨hd₀, hcd, he₀, he₁, hd⟩ := leapCycle_spec (n := 365) (by decide) S.d_eq S.e_eq hc₀
  exact ⟨hb₀, hab, ⟨hc₀, hc₁⟩, ⟨hd₀, by omega⟩, hcd, ⟨he₀, he₁⟩,
    fun he => ⟨hd he, fun h99 => hb (by omega)⟩⟩

theorem ymd_eq (S : Stages j a b c d e) : ymd j =
    (b * 100 + d - 4800 + (5 * e + 2) / 153 / 10,
      (5 * e + 2) / 153 + 3 - 12 * ((5 * e + 2) / 153 / 10),
      e - (153 * ((5 * e + 2) / 153) + 2) / 5 + 1) := by
  obtain ⟨rfl, rfl, rfl, rfl, rfl⟩ := S
  rfl

end Stages

/-- **`GetYMD` finds the date of a day number.** -/
theorem exists_date {j : ℤ} (hj : -32044 ≤ j) :
    ∃ D : Date, D.dayNumber = j ∧ ymd j = (D.year, (D.month : ℤ), (D.day : ℤ)) := by
  obtain ⟨a, b, c, d, e, S⟩ := exists_stages j
  have T := S.spec hj
  have hm := month_spec rfl T.e_mem
  obtain ⟨D, hyear, hmonth, hday⟩ := exists_date_of_parts T.d_mem T.e_mem T.leap rfl
  refine ⟨D, ?_, by rw [S.ymd_eq, hyear, hmonth, hday]⟩
  rw [dayNumber_eq_julianDay, hyear, hmonth, hday, julianDay_parts T.d_mem ⟨hm.1, hm.2.1⟩,
    ← T.c_eq, ← T.a_eq, S.a_eq, Int.add_sub_cancel]

/-! ## No overflow -/

section Tracks

variable {X Y Z : Checked} {x y z : Int32} {u v w : ℤ}

/-- The sum at the end of `julianDay`. -/
theorem tracks_sum (hy : Tracks X x u) (hm : Tracks Y y v) (hday : Tracks Z z w)
    (hu : 0 ≤ u ∧ u ≤ 2000000) (hv : 0 ≤ v ∧ v ≤ 11) (hw : 1 ≤ w ∧ w ≤ 31) :
    Tracks (Z + (153 * Y + 2) / 5 + X * 365 + X / 4 - X / 100 + X / 400 - 32045)
      (z + (153 * y + 2) / 5 + x * 365 + x / 4 - x / 100 + x / 400 - 32045)
      (w + (153 * v + 2) / 5 + u * 365 + u / 4 - u / 100 + u / 400 - 32045) := by
  have hmonth := (((Tracks.ofNat 153 (by decide)).mul hm ⟨by omega, by omega⟩).add
    (.ofNat 2 (by decide)) ⟨by omega, by omega⟩).div (.ofNat 5 (by decide)) (by omega) (by omega)
  have hquot (n : ℕ) (hn : 0 < n ∧ n < 2 ^ 31) := hy.div (.ofNat n hn.2) hu.1 (by omega)
  have hyears := hy.mul (.ofNat 365 (by decide)) ⟨by omega, by omega⟩
  exact ((((((hday.add hmonth ⟨by omega, by omega⟩).add hyears ⟨by omega, by omega⟩).add
    (hquot 4 (by decide)) ⟨by omega, by omega⟩).sub (hquot 100 (by decide))
    ⟨by omega, by omega⟩).add (hquot 400 (by decide)) ⟨by omega, by omega⟩).sub
    (.ofNat 32045 (by decide)) ⟨by omega, by omega⟩)

theorem tracks_julianDay (hyear : Tracks X x u) (hmonth : Tracks Y y v) (hday : Tracks Z z w)
    (hu : (14 - v) / 12 ≤ u + 4800 ∧ u ≤ 1990000) (hv : 1 ≤ v ∧ v ≤ 12) (hw : 1 ≤ w ∧ w ≤ 31) :
    Tracks (julianDay X Y Z) (julianDay x y z) (julianDay u v w) := by
  have ha := ((Tracks.ofNat 14 (by decide)).sub hmonth ⟨by omega, by omega⟩).div
    (.ofNat 12 (by decide)) (by omega) (by omega)
  have hy := (hyear.add (.ofNat 4800 (by decide)) ⟨by omega, by omega⟩).sub ha
    ⟨by omega, by omega⟩
  have hm := (hmonth.add ((Tracks.ofNat 12 (by decide)).mul ha ⟨by omega, by omega⟩)
    ⟨by omega, by omega⟩).sub (.ofNat 3 (by decide)) ⟨by omega, by omega⟩
  exact tracks_sum hy hm hday ⟨by omega, by omega⟩ ⟨by omega, by omega⟩ hw

/-- The division of a step of `ymd`. -/
theorem tracks_quot (h : Tracks X x u) (n : ℕ) (hn : 0 < n ∧ n < 2 ^ 31) (hlo : 0 ≤ u)
    (hhi : 4 * u + 3 < 2 ^ 31) :
    Tracks ((4 * X + 3) / OfNat.ofNat n) ((4 * x + 3) / OfNat.ofNat n) ((4 * u + 3) / (n : ℤ)) :=
  (((Tracks.ofNat 4 (by decide)).mul h ⟨by omega, by omega⟩).add (.ofNat 3 (by decide))
    ⟨by omega, by omega⟩).div (.ofNat n hn.2) (by omega) (by omega)

/-- The three results of `ymd`. -/
theorem tracks_parts (hb : Tracks X x u) (hd : Tracks Y y v) (he : Tracks Z z w)
    (hu : 0 ≤ u ∧ u ≤ 15000) (hv : 0 ≤ v ∧ v ≤ 99) (hw : 0 ≤ w ∧ w ≤ 365) :
    Tracks (X * 100 + Y - 4800 + (5 * Z + 2) / 153 / 10)
        (x * 100 + y - 4800 + (5 * z + 2) / 153 / 10)
        (u * 100 + v - 4800 + (5 * w + 2) / 153 / 10) ∧
      Tracks ((5 * Z + 2) / 153 + 3 - 12 * ((5 * Z + 2) / 153 / 10))
        ((5 * z + 2) / 153 + 3 - 12 * ((5 * z + 2) / 153 / 10))
        ((5 * w + 2) / 153 + 3 - 12 * ((5 * w + 2) / 153 / 10)) ∧
      Tracks (Z - (153 * ((5 * Z + 2) / 153) + 2) / 5 + 1)
        (z - (153 * ((5 * z + 2) / 153) + 2) / 5 + 1)
        (w - (153 * ((5 * w + 2) / 153) + 2) / 5 + 1) := by
  have hm := (((Tracks.ofNat 5 (by decide)).mul he ⟨by omega, by omega⟩).add
    (.ofNat 2 (by decide)) ⟨by omega, by omega⟩).div (.ofNat 153 (by decide)) (by omega)
    (by omega)
  have hten := hm.div (.ofNat 10 (by decide)) (by omega) (by omega)
  have hstart := (((Tracks.ofNat 153 (by decide)).mul hm ⟨by omega, by omega⟩).add
    (.ofNat 2 (by decide)) ⟨by omega, by omega⟩).div (.ofNat 5 (by decide)) (by omega) (by omega)
  refine ⟨?_, ?_, ?_⟩
  · exact (((hb.mul (.ofNat 100 (by decide)) ⟨by omega, by omega⟩).add hd
      ⟨by omega, by omega⟩).sub (.ofNat 4800 (by decide)) ⟨by omega, by omega⟩).add hten
      ⟨by omega, by omega⟩
  · exact (hm.add (.ofNat 3 (by decide)) ⟨by omega, by omega⟩).sub
      ((Tracks.ofNat 12 (by decide)).mul hten ⟨by omega, by omega⟩) ⟨by omega, by omega⟩
  · exact (he.sub hstart ⟨by omega, by omega⟩).add (.ofNat 1 (by decide)) ⟨by omega, by omega⟩

/-- The day numbers for which `ymd` does not overflow. -/
def DayRange (j : ℤ) : Prop := -32044 ≤ j ∧ 4 * (j + 32044) + 3 < 2 ^ 31

theorem tracks_ymd (h : Tracks X x u) (hu : DayRange u) :
    Tracks (ymd X).1 (ymd x).1 (ymd u).1 ∧ Tracks (ymd X).2.1 (ymd x).2.1 (ymd u).2.1 ∧
      Tracks (ymd X).2.2 (ymd x).2.2 (ymd u).2.2 := by
  obtain ⟨hlo, hhi⟩ := hu
  obtain ⟨a, b, c, d, e, S⟩ := exists_stages u
  obtain ⟨hb₀, hab, hc₀, hd₀, hcd, he₀, -⟩ := S.spec hlo
  have haj := S.a_eq
  have ha := (h.add (.ofNat 32044 (by decide)) ⟨by omega, by omega⟩).of_eq haj
  have hb := (tracks_quot ha 146097 (by decide) (by omega) (by omega)).of_eq S.b_eq
  have hc := (ha.sub ((hb.mul (.ofNat 146097 (by decide)) ⟨by omega, by omega⟩).div
    (.ofNat 4 (by decide)) (by omega) (by omega)) ⟨by omega, by omega⟩).of_eq S.c_eq
  have hd := (tracks_quot hc 1461 (by decide) hc₀.1 (by omega)).of_eq S.d_eq
  have he := (hc.sub (((Tracks.ofNat 1461 (by decide)).mul hd ⟨by omega, by omega⟩).div
    (.ofNat 4 (by decide)) (by omega) (by omega)) ⟨by omega, by omega⟩).of_eq S.e_eq
  rw [S.ymd_eq]
  exact tracks_parts hb hd he ⟨hb₀, by omega⟩ hd₀ he₀

end Tracks

/-! ## The code -/

/-- The three values are the year, the month and the day of the date. -/
def Denotes (t : Int32 × Int32 × Int32) (D : Date) : Prop :=
  t.1.toInt = D.year ∧ t.2.1.toInt = D.month ∧ t.2.2.toInt = D.day

theorem ymd_dayNumber {D : Date} (h : -32044 ≤ D.dayNumber) :
    ymd D.dayNumber = (D.year, (D.month : ℤ), (D.day : ℤ)) := by
  obtain ⟨D', heq, hymd⟩ := exists_date h
  rwa [Date.dayNumber_injective heq] at hymd

/-- The years for which the formulas do not overflow. -/
theorem year_mem {D : Date} (h : DayRange D.dayNumber) :
    (14 - (D.month : ℤ)) / 12 ≤ D.year + 4800 ∧ D.year ≤ 1990000 := by
  obtain ⟨hlo, hhi⟩ := h
  obtain ⟨a, b, c, d, e, S⟩ := exists_stages D.dayNumber
  have T := S.spec hlo
  have hm := month_spec rfl T.e_mem
  have heq := S.ymd_eq
  rw [ymd_dayNumber hlo, Prod.mk.injEq, Prod.mk.injEq] at heq
  obtain ⟨hyear, hmonth, -⟩ := heq
  obtain ⟨hb₀, hab, hc₀, hd₀, -, -, -⟩ := T
  have haj := S.a_eq
  constructor <;> omega

theorem day_le_31 (D : Date) : D.day ≤ 31 := by
  refine D.day_le.trans ?_
  unfold daysInMonth
  split
  · split <;> decide
  all_goals decide

theorem tracks_date {D : Date} {x y z : Int32} (h : Denotes (x, y, z) D)
    (hr : DayRange D.dayNumber) :
    Tracks (julianDay (value x) (value y) (value z)) (julianDayNumber x y z) D.dayNumber := by
  obtain ⟨hx, hy, hz⟩ := h
  have hday := day_le_31 D
  have h₁ := D.one_le_month
  have h₂ := D.month_le
  have h₃ := D.one_le_day
  rw [dayNumber_eq_julianDay, julianDayNumber_eq]
  exact tracks_julianDay ⟨rfl, hx⟩ ⟨rfl, hy⟩ ⟨rfl, hz⟩ (year_mem hr) ⟨by omega, by omega⟩
    ⟨by omega, by omega⟩

/-- `GetYMD` on a day number in range. -/
theorem getYMD_spec {j : Int32} (hj : DayRange j.toInt) :
    ∃ D : Date, D.dayNumber = j.toInt ∧ Denotes (getYMD j) D ∧
      ymd (value j) =
        (value (getYMD j).1, value (getYMD j).2.1, value (getYMD j).2.2) := by
  obtain ⟨D, hnum, hymd⟩ := exists_date hj.1
  obtain ⟨hyear, hmonth, hday⟩ := tracks_ymd (.of_toInt j) hj
  rw [hymd] at hyear hmonth hday
  rw [getYMD_eq]
  exact ⟨D, hnum, ⟨hyear.exact, hmonth.exact, hday.exact⟩,
    Prod.ext hyear.checked (Prod.ext hmonth.checked hday.checked)⟩

/-- `GetYMD` of a day number computes with values that fit only. -/
def NoOverflow (j : ℤ) : Prop :=
  ∃ year month day, ymd (fit j) = (value year, value month, value day)

/-- The first value of `GetYMD` that does not fit. -/
theorem quot_eq_overflow {j : ℤ} (hhi : ¬ 4 * (j + 32044) + 3 < 2 ^ 31) :
    4 * (fit j + 32044) + 3 = overflow := by
  change fit 4 * (fit j + fit 32044) + fit 3 = overflow
  by_cases hj : InRange j
  · rw [fit_add hj (by decide)]
    by_cases ha : InRange (j + 32044)
    · rw [fit_mul (by decide) ha]
      by_cases hm : InRange (4 * (j + 32044))
      · rw [fit_add hm (by decide)]
        exact fit_eq_overflow fun h => hhi h.2
      · rw [fit_eq_overflow hm, overflow_add]
    · rw [fit_eq_overflow ha, mul_overflow, overflow_add]
  · rw [fit_eq_overflow hj, overflow_add, mul_overflow, overflow_add]

/-- The day numbers from the first one of the formula on for which `GetYMD` does not overflow. -/
theorem noOverflow_iff {j : ℤ} (hlo : -32044 ≤ j) : NoOverflow j ↔ DayRange j := by
  constructor
  · rintro ⟨year, month, day, heq⟩
    refine ⟨hlo, by_contra fun hhi => ?_⟩
    have hyear := congrArg Prod.fst heq
    simp only [ymd, quot_eq_overflow hhi, overflow_div, overflow_mul, overflow_add,
      overflow_sub] at hyear
    cases hyear
  · intro hr
    have hfit : InRange j := ⟨by have := hr.1; omega, by have := hr.2; omega⟩
    have hnum : (Int32.ofInt j).toInt = j := Int32.toInt_ofInt_of_le hfit.1 hfit.2
    obtain ⟨-, -, -, hymd⟩ := getYMD_spec (j := Int32.ofInt j) (hnum.symm ▸ hr)
    rw [NoOverflow, fit, if_pos hfit]
    exact ⟨_, _, _, hymd⟩

/-- Three values denote at most one date. -/
theorem Denotes.eq {t t' : Int32 × Int32 × Int32} {D : Date} (h : Denotes t D)
    (h' : Denotes t' D) : t = t' := by
  obtain ⟨h₁, h₂, h₃⟩ := h
  obtain ⟨h₁', h₂', h₃'⟩ := h'
  exact Prod.ext (Int32.toInt_inj.mp (h₁.trans h₁'.symm))
    (Prod.ext (Int32.toInt_inj.mp (h₂.trans h₂'.symm)) (Int32.toInt_inj.mp (h₃.trans h₃'.symm)))

/-- **Day numbers and dates correspond.**  For every day number in range `GetYMD` gives a date of
the calendar, `JulianDayNumber` leads back from it, and the next day number gives the next date;
conversely `GetYMD` leads back from the day number of every date in range.  Neither function
overflows on the way. -/
theorem getYMD_julianDayNumber :
    (∀ j : Int32, DayRange j.toInt → ∃ D : Date, Denotes (getYMD j) D ∧
      julianDayNumber (getYMD j).1 (getYMD j).2.1 (getYMD j).2.2 = j ∧
      (DayRange (j.toInt + 1) → Denotes (getYMD (j + 1)) D.next) ∧
      ymd (value j) =
        (value (getYMD j).1, value (getYMD j).2.1, value (getYMD j).2.2) ∧
      julianDay (value (getYMD j).1) (value (getYMD j).2.1) (value (getYMD j).2.2) =
        value j) ∧
    ∀ (year month day : Int32) (D : Date), Denotes (year, month, day) D →
      DayRange D.dayNumber → getYMD (julianDayNumber year month day) = (year, month, day) ∧
        julianDay (value year) (value month) (value day) =
          value (julianDayNumber year month day) ∧
        ymd (value (julianDayNumber year month day)) =
          (value year, value month, value day) := by
  constructor
  · intro j hj
    obtain ⟨D, hnum, hden, hchecked⟩ := getYMD_spec hj
    have hback := tracks_date hden (hnum ▸ hj)
    have heq : julianDayNumber (getYMD j).1 (getYMD j).2.1 (getYMD j).2.2 = j :=
      Int32.toInt_inj.mp (hback.exact.trans hnum)
    refine ⟨D, hden, heq, fun hnext => ?_, hchecked,
      hback.checked.trans (congrArg value heq)⟩
    have hsucc : (j + 1).toInt = j.toInt + 1 := by
      refine ((Tracks.of_toInt j).add (.ofNat 1 (by decide)) ?_).exact
      obtain ⟨hlo, -⟩ := hj
      obtain ⟨-, hhi⟩ := hnext
      constructor <;> omega
    rw [← hsucc] at hnext
    obtain ⟨D', hnum', hden', -⟩ := getYMD_spec hnext
    have hD : D' = D.next := Date.dayNumber_injective (by
      rw [hnum', Date.dayNumber_next, hnum, hsucc])
    exact hD ▸ hden'
  · intro year month day D hden hr
    have htrack := tracks_date hden hr
    obtain ⟨D', hnum, hden', hchecked⟩ := getYMD_spec
      (j := julianDayNumber year month day) (htrack.exact.symm ▸ hr)
    have hD : D' = D := Date.dayNumber_injective (hnum.trans htrack.exact)
    have heq := Denotes.eq (hD ▸ hden') hden
    rw [heq] at hchecked
    exact ⟨heq, htrack.checked, hchecked⟩

/-- The leap day of 2000. -/
theorem getYMD_leapDay : DayRange 2451604 ∧ julianDayNumber 2000 2 29 = 2451604 ∧
    getYMD (julianDayNumber 2000 2 29) = (2000, 2, 29) :=
  ⟨⟨by decide, by decide⟩, by decide,
    (getYMD_julianDayNumber.2 2000 2 29 ⟨2000, 2, 29, by decide, by decide, by decide, by decide⟩
      ⟨by decide, by decide, by decide⟩ ⟨by decide, by decide⟩).1⟩

end Hare.Time
