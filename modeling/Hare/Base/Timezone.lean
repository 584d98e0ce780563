import Hare.Lib.Text
import Hare.Lib.UpperBound

/-!
# Dates and time zones

The conversion of a number of seconds since the epoch to a date and a time of day, in UTC or
in a time zone, and its text.  The fields and the arithmetic on them are the 32-bit ones of
the code; division rounds towards zero.

A time zone is a table of transitions.  Nothing keeps them in the order of their times, though the
search relies on it: `std::upper_bound` halves the table, and in a table without order it still
comes to some transition.
-/

namespace Hare.Time

open Text UpperBound

/-- A date and a time of day. -/
structure DateTime where
  year : Int32 := 1900
  month : Int32 := 1
  day : Int32 := 1
  hour : Int32 := 0
  minute : Int32 := 0
  second : Int32 := 0
  deriving DecidableEq, Repr

/-- `yyyy-MM-dd HH:MM:SS`. -/
def DateTime.toFmt (dt : DateTime) : List Char :=
  zeroPadded 4 dt.year.toInt ++ '-' :: zeroPadded 2 dt.month.toInt ++
    '-' :: zeroPadded 2 dt.day.toInt ++ ' ' :: zeroPadded 2 dt.hour.toInt ++
    ':' :: zeroPadded 2 dt.minute.toInt ++ ':' :: zeroPadded 2 dt.second.toInt

def julianDayNumber (year month day : Int32) : Int32 :=
  let a := (14 - month) / 12
  let y := year + 4800 - a
  let m := month + 12 * a - 3
  day + (153 * m + 2) / 5 + y * 365 + y / 4 - y / 100 + y / 400 - 32045

/-- The year, month and day of a day number. -/
def getYMD (julianDayNumber : Int32) : Int32 × Int32 × Int32 :=
  let a := julianDayNumber + 32044
  let b := (4 * a + 3) / 146097
  let c := a - (b * 146097) / 4
  let d := (4 * c + 3) / 1461
  let e := c - (1461 * d) / 4
  let m := (5 * e + 2) / 153
  (b * 100 + d - 4800 + m / 10, m + 3 - 12 * (m / 10), e - (153 * m + 2) / 5 + 1)

def secondsPerDay : ℤ := 24 * 60 * 60

/-- The date and the time of day of a number of seconds since the epoch. -/
def breakTime (time : ℤ) : DateTime :=
  let seconds := Int32.ofInt (time.tmod secondsPerDay)
  let days := Int32.ofInt (time.tdiv secondsPerDay)
  let (seconds, days) :=
    if seconds < 0 then (seconds + Int32.ofInt secondsPerDay, days - 1) else (seconds, days)
  -- `FillHMS`
  let minutes := seconds / 60
  let hour := minutes / 60
  let (year, month, day) := getYMD (days + julianDayNumber 1970 1 1)
  { year, month, day, hour, minute := minutes - hour * 60, second := seconds - minutes * 60 }

/-- A change of the local time. -/
structure Transition where
  utcTime : ℤ
  localTime : ℤ
  localTimeIdx : ℕ
  deriving DecidableEq, Repr

/-- A time zone: the offsets from UTC, and when which of them applies. -/
structure Timezone where
  transitions : List Transition
  utcOffsets : List ℤ
  valid : Bool
  deriving DecidableEq, Repr

namespace Timezone

/-- The default constructor. -/
def empty : Timezone := ⟨[], [], false⟩

/-- The offset of the transition at a position. -/
def offsetAt (tz : Timezone) (i : ℕ) : Option ℤ :=
  (tz.transitions[i]?).bind fun transition => tz.utcOffsets[transition.localTimeIdx]?

/-- The offset after `k` transitions. -/
def inForce (tz : Timezone) : ℕ → Option ℤ
  | 0 => tz.utcOffsets.head?
  | k + 1 => tz.offsetAt k

/-- How many transitions come before the one that is found.  There is no search before the first
transition. -/
def position (tz : Timezone) (key : Transition → ℤ) (time : ℤ) : ℕ :=
  match tz.transitions.head? with
  | none => 0
  | some front =>
    if time < key front then 0 else bisect key time tz.transitions.length tz.transitions

/-- `FindLocalTime`: the offset of the transition before the one that is found. -/
def findLocalTime (tz : Timezone) (utcTime : ℤ) : Option ℤ :=
  tz.inForce (tz.position Transition.utcTime utcTime)

def toUtcTime (seconds : ℤ) : DateTime := breakTime seconds

/-- The number of seconds since the epoch, computed in `int` and widened at the end. -/
def fromUtcTime (dt : DateTime) : ℤ :=
  let date := julianDayNumber dt.year dt.month dt.day
  let secondsInDay := dt.hour * (60 * 60) + dt.minute * 60 + dt.second
  let days := date - julianDayNumber 1970 1 1
  (days * Int32.ofInt secondsPerDay + secondsInDay).toInt

def toLocal (tz : Timezone) (seconds : ℤ) : DateTime :=
  match tz.findLocalTime seconds with
  | some utcOffset => breakTime (seconds + utcOffset)
  | none => {}

end Timezone

namespace Timezone

variable {tz : Timezone} {key : Transition → ℤ} {time : ℤ}

theorem position_le_length : tz.position key time ≤ tz.transitions.length := by
  rw [position]
  split
  · exact Nat.zero_le _
  · split
    · exact Nat.zero_le _
    · exact bisect_le_length le_rfl

/-- The search does not find the first transition, in any table, as the code asserts. -/
theorem position_pos {front : Transition} (hfront : tz.transitions.head? = some front)
    (hle : key front ≤ time) : 0 < tz.position key time := by
  rw [position, hfront]
  dsimp only
  rw [if_neg (not_lt.mpr hle)]
  exact bisect_pos le_rfl hfront hle

/-- In a table in the order of the times the transitions up to the time are counted. -/
theorem position_eq (h : tz.transitions.Pairwise fun a b => key a < key b) :
    tz.position key time = upperBound key time tz.transitions := by
  rw [position]
  cases hl : tz.transitions with
  | nil => rfl
  | cons front transitions =>
      rw [hl] at h
      dsimp only [List.head?_cons]
      split
      · next hlt => rw [upperBound_cons, if_neg (not_le.mpr hlt)]
      · exact bisect_eq_upperBound le_rfl h

end Timezone

/-- The text of a date has only digits and the four separators. -/
theorem DateTime.free_toFmt {delims : List Char} (dt : DateTime) (hminus : '-' ∉ delims)
    (hcolon : ':' ∉ delims) (hblank : ' ' ∉ delims) (h : ∀ k < 10, k.digitChar ∉ delims) :
    Free delims dt.toFmt := by
  have hfield := free_zeroPadded hminus h
  have hsep : ∀ {ch s}, ch ∉ delims → Free delims s → Free delims (ch :: s) :=
    fun hch hs _ hmem => (List.mem_cons.mp hmem).elim (fun he => he ▸ hch) (hs _)
  unfold toFmt
  exact (((((hfield 4 _).append (hsep hminus (hfield 2 _))).append
    (hsep hminus (hfield 2 _))).append (hsep hblank (hfield 2 _))).append
    (hsep hcolon (hfield 2 _))).append (hsep hcolon (hfield 2 _))

end Hare.Time
