import Hare.Lib.LastAnswer
import Hare.Log.Logger

/-!
# The cached time of a thread

`LogTime` converts the time of a record only when its second is another one than that of the
last record the thread has formatted, whatever logger the record belongs to.  So what it returns
is the conversion in the zone of the record exactly if no two records of one second follow each
other whose zones show that second differently, and if the thread does not begin with the second
its cache is initialized with.
-/

namespace Hare.Log

open LastAnswer Time

/-- A record, with the time zone of its logger. -/
abbrev Record := Timezone × Msg

namespace Record

/-- The seconds of the time stamp. -/
def seconds (r : Record) : ℤ := r.2.stamp.tdiv 1000000

/-- The text of the time of a record, by a conversion of its own. -/
def convert (r : Record) : List Char :=
  (if r.1.valid then r.1.toLocal r.seconds else Timezone.toUtcTime r.seconds).toFmt

end Record

/-- What `LogTime` returns for records formatted one after the other on a thread. -/
def logTimes (self : ThreadData) : List Record → List (List Char)
  | [] => []
  | (tz, msg) :: rest =>
    let self := (logTime tz msg self).1
    self.text :: logTimes self rest

/-- `t_last_time` and `t_time`. -/
def ThreadData.slot (self : ThreadData) : Slot ℤ (List Char) := ⟨self.lastTime, self.text⟩

theorem slot_logTime (tz : Timezone) (msg : Msg) (self : ThreadData) :
    (logTime tz msg self).1.slot = answer Record.seconds Record.convert self.slot (tz, msg) := by
  by_cases heq : msg.stamp.tdiv 1000000 = self.lastTime
  · rw [answer_of_eq heq]
    simp only [logTime, heq, ne_eq, not_true_eq_false, if_false]
  · rw [answer_of_ne heq]
    simp only [logTime, heq, ne_eq, not_false_eq_true, if_true]
    rfl

/-- The thread remembers its last answer. -/
theorem logTimes_eq_answers (self : ThreadData) (records : List Record) :
    logTimes self records = answers Record.seconds Record.convert self.slot records := by
  induction records generalizing self with
  | nil => rfl
  | cons r rest ih =>
      obtain ⟨tz, msg⟩ := r
      rw [logTimes, answers, ← slot_logTime]
      exact congrArg _ (ih _)

theorem convert_ne_nil (r : Record) : r.convert ≠ [] := by
  simp [Record.convert, DateTime.toFmt]

/-- **When the cached time is the time of the record**, for all records of a new thread. -/
theorem logTimes_eq_map_iff (tid : ℕ) (records : List Record) :
    logTimes { tid } records = records.map Record.convert ↔
      (∀ r ∈ records.head?, r.seconds ≠ 0) ∧
        records.IsChain fun r r' => r'.seconds = r.seconds → r.convert = r'.convert := by
  rw [logTimes_eq_answers, answers_eq_map_iff]
  refine and_congr_left fun _ => forall₂_congr fun r _ => ?_
  constructor
  · intro h hzero
    exact convert_ne_nil r (h hzero).symm
  · intro h hzero
    exact absurd hzero h

/-- Two records of one second, the first in UTC and the second eight hours east of it: the second
is given the time of the first.  A first record within the first second is given none. -/
theorem logTimes_two_zones :
    let utc : Timezone := ⟨[], [0], true⟩
    let east : Timezone := ⟨[], [8 * 3600], true⟩
    let msg : Msg := { (default : Msg) with stamp := 1000000 }
    logTimes { tid := 1 } [(utc, msg), (east, msg)] =
        ["1970-01-01 00:00:01".toList, "1970-01-01 00:00:01".toList] ∧
      [(utc, msg), (east, msg)].map Record.convert =
        ["1970-01-01 00:00:01".toList, "1970-01-01 08:00:01".toList] ∧
      logTimes { tid := 1 } [(utc, default)] = [[]] := by
  decide

end Hare.Log
