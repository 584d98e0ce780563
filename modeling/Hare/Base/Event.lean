import Hare.Base.Fault
import Mathlib.Data.Int.Basic

/-!
# Events and timers

An `Event` is what a cycle watches: a descriptor (negative when there is none), a mask, a
callback and the time of its timeout.  What the callback does belongs to the owner of the
event; the model records only whether it is set.

An event whose mask holds `EVENT_TIMEOUT` does not hold `EVENT_PERSIST`: the constructor
clears the timeout, and afterwards the mask changes only in its read and write bits.  The
structure carries this as a field.

## Main definitions

* `Events`: the mask.
* `Event`, `Event.new`, `Event.handleEvent`.
* `Timer.new`: the event behind `RunAfter` and `RunEvery`.
-/

namespace Hare.Io

/-- The bits of an event mask, `EVENT_DEFAULT` when none is set. -/
structure Events where
  timeout : Bool := false
  read : Bool := false
  write : Bool := false
  persist : Bool := false
  et : Bool := false
  closed : Bool := false
  deriving DecidableEq, Repr

/-- An event.  `alive` says whether the lock of `tie_object` succeeds. -/
structure Event where
  fd : ℤ
  events : Events
  timeval : ℤ
  callback : Bool
  tied : Bool
  alive : Bool
  /-- An event with a timeout is not persistent. -/
  oneShot : events.timeout = true → events.persist = false
  deriving DecidableEq, Repr

namespace Event

/-- The constructor.  Of a mask with both a timeout and persistence it drops the timeout,
and the time with it. -/
def new (fd : ℤ) (callback : Bool) (events : Events) (timeval : ℤ) : Event :=
  if h : events.timeout = true ∧ events.persist = true then
    { fd, callback, timeval := 0, tied := false, alive := false
      events := { events with timeout := false }
      oneShot := fun hf => Bool.noConfusion hf }
  else
    { fd, callback, timeval, events, tied := false, alive := false
      oneShot := fun ht => by
        cases hp : events.persist with
        | false => rfl
        | true => exact absurd ⟨ht, hp⟩ h }

/-- `EnableRead`, `DisableRead`, `EnableWrite` and `DisableWrite` on the mask. -/
def setInterest (e : Event) (read write : Bool) : Event :=
  { e with events := { e.events with read, write }, oneShot := e.oneShot }

/-- `Tie` to an object that is alive or not. -/
def tie (e : Event) (alive : Bool) : Event :=
  { e with tied := true, alive }

/-- Whether `HandleEvent` calls the callback: an event that is not tied does nothing. -/
def handleEvent (e : Event) : Bool :=
  if e.tied then
    if !e.alive then false else e.callback
  else
    false

end Event

/-- The timer of a task.  Its callback, which runs the task, is set. -/
def Timer.new (timeval : ℤ) (isPersist : Bool) : Event :=
  Event.new (-1) true { timeout := true, persist := isPersist } timeval

end Hare.Io
