import Mathlib.Data.List.Basic

/-!
# Faults

How a call of the library can end other than by returning.  Every modelled function that
can fail returns in `Except Fault`.  A step of an interleaving can also be one that cannot
be taken in the given state, which is no fault (`Stop`).
-/

namespace Hare

/-- How a call can end other than by returning. -/
inductive Fault
  /-- An access behind the end, or before the beginning, of an allocated array. -/
  | outOfBounds
  /-- An access to an object that has been deleted, or a second deletion of it. -/
  | useAfterFree
  /-- An access through an empty `cache` pointer. -/
  | nullPointer
  /-- A failed `HARE_ASSERT`. -/
  | assertFailed
  /-- An array the allocator cannot provide. -/
  | badAlloc
  /-- A loop that never ends. -/
  | diverges
  deriving DecidableEq, Repr

/-- Why a step of an interleaving is not taken. -/
inductive Stop
  /-- The thread is not at the point where it would take the step. -/
  | disabled
  /-- The step ends the program. -/
  | fault (f : Fault)
  deriving DecidableEq, Repr

end Hare
