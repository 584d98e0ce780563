import Mathlib.Data.List.Chain

/-!
# Remembering the last answer

A function is evaluated on a sequence of arguments, and an argument whose key is the one of the
argument before is given the answer of before.  The answers are those of the function exactly
when neighbours with one key have one answer (`answers_eq_map_iff`).
-/

namespace LastAnswer

variable {ι κ β : Type*}

/-- What is remembered. -/
structure Slot (κ β : Type*) where
  key : κ
  answer : β
  deriving DecidableEq, Repr

variable [DecidableEq κ] (key : ι → κ) (f : ι → β)

/-- Evaluate the function if the key is another one than before. -/
def answer (s : Slot κ β) (x : ι) : Slot κ β :=
  if key x ≠ s.key then ⟨key x, f x⟩ else s

def answers : Slot κ β → List ι → List β
  | _, [] => []
  | s, x :: xs => (answer key f s x).answer :: answers (answer key f s x) xs

variable {key f} {s : Slot κ β} {x : ι}

theorem answer_of_ne (h : key x ≠ s.key) : answer key f s x = ⟨key x, f x⟩ := if_pos h

theorem answer_of_eq (h : key x = s.key) : answer key f s x = s := if_neg (not_not.mpr h)

theorem key_answer : (answer key f s x).key = key x := by
  by_cases h : key x = s.key
  · rw [answer_of_eq h, h]
  · rw [answer_of_ne h]

/-- One answer is right unless another one is remembered for the key. -/
theorem answer_eq_iff : (answer key f s x).answer = f x ↔ (key x = s.key → s.answer = f x) := by
  by_cases h : key x = s.key
  · rw [answer_of_eq h]
    exact ⟨fun hs _ => hs, fun hs => hs h⟩
  · rw [answer_of_ne h]
    exact ⟨fun _ heq => absurd heq h, fun _ => rfl⟩

/-- **The answers are right exactly when no neighbours have one key and two answers**, and the
slot does not hold another answer for the key of the first argument. -/
theorem answers_eq_map_iff (xs : List ι) :
    answers key f s xs = xs.map f ↔
      (∀ x ∈ xs.head?, key x = s.key → s.answer = f x) ∧
        xs.IsChain fun x y => key y = key x → f x = f y := by
  induction xs generalizing s with
  | nil => simp [answers]
  | cons x xs ih =>
      rw [answers, List.map_cons, List.cons.injEq, ih, answer_eq_iff, key_answer,
        List.isChain_cons]
      simp only [List.head?_cons, Option.mem_def, Option.some.injEq, forall_eq']
      -- once the answer is right, it is the one of the neighbour
      refine and_congr_right fun hx => ?_
      rw [answer_eq_iff.mpr hx]

end LastAnswer
