import Mathlib.Algebra.Ring.Nat
import Mathlib.Data.List.Basic
import Mathlib.Data.List.Induction

/-!
# Bounded first-in first-out queues

A list that is filled behind and emptied in front, with room for `capacity` items.  A push
into a queue without room gives up the oldest item and counts it.

What a sequence of pushes leaves behind is computed once: the last `capacity` items
(`items_pushes`), with one item given up for each that found no room (`overruns_pushes`).
-/

namespace BoundedFifo

/-- The items, oldest first, and how many have been given up. -/
structure Fifo (α : Type*) where
  items : List α
  overruns : ℕ
  deriving DecidableEq, Repr

variable {α : Type*} {capacity : ℕ} {f : Fifo α}

namespace Fifo

def empty : Fifo α := ⟨[], 0⟩

/-- Append; without room the oldest item is given up. -/
def push (capacity : ℕ) (f : Fifo α) (item : α) : Fifo α :=
  if f.items.length = capacity then ⟨(f.items ++ [item]).tail, f.overruns + 1⟩
  else ⟨f.items ++ [item], f.overruns⟩

def pushes (capacity : ℕ) (f : Fifo α) (items : List α) : Fifo α := items.foldl (push capacity) f

@[simp] theorem pushes_nil : f.pushes capacity [] = f := rfl

@[simp] theorem pushes_concat (items : List α) (item : α) :
    f.pushes capacity (items ++ [item]) = (f.pushes capacity items).push capacity item := by
  simp [pushes]

/-- A push keeps the last `capacity` items. -/
theorem items_push (h : f.items.length ≤ capacity) (item : α) :
    (f.push capacity item).items =
      (f.items ++ [item]).drop (f.items.length + 1 - capacity) := by
  unfold push
  split
  case isTrue hroom =>
    rw [hroom, Nat.add_sub_cancel_left, List.drop_one]
  case isFalse hroom =>
    rw [Nat.sub_eq_zero_of_le (by omega), List.drop_zero]

/-- What a push leaves depends on the items only. -/
theorem items_push_congr {g : Fifo α} (h : f.items = g.items) (item : α) :
    (f.push capacity item).items = (g.push capacity item).items := by
  unfold push
  rw [h]
  split <;> rfl

theorem overruns_push (h : f.items.length ≤ capacity) (item : α) :
    (f.push capacity item).overruns = f.overruns + (f.items.length + 1 - capacity) := by
  unfold push
  split
  case isTrue hroom => rw [hroom, Nat.add_sub_cancel_left]
  case isFalse hroom => rw [Nat.sub_eq_zero_of_le (by omega), Nat.add_zero]

/-- **Pushes keep the last `capacity` items.** -/
theorem items_pushes (h : f.items.length ≤ capacity) (items : List α) :
    (f.pushes capacity items).items =
      (f.items ++ items).drop (f.items.length + items.length - capacity) := by
  induction items using List.reverseRecOn with
  | nil => simp [Nat.sub_eq_zero_of_le h]
  | append_singleton items item ih =>
      have hlen : (f.pushes capacity items).items.length ≤ capacity := by
        rw [ih, List.length_drop, List.length_append]
        omega
      rw [pushes_concat, items_push hlen, ih, ← List.append_assoc]
      simp only [List.length_drop, List.length_append, List.length_singleton]
      rw [← List.drop_append_of_le_length (by simp), List.drop_drop]
      congr 1
      omega

theorem length_pushes_le (h : f.items.length ≤ capacity) (items : List α) :
    (f.pushes capacity items).items.length ≤ capacity := by
  rw [items_pushes h, List.length_drop, List.length_append]
  omega

/-- **One item is given up for each that finds no room.** -/
theorem overruns_pushes (h : f.items.length ≤ capacity) (items : List α) :
    (f.pushes capacity items).overruns =
      f.overruns + (f.items.length + items.length - capacity) := by
  induction items using List.reverseRecOn with
  | nil => simp [Nat.sub_eq_zero_of_le h]
  | append_singleton items item ih =>
      rw [pushes_concat, overruns_push (length_pushes_le h items), ih, items_pushes h]
      simp only [List.length_drop, List.length_append, List.length_singleton]
      omega

end Fifo

/-! ## Operations -/

inductive Op (α : Type*)
  | push (item : α)
  | pop
  deriving DecidableEq, Repr

/-- An operation; there is no pop of an empty queue. -/
def step (capacity : ℕ) (f : Fifo α) : Op α → Except Unit (Fifo α)
  | .push item => .ok (f.push capacity item)
  | .pop =>
    match f.items with
    | [] => .error ()
    | _ :: items => .ok { f with items }

end BoundedFifo
