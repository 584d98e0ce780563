import Mathlib.Algebra.BigOperators.Group.Finset.Basic
import Mathlib.Algebra.Order.BigOperators.Group.Finset
import Mathlib.Data.Fintype.BigOperators

/-!
# Counting over the threads of a system

The threads of a system form a finite type `T`, each is in a state of type `S`, and a step
moves one or two of them.  Quantities such as "the notifications still to be sent" are sums
of a weight over all threads; `total_update` is how such a sum changes when one thread
moves.
-/

namespace Threads

variable {T S : Type*} [Fintype T]

/-- The weight of all threads together. -/
def total (w : S → ℕ) (g : T → S) : ℕ := ∑ t, w (g t)

theorem total_eq_zero {w : S → ℕ} {g : T → S} : total w g = 0 ↔ ∀ t, w (g t) = 0 := by
  simp [total]

/-- All threads are in the same state. -/
theorem total_const (w : S → ℕ) (x : S) : total w (fun _ : T => x) = Fintype.card T * w x :=
  Finset.sum_const_nat fun _ _ => rfl

/-- Where the weights are at most one and their sum is the number of threads, each is one. -/
theorem eq_one_of_total {w : S → ℕ} {g : T → S} (hle : ∀ x, w x ≤ 1)
    (htotal : total w g = Fintype.card T) (t : T) : w (g t) = 1 := by
  have hsum : ∑ u, w (g u) = ∑ _u : T, 1 := by
    rw [← Finset.card_eq_sum_ones, Finset.card_univ]
    exact htotal
  exact (Finset.sum_eq_sum_iff_of_le fun u _ => hle (g u)).mp hsum t (Finset.mem_univ t)

variable [DecidableEq T]

/-- One thread moves. -/
theorem total_update (w : S → ℕ) (g : T → S) (t : T) (x : S) :
    total w (Function.update g t x) + w (g t) = total w g + w x := by
  have hrest : ∑ u ∈ Finset.univ.erase t, w (Function.update g t x u) =
      ∑ u ∈ Finset.univ.erase t, w (g u) :=
    Finset.sum_congr rfl fun u hu => by rw [Function.update_of_ne (Finset.ne_of_mem_erase hu)]
  have hnew := Finset.add_sum_erase Finset.univ (fun u => w (Function.update g t x u))
    (Finset.mem_univ t)
  have hold := Finset.add_sum_erase Finset.univ (fun u => w (g u)) (Finset.mem_univ t)
  simp only [Function.update_self, hrest] at hnew
  simp only [total]
  omega

/-- Two threads move. -/
theorem total_update_update (w : S → ℕ) (g : T → S) {t u : T} (hne : t ≠ u) (x y : S) :
    total w (Function.update (Function.update g u y) t x) + w (g t) + w (g u) =
      total w g + w x + w y := by
  have houter := total_update w (Function.update g u y) t x
  have hinner := total_update w g u y
  rw [Function.update_of_ne hne] at houter
  omega

/-- A list of entries made by the threads, counted thread by thread. -/
theorem sum_countP_fst {β : Type*} (p : β → Bool) (es : List (T × β)) :
    ∑ t, es.countP (fun e => decide (e.1 = t) && p e.2) = es.countP fun e => p e.2 := by
  induction es with
  | nil => simp
  | cons e es ih =>
      have hone : ∑ t, (if (decide (e.1 = t) && p e.2) = true then 1 else 0) =
          if p e.2 = true then 1 else 0 := by
        cases hp : p e.2 <;> simp
      simp only [List.countP_cons, Finset.sum_add_distrib, ih, hone]

end Threads
