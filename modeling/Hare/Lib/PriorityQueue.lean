import Mathlib.Data.List.MinMax

/-!
# Priority queues

A priority queue is the list of its elements together with a rule that says which of the
greatest ones is on top.  The order of the elements that are equally great is up to the
implementation, so the rule is a parameter: `Top lt` holds any choice of an element that
no other one exceeds, and a result about every `Top lt` is a result about every
implementation.
-/

namespace PriorityQueue

variable {α : Type*}

/-- A rule for the element on top of a queue whose elements are compared by `lt`. -/
structure Top (lt : α → α → Prop) where
  /-- The element on top. -/
  top : List α → Option α
  /-- The top is an element of the queue. -/
  mem_of_top : ∀ {q : List α} {x : α}, top q = some x → x ∈ q
  /-- Only the empty queue has no top. -/
  eq_nil_of_top : ∀ {q : List α}, top q = none → q = []
  /-- No element exceeds the top. -/
  not_lt_of_top : ∀ {q : List α} {x y : α}, top q = some x → y ∈ q → ¬ lt x y

namespace Top

/-- The first element with the greatest key. -/
def ofKey {K : Type*} [LinearOrder K] (key : α → K) : Top (fun x y => key x < key y) where
  top := List.argmax key
  mem_of_top h := List.argmax_mem h
  eq_nil_of_top h := List.argmax_eq_none.mp h
  not_lt_of_top h hy := not_lt.mpr (List.le_of_mem_argmax hy h)

variable {lt : α → α → Prop} (P : Top lt) {q : List α} {x : α}

/-- Only an element that exceeds the top takes its place. -/
def Stable : Prop :=
  ∀ (q : List α) (x y : α), P.top q = some x → ¬ lt x y → P.top (q ++ [y]) = some x

theorem stable_ofKey {K : Type*} [LinearOrder K] (key : α → K) : (ofKey key).Stable := by
  intro q x y htop hlt
  have hmax : List.argmax key q = some x := htop
  simp [ofKey, List.argmax_concat, hmax, hlt]

/-- The top stays when elements are added that do not exceed it. -/
theorem Stable.append {P : Top lt} (hP : P.Stable) {ys : List α} (htop : P.top q = some x)
    (hys : ∀ y ∈ ys, ¬ lt x y) : P.top (q ++ ys) = some x := by
  induction ys generalizing q with
  | nil => simpa using htop
  | cons y ys ih =>
      have hy := hP q x y htop (hys y List.mem_cons_self)
      simpa using ih hy fun z hz => hys z (List.mem_cons_of_mem y hz)

theorem top_singleton (x : α) : P.top [x] = some x := by
  cases h : P.top [x] with
  | none => cases P.eq_nil_of_top h
  | some y => rw [List.mem_singleton.mp (P.mem_of_top h)]

variable [DecidableEq α]

/-- The queue without its top. -/
def pop (q : List α) : List α :=
  match P.top q with
  | none => q
  | some x => q.erase x

theorem pop_of_top (h : P.top q = some x) : P.pop q = q.erase x := by
  simp only [pop, h]

theorem perm_of_top (h : P.top q = some x) : q.Perm (x :: P.pop q) := by
  rw [P.pop_of_top h]
  exact List.perm_cons_erase (P.mem_of_top h)

theorem length_of_top (h : P.top q = some x) : q.length = (P.pop q).length + 1 :=
  (P.perm_of_top h).length_eq

theorem mem_iff_of_top {y : α} (h : P.top q = some x) : y ∈ q ↔ y = x ∨ y ∈ P.pop q := by
  rw [(P.perm_of_top h).mem_iff, List.mem_cons]

theorem mem_of_mem_pop {y : α} (h : y ∈ P.pop q) : y ∈ q := by
  unfold pop at h
  split at h
  · exact h
  · exact List.mem_of_mem_erase h

theorem pop_singleton (x : α) : P.pop [x] = [] := by
  rw [P.pop_of_top (P.top_singleton x), List.erase_cons_head]

end Top

end PriorityQueue
