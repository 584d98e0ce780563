import Hare.Net.Find

/-!
# The bounds of the failure table

`get_next` increments both of its indices before it uses them.  In the last round of its loop the
first one is the size of the pattern, and an entry is stored for it, to a table with as many
entries as the pattern has bytes.  So the function does not stay within its arrays for any pattern
but the empty one, also when there is a byte to be read behind the pattern.
-/

namespace Hare.Net

open LabelledRun BoundedLoop

variable {memory : List UInt8} {size : ℕ}

theorem storeAt_eq_ok {α : Type} {xs ys : List α} {n : ℕ} {x : α}
    (h : storeAt .faults xs n x = .ok ys) : n < xs.length ∧ ys.length = xs.length := by
  rw [storeAt] at h
  split at h
  case isTrue hlt =>
    cases h
    exact ⟨hlt, List.length_set⟩
  case isFalse => cases h

/-- A round does not come to the end of the pattern, where it would have to store. -/
theorem getNextStep_eq_ok {s : NextState} {r : NextState ⊕ List Int32}
    (hlen : s.next.length = size) (hj : s.j < size)
    (h : getNextStep .faults memory size s = .ok r) :
    ∃ s', r = .inl s' ∧ s'.next.length = size ∧ s'.j < size := by
  rw [getNextStep, if_pos hj] at h
  obtain ⟨agree, -, h⟩ := bind_eq_ok h
  split at h
  case isTrue =>
    obtain ⟨n, -, h⟩ := bind_eq_ok h
    obtain ⟨next, hstore, h⟩ := bind_eq_ok h
    cases h
    obtain ⟨hlt, hsame⟩ := storeAt_eq_ok hstore
    exact ⟨_, rfl, hsame.trans hlen, hlen ▸ hlt⟩
  case isFalse =>
    obtain ⟨k, -, h⟩ := bind_eq_ok h
    cases h
    exact ⟨_, rfl, hlen, hj⟩

theorem getNext_ne_ok (hsize : 0 < size) (fuel : ℕ) (next : List Int32) :
    getNext .faults fuel memory size ≠ .ok next := by
  refine loop_ne_ok (I := fun s => s.next.length = size ∧ s.j < size) ?_ ?_ fuel next
  · intro s r hs hr
    exact getNextStep_eq_ok hs.1 hs.2 hr
  · exact ⟨List.length_replicate, hsize⟩

/-- **Only for the empty pattern are all accesses within bounds**, whatever can be read behind
it. -/
theorem getNext_bounded_iff (pattern behind : List UInt8) :
    (∃ fuel next, getNext .faults fuel (pattern ++ behind) pattern.length = .ok next) ↔
      pattern.length = 0 := by
  constructor
  · rintro ⟨fuel, next, h⟩
    by_contra hne
    exact getNext_ne_ok (Nat.pos_of_ne_zero hne) fuel next h
  · intro hnil
    rw [hnil]
    exact ⟨1, [], rfl⟩

/-- A pattern of two bytes: the second round reads the byte behind it and, if there is one, stores
behind the table. -/
theorem getNext_two :
    getNext .faults 3 [7, 8] 2 = .error .outOfBounds ∧
      getNext .faults 3 [7, 8, 0] 2 = .error .outOfBounds ∧
      ¬ ∃ fuel next, getNext .faults fuel [7, 8] 2 = .ok next := by
  refine ⟨by decide, by decide, ?_⟩
  rintro ⟨fuel, next, h⟩
  exact getNext_ne_ok (by decide) fuel next h

end Hare.Net
