import Hare.Lib.Threshold

/-!
# The upper bound of a key

In a list that is ordered by a key, the elements whose key is at most a given one come first.
`upperBound` is their number.  `bisect` finds it by halving the list, as library functions do; in a
list that is not ordered it comes to some position too, and `bisection` is the tree of the
comparisons it makes.
-/

namespace UpperBound

open List Threshold

variable {α κ : Type*} [LinearOrder κ] {key : α → κ} {x : κ} {l : List α} {i : ℕ} {a : α}

/-- How many elements come before the first one with a larger key. -/
def upperBound (key : α → κ) (x : κ) (l : List α) : ℕ := (l.takeWhile (key · ≤ x)).length

theorem upperBound_cons (b : α) :
    upperBound key x (b :: l) = if key b ≤ x then upperBound key x l + 1 else 0 := by
  unfold upperBound
  split
  case isTrue h => rw [takeWhile_cons_of_pos (by simpa using h), length_cons]
  case isFalse h => rw [takeWhile_cons_of_neg (by simpa using h), length_nil]

theorem upperBound_le_length : upperBound key x l ≤ l.length := by
  have hle : l.takeWhile (key · ≤ x) <+: l := takeWhile_prefix _
  exact hle.length_le

/-- **In an ordered list the elements up to a key are counted.** -/
theorem lt_upperBound_iff (h : l.Pairwise fun a b => key a < key b) (ha : l[i]? = some a) :
    i < upperBound key x l ↔ key a ≤ x := by
  induction l generalizing i with
  | nil => cases ha
  | cons b l ih =>
      obtain ⟨hb, hl⟩ := pairwise_cons.mp h
      rw [upperBound_cons]
      cases i with
      | zero =>
          obtain rfl : b = a := Option.some.inj ha
          by_cases hle : key b ≤ x
          · simp [hle]
          · simp [hle]
      | succ i =>
          have hmem : a ∈ l := mem_of_getElem? ha
          by_cases hle : key b ≤ x
          · rw [if_pos hle, Nat.succ_lt_succ_iff]
            exact ih hl ha
          · rw [if_neg hle]
            exact ⟨fun hlt => absurd hlt (Nat.not_lt_zero _),
              fun hax => absurd ((hb a hmem).le.trans hax) hle⟩

theorem upperBound_append_of_lt {l' : List α} (h : x < key a) :
    upperBound key x (l ++ a :: l') = upperBound key x l := by
  induction l with
  | nil => rw [nil_append, upperBound_cons, if_neg (not_le.mpr h), upperBound, takeWhile_nil,
      length_nil]
  | cons b l ih => rw [cons_append, upperBound_cons, upperBound_cons, ih]

theorem upperBound_append_of_le {l' : List α} (h : ∀ b ∈ l, key b ≤ x) :
    upperBound key x (l ++ l') = l.length + upperBound key x l' := by
  induction l with
  | nil => rw [nil_append, length_nil, Nat.zero_add]
  | cons b l ih =>
      obtain ⟨hb, hl⟩ := forall_mem_cons.mp h
      rw [cons_append, upperBound_cons, if_pos hb, ih hl, length_cons]
      exact Nat.add_right_comm _ _ 1

/-! ## The search -/

/-- A search for the first larger key by halving, in a list of at most `n` elements. -/
def bisect (key : α → κ) (x : κ) : ℕ → List α → ℕ
  | 0, _ => 0
  | n + 1, l =>
    match l.drop (l.length / 2) with
    | [] => 0
    | middle :: right =>
      if x < key middle then bisect key x n (l.take (l.length / 2))
      else l.length / 2 + 1 + bisect key x n right

/-- The comparisons of the search; `first` is the position of the list in the whole one. -/
def bisection (key : α → κ) : ℕ → ℕ → List α → Tree κ ℕ
  | 0, first, _ => .leaf first
  | n + 1, first, l =>
    match l.drop (l.length / 2) with
    | [] => .leaf first
    | middle :: right =>
      .node (key middle) (bisection key n first (l.take (l.length / 2)))
        (bisection key n (first + (l.length / 2 + 1)) right)

theorem eval_bisection (n first : ℕ) (l : List α) :
    (bisection key n first l).eval x = first + bisect key x n l := by
  induction n generalizing first l with
  | zero => rfl
  | succ n ih =>
      rw [bisection, bisect]
      split
      · rfl
      · rw [Tree.eval]
        split
        · exact ih _ _
        · rw [ih, Nat.add_assoc]

/-- The middle element, and what is left of the list on either side of it. -/
theorem eq_of_drop_half {middle : α} {right : List α}
    (h : l.drop (l.length / 2) = middle :: right) :
    l.take (l.length / 2) ++ middle :: right = l ∧ (l.take (l.length / 2)).length = l.length / 2 ∧
      l.length / 2 + 1 + right.length = l.length := by
  have hsplit : l.take (l.length / 2) ++ middle :: right = l := by rw [← h, take_append_drop]
  have hlen : (l.take (l.length / 2)).length = l.length / 2 := by
    rw [length_take]
    omega
  have htotal := congrArg length hsplit
  rw [length_append, hlen, length_cons] at htotal
  exact ⟨hsplit, hlen, by omega⟩

theorem eq_nil_of_drop_half (h : l.drop (l.length / 2) = []) : l = [] := by
  have hlen := drop_eq_nil_iff.mp h
  exact length_eq_zero_iff.mp (by omega)

theorem bisect_le_length {n : ℕ} (h : l.length ≤ n) : bisect key x n l ≤ l.length := by
  induction n generalizing l with
  | zero => exact Nat.zero_le _
  | succ n ih =>
      rw [bisect]
      split
      · exact Nat.zero_le _
      · next middle right hdrop =>
          obtain ⟨-, hlen, htotal⟩ := eq_of_drop_half hdrop
          split
          · exact (ih (by omega)).trans (by omega)
          · have := ih (l := right) (by omega)
            omega

/-- The search compares with the first element before it comes to it. -/
theorem bisect_pos {n : ℕ} (h : l.length ≤ n) (ha : l.head? = some a) (hle : key a ≤ x) :
    0 < bisect key x n l := by
  induction n generalizing l with
  | zero =>
      rw [length_eq_zero_iff.mp (Nat.le_zero.mp h)] at ha
      cases ha
  | succ n ih =>
      rw [bisect]
      split
      · next hdrop =>
          rw [eq_nil_of_drop_half hdrop] at ha
          cases ha
      · next middle right hdrop =>
          obtain ⟨hsplit, hlen, htotal⟩ := eq_of_drop_half hdrop
          split
          · next hlt =>
              cases hleft : l.take (l.length / 2) with
              | nil =>
                  rw [← hsplit, hleft] at ha
                  cases ha
                  exact absurd hle (not_le.mpr hlt)
              | cons b left =>
                  rw [← hsplit, hleft] at ha
                  rw [hleft] at hlen
                  exact ih (by omega) ha
          · omega

/-- **In an ordered list the search counts the elements up to a key.** -/
theorem bisect_eq_upperBound {n : ℕ} (hn : l.length ≤ n)
    (h : l.Pairwise fun a b => key a < key b) : bisect key x n l = upperBound key x l := by
  induction n generalizing l with
  | zero =>
      rw [length_eq_zero_iff.mp (Nat.le_zero.mp hn)]
      rfl
  | succ n ih =>
      rw [bisect]
      split
      · next hdrop =>
          rw [eq_nil_of_drop_half hdrop]
          rfl
      · next middle right hdrop =>
          obtain ⟨hsplit, hlen, htotal⟩ := eq_of_drop_half hdrop
          rw [← hsplit] at h
          obtain ⟨hleft, hright, hbefore⟩ := pairwise_append.mp h
          split
          · next hlt =>
              rw [ih (by omega) hleft, ← upperBound_append_of_lt hlt, hsplit]
          · next hge =>
              have hall : ∀ b ∈ l.take (l.length / 2), key b ≤ x := fun b hb =>
                (hbefore b hb middle mem_cons_self).le.trans (not_lt.mp hge)
              have hcount : upperBound key x (_ ++ middle :: right) = _ :=
                upperBound_append_of_le hall
              rw [hsplit, hlen, upperBound_cons, if_pos (not_lt.mp hge)] at hcount
              rw [ih (by omega) (pairwise_cons.mp hright).2, hcount]
              omega

end UpperBound
