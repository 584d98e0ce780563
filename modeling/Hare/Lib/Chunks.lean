import Mathlib.Data.List.TakeDrop

/-!
# Queues stored in chunks

A queue of items may be stored as a list of non-empty chunks.  Items are taken from the
front: whole chunks disappear and the first chunk left may be cut.  What the queue holds is
the concatenation of the chunks; `flatten_drop` says that taking from the front of the
chunks is taking from the front of that list.
-/

namespace Chunks

variable {α : Type*}

/-- Add a chunk behind, unless it is empty. -/
def push (cs : List (List α)) (c : List α) : List (List α) := if c = [] then cs else cs ++ [c]

/-- Take `n` items from the front. -/
def drop : ℕ → List (List α) → List (List α)
  | _, [] => []
  | n, c :: cs => if c.length ≤ n then drop (n - c.length) cs else c.drop n :: cs

/-- The first `total` items of the first `slots` chunks. -/
def gather (slots total : ℕ) (cs : List (List α)) : List α := ((cs.take slots).flatten).take total

variable {cs ds : List (List α)} {c : List α} {n : ℕ}

@[simp] theorem drop_nil : drop n ([] : List (List α)) = [] := rfl

theorem flatten_push : (push cs c).flatten = cs.flatten ++ c := by
  rw [push]
  split_ifs with h <;> simp [h]

theorem flatten_drop : (drop n cs).flatten = cs.flatten.drop n := by
  induction cs generalizing n with
  | nil => simp
  | cons c cs ih =>
      rw [drop, List.flatten_cons, List.drop_append]
      split_ifs with h
      · rw [ih, List.drop_of_length_le h, List.nil_append]
      · rw [List.flatten_cons, Nat.sub_eq_zero_of_le (by omega), List.drop_zero]

/-- Whole chunks in front. -/
theorem drop_append_of_le (h : cs.flatten.length ≤ n) :
    drop n (cs ++ ds) = drop (n - cs.flatten.length) ds := by
  induction cs generalizing n with
  | nil => simp
  | cons c cs ih =>
      rw [List.flatten_cons, List.length_append] at h
      rw [List.cons_append, drop, if_pos (by omega), ih (by omega), List.flatten_cons,
        List.length_append, Nat.sub_sub]

/-- Taking nothing. -/
theorem drop_zero (h : ∀ c ∈ cs, c ≠ []) : drop 0 cs = cs := by
  cases cs with
  | nil => rfl
  | cons c cs =>
      have hc := List.length_pos_iff.mpr (h c List.mem_cons_self)
      rw [drop, if_neg (by omega), List.drop_zero]

/-- Everything is taken. -/
theorem drop_eq_nil (h : cs.flatten.length ≤ n) : drop n cs = [] := by
  have hall : drop n (cs ++ []) = drop (n - cs.flatten.length) [] := drop_append_of_le h
  simpa using hall

/-- The chunk in which `n` items end is the one that is cut. -/
theorem drop_eq_cons {d : List α} (hpre : cs.flatten.length ≤ n) (hd : d ≠ [])
    (hflat : d ++ ds.flatten = (cs ++ c :: ds).flatten.drop n) :
    drop n (cs ++ c :: ds) = d :: ds := by
  rw [List.flatten_append, List.flatten_cons, List.drop_append, List.drop_of_length_le hpre,
    List.nil_append] at hflat
  rw [drop_append_of_le hpre, drop]
  generalize n - cs.flatten.length = m at hflat ⊢
  have hlen := congrArg List.length hflat
  have hpos := List.length_pos_iff.mpr hd
  simp only [List.length_append, List.length_drop] at hlen
  rw [if_neg (by omega)]
  rw [List.drop_append_of_le_length (by omega)] at hflat
  rw [List.append_cancel_right hflat]

theorem gather_prefix (slots total : ℕ) (cs : List (List α)) :
    gather slots total cs <+: cs.flatten := by
  refine (List.take_prefix _ _).trans ?_
  conv_rhs => rw [← List.take_append_drop slots cs, List.flatten_append]
  exact List.prefix_append _ _

end Chunks
