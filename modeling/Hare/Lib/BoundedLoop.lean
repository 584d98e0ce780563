import Mathlib.Data.Nat.Notation

/-!
# Loops with a bound on their rounds

A loop is a function `step : σ → Except ε (σ ⊕ β)`: in a state, a round leads to the next state,
ends the loop with a result, or fails.  `loop` performs rounds up to a bound, and fails with a
given error when the bound is reached.

What a loop does is stated once, by an invariant that also says how many rounds are left
(`Turn`).  From it follow both that the loop ends when the bound is large enough (`loop_spec`),
and that it ends in no other way whatever the bound is (`loop_cases`).  `loop_ne_ok` is for loops
that fail or go on for ever.
-/

namespace BoundedLoop

variable {σ β ε : Type*}

/-- Perform rounds until one ends the loop. -/
def loop (timeout : ε) (step : σ → Except ε (σ ⊕ β)) : ℕ → σ → Except ε β
  | 0, _ => .error timeout
  | fuel + 1, s =>
    match step s with
    | .error e => .error e
    | .ok (.inl s') => loop timeout step fuel s'
    | .ok (.inr b) => .ok b

/-- A round with at most `k` rounds behind it: it leads to a state with fewer of them, or the loop
ends in a way that `Q` describes. -/
inductive Turn (I : ℕ → σ → Prop) (Q : Except ε β → Prop) (k : ℕ) : Except ε (σ ⊕ β) → Prop
  | next {s : σ} {k' : ℕ} (lt : k' < k) (inv : I k' s) : Turn I Q k (.ok (.inl s))
  | done {b : β} (post : Q (.ok b)) : Turn I Q k (.ok (.inr b))
  | fail {e : ε} (post : Q (.error e)) : Turn I Q k (.error e)

variable {timeout : ε} {step : σ → Except ε (σ ⊕ β)} {I : ℕ → σ → Prop} {Q : Except ε β → Prop}
  {s : σ} {k : ℕ}

/-- The loop ends, unless its rounds are too few. -/
theorem loop_turns (hstep : ∀ k s, I k s → Turn I Q k (step s)) (hs : I k s) (fuel : ℕ) :
    fuel ≤ k ∧ loop timeout step fuel s = .error timeout ∨ Q (loop timeout step fuel s) := by
  induction fuel generalizing k s with
  | zero => exact .inl ⟨Nat.zero_le k, rfl⟩
  | succ fuel ih =>
      have hturn := hstep k s hs
      rw [loop]
      generalize step s = x at hturn
      cases hturn with
      | next lt inv => exact (ih inv).imp_left fun h => ⟨Nat.lt_of_le_of_lt h.1 lt, h.2⟩
      | done post => exact .inr post
      | fail post => exact .inr post

/-- With enough rounds the loop ends. -/
theorem loop_spec (hstep : ∀ k s, I k s → Turn I Q k (step s)) (hs : I k s) {fuel : ℕ}
    (hfuel : k < fuel) : Q (loop timeout step fuel s) :=
  (loop_turns hstep hs fuel).resolve_left fun h => Nat.not_lt.mpr h.1 hfuel

/-- With any number of rounds it ends so or not at all. -/
theorem loop_cases (hstep : ∀ k s, I k s → Turn I Q k (step s)) (hs : I k s) (fuel : ℕ) :
    loop timeout step fuel s = .error timeout ∨ Q (loop timeout step fuel s) :=
  (loop_turns hstep hs fuel).imp_left And.right

/-- **A loop whose rounds never end it** does not return. -/
theorem loop_ne_ok {I : σ → Prop}
    (hstep : ∀ s r, I s → step s = .ok r → ∃ s', r = .inl s' ∧ I s') (hs : I s) (fuel : ℕ)
    (b : β) : loop timeout step fuel s ≠ .ok b := by
  induction fuel generalizing s with
  | zero => exact fun h => nomatch h
  | succ fuel ih =>
      rw [loop]
      cases hr : step s with
      | error e => exact fun h => nomatch h
      | ok r =>
          obtain ⟨s', rfl, hs'⟩ := hstep s r hs hr
          exact ih hs'

end BoundedLoop
