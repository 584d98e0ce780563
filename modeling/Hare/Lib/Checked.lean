import Mathlib.Algebra.Ring.Int.Defs
import Mathlib.Algebra.Ring.Nat

/-!
# Checked 32-bit arithmetic

A computation in `int` can be read in three ways: with values that wrap around, with exact
integers, and with values that are given up as soon as one of them does not fit.  `Checked` is
the third.  A formula written for any type with the four operations can be read in all three,
and `Tracks` says that the readings agree; it holds as long as every intermediate value fits.
-/

/-- A 32-bit value, or what is left of it once a value did not fit. -/
inductive Checked
  | value (a : Int32)
  | overflow
  deriving DecidableEq, Repr

namespace Checked

/-- The exact value is a 32-bit one. -/
def InRange (v : ℤ) : Prop := -2 ^ 31 ≤ v ∧ v < 2 ^ 31

instance (v : ℤ) : Decidable (InRange v) :=
  inferInstanceAs (Decidable (-2 ^ 31 ≤ v ∧ v < 2 ^ 31))

theorem inRange_toInt (a : Int32) : InRange a.toInt := ⟨a.le_toInt, a.toInt_lt⟩

theorem bmod_eq_of_inRange {v : ℤ} (h : InRange v) : v.bmod (2 ^ 32) = v := by
  obtain ⟨hlo, hhi⟩ := h
  exact Int.bmod_eq_of_le (by omega) (by omega)

/-- The exact value, if it fits. -/
def fit (v : ℤ) : Checked := if InRange v then value (Int32.ofInt v) else overflow

/-- An operation on two values. -/
def lift (op : ℤ → ℤ → ℤ) : Checked → Checked → Checked
  | value a, value b => fit (op a.toInt b.toInt)
  | _, _ => overflow

instance (n : ℕ) : OfNat Checked n := ⟨fit n⟩
instance : Add Checked := ⟨lift (· + ·)⟩
instance : Sub Checked := ⟨lift (· - ·)⟩
instance : Mul Checked := ⟨lift (· * ·)⟩
/-- Division rounds towards zero. -/
instance : Div Checked := ⟨lift Int.tdiv⟩

@[simp] theorem overflow_add (x : Checked) : overflow + x = overflow := rfl
@[simp] theorem overflow_sub (x : Checked) : overflow - x = overflow := rfl
@[simp] theorem overflow_mul (x : Checked) : overflow * x = overflow := rfl
@[simp] theorem overflow_div (x : Checked) : overflow / x = overflow := rfl

@[simp] theorem mul_overflow (x : Checked) : x * overflow = overflow := by cases x <;> rfl

theorem fit_eq_overflow {v : ℤ} (h : ¬ InRange v) : fit v = overflow := if_neg h

/-- An operation on values that fit is the exact one, if its result fits. -/
theorem lift_fit {op : ℤ → ℤ → ℤ} {u v : ℤ} (hu : InRange u) (hv : InRange v) :
    lift op (fit u) (fit v) = fit (op u v) := by
  rw [fit, fit, if_pos hu, if_pos hv, lift, Int32.toInt_ofInt_of_le hu.1 hu.2,
    Int32.toInt_ofInt_of_le hv.1 hv.2]

theorem fit_add {u v : ℤ} (hu : InRange u) (hv : InRange v) : fit u + fit v = fit (u + v) :=
  lift_fit hu hv

theorem fit_mul {u v : ℤ} (hu : InRange u) (hv : InRange v) : fit u * fit v = fit (u * v) :=
  lift_fit hu hv

/-- The checked value `x` did not overflow, it is the wrapping value `a`, and that is the exact
value `v`. -/
structure Tracks (x : Checked) (a : Int32) (v : ℤ) : Prop where
  checked : x = value a
  exact : a.toInt = v

namespace Tracks

variable {x y : Checked} {a b : Int32} {u v : ℤ}

theorem of_toInt (a : Int32) : Tracks (value a) a a.toInt := ⟨rfl, rfl⟩

theorem of_eq (h : Tracks x a u) (heq : v = u) : Tracks x a v := heq ▸ h

theorem inRange (h : Tracks x a v) : InRange v := h.exact ▸ inRange_toInt a

/-- A literal that fits. -/
theorem ofNat (n : ℕ) (h : n < 2 ^ 31) :
    Tracks (OfNat.ofNat n) (OfNat.ofNat n) (n : ℤ) := by
  have hfit : InRange (n : ℤ) := ⟨by omega, by omega⟩
  refine ⟨?_, ?_⟩
  · change fit (n : ℤ) = value (Int32.ofNat n)
    rw [fit, if_pos hfit]
    rfl
  · exact (Int32.toInt_ofNat_of_lt h)

theorem lift {op : ℤ → ℤ → ℤ} {c : Int32} (hx : Tracks x a u) (hy : Tracks y b v)
    (hc : c.toInt = (op a.toInt b.toInt).bmod (2 ^ 32)) (hr : InRange (op u v)) :
    Tracks (Checked.lift op x y) c (op u v) := by
  obtain ⟨rfl, rfl⟩ := hx
  obtain ⟨rfl, rfl⟩ := hy
  rw [bmod_eq_of_inRange hr] at hc
  refine ⟨?_, hc⟩
  change fit (op a.toInt b.toInt) = value c
  rw [fit, if_pos hr, ← hc, Int32.ofInt_toInt]

theorem add (hx : Tracks x a u) (hy : Tracks y b v) (hr : InRange (u + v)) :
    Tracks (x + y) (a + b) (u + v) :=
  lift hx hy (Int32.toInt_add a b) hr

theorem sub (hx : Tracks x a u) (hy : Tracks y b v) (hr : InRange (u - v)) :
    Tracks (x - y) (a - b) (u - v) :=
  lift hx hy (Int32.toInt_sub a b) hr

theorem mul (hx : Tracks x a u) (hy : Tracks y b v) (hr : InRange (u * v)) :
    Tracks (x * y) (a * b) (u * v) :=
  lift hx hy (Int32.toInt_mul a b) hr

/-- The quotient of a value that is not negative fits and is rounded down. -/
theorem div (hx : Tracks x a u) (hy : Tracks y b v) (hu : 0 ≤ u) (hv : 0 < v) :
    Tracks (x / y) (a / b) (u / v) := by
  have hr : InRange (u.tdiv v) := by
    rw [Int.tdiv_eq_ediv_of_nonneg hu]
    have hle := Int.ediv_le_self v hu
    have hpos := Int.ediv_nonneg hu (Int.le_of_lt hv)
    exact ⟨by omega, Int.lt_of_le_of_lt hle hx.inRange.2⟩
  rw [← Int.tdiv_eq_ediv_of_nonneg hu]
  exact lift hx hy (Int32.toInt_div a b) hr

end Tracks

end Checked
