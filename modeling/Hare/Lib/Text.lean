import Mathlib.Data.List.Basic
import Mathlib.Data.Nat.Basic
import Mathlib.Tactic.IntervalCases

/-!
# Fields of formatted text

The replacement fields of a format string, as lists of characters, and how a field is found
again in a text: `enclosed` reads what stands between two characters that occur nowhere
before, and `enclosed_eq` says when it finds the field.
-/

namespace Text

/-! ## Fields -/

/-- `{:0w}` of an integer: padded with zeros behind the sign. -/
def zeroPadded (w : ℕ) (z : ℤ) : List Char :=
  let digits := Nat.toDigits 10 z.natAbs
  if z < 0 then '-' :: digits.leftpad (w - 1) '0' else digits.leftpad w '0'

@[simp] theorem zeroPadded_natCast (n : ℕ) : zeroPadded 0 n = Nat.toDigits 10 n := by
  simp [zeroPadded, List.leftpad]

/-- `{:w}` of a text: padded with blanks behind. -/
def leftAligned (w : ℕ) (text : List Char) : List Char := text.rightpad w ' '

/-- `{:#x}` of a natural number. -/
def hexadecimal (n : ℕ) : List Char := '0' :: 'x' :: Nat.toDigits 16 n

theorem exists_digitChar_of_mem {b n : ℕ} {ch : Char} (hb : 1 < b) (h : ch ∈ Nat.toDigits b n) :
    ∃ k < b, ch = k.digitChar := by
  induction n using Nat.strongRecOn with
  | ind n ih =>
      rw [Nat.toDigits_eq_if hb] at h
      split at h
      case isTrue hlt => exact ⟨n, hlt, List.mem_singleton.mp h⟩
      case isFalse hge =>
        rcases List.mem_append.mp h with hinit | hlast
        · exact ih (n / b) (Nat.div_lt_self (by omega) hb) hinit
        · exact ⟨n % b, Nat.mod_lt n (by omega), List.mem_singleton.mp hlast⟩

theorem digitChar_injOn {k l : ℕ} (hk : k < 16) (hl : l < 16) (h : k.digitChar = l.digitChar) :
    k = l := by
  interval_cases k <;> interval_cases l <;> first | rfl | exact absurd h (by decide)

/-- A number can be read back from its digits. -/
theorem toDigits_injective {b : ℕ} (hb : 1 < b) (hb' : b ≤ 16) :
    Function.Injective (Nat.toDigits b) := by
  intro n
  induction n using Nat.strongRecOn with
  | ind n ih =>
      intro m h
      have hlen : ∀ k, 0 < (Nat.toDigits b k).length := fun k =>
        List.length_pos_of_ne_nil Nat.toDigits_ne_nil
      have hlt : ∀ k, k % b < 16 := fun k => (Nat.mod_lt k (by omega)).trans_le hb'
      rw [Nat.toDigits_eq_if hb, Nat.toDigits_eq_if (n := m) hb] at h
      split at h <;> split at h
      case isTrue.isTrue hn hm =>
        exact digitChar_injOn (hn.trans_le hb') (hm.trans_le hb') (List.cons.inj h).1
      case isTrue.isFalse hn hm =>
        have heq := congrArg List.length h
        have hpos := hlen (m / b)
        simp only [List.length_append, List.length_singleton] at heq
        omega
      case isFalse.isTrue hn hm =>
        have heq := congrArg List.length h
        have hpos := hlen (n / b)
        simp only [List.length_append, List.length_singleton] at heq
        omega
      case isFalse.isFalse hn hm =>
        obtain ⟨hinit, hlast⟩ := List.append_inj' h rfl
        have hdiv := ih (n / b) (Nat.div_lt_self (by omega) hb) hinit
        have hmod := digitChar_injOn (hlt n) (hlt m) (List.cons.inj hlast).1
        rw [← Nat.div_add_mod n b, ← Nat.div_add_mod m b, hdiv, hmod]

theorem hexadecimal_injective : Function.Injective hexadecimal := fun _ _ h =>
  toDigits_injective (by decide) (by decide) (List.cons.inj (List.cons.inj h).2).2

/-! ## Delimiters -/

/-- The text has none of the delimiters. -/
def Free (delims text : List Char) : Prop := ∀ ch ∈ text, ch ∉ delims

instance decidableFree (delims text : List Char) : Decidable (Free delims text) :=
  List.decidableBAll (· ∉ delims) text

theorem Free.append {delims s t : List Char} (hs : Free delims s) (ht : Free delims t) :
    Free delims (s ++ t) := fun ch h => (List.mem_append.mp h).elim (hs ch) (ht ch)

/-- Digits are free of other characters. -/
theorem free_toDigits {delims : List Char} {b : ℕ} (hb : 1 < b)
    (h : ∀ k < b, k.digitChar ∉ delims) (n : ℕ) : Free delims (Nat.toDigits b n) := by
  intro ch hch
  obtain ⟨k, hk, rfl⟩ := exists_digitChar_of_mem hb hch
  exact h k hk

theorem free_zeroPadded {delims : List Char} (hminus : '-' ∉ delims)
    (h : ∀ k < 10, k.digitChar ∉ delims) (w : ℕ) (z : ℤ) : Free delims (zeroPadded w z) := by
  have hpad : ∀ v, Free delims ((Nat.toDigits 10 z.natAbs).leftpad v '0') := by
    intro v
    refine Free.append (fun ch hch => ?_) (free_toDigits (by omega) h _)
    rw [(List.mem_replicate.mp hch).2]
    exact h 0 (by omega)
  unfold zeroPadded
  dsimp only
  split
  · exact fun ch hch => (List.mem_cons.mp hch).elim (fun he => he ▸ hminus) (hpad _ ch)
  · exact hpad w

theorem free_leftAligned {delims text : List Char} (hblank : ' ' ∉ delims)
    (h : Free delims text) (w : ℕ) : Free delims (leftAligned w text) :=
  Free.append h fun _ hch => (List.mem_replicate.mp hch).2 ▸ hblank

/-- What stands between the first `start` and the first `stop`, with `start`. -/
def enclosed (start stop : Char) (text : List Char) : List Char :=
  (text.takeWhile (· ≠ stop)).dropWhile (· ≠ start)

/-- A field is found behind a text without delimiters. -/
theorem enclosed_eq {start stop : Char} {before field after : List Char}
    (hbefore : Free [start, stop] before) (hfield : Free [stop] (start :: field)) :
    enclosed start stop (before ++ start :: field ++ stop :: after) = start :: field := by
  have hinit : ∀ ch ∈ before ++ start :: field, decide (ch ≠ stop) = true := by
    intro ch hch
    rcases List.mem_append.mp hch with h | h
    · exact decide_eq_true fun he => hbefore ch h (by simp [he])
    · exact decide_eq_true fun he => hfield ch h (by simp [he])
  have hskip : ∀ ch ∈ before, decide (ch ≠ start) = true := fun ch h =>
    decide_eq_true fun he => hbefore ch h (by simp [he])
  rw [enclosed, List.takeWhile_append_of_pos hinit, List.takeWhile_cons_of_neg (by simp),
    List.append_nil, List.dropWhile_append_of_pos hskip, List.dropWhile_cons_of_neg (by simp)]

end Text
