import Mathlib.Data.List.Infix
import Mathlib.Order.Bounds.Basic

/-!
# Search with a failure table

The search for a pattern that never goes back in the text, over any pattern `p` and text `t` given
as functions of the index.  A state of the search is a starting point `s` and an index `i`: the
text from `s` up to `i` agrees with the pattern (`Live`), and every starting point before `s` has
been ruled out by a character that was looked at (`Scan`).  The number of characters that agree is
`i - s`; before the first comparison of a starting point behind `i` it is -1.

The table says where to go on when the character at `i` does not agree: to the next starting point
the comparisons so far leave possible (`IsNext`).  A starting point may be skipped when it
disagrees earlier, or when it would compare `i` with the same character once more.  The table is
built by the same search, with the pattern as the text and without the starting point 0.
-/

namespace PrefixMatch

variable {α : Type*} {p t : ℕ → α} {m lo n s i d k : ℕ}

/-- From `s` up to `i` the text agrees with the pattern. -/
def Live (p t : ℕ → α) (s i : ℕ) : Prop := ∀ l, s + l < i → t (s + l) = p l

/-- One of the first `m` characters disagrees, at an index before `n`. -/
def Dead (p t : ℕ → α) (m n s : ℕ) : Prop := ∃ l < m, s + l < n ∧ t (s + l) ≠ p l

/-- The first `m` characters of the pattern occur at `s` in a text of length `n`. -/
def OccursAt (p t : ℕ → α) (m n s : ℕ) : Prop := s + m ≤ n ∧ ∀ l < m, t (s + l) = p l

/-- A search from `lo` on that has looked at the text before `n`, is at the index `i`, and has
ruled out all starting points before `s`. -/
structure Scan (p t : ℕ → α) (m lo n s i : ℕ) : Prop where
  le_start : lo ≤ s
  start_le : s ≤ i + 1
  live : Live p t s i
  dead : ∀ s', lo ≤ s' → s' < s → Dead p t m n s'

/-- The starting points before `d`, counted from the current one, need not be tried when the
character behind `k` that agree does not. -/
structure IsNext (p : ℕ → α) (k d : ℕ) : Prop where
  pos : 1 ≤ d
  le : d ≤ k + 1
  live : Live p p d k
  skip : ∀ d', 1 ≤ d' → d' < d → (∃ l, d' + l < k ∧ p (d' + l) ≠ p l) ∨ p (k - d') = p k

theorem isNext_zero (p : ℕ → α) : IsNext p 0 1 where
  pos := le_rfl
  le := le_rfl
  live _ hl := absurd hl (Nat.not_lt_zero _)
  skip _ h₁ h₂ := absurd h₂ (Nat.not_lt.mpr h₁)

theorem Dead.mono {n' : ℕ} (h : Dead p t m n s) (hn : n ≤ n') : Dead p t m n' s := by
  obtain ⟨l, hl, hlt, hne⟩ := h
  exact ⟨l, hl, hlt.trans_le hn, hne⟩

namespace Scan

theorem mono {n' : ℕ} (h : Scan p t m lo n s i) (hn : n ≤ n') : Scan p t m lo n' s i :=
  ⟨h.le_start, h.start_le, h.live, fun s' h₁ h₂ => (h.dead s' h₁ h₂).mono hn⟩

/-- A search that has not looked at anything. -/
theorem start (p t : ℕ → α) (m n : ℕ) (h₁ : i ≤ lo) (h₂ : lo ≤ i + 1) :
    Scan p t m lo n lo i where
  le_start := le_rfl
  start_le := h₂
  live l hl := by omega
  dead s' h₁ h₂ := absurd h₂ (Nat.not_lt.mpr h₁)

/-- The character at `i` agrees, or the starting point is behind it. -/
theorem advance (h : Scan p t m lo n s i) (hn : n ≤ i + 1) (hnext : s ≤ i → t i = p (i - s)) :
    Scan p t m lo (i + 1) s (i + 1) where
  le_start := h.le_start
  start_le := h.start_le.trans (Nat.le_succ _)
  live l hl := by
    rcases Nat.lt_or_ge (s + l) i with hlt | hge
    · exact h.live l hlt
    · have hi : s + l = i := by omega
      have hl : l = i - s := by omega
      rw [hi, hnext (by omega), hl]
  dead s' h₁ h₂ := (h.dead s' h₁ h₂).mono hn

/-- The character at `i` does not agree. -/
theorem fallback (h : Scan p t m lo n s i) (hn : n ≤ i + 1) (hs : s ≤ i) (hm : i - s < m)
    (hne : t i ≠ p (i - s)) (hd : IsNext p (i - s) d) : Scan p t m lo (i + 1) (s + d) i where
  le_start := h.le_start.trans (Nat.le_add_right s d)
  start_le := by
    have := hd.le
    omega
  live l hl := by
    rw [Nat.add_assoc, h.live (d + l) (by omega)]
    exact hd.live l (by omega)
  dead s' h₁ h₂ := by
    rcases Nat.lt_trichotomy s' s with hlt | rfl | hgt
    · exact (h.dead s' h₁ hlt).mono hn
    · refine ⟨i - s', hm, by omega, ?_⟩
      rwa [Nat.add_sub_cancel' hs]
    · obtain ⟨d', rfl⟩ : ∃ d', s' = s + d' := ⟨s' - s, by omega⟩
      rcases hd.skip d' (by omega) (by omega) with ⟨l, hl, hl'⟩ | hsame
      · -- the starting point disagrees where the current one agrees
        refine ⟨l, by omega, by omega, ?_⟩
        rwa [Nat.add_assoc, h.live (d' + l) (by omega)]
      · -- it would compare the same character once more
        have hle := hd.le
        refine ⟨i - s - d', by omega, by omega, ?_⟩
        rwa [show s + d' + (i - s - d') = i by omega, hsame]

/-- Enough characters agree: this is the first occurrence. -/
theorem isLeast (h : Scan p t m lo n s i) (hi : i = s + m) {N : ℕ} (hN : i ≤ N) :
    IsLeast { s | lo ≤ s ∧ OccursAt p t m N s } s := by
  refine ⟨⟨h.le_start, by omega, fun l hl => h.live l (by omega)⟩, ?_⟩
  rintro s' ⟨hlo, -, hoccurs⟩
  by_contra hlt
  obtain ⟨l, hl, -, hne⟩ := h.dead s' hlo (Nat.not_le.mp hlt)
  exact hne (hoccurs l hl)

/-- The text has come to its end: there is no occurrence. -/
theorem not_occursAt (h : Scan p t m lo n s i) (hi : i < s + m) {s' : ℕ} (hlo : lo ≤ s') :
    ¬ OccursAt p t m i s' := by
  rintro ⟨hle, hoccurs⟩
  obtain ⟨l, hl, -, hne⟩ := h.dead s' hlo (by omega)
  exact hne (hoccurs l hl)

end Scan

/-! ### Moves -/

/-- A search in a text of length `n` that is at the index `i`, with at most `k` moves to go.  Each
move takes the index or the starting point further, and neither of them goes behind the text. -/
structure Search (p t : ℕ → α) (m lo n k s i : ℕ) : Prop where
  scan : Scan p t m lo (min n (i + 1)) s i
  le : i ≤ n
  moves : k + i + s = 2 * n + 1

namespace Search

/-- To the next character. -/
theorem advance (h : Search p t m lo n k s i) (hi : i < n) (hnext : s ≤ i → t i = p (i - s)) :
    k - 1 < k ∧ Search p t m lo n (k - 1) s (i + 1) := by
  have hmoves := h.moves
  have hs := h.scan.start_le
  refine ⟨by omega, ?_, hi, by omega⟩
  exact (h.scan.advance (Nat.min_le_right _ _) hnext).mono (by omega)

/-- To the next starting point. -/
theorem fallback (h : Search p t m lo n k s i) (hi : i < n) (hs : s ≤ i) (hm : i < s + m)
    (hne : t i ≠ p (i - s)) (hd : IsNext p (i - s) d) :
    k - d < k ∧ Search p t m lo n (k - d) (s + d) i := by
  have hmoves := h.moves
  have hpos := hd.pos
  have hle := hd.le
  refine ⟨by omega, ?_, h.le, by omega⟩
  have hscan := h.scan.fallback (Nat.min_le_right _ _) hs (Nat.sub_lt_left_of_lt_add hs hm) hne hd
  exact hscan.mono (by omega)

end Search

/-! ### The table -/

namespace Scan

/-- The longest border is always an entry. -/
theorem isNext (h : Scan p p m 1 i s i) : IsNext p i s where
  pos := h.le_start
  le := h.start_le
  live := h.live
  skip d' h₁ h₂ := by
    obtain ⟨l, -, hlt, hne⟩ := h.dead d' h₁ h₂
    exact Or.inl ⟨l, hlt, hne⟩

/-- When the character behind it is the one to be avoided, its own entry is better. -/
theorem isNext_of_eq (h : Scan p p m 1 i s i) (hs : s ≤ i) (heq : p i = p (i - s))
    (hd : IsNext p (i - s) d) : IsNext p i (s + d) where
  pos := h.le_start.trans (Nat.le_add_right s d)
  le := by
    have := hd.le
    omega
  live l hl := by
    rw [Nat.add_assoc, h.live (d + l) (by omega)]
    exact hd.live l (by omega)
  skip d' h₁ h₂ := by
    rcases Nat.lt_trichotomy d' s with hlt | rfl | hgt
    · obtain ⟨l, -, hlt, hne⟩ := h.dead d' h₁ hlt
      exact Or.inl ⟨l, hlt, hne⟩
    · exact Or.inr heq.symm
    · obtain ⟨e, rfl⟩ : ∃ e, d' = s + e := ⟨d' - s, by omega⟩
      rcases hd.skip e (by omega) (by omega) with ⟨l, hl, hne⟩ | hsame
      · refine Or.inl ⟨l, by omega, ?_⟩
        rwa [Nat.add_assoc, h.live (e + l) (by omega)]
      · refine Or.inr ?_
        rw [← Nat.sub_sub, hsame, heq]

end Scan

/-! ### Lists -/

section Lists

variable {β : Type*} {ps ts : List β}

/-- An occurrence of the beginning of a list in another one. -/
theorem occursAt_iff (hm : m ≤ ps.length) :
    OccursAt (ps[·]?) (ts[·]?) m ts.length s ↔ s + m ≤ ts.length ∧ ps.take m <+: ts.drop s := by
  refine and_congr_right fun _ => ?_
  rw [List.prefix_iff_getElem?]
  simp only [List.length_take, Nat.min_eq_left hm, List.getElem?_drop, List.getElem_take]
  refine forall₂_congr fun l hl => ?_
  rw [List.getElem?_eq_getElem (Nat.lt_of_lt_of_le hl hm)]

theorem exists_occursAt_iff (hm : m ≤ ps.length) :
    (∃ s, OccursAt (ps[·]?) (ts[·]?) m ts.length s) ↔ ps.take m <:+: ts := by
  simp only [occursAt_iff hm]
  constructor
  · rintro ⟨s, -, hpre⟩
    exact hpre.isInfix.trans (List.drop_suffix s ts).isInfix
  · rintro ⟨as, bs, hts⟩
    have hlen := congrArg List.length hts
    simp only [List.length_append, List.length_take, Nat.min_eq_left hm] at hlen
    refine ⟨as.length, by omega, bs, ?_⟩
    rw [← hts, List.append_assoc, List.drop_left]

/-- The same without the starting point 0. -/
theorem exists_occursAt_tail_iff (hm : m ≤ ps.length) (hpos : 0 < m) :
    (∃ s, 1 ≤ s ∧ OccursAt (ps[·]?) (ts[·]?) m ts.length s) ↔ ps.take m <:+: ts.tail := by
  rw [← exists_occursAt_iff hm]
  simp only [occursAt_iff hm]
  rw [List.length_tail]
  constructor
  · rintro ⟨s, hs, hle, hpre⟩
    obtain ⟨s, rfl⟩ : ∃ k, s = k + 1 := ⟨s - 1, by omega⟩
    exact ⟨s, by omega, by rwa [List.drop_tail]⟩
  · rintro ⟨s, hle, hpre⟩
    exact ⟨s + 1, by omega, by omega, by rwa [← List.drop_tail]⟩

/-- An occurrence in the beginning of a list. -/
theorem infix_take_iff : ps <:+: ts.take k ↔ ∃ s, s + ps.length ≤ k ∧ ps <+: ts.drop s := by
  constructor
  · rintro ⟨as, bs, hts⟩
    have hlen := congrArg List.length hts
    simp only [List.length_append, List.length_take] at hlen
    refine ⟨as.length, by omega, ?_⟩
    have hpre : ps <+: (ts.take k).drop as.length := by
      rw [← hts, List.append_assoc, List.drop_left]
      exact List.prefix_append ps bs
    rw [List.drop_take] at hpre
    exact hpre.trans (List.take_prefix _ _)
  · rintro ⟨s, hle, hpre⟩
    have hpre' : ps <+: (ts.take k).drop s := by
      rw [List.drop_take]
      exact List.prefix_take_iff.mpr ⟨hpre, by omega⟩
    exact hpre'.isInfix.trans (List.drop_suffix s _).isInfix

end Lists

end PrefixMatch
