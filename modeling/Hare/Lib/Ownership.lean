import Mathlib.Data.Set.Basic
import Mathlib.Logic.Function.Basic

/-!
# Objects that own the cells of a memory

The live cells of a memory are divided among objects with names in `ι`: every live cell belongs
to exactly one of them, and an object that does not exist owns nothing.  An operation on one or
two objects trades the cells they own for others, some of them new; `Owned.update` and
`Owned.update_two` are the rules for that.
-/

namespace Ownership

variable {ι α : Type*}

/-- Every live cell has exactly one owner, and only live cells have. -/
structure Owned (live : Set α) (own : ι → Set α) : Prop where
  unique : ∀ {i j p}, p ∈ own i → p ∈ own j → i = j
  all : ∀ p, p ∈ live ↔ ∃ i, p ∈ own i

/-- The cells `given` are traded for the cells `taken`, those of them that are not given up
having been free. -/
structure Traded (live live' given taken : Set α) : Prop where
  live_iff : ∀ p, p ∈ live' ↔ p ∈ live ∧ p ∉ given ∨ p ∈ taken
  fresh : ∀ p ∈ taken, p ∈ given ∨ p ∉ live

variable {live live' given taken : Set α} {own own' : ι → Set α}

namespace Owned

theorem mem_live (O : Owned live own) {i : ι} {p : α} (hp : p ∈ own i) : p ∈ live :=
  (O.all p).mpr ⟨i, hp⟩

/-- Some objects trade their cells and the others keep theirs. -/
theorem trade (O : Owned live own) (changed : ι → Prop) (T : Traded live live' given taken)
    (hgiven : ∀ p, p ∈ given ↔ ∃ i, changed i ∧ p ∈ own i)
    (htaken : ∀ p, p ∈ taken ↔ ∃ i, changed i ∧ p ∈ own' i)
    (hsame : ∀ i, ¬ changed i → own' i = own i)
    (hone : ∀ {i j p}, changed i → changed j → p ∈ own' i → p ∈ own' j → i = j) :
    Owned live' own' := by
  -- a cell of an object that is not concerned is neither given up nor taken
  have hout : ∀ {i p}, ¬ changed i → p ∈ own i → p ∉ given := by
    intro i p hi hp hg
    obtain ⟨j, hj, hpj⟩ := (hgiven p).mp hg
    exact hi (O.unique hpj hp ▸ hj)
  have hkeep : ∀ {i p}, ¬ changed i → p ∈ own' i → p ∈ own i ∧ p ∉ taken := by
    intro i p hi hp
    rw [hsame i hi] at hp
    refine ⟨hp, fun ht => ?_⟩
    exact (T.fresh p ht).elim (hout hi hp) fun hn => hn (O.mem_live hp)
  constructor
  · intro i j p hi hj
    by_cases hci : changed i <;> by_cases hcj : changed j
    · exact hone hci hcj hi hj
    · exact absurd ((htaken p).mpr ⟨i, hci, hi⟩) (hkeep hcj hj).2
    · exact absurd ((htaken p).mpr ⟨j, hcj, hj⟩) (hkeep hci hi).2
    · exact O.unique (hkeep hci hi).1 (hkeep hcj hj).1
  · intro p
    rw [T.live_iff]
    constructor
    · rintro (⟨hp, hg⟩ | hp)
      · obtain ⟨i, hi⟩ := (O.all p).mp hp
        have hci : ¬ changed i := fun hci => hg ((hgiven p).mpr ⟨i, hci, hi⟩)
        exact ⟨i, by rw [hsame i hci]; exact hi⟩
      · obtain ⟨i, -, hi⟩ := (htaken p).mp hp
        exact ⟨i, hi⟩
    · rintro ⟨i, hi⟩
      by_cases hci : changed i
      · exact Or.inr ((htaken p).mpr ⟨i, hci, hi⟩)
      · have hp := (hkeep hci hi).1
        exact Or.inl ⟨O.mem_live hp, hout hci hp⟩

variable [DecidableEq ι]

/-- One object trades its cells. -/
theorem update (O : Owned live own) {i : ι} (T : Traded live live' (own i) taken) :
    Owned live' (Function.update own i taken) := by
  refine O.trade (· = i) T ?_ ?_ ?_ ?_
  · simp
  · simp
  · intro j hj
    exact Function.update_of_ne hj _ _
  · intro j k p hj hk _ _
    exact hj.trans hk.symm

/-- Two objects trade their cells between them. -/
theorem update_two (O : Owned live own) {i j : ι} (hij : i ≠ j) {taken' : Set α}
    (T : Traded live live' (own i ∪ own j) (taken ∪ taken'))
    (hdis : ∀ p ∈ taken, p ∉ taken') :
    Owned live' (Function.update (Function.update own i taken) j taken') := by
  have hi : Function.update (Function.update own i taken) j taken' i = taken := by simp [hij]
  have hj : Function.update (Function.update own i taken) j taken' j = taken' := by simp
  refine O.trade (fun k => k = i ∨ k = j) T ?_ ?_ ?_ ?_
  · simp [or_and_right, exists_or]
  · simp [or_and_right, exists_or, hij]
  · intro k hk
    obtain ⟨hki, hkj⟩ := not_or.mp hk
    rw [Function.update_of_ne hkj, Function.update_of_ne hki]
  · rintro k m p (rfl | rfl) (rfl | rfl) hk hm
    · rfl
    · rw [hi] at hk
      rw [hj] at hm
      exact absurd hm (hdis p hk)
    · rw [hj] at hk
      rw [hi] at hm
      exact absurd hk (hdis p hm)
    · rfl

end Owned

end Ownership
