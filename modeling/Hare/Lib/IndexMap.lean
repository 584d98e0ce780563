import Mathlib.Data.List.Basic
import Mathlib.Data.List.Nodup
import Mathlib.Logic.Function.Basic

/-!
# A list with an index by key

The entries of a list have keys, and a map leads from each key to the position of its entry.
The first `base` entries are not part of the map.  An entry is added at the end, exchanged
for another one with the same key, or removed by moving the last entry into its place.
-/

namespace IndexMap

variable {α κ : Type*} {key : α → κ} {base : ℕ} {xs : List α}
  {index : κ → Option ℕ}

/-- The map leads exactly to the entries behind the first `base`. -/
structure Exact (key : α → κ) (base : ℕ) (xs : List α) (index : κ → Option ℕ) : Prop where
  base_le : base ≤ xs.length
  index_iff : ∀ d k, index d = some k ↔ base ≤ k ∧ (xs[k]?).map key = some d

namespace Exact

theorem lt (h : Exact key base xs index) {d : κ} {k : ℕ} (hk : index d = some k) :
    k < xs.length := by
  obtain ⟨-, hkey⟩ := (h.index_iff d k).mp hk
  by_contra hge
  rw [List.getElem?_eq_none (by omega)] at hkey
  cases hkey

theorem injective (h : Exact key base xs index) {d e : κ} {k : ℕ} (hd : index d = some k)
    (he : index e = some k) : d = e :=
  Option.some.inj (((h.index_iff d k).mp hd).2.symm.trans ((h.index_iff e k).mp he).2)

/-- The keys of the map are those of the entries. -/
theorem mem_keys (h : Exact key base xs index) {d : κ} :
    d ∈ (xs.drop base).map key ↔ (index d).isSome := by
  rw [List.mem_iff_getElem?, Option.isSome_iff_exists]
  constructor
  · rintro ⟨i, hi⟩
    rw [List.getElem?_map, List.getElem?_drop] at hi
    exact ⟨base + i, (h.index_iff d _).mpr ⟨Nat.le_add_right base i, hi⟩⟩
  · rintro ⟨k, hk⟩
    obtain ⟨hle, hkey⟩ := (h.index_iff d k).mp hk
    refine ⟨k - base, ?_⟩
    rw [List.getElem?_map, List.getElem?_drop, Nat.add_sub_cancel' hle]
    exact hkey

/-- No two entries have one key. -/
theorem nodup_keys (h : Exact key base xs index) : ((xs.drop base).map key).Nodup := by
  rw [List.nodup_iff_getElem?_ne_getElem?]
  intro i j hij hj heq
  obtain ⟨d, hd⟩ : ∃ d, ((xs.drop base).map key)[j]? = some d :=
    ⟨_, List.getElem?_eq_getElem hj⟩
  rw [hd] at heq
  rw [List.getElem?_map, List.getElem?_drop] at heq hd
  have hi := (h.index_iff d _).mpr ⟨Nat.le_add_right base i, heq⟩
  have hj' := (h.index_iff d _).mpr ⟨Nat.le_add_right base j, hd⟩
  have := Option.some.inj (hi.symm.trans hj')
  omega

/-- A change of the entries that keeps their keys. -/
theorem congr (h : Exact key base xs index) {ys : List α} (hkeys : ys.map key = xs.map key) :
    Exact key base ys index where
  base_le := by
    have hlen := congrArg List.length hkeys
    simp only [List.length_map] at hlen
    rw [hlen]
    exact h.base_le
  index_iff d k := by rw [← List.getElem?_map, hkeys, List.getElem?_map, h.index_iff]

/-- An entry is exchanged for another one with the same key. -/
theorem set (h : Exact key base xs index) {x : α} {k : ℕ} (hk : index (key x) = some k) :
    Exact key base (xs.set k x) index where
  base_le := by simpa using h.base_le
  index_iff d j := by
    have hold := h.index_iff d j
    have hkey := (h.index_iff (key x) k).mp hk
    grind

section
variable [DecidableEq κ]

theorem push (h : Exact key base xs index) {x : α} (hx : index (key x) = none) :
    Exact key base (xs ++ [x]) (Function.update index (key x) (some xs.length)) where
  base_le := by
    have := h.base_le
    simp
    omega
  index_iff d k := by
    have hle := h.base_le
    have hold := h.index_iff d k
    by_cases hd : d = key x
    · subst hd
      have hnot := h.index_iff (key x) k
      grind
    · rw [Function.update_of_ne hd]
      grind

/-- The last entry is removed. -/
theorem pop (h : Exact key base xs index) {d : κ} (hd : index d = some (xs.length - 1)) :
    Exact key base xs.dropLast (Function.update index d none) where
  base_le := by
    have := ((h.index_iff d _).mp hd).1
    simpa using this
  index_iff e j := by
    have hkey := (h.index_iff d _).mp hd
    have hold := h.index_iff e j
    by_cases he : e = d
    · subst he
      grind
    · rw [Function.update_of_ne he]
      grind

/-- The last entry is moved to the place of the one that is removed. -/
theorem swapRemove (h : Exact key base xs index) {d : κ} {k : ℕ} {last : α}
    (hk : index d = some k) (hlast : xs.getLast? = some last) (hne : k ≠ xs.length - 1) :
    Exact key base (xs.set k last).dropLast
      (Function.update (Function.update index (key last) (some k)) d none) where
  base_le := by
    have hlt := h.lt hk
    have := ((h.index_iff d _).mp hk).1
    simp
    omega
  index_iff e j := by
    have hlt := h.lt hk
    have hkey := (h.index_iff d k).mp hk
    have hend : xs[xs.length - 1]? = some last := by rw [← hlast, List.getLast?_eq_getElem?]
    have hmoved : index (key last) = some (xs.length - 1) :=
      (h.index_iff _ _).mpr ⟨by omega, by simp [hend]⟩
    have hold := h.index_iff e j
    by_cases he : e = d
    · subst he
      grind
    · rw [Function.update_of_ne he]
      by_cases hf : e = key last
      · subst hf
        grind
      · rw [Function.update_of_ne hf]
        grind

end

end Exact

/-! ## The keys of the map -/

variable [DecidableEq κ] {d e : κ}

theorem isSome_update_some {k : ℕ} :
    (Function.update index d (some k) e).isSome ↔ (index e).isSome ∨ e = d := by
  by_cases he : e = d
  · simp [he]
  · simp [he]

theorem isSome_update_none :
    (Function.update index d none e).isSome ↔ (index e).isSome ∧ e ≠ d := by
  by_cases he : e = d
  · simp [he]
  · simp [he]

end IndexMap
