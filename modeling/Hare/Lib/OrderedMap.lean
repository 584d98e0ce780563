import Mathlib.Data.List.Basic
import Mathlib.Order.Lattice

/-!
# Ordered maps and their iterators

A map is the list of its entries in the order of their keys.  An iterator is the key of the entry
it is at, and at the end it is none.  Erasing an entry invalidates the iterators at that entry, and
no others: `next` advances an iterator, and fails for one that is not valid.
-/

/-- Entries with increasing keys. -/
structure OrderedMap (α β : Type*) [LinearOrder α] where
  entries : List (α × β)
  sorted : (entries.map Prod.fst).Pairwise (· < ·)

namespace OrderedMap

variable {α β : Type*} [LinearOrder α]

def empty : OrderedMap α β := ⟨[], List.Pairwise.nil⟩

def keys (m : OrderedMap α β) : List α := m.entries.map Prod.fst

def find? (m : OrderedMap α β) (k : α) : Option β :=
  (m.entries.find? (·.1 = k)).map Prod.snd

def erase (m : OrderedMap α β) (k : α) : OrderedMap α β where
  entries := m.entries.filter (·.1 ≠ k)
  sorted := m.sorted.sublist (List.filter_sublist.map _)

/-- The map with another value at a key. -/
def adjust (m : OrderedMap α β) (k : α) (f : β → β) : OrderedMap α β where
  entries := m.entries.map fun e => (e.1, if e.1 = k then f e.2 else e.2)
  sorted := by
    rw [List.map_map]
    exact m.sorted

/-- An iterator at the first entry. -/
def begin (m : OrderedMap α β) : Option α := m.keys.head?

/-- The iterator after the one at the key `k`. -/
def next (m : OrderedMap α β) (k : α) : Option (Option α) :=
  if k ∈ m.keys then some (m.keys.find? (k < ·)) else none

variable {m : OrderedMap α β} {k : α}

theorem mem_keys {b : β} (h : (k, b) ∈ m.entries) : k ∈ m.keys := List.mem_map_of_mem h

theorem nodup_keys (m : OrderedMap α β) : m.keys.Nodup := m.sorted.imp ne_of_lt

theorem isSome_find? : (m.find? k).isSome = true ↔ k ∈ m.keys := by
  simp [find?, keys]

theorem mem_of_find? {b : β} (h : m.find? k = some b) : (k, b) ∈ m.entries := by
  obtain ⟨⟨k', b'⟩, he, rfl⟩ := Option.map_eq_some_iff.mp h
  have hk : k' = k := by simpa using List.find?_some he
  exact hk ▸ List.mem_of_find?_eq_some he

theorem find?_erase (m : OrderedMap α β) (k i : α) :
    (m.erase k).find? i = if i = k then none else m.find? i := by
  rw [find?, erase, List.find?_filter]
  split
  case isTrue h =>
    subst h
    simp
  case isFalse h =>
    refine congrArg (Option.map Prod.snd) (congrArg (List.find? · m.entries) ?_)
    funext e
    by_cases he : e.1 = i <;> simp [he, h]

theorem find?_adjust (m : OrderedMap α β) (k : α) (f : β → β) (i : α) :
    (m.adjust k f).find? i = if i = k then (m.find? k).map f else m.find? i := by
  have hadjust : (m.adjust k f).find? i =
      (m.entries.find? (·.1 = i)).map fun e => if e.1 = k then f e.2 else e.2 := by
    rw [find?, adjust, List.find?_map, Option.map_map]
    rfl
  rw [hadjust]
  cases he : m.entries.find? (·.1 = i) with
  | none =>
      split
      case isTrue h => simp [find?, ← h, he]
      case isFalse => simp [find?, he]
  | some e =>
      have hi : e.1 = i := by simpa using List.find?_some he
      split
      case isTrue h => simp [find?, ← h, he, hi]
      case isFalse h => simp [find?, he, hi, h]

theorem not_mem_keys_erase (m : OrderedMap α β) (k : α) : k ∉ (m.erase k).keys := by
  rw [← isSome_find?, find?_erase, if_pos rfl]
  simp

theorem mem_keys_adjust {f : β → β} (h : k ∈ m.keys) : k ∈ (m.adjust k f).keys := by
  rw [← isSome_find?, find?_adjust, if_pos rfl, Option.isSome_map]
  exact isSome_find?.mpr h

theorem begin_eq_none : m.begin = none ↔ m.entries = [] := by
  rw [begin, keys, List.head?_eq_none_iff, List.map_eq_nil_iff]

theorem next_eq_none (h : k ∉ m.keys) : m.next k = none := if_neg h

/-- The entry after `k` in the order of the keys. -/
theorem next_eq {before rest : List α} (h : m.keys = before ++ k :: rest) :
    m.next k = some rest.head? := by
  have hsorted : (before ++ k :: rest).Pairwise (· < ·) := h ▸ m.sorted
  obtain ⟨-, hrest, hlt⟩ := List.pairwise_append.mp hsorted
  have hbefore : ∀ a ∈ before, ¬ k < a := fun a ha => (hlt a ha k List.mem_cons_self).le.not_gt
  rw [next, h, if_pos (by simp), List.find?_append, List.find?_eq_none.mpr (by simpa using hbefore)]
  cases rest with
  | nil => simp
  | cons a rest =>
      have ha : k < a := (List.pairwise_cons.mp hrest).1 a List.mem_cons_self
      simp [ha]

end OrderedMap
