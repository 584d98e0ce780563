import Mathlib.Data.List.Range
import Mathlib.Data.Nat.ModEq
import Mathlib.Logic.Function.Basic

/-!
# The circular queue

`CircularQueue` is a ring of `max_capacity` slots between a head and a tail position; head
and tail coincide when it is empty, so that it is full with one slot unused.  Its content is
a list, and the operations are the ones of a list that is filled behind and emptied in front.

`BlockingQueue` guards one circular queue with a mutex and two condition variables.  The
critical sections of `Enqueue` and `Dequeue` are modelled here, with the test each of them
waits for; who waits and who is woken belongs to the threads that share the queue.
-/

namespace Hare.Util

/-- A ring of `maxCapacity` slots.  The positions stay inside the sequence. -/
structure CircularQueue (α : Type*) where
  maxCapacity : ℕ
  overCounter : ℕ
  head : ℕ
  tail : ℕ
  sequence : ℕ → α
  head_lt : 0 < maxCapacity → head < maxCapacity
  tail_lt : 0 < maxCapacity → tail < maxCapacity

namespace CircularQueue

variable {α : Type*}

/-- The constructor: `max` slots, each with a default item. -/
def new [Inhabited α] (max : ℕ) : CircularQueue α where
  maxCapacity := max
  overCounter := 0
  head := 0
  tail := 0
  sequence := fun _ => default
  head_lt := id
  tail_lt := id

/-- Store behind the tail.  When the ring was full the oldest item is given up and counted. -/
def pushBack (q : CircularQueue α) (item : α) : CircularQueue α :=
  if hmax : 0 < q.maxCapacity then
    let tail := (q.tail + 1) % q.maxCapacity
    let overrun := tail = q.head
    { q with
      sequence := Function.update q.sequence q.tail item
      tail
      head := if overrun then (q.head + 1) % q.maxCapacity else q.head
      overCounter := if overrun then q.overCounter + 1 else q.overCounter
      head_lt := fun _ => by
        split
        · exact Nat.mod_lt _ hmax
        · exact q.head_lt hmax
      tail_lt := fun _ => Nat.mod_lt _ hmax }
  else q

def front (q : CircularQueue α) : α := q.sequence q.head

def size (q : CircularQueue α) : ℕ :=
  if q.head ≤ q.tail then q.tail - q.head else q.maxCapacity - q.head + q.tail

/-- `At`; nothing when its assertion fails. -/
def at' (q : CircularQueue α) (i : ℕ) : Option α :=
  if i < q.size then some (q.sequence ((q.head + i) % q.maxCapacity)) else none

/-- Take the front item and move the head on. -/
def popFront (q : CircularQueue α) : α × CircularQueue α :=
  (q.front, { q with
    head := (q.head + 1) % q.maxCapacity
    head_lt := fun h => Nat.mod_lt _ h })

def empty (q : CircularQueue α) : Bool := q.tail = q.head

def full (q : CircularQueue α) : Bool :=
  if 0 < q.maxCapacity then (q.tail + 1) % q.maxCapacity = q.head else false

/-- The items, oldest first. -/
def content (q : CircularQueue α) : List α :=
  (List.range q.size).map fun i => q.sequence ((q.head + i) % q.maxCapacity)

variable {q : CircularQueue α} {item : α}

@[simp] theorem length_content : q.content.length = q.size := by simp [content]

@[simp] theorem popFront_head : q.popFront.2.head = (q.head + 1) % q.maxCapacity := rfl

@[simp] theorem popFront_tail : q.popFront.2.tail = q.tail := rfl

@[simp] theorem popFront_maxCapacity : q.popFront.2.maxCapacity = q.maxCapacity := rfl

@[simp] theorem pushBack_maxCapacity : (q.pushBack item).maxCapacity = q.maxCapacity := by
  unfold pushBack
  split <;> rfl

theorem size_lt (hmax : 0 < q.maxCapacity) : q.size < q.maxCapacity := by
  have hhead := q.head_lt hmax
  have htail := q.tail_lt hmax
  unfold size
  split <;> omega

/-- The tail is `size` slots behind the head. -/
theorem head_add_size (hmax : 0 < q.maxCapacity) : (q.head + q.size) % q.maxCapacity = q.tail := by
  have hhead := q.head_lt hmax
  have htail := q.tail_lt hmax
  unfold size
  split
  case isTrue hle => rw [Nat.add_sub_cancel' hle, Nat.mod_eq_of_lt htail]
  case isFalse hlt =>
    have hwrap : q.head + (q.maxCapacity - q.head + q.tail) = q.maxCapacity + q.tail := by omega
    rw [hwrap, Nat.add_mod_left, Nat.mod_eq_of_lt htail]

theorem empty_iff (hmax : 0 < q.maxCapacity) : q.empty = true ↔ q.content = [] := by
  have hhead := q.head_lt hmax
  rw [← List.length_eq_zero_iff, length_content, empty, decide_eq_true_eq, size]
  split <;> omega

theorem full_iff (hmax : 0 < q.maxCapacity) :
    q.full = true ↔ q.content.length + 1 = q.maxCapacity := by
  have hhead := q.head_lt hmax
  have htail := q.tail_lt hmax
  rw [length_content, full, if_pos hmax, decide_eq_true_eq, size]
  rcases Nat.lt_or_ge (q.tail + 1) q.maxCapacity with hlt | hge
  · rw [Nat.mod_eq_of_lt hlt]
    split <;> omega
  · have hlast : q.tail + 1 = q.maxCapacity := by omega
    rw [hlast, Nat.mod_self]
    split <;> omega

/-- The slots of the content are different from the one at the tail. -/
theorem slot_ne_tail (hmax : 0 < q.maxCapacity) {i : ℕ} (hi : i < q.size) :
    (q.head + i) % q.maxCapacity ≠ q.tail := by
  intro heq
  rw [← head_add_size hmax] at heq
  have hmod : i ≡ q.size [MOD q.maxCapacity] := Nat.ModEq.add_left_cancel' q.head heq
  have hsize := size_lt hmax
  rw [Nat.ModEq, Nat.mod_eq_of_lt (hi.trans hsize), Nat.mod_eq_of_lt hsize] at hmod
  omega

section NotFull

variable (hmax : 0 < q.maxCapacity) (hfull : q.full = false)
include hmax hfull

theorem tail_succ_ne_head : (q.tail + 1) % q.maxCapacity ≠ q.head := by
  rw [full, if_pos hmax] at hfull
  exact of_decide_eq_false hfull

@[simp] theorem pushBack_overCounter : (q.pushBack item).overCounter = q.overCounter := by
  simp [pushBack, hmax, tail_succ_ne_head hmax hfull]

theorem pushBack_size : (q.pushBack item).size = q.size + 1 := by
  have hne := tail_succ_ne_head hmax hfull
  have hhead := q.head_lt hmax
  have htail := q.tail_lt hmax
  simp only [pushBack, hmax, dite_true, size, hne, if_false]
  rcases Nat.lt_or_ge (q.tail + 1) q.maxCapacity with hlt | hge
  · rw [Nat.mod_eq_of_lt hlt] at hne ⊢
    split_ifs <;> omega
  · have hlast : q.tail + 1 = q.maxCapacity := by omega
    rw [hlast, Nat.mod_self] at hne ⊢
    split_ifs <;> omega

/-- A push into a ring that is not full appends. -/
theorem content_pushBack : (q.pushBack item).content = q.content ++ [item] := by
  have hne := tail_succ_ne_head hmax hfull
  rw [content, pushBack_size hmax hfull, List.range_succ, List.map_append, content]
  simp only [pushBack, hmax, dite_true, hne, if_false]
  congr 1
  · refine List.map_congr_left fun i hi => ?_
    rw [Function.update_of_ne (slot_ne_tail hmax (List.mem_range.mp hi))]
  · rw [List.map_singleton, head_add_size hmax, Function.update_self]

end NotFull

/-- A pop from a ring that is not empty takes the first item. -/
theorem content_popFront (hmax : 0 < q.maxCapacity) (hempty : q.empty = false) :
    q.content = q.popFront.1 :: q.popFront.2.content := by
  have hhead := q.head_lt hmax
  have htail := q.tail_lt hmax
  have hne : q.tail ≠ q.head := of_decide_eq_false hempty
  have hsize : q.size = q.popFront.2.size + 1 := by
    unfold size
    rw [popFront_head, popFront_tail, popFront_maxCapacity]
    rcases Nat.lt_or_ge (q.head + 1) q.maxCapacity with hlt | hge
    · rw [Nat.mod_eq_of_lt hlt]
      split_ifs <;> omega
    · have hlast : q.head + 1 = q.maxCapacity := by omega
      rw [hlast, Nat.mod_self]
      split_ifs <;> omega
  rw [content, hsize, List.range_succ_eq_map, List.map_cons, List.map_map, Nat.add_zero,
    Nat.mod_eq_of_lt hhead]
  refine congrArg (q.front :: ·) (List.map_congr_left fun i _ => congrArg q.sequence ?_)
  rw [popFront, Nat.mod_add_mod, Nat.succ_eq_add_one, Nat.add_assoc, Nat.add_comm 1 i]

/-- After a pop there is room. -/
theorem full_popFront (hmax : 0 < q.maxCapacity) (hempty : q.empty = false) :
    q.popFront.2.full = false := by
  have hlen := congrArg List.length (content_popFront hmax hempty)
  have hlt := size_lt hmax
  rw [length_content, List.length_cons] at hlen
  rw [← Bool.not_eq_true, full_iff (q := q.popFront.2) hmax, popFront_maxCapacity]
  omega

theorem at'_eq (i : ℕ) : q.at' i = q.content[i]? := by
  rw [at', content, List.getElem?_map]
  split
  case isTrue hlt => rw [List.getElem?_range hlt]; rfl
  case isFalse hge => rw [List.getElem?_eq_none (by simpa using hge)]; rfl

section Full

variable (hmax : 0 < q.maxCapacity) (hfull : q.full = true)
include hmax hfull

theorem tail_succ_eq_head : (q.tail + 1) % q.maxCapacity = q.head := by
  rw [full, if_pos hmax] at hfull
  exact of_decide_eq_true hfull

theorem pushBack_overCounter_full : (q.pushBack item).overCounter = q.overCounter + 1 := by
  simp [pushBack, hmax, tail_succ_eq_head hmax hfull]

/-- A push into a full ring of several slots does to the content what a pop before it does. -/
theorem content_pushBack_full : (q.pushBack item).content = (q.content ++ [item]).tail := by
  have hsucc := tail_succ_eq_head hmax hfull
  have hlen := (full_iff hmax).mp hfull
  have hhead := q.head_lt hmax
  rcases Nat.lt_or_ge 1 q.maxCapacity with hmany | hone
  · have hempty : q.empty = false := by
      rw [← Bool.not_eq_true, empty_iff hmax, ← List.length_eq_zero_iff]
      omega
    have hmax' : 0 < q.popFront.2.maxCapacity := hmax
    have hroom := full_popFront hmax hempty
    have hne := tail_succ_ne_head hmax' hroom
    have hsame : (q.pushBack item).content = (q.popFront.2.pushBack item).content := by
      rw [popFront_tail, popFront_maxCapacity, popFront_head, hsucc] at hne
      simp only [content, size, pushBack, popFront, hmax, dite_true, hsucc, if_true, if_neg hne]
    rw [hsame, content_pushBack hmax' hroom, content_popFront hmax hempty]
    rfl
  · have hnil : q.content = [] := List.length_eq_zero_iff.mp (by omega)
    have hsize := size_lt (q := q.pushBack item) (by simpa using hmax)
    rw [pushBack_maxCapacity] at hsize
    have hnil' : (q.pushBack item).content = [] :=
      List.length_eq_zero_iff.mp (by rw [length_content]; omega)
    rw [hnil, hnil']
    rfl

end Full

end CircularQueue

/-! ## The critical sections -/

namespace BlockingQueue

variable {α : Type*} {q q' : CircularQueue α} {item : α}

/-- `Enqueue` under the lock; nothing when the caller has to wait on `pop_cv_`. -/
def enqueue (q : CircularQueue α) (item : α) : Option (CircularQueue α) :=
  if q.full then none else some (q.pushBack item)

/-- `EnqueueNoWait` under the lock. -/
def enqueueNoWait (q : CircularQueue α) (item : α) : CircularQueue α := q.pushBack item

/-- `Dequeue` under the lock; nothing when the caller has to wait on `push_cv_`. -/
def dequeue (q : CircularQueue α) : Option (α × CircularQueue α) :=
  if q.empty then none else some q.popFront

theorem enqueue_eq_none : enqueue q item = none ↔ q.full = true := by simp [enqueue]

/-- An `Enqueue` that does not wait appends and overruns nothing. -/
theorem enqueue_eq_some (hmax : 0 < q.maxCapacity) (h : enqueue q item = some q') :
    q.full = false ∧ q'.content = q.content ++ [item] ∧ q'.maxCapacity = q.maxCapacity ∧
      q'.overCounter = q.overCounter := by
  unfold enqueue at h
  split at h
  case isTrue => cases h
  case isFalse hfull =>
    rw [Bool.not_eq_true] at hfull
    cases h
    exact ⟨hfull, CircularQueue.content_pushBack hmax hfull, CircularQueue.pushBack_maxCapacity,
      CircularQueue.pushBack_overCounter hmax hfull⟩

theorem dequeue_eq_none (hmax : 0 < q.maxCapacity) : dequeue q = none ↔ q.content = [] := by
  rw [← CircularQueue.empty_iff hmax]
  simp [dequeue]

/-- A `Dequeue` that does not wait takes the first item. -/
theorem dequeue_eq_some (hmax : 0 < q.maxCapacity) (h : dequeue q = some (item, q')) :
    q.content = item :: q'.content ∧ q'.maxCapacity = q.maxCapacity ∧
      q'.overCounter = q.overCounter := by
  unfold dequeue at h
  split at h
  case isTrue => cases h
  case isFalse hempty =>
    rw [Bool.not_eq_true] at hempty
    have heq : q.popFront = (item, q') := Option.some.inj h
    have hcontent := CircularQueue.content_popFront hmax hempty
    rw [heq] at hcontent
    cases heq
    exact ⟨hcontent, rfl, rfl⟩

end BlockingQueue

end Hare.Util
