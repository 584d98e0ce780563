import Hare.Base.Queue
import Hare.Lib.BoundedFifo
import Hare.Lib.BoundedLoop
import Hare.Lib.LabelledRun

/-!
# Runs of the queues

A `CircularQueue` is a bounded FIFO queue: along every sequence of pushes and pops its content
and its counter are those of `BoundedFifo`, with room for one item less than it has slots.

So a `BlockingQueue` that is constructed for `n` items has room for `n - 1` of them.  And
`Dequeues` does not return what as many calls of `Dequeue` return: `GetAll` stores every item
in the first place of the vector.
-/

namespace Hare.Util

open BoundedFifo LabelledRun

namespace CircularQueue

variable {α : Type*} {q q' : CircularQueue α} {item : α}

/-- What the queue holds, without the positions. -/
def toFifo (q : CircularQueue α) : Fifo α := ⟨q.content, q.overCounter⟩

/-- An operation; `PopFront` is called on queues that are not empty. -/
def step (q : CircularQueue α) : Op α → Except Unit (CircularQueue α)
  | .push item => .ok (q.pushBack item)
  | .pop => if q.empty then .error () else .ok q.popFront.2

theorem length_content_le (hmax : 0 < q.maxCapacity) :
    q.content.length ≤ q.maxCapacity - 1 := by
  have hlt := size_lt hmax
  rw [length_content]
  omega

/-- `PushBack`, by what `Full` says before. -/
theorem toFifo_pushBack_cases (hmax : 0 < q.maxCapacity) (item : α) :
    (q.pushBack item).toFifo =
      if q.full then ⟨(q.content ++ [item]).tail, q.overCounter + 1⟩
      else ⟨q.content ++ [item], q.overCounter⟩ := by
  cases hfull : q.full with
  | true =>
      rw [if_pos rfl, toFifo, content_pushBack_full hmax hfull,
        pushBack_overCounter_full hmax hfull]
  | false =>
      rw [if_neg Bool.false_ne_true, toFifo, content_pushBack hmax hfull,
        pushBack_overCounter hmax hfull]

/-- `PushBack` is a push, with room for one item less than there are slots. -/
theorem toFifo_pushBack (hmax : 0 < q.maxCapacity) (item : α) :
    (q.pushBack item).toFifo = q.toFifo.push (q.maxCapacity - 1) item := by
  have hiff : q.full = true ↔ q.content.length = q.maxCapacity - 1 := by
    rw [full_iff hmax]
    omega
  rw [toFifo_pushBack_cases hmax, Fifo.push]
  exact if_congr hiff rfl rfl

/-- Room made before a push leaves what a push without room leaves. -/
theorem content_makeRoom (hmax : 0 < q.maxCapacity) (item : α) :
    ((if q.full then q.popFront.2 else q).pushBack item).content =
      (q.toFifo.push (q.maxCapacity - 1) item).items := by
  rw [← toFifo_pushBack hmax]
  cases hfull : q.full with
  | false => rfl
  | true =>
      rw [if_pos rfl]
      have hmax' : 0 < q.popFront.2.maxCapacity := hmax
      change _ = (q.pushBack item).content
      rw [content_pushBack_full hmax hfull]
      have hlen := (full_iff hmax).mp hfull
      cases hempty : q.empty with
      | false =>
          rw [content_pushBack hmax' (full_popFront hmax hempty), content_popFront hmax hempty]
          rfl
      | true =>
          -- a single slot, which is full and empty at once
          have hnil := (empty_iff hmax).mp hempty
          rw [hnil, List.length_nil] at hlen
          have hle := length_content_le (q := q.popFront.2.pushBack item) (by simpa using hmax)
          rw [pushBack_maxCapacity, popFront_maxCapacity] at hle
          have hnil' : (q.popFront.2.pushBack item).content = [] :=
            List.length_eq_zero_iff.mp (by omega)
          rw [hnil, hnil']
          rfl

theorem step_maxCapacity {op : Op α} (h : q.step op = .ok q') :
    q'.maxCapacity = q.maxCapacity := by
  cases op with
  | push item => cases h; exact pushBack_maxCapacity
  | pop =>
      rw [step] at h
      split at h
      · cases h
      · cases h; rfl

/-- An operation is the one of the FIFO queue. -/
theorem step_toFifo (hmax : 0 < q.maxCapacity) (op : Op α) :
    (q.step op).map toFifo = BoundedFifo.step (q.maxCapacity - 1) q.toFifo op := by
  cases op with
  | push item => exact congrArg Except.ok (toFifo_pushBack hmax item)
  | pop =>
      rw [step, BoundedFifo.step]
      cases hempty : q.empty with
      | true =>
          have hnil : q.toFifo.items = [] := (empty_iff hmax).mp hempty
          rw [if_pos rfl, hnil]
          rfl
      | false =>
          have hcons : q.toFifo.items = q.popFront.1 :: q.popFront.2.content :=
            content_popFront hmax hempty
          rw [if_neg Bool.false_ne_true, hcons]
          rfl

/-- What the queue shows to its callers, of a FIFO queue with `max - 1` places. -/
structure Shows (q : CircularQueue α) (max : ℕ) (f : Fifo α) : Prop where
  size : q.size = f.items.length
  empty : q.empty = true ↔ f.items = []
  full : q.full = true ↔ f.items.length = max - 1
  get : ∀ i, q.at' i = f.items[i]?
  front : ∀ first rest, f.items = first :: rest → q.front = first ∧ q.popFront.1 = first
  pushBack : ∀ item, (q.pushBack item).toFifo =
    if q.full then ⟨(f.items ++ [item]).tail, f.overruns + 1⟩
    else ⟨f.items ++ [item], f.overruns⟩
  counter : q.overCounter = f.overruns

theorem shows_toFifo (hmax : 0 < q.maxCapacity) : q.Shows q.maxCapacity q.toFifo where
  size := length_content.symm
  empty := empty_iff hmax
  full := by
    change q.full = true ↔ q.content.length = q.maxCapacity - 1
    rw [full_iff hmax]
    omega
  get := at'_eq
  front := by
    intro first rest hcons
    have hempty : q.empty = false := by
      rw [← Bool.not_eq_true, empty_iff hmax]
      exact fun hnil => by cases hcons.symm.trans hnil
    have hfirst := (content_popFront hmax hempty).symm.trans hcons
    exact ⟨(List.cons.inj hfirst).1, (List.cons.inj hfirst).1⟩
  pushBack := toFifo_pushBack_cases hmax
  counter := rfl

/-- **The circular queue is a bounded FIFO queue.**  A sequence of operations can be performed
on both or on neither, and leaves the same content and counter, which is what the functions of
the queue show. -/
theorem run_refines_fifo [Inhabited α] {max : ℕ} (hmax : 0 < max) (ops : List (Op α)) :
    (run step (new max) ops).map toFifo = run (BoundedFifo.step (max - 1)) Fifo.empty ops ∧
      ∀ q, run step (new max) ops = .ok q → q.Shows max q.toFifo := by
  have hinv : ∀ (q : CircularQueue α) op q',
      q.maxCapacity = max → q.step op = .ok q' → q'.maxCapacity = max :=
    fun q op q' hq h => (step_maxCapacity h).trans hq
  constructor
  · refine run_map (fun q => q.maxCapacity = max) toFifo hinv ?_ rfl
    intro q op hq
    subst hq
    exact step_toFifo hmax op
  · intro q hrun
    have hq : q.maxCapacity = max := invariant_of_step (fun q => q.maxCapacity = max) hinv rfl hrun
    subst hq
    exact shows_toFifo hmax

/-- Three items in two places. -/
theorem run_refines_fifo_three :
    (run step (new 3) [.push 1, .push 2, .push 3, .pop]).map (toFifo (α := ℕ)) =
      .ok ⟨[3], 1⟩ :=
  (run_refines_fifo (by decide) _).1

/-- The state after all items have been taken. -/
def drained (q : CircularQueue α) : CircularQueue α where
  __ := q
  head := q.tail
  head_lt := q.tail_lt

@[simp] theorem drained_popFront : q.popFront.2.drained = q.drained := rfl

theorem empty_drained : q.drained.empty = true := decide_eq_true rfl

theorem drained_of_empty (h : q.empty = true) : q.drained = q := by
  have heq : q.tail = q.head := of_decide_eq_true h
  cases q
  cases heq
  rfl

end CircularQueue

namespace BlockingQueue

open CircularQueue

variable {α : Type*} {q q' : CircularQueue α} {item : α}

/-! ## Bulk dequeue -/

/-- Why a call does not return. -/
inductive Halt
  /-- The caller waits on a condition variable. -/
  | wait
  /-- A bound on the rounds of a loop was reached. -/
  | timeout
  deriving DecidableEq, Repr

/-- A round of `GetAll`.  The index stays at zero. -/
def getAllRound (s : CircularQueue α × List α) :
    Except Halt ((CircularQueue α × List α) ⊕ (List α × CircularQueue α)) :=
  let i := 0
  if s.1.empty then .ok (.inr (s.2, s.1))
  else .ok (.inl (s.1.popFront.2, s.2.set i s.1.popFront.1))

def getAll (fuel : ℕ) (q : CircularQueue α) (seq : List α) :
    Except Halt (List α × CircularQueue α) :=
  BoundedLoop.loop .timeout getAllRound fuel (q, seq)

/-- `Dequeues` under the lock. -/
def dequeues [Inhabited α] (q : CircularQueue α) : Except Halt (List α × CircularQueue α) :=
  if q.empty then .error .wait
  else getAll (q.size + 1) q (List.replicate q.size default)

/-- Calls of `Dequeue` one after the other. -/
def dequeueTimes : ℕ → CircularQueue α → Option (List α × CircularQueue α)
  | 0, q => some ([], q)
  | k + 1, q =>
    match dequeue q with
    | none => none
    | some (item, q) => (dequeueTimes k q).map fun (items, q) => (item :: items, q)

/-- As many calls of `Dequeue` as there are items return the content. -/
theorem dequeueTimes_eq (hmax : 0 < q.maxCapacity) :
    dequeueTimes q.content.length q = some (q.content, q.drained) := by
  generalize hk : q.content.length = k
  induction k generalizing q with
  | zero =>
      have hnil := List.length_eq_zero_iff.mp hk
      rw [hnil, drained_of_empty ((empty_iff hmax).mpr hnil)]
      rfl
  | succ k ih =>
      have hempty : q.empty = false := by
        rw [← Bool.not_eq_true, empty_iff hmax, ← List.length_eq_zero_iff]
        omega
      have hcontent := content_popFront hmax hempty
      have hrest := ih (q := q.popFront.2) hmax (by rw [hcontent] at hk; exact Nat.succ.inj hk)
      have htake : dequeue q = some q.popFront := by rw [dequeue, hempty]; rfl
      rw [dequeueTimes, htake]
      simp only [hrest, Option.map_some, ← hcontent, drained_popFront]

/-- `GetAll` leaves the last item in the first place, and everything behind as it was. -/
theorem getAll_eq (hmax : 0 < q.maxCapacity) (first : α) (rest : List α) {fuel : ℕ}
    (hfuel : q.content.length < fuel) :
    getAll fuel q (first :: rest) = .ok (q.content.getLastD first :: rest, q.drained) := by
  -- the last item still to come, or the one in the first place, stays the same
  let I : ℕ → CircularQueue α × List α → Prop := fun k s =>
    s.1.maxCapacity = q.maxCapacity ∧ s.1.content.length = k ∧ s.1.drained = q.drained ∧
      ∃ item, s.2 = item :: rest ∧ s.1.content.getLastD item = q.content.getLastD first
  refine BoundedLoop.loop_spec (I := I)
    (Q := fun r => r = .ok (q.content.getLastD first :: rest, q.drained)) ?_
    ⟨rfl, rfl, rfl, first, rfl, rfl⟩ hfuel
  rintro k ⟨q', seq⟩ ⟨hcap, hlen, hdrained, item, rfl, hlast⟩
  have hmax' : 0 < q'.maxCapacity := hcap ▸ hmax
  unfold getAllRound
  dsimp only at hlen hdrained hlast ⊢
  cases hempty : q'.empty with
  | true =>
      rw [(empty_iff hmax').mp hempty, List.getLastD_nil] at hlast
      rw [drained_of_empty hempty] at hdrained
      rw [if_pos rfl, hlast, hdrained]
      exact .done rfl
  | false =>
      have hcontent := content_popFront hmax' hempty
      rw [if_neg Bool.false_ne_true]
      rw [hcontent] at hlen hlast
      refine .next (Nat.lt_of_succ_le (Nat.le_of_eq hlen))
        ⟨hcap, rfl, hdrained, q'.popFront.1, rfl, ?_⟩
      rw [← hlast, List.getLastD_cons]

/-- **What `Dequeues` returns**: the last item, and a default item for each of the others. -/
theorem dequeues_eq [Inhabited α] (hmax : 0 < q.maxCapacity) (hne : q.content ≠ []) :
    dequeues q = .ok (q.content.getLastD default ::
      List.replicate (q.content.length - 1) default, q.drained) := by
  have hpos : 0 < q.size := by
    rw [← length_content]
    exact List.length_pos_of_ne_nil hne
  have hempty : q.empty = false := by rwa [← Bool.not_eq_true, empty_iff hmax]
  obtain ⟨k, hk⟩ := Nat.exists_eq_add_of_lt hpos
  rw [dequeues, if_neg (by simp [hempty]), length_content, hk]
  exact getAll_eq hmax default _ (by rw [length_content]; omega)

theorem eq_getLastD_cons_replicate_iff {l : List α} {d : α} (hne : l ≠ []) :
    l = l.getLastD d :: List.replicate (l.length - 1) d ↔ l.length = 1 ∨ ∀ x ∈ l, x = d := by
  constructor
  · intro heq
    by_contra hor
    rw [not_or] at hor
    have hlen : 2 ≤ l.length := by
      have hpos := List.length_pos_of_ne_nil hne
      omega
    obtain ⟨k, hk⟩ : ∃ k, l.length - 1 = k + 1 := ⟨l.length - 2, by omega⟩
    have hlast : l.getLastD d = d := by
      rw [heq, hk, List.replicate_succ', ← List.cons_append, List.getLastD_concat]
    rw [hlast] at heq
    refine hor.2 fun x hx => ?_
    rw [heq] at hx
    exact (List.mem_cons.mp hx).elim id List.eq_of_mem_replicate
  · rintro (hone | hall)
    · obtain ⟨x, rfl⟩ := List.length_eq_one_iff.mp hone
      rfl
    · obtain ⟨x, rest, rfl⟩ := List.exists_cons_of_ne_nil hne
      have hrest := List.eq_replicate_of_mem fun y hy => hall y (List.mem_cons_of_mem x hy)
      have hlast : (x :: rest).getLastD d = d := by
        rw [List.getLastD_cons, List.getLastD_eq_getLast?]
        cases hlast : rest.getLast? with
        | none => exact hall x List.mem_cons_self
        | some y => exact hall y (List.mem_cons_of_mem x (List.mem_of_getLast? hlast))
      rw [hlast]
      exact congrArg₂ List.cons (hall x List.mem_cons_self) hrest

/-- **When `Dequeues` returns the content**, as that many calls of `Dequeue` do. -/
theorem dequeues_iff [Inhabited α] (hmax : 0 < q.maxCapacity) (hne : q.content ≠ []) :
    (∃ q', dequeues q = .ok (q.content, q') ∧ q'.content = [] ∧
      dequeueTimes q.content.length q = some (q.content, q')) ↔
      q.content.length = 1 ∨ ∀ x ∈ q.content, x = default := by
  have hnil : q.drained.content = [] := (empty_iff (q := q.drained) hmax).mp empty_drained
  rw [dequeues_eq hmax hne, dequeueTimes_eq hmax, ← eq_getLastD_cons_replicate_iff hne]
  constructor
  · rintro ⟨q', heq, -, -⟩
    exact (congrArg Prod.fst (Except.ok.inj heq)).symm
  · intro heq
    exact ⟨q.drained, by rw [← heq], hnil, rfl⟩

/-- One item, in the last slot of a ring of two. -/
theorem dequeues_iff_single : ∃ q' : CircularQueue ℕ,
    dequeues ((((new 2).pushBack 7).popFront.2).pushBack 8) = .ok ([8], q') := by
  obtain ⟨q', hq, -⟩ := (dequeues_iff (q := (((new 2).pushBack 7).popFront.2).pushBack 8)
    (by decide) (by decide)).mpr (.inl (by decide))
  exact ⟨q', hq⟩

/-- Of two items the first is lost, and a default item stands behind the second. -/
theorem dequeues_two_items :
    ((((new 3).pushBack 1).pushBack 2 : CircularQueue ℕ).content = [1, 2]) ∧
      (dequeues (((new 3).pushBack 1).pushBack 2 : CircularQueue ℕ)).map Prod.fst = .ok [2, 0] ∧
      (dequeueTimes 2 (((new 3).pushBack 1).pushBack 2 : CircularQueue ℕ)).map Prod.fst =
        some [1, 2] := by
  decide

/-! ## How many items a queue holds -/

/-- A call of a member function. -/
inductive Call (α : Type*)
  | enqueue (item : α)
  | enqueueNoWait (item : α)
  | dequeue
  | dequeues
  | resetCounter
  deriving DecidableEq, Repr

def resetCounter (q : CircularQueue α) : CircularQueue α := { q with overCounter := 0 }

/-- What a call makes of the queue, if it returns. -/
def call [Inhabited α] (q : CircularQueue α) : Call α → Except Halt (CircularQueue α)
  | .enqueue item => (enqueue q item).elim (.error .wait) .ok
  | .enqueueNoWait item => .ok (enqueueNoWait q item)
  | .dequeue => (dequeue q).elim (.error .wait) fun r => .ok r.2
  | .dequeues => (dequeues q).map Prod.snd
  | .resetCounter => .ok (resetCounter q)

/-- The queue takes any `k` items, with `Enqueue` without waiting, and with `EnqueueNoWait`
without giving up an item. -/
def Holds (q : CircularQueue α) (k : ℕ) : Prop :=
  ∀ items : List α, items.length = k → (items.foldlM enqueue q).isSome = true ∧
    (items.foldl enqueueNoWait q).overCounter = q.overCounter

theorem call_maxCapacity [Inhabited α] {c : Call α} (hmax : 0 < q.maxCapacity)
    (h : call q c = .ok q') : q'.maxCapacity = q.maxCapacity := by
  cases c with
  | enqueue item =>
      cases he : enqueue q item with
      | none => simp only [call, he, Option.elim_none] at h; cases h
      | some r =>
          simp only [call, he, Option.elim_some, Except.ok.injEq] at h
          subst h
          exact (enqueue_eq_some hmax he).2.2.1
  | enqueueNoWait item => cases h; exact pushBack_maxCapacity
  | dequeue =>
      cases hd : dequeue q with
      | none => simp only [call, hd, Option.elim_none] at h; cases h
      | some r =>
          simp only [call, hd, Option.elim_some, Except.ok.injEq] at h
          subst h
          exact (dequeue_eq_some hmax hd).2.1
  | dequeues =>
      cases hempty : q.empty with
      | true => simp only [call, dequeues, hempty, if_true] at h; cases h
      | false =>
          have hne : q.content ≠ [] := by rwa [ne_eq, ← empty_iff hmax, Bool.not_eq_true]
          simp only [call, dequeues_eq hmax hne] at h
          cases h
          rfl
  | resetCounter => cases h; rfl

/-- `Enqueue` takes items as long as there is room. -/
theorem isSome_foldlM_enqueue (hmax : 0 < q.maxCapacity) (items : List α) :
    (items.foldlM enqueue q).isSome = true ↔
      q.content.length + items.length < q.maxCapacity := by
  have hlt := size_lt hmax
  rw [← length_content] at hlt
  induction items generalizing q with
  | nil => simpa using hlt
  | cons item items ih =>
      rw [List.foldlM_cons]
      cases he : enqueue q item with
      | none =>
          have hfull := (full_iff hmax).mp (enqueue_eq_none.mp he)
          simp only [Option.bind_eq_bind, Option.bind_none, Option.isSome_none, List.length_cons,
            Bool.false_eq_true, false_iff]
          omega
      | some r =>
          obtain ⟨hfull, hcontent, hcap, -⟩ := enqueue_eq_some hmax he
          have hlen := congrArg List.length hcontent
          rw [List.length_append, List.length_singleton] at hlen
          have hmax' : 0 < r.maxCapacity := hcap.symm ▸ hmax
          have hroom := size_lt hmax'
          rw [← length_content] at hroom
          refine (ih hmax' hroom).trans ?_
          rw [hlen, hcap, List.length_cons]
          omega

/-- `EnqueueNoWait` pushes, with room for one item less than there are slots. -/
theorem toFifo_foldl_enqueueNoWait (hmax : 0 < q.maxCapacity) (items : List α) :
    (items.foldl enqueueNoWait q).toFifo = q.toFifo.pushes (q.maxCapacity - 1) items := by
  induction items generalizing q with
  | nil => rfl
  | cons item items ih =>
      have hpush := toFifo_pushBack hmax item
      have hcap : (q.pushBack item).maxCapacity = q.maxCapacity := pushBack_maxCapacity
      have hrest := ih (q := q.pushBack item) (hcap.symm ▸ hmax)
      rw [hpush, hcap] at hrest
      exact hrest

/-- **A queue constructed for `n` items holds `n - 1` of them**, and never `n`, whatever has been
done with it before it became empty. -/
theorem holds_iff [Inhabited α] {n : ℕ} {history : List (Call α)} (hn : 0 < n)
    (hrun : run call (new n) history = .ok q) (hempty : q.empty = true) :
    ¬ Holds q n ∧ ∀ k, Holds q k ↔ k < n := by
  have hq : q.maxCapacity = n := by
    refine invariant_of_step (fun q => q.maxCapacity = n) ?_ rfl hrun
    intro q c q' hq h
    exact (call_maxCapacity (hq.symm ▸ hn) h).trans hq
  subst hq
  have hnil : q.content = [] := (empty_iff hn).mp hempty
  have hlen : q.toFifo.items.length = 0 := congrArg List.length hnil
  suffices hiff : ∀ k, Holds q k ↔ k < q.maxCapacity from
    ⟨fun hholds => (hiff _).mp hholds |>.false, hiff⟩
  intro k
  constructor
  · intro hholds
    obtain ⟨htakes, -⟩ := hholds (List.replicate k default) List.length_replicate
    rw [isSome_foldlM_enqueue hn, hnil, List.length_replicate] at htakes
    simpa using htakes
  · intro hk items hitems
    have hcounter : (items.foldl enqueueNoWait q).overCounter =
        (q.toFifo.pushes (q.maxCapacity - 1) items).overruns :=
      congrArg Fifo.overruns (toFifo_foldl_enqueueNoWait hn items)
    refine ⟨(isSome_foldlM_enqueue hn items).mpr (by rw [hnil, hitems]; simpa using hk), ?_⟩
    rw [hcounter, Fifo.overruns_pushes (by omega), hlen, hitems,
      Nat.sub_eq_zero_of_le (by omega)]
    rfl

/-- A queue for three items, used once before. -/
theorem holds_iff_three : ∃ q : CircularQueue ℕ,
    run call (new 3) [.enqueueNoWait 5, .dequeue] = .ok q ∧ Holds q 2 := by
  have hrun : run call (new 3 : CircularQueue ℕ) [.enqueueNoWait 5, .dequeue] =
      .ok ((new 3).pushBack 5).popFront.2 := rfl
  exact ⟨_, hrun, ((holds_iff (by decide) hrun (by decide)).2 2).mpr (by decide)⟩

/-- A queue for two items has no room for the second. -/
theorem not_holds_two : ¬ Holds (new 2 : CircularQueue ℕ) 2 := fun hholds =>
  absurd (hholds [1, 2] rfl).1 (by decide)

end BlockingQueue

end Hare.Util
