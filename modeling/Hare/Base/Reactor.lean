import Hare.Base.Event
import Hare.Lib.LabelledRun
import Hare.Lib.PriorityQueue
import Mathlib.Data.List.Nodup
import Mathlib.Logic.Function.Basic

/-!
# The registry of a cycle

The part of a cycle its events live in: the map from ids to registered events, the map
from descriptors to ids, the queue of timeouts and the counter the ids are drawn from.
All of it belongs to the cycle thread; only the counter is shared.

`RunAfter` and `RunEvery` draw an id at once and register their timer in a task, which
runs later when the call comes from another thread; `reserved` holds the ids in between.

## Main definitions

* `Reactor`, with `insertTimer`, `eventUpdate`, `eventRemove` and `cancel`.
* `Reactor.notifyTimer`: the dispatch of the timeouts that are due.
* `ReactorCall`, `Reactor.step`: the calls that change the registry.
* `Reactor.Valid`: what holds of every registry reached by calls.
-/

namespace Hare.Io

open LabelledRun PriorityQueue

/-- An entry of the timeout queue. -/
structure TimerElem where
  id : ℕ
  stamp : ℤ
  deriving DecidableEq, Repr

/-- The comparison of the timeout queue.  The top of a priority queue is an element that
no other one exceeds, here one with the latest stamp. -/
def TimerPriority (x y : TimerElem) : Prop := x.stamp < y.stamp

@[ext] structure Reactor where
  events : ℕ → Option Event
  inverseMap : ℤ → Option ℕ
  ptimer : List TimerElem
  eventId : ℕ
  reserved : List ℕ

namespace Reactor

def init : Reactor where
  events := fun _ => none
  inverseMap := fun _ => none
  ptimer := []
  eventId := 0
  reserved := []

/-- `ptimer_.emplace`. -/
def emplace (r : Reactor) (id : ℕ) (stamp : ℤ) : Reactor :=
  { r with ptimer := r.ptimer ++ [⟨id, stamp⟩] }

/-- The event map with the event of `id` set. -/
def setEvent (r : Reactor) (id : ℕ) (e : Option Event) : Reactor :=
  { r with events := Function.update r.events id e }

/-! ## Registration -/

/-- The id drawn by `RunAfter` and `RunEvery`. -/
def fetchAdd (r : Reactor) : Reactor :=
  { r with eventId := r.eventId + 1, reserved := r.reserved ++ [r.eventId] }

/-- The task `RunAfter` and `RunEvery` give to the cycle thread. -/
def insertTimer (r : Reactor) (id : ℕ) (timer : Event) (now : ℤ) : Except Fault Reactor :=
  if (r.events id).isSome then
    .error .assertFailed
  else if !timer.events.timeout then
    .error .assertFailed
  else
    .ok ({ r with reserved := r.reserved.erase id }.setEvent id (some timer)
      |>.emplace id (now + timer.timeval))

/-- The end of `EventUpdate`: an event with a timeout gets an entry in the queue. -/
def arm (r : Reactor) (id : ℕ) (e : Event) (now : ℤ) : Reactor :=
  if e.events.timeout then r.emplace id (now + e.timeval) else r

/-- The registration of an event that has no id yet. -/
def insertEvent (r : Reactor) (e : Event) : Reactor :=
  { r with
    events := Function.update r.events r.eventId (some e)
    inverseMap :=
      if 0 ≤ e.fd ∧ r.inverseMap e.fd = none then
        Function.update r.inverseMap e.fd (some r.eventId)
      else
        r.inverseMap
    eventId := r.eventId + 1 }

/-- `Cycle::EventUpdate` on the cycle thread, for an event that carries the given id;
`accepted` is the answer of the poller. -/
def eventUpdate (r : Reactor) (id : Option ℕ) (e : Event) (accepted : Bool) (now : ℤ) :
    Except Fault Reactor :=
  if 0 ≤ e.fd ∧ accepted = false then
    .ok r
  else
    match id with
    | some id => .ok (r.arm id e now)
    | none =>
      if (r.events r.eventId).isSome then
        .error .assertFailed
      else
        .ok ((r.insertEvent e).arm r.eventId e now)

/-- `Cycle::EventRemove` on the cycle thread.  The entries of the event stay in the
queue. -/
def eventRemove (r : Reactor) (id : ℕ) : Reactor :=
  match r.events id with
  | none => r
  | some e =>
    { r.setEvent id none with
      inverseMap :=
        if 0 ≤ e.fd then Function.update r.inverseMap e.fd none else r.inverseMap }

/-- `Cycle::Cancel` on the cycle thread. -/
def cancel (r : Reactor) (id : ℕ) : Reactor :=
  match r.events id with
  | none => r
  | some e => if e.fd < 0 then r.setEvent id none else r

/-! ## Dispatch -/

/-- What `NotifyTimer` did with an entry it took from the queue: whether it called
`HandleEvent`, which it does when the event is registered at that point, and whether
that call reached the callback. -/
structure Examined where
  elem : TimerElem
  handled : Bool
  invoked : Bool
  deriving DecidableEq, Repr

/-- The end of an iteration of `NotifyTimer` for a registered event. -/
def settle (r : Reactor) (top : TimerElem) (e : Event) (reactorTime : ℤ) : Reactor :=
  if e.events.persist then
    r.emplace top.id (reactorTime + e.timeval)
  else
    r.eventRemove top.id

/-- What one iteration of `NotifyTimer` does with the top of the queue, before `pop`.  The
callback of an event acts on the registry by `effect`; when it unregisters its own event,
the reference the loop holds into the event map dangles. -/
def examine (effect : ℕ → Reactor → Reactor) (reactorTime : ℤ) (r : Reactor)
    (top : TimerElem) : Except Fault (Reactor × Examined) :=
  match r.events top.id with
  | none => .ok (r, ⟨top, false, false⟩)
  | some event =>
    let invoked := event.handleEvent
    let r := if invoked then effect top.id r else r
    match r.events top.id with
    | none => .error .useAfterFree
    | some event => .ok (r.settle top event reactorTime, ⟨top, true, invoked⟩)

/-- The queue after `pop`. -/
def pop (P : Top TimerPriority) (r : Reactor) : Reactor :=
  { r with ptimer := P.pop r.ptimer }

/-- `Cycle::NotifyTimer`, with the entries it took from the queue in that order.  `P` says
which of several latest entries is on top. -/
def notifyTimer (P : Top TimerPriority) (effect : ℕ → Reactor → Reactor)
    (reactorTime : ℤ) : ℕ → Reactor → Except Fault (Reactor × List Examined)
  | 0, _ => .error .diverges
  | fuel + 1, r =>
    match P.top r.ptimer with
    | none => .ok (r, [])
    | some top =>
      if reactorTime < top.stamp then
        .ok (r, [])
      else do
        let (r, x) ← r.examine effect reactorTime top
        let (r, log) ← notifyTimer P effect reactorTime fuel (r.pop P)
        .ok (r, x :: log)

/-! ## Calls -/

/-- A call that changes the registry, as it runs on the cycle thread. -/
inductive ReactorCall
  /-- `RunAfter` or `RunEvery` draws an id. -/
  | fetchAdd
  /-- The task of the `RunAfter` that drew `id` runs at time `now`. -/
  | runAfter (id : ℕ) (delay now : ℤ)
  /-- The task of the `RunEvery` that drew `id` runs at time `now`. -/
  | runEvery (id : ℕ) (delay now : ℤ)
  /-- `EventUpdate` of an event that is not registered. -/
  | add (e : Event) (accepted : Bool) (now : ℤ)
  /-- `EventUpdate` of a registered event, after a change of its interest. -/
  | update (id : ℕ) (read write accepted : Bool) (now : ℤ)
  /-- `Tie` of a registered event. -/
  | tie (id : ℕ) (alive : Bool)
  /-- `EventRemove` of the event registered under `id`. -/
  | remove (id : ℕ)
  /-- `Cancel`. -/
  | cancel (id : ℕ)

/-- The effect of a call.  A task whose id was not drawn, or has been used, does not
exist. -/
def step (r : Reactor) : ReactorCall → Except Fault Reactor
  | .fetchAdd => .ok r.fetchAdd
  | .runAfter id delay now =>
    if id ∈ r.reserved then r.insertTimer id (Timer.new delay false) now else .ok r
  | .runEvery id delay now =>
    if id ∈ r.reserved then r.insertTimer id (Timer.new delay true) now else .ok r
  | .add e accepted now => r.eventUpdate none e accepted now
  | .update id read write accepted now =>
    match r.events id with
    | none => .ok r
    | some e =>
      let e := e.setInterest read write
      (r.setEvent id (some e)).eventUpdate (some id) e accepted now
  | .tie id alive => .ok (r.setEvent id ((r.events id).map (Event.tie · alive)))
  | .remove id => .ok (r.eventRemove id)
  | .cancel id => .ok (r.cancel id)

/-- What holds of every registry.  The ids of the queue, of the registered events and of the
waiting tasks have been drawn; no event is registered yet under the id of a waiting task; a
registered event that has an entry in the queue has a timeout. -/
structure Valid (r : Reactor) : Prop where
  entry_lt : ∀ x ∈ r.ptimer, x.id < r.eventId
  event_lt : ∀ i e, r.events i = some e → i < r.eventId
  reserved_lt : ∀ i ∈ r.reserved, i < r.eventId
  reserved_none : ∀ i ∈ r.reserved, r.events i = none
  reserved_nodup : r.reserved.Nodup
  timeout : ∀ x ∈ r.ptimer, ∀ e, r.events x.id = some e → e.events.timeout = true

theorem valid_init : init.Valid where
  entry_lt := by simp [init]
  event_lt := by simp [init]
  reserved_lt := by simp [init]
  reserved_none := by simp [init]
  reserved_nodup := List.nodup_nil
  timeout := by simp [init]

namespace Valid

variable {r : Reactor}

/-- A timeout entry belongs to an event that is not persistent. -/
theorem persist_eq_false (h : r.Valid) {x : TimerElem} (hx : x ∈ r.ptimer) {e : Event}
    (he : r.events x.id = some e) : e.events.persist = false :=
  e.oneShot (h.timeout x hx e he)

theorem fresh (h : r.Valid) : r.events r.eventId = none := by
  cases he : r.events r.eventId with
  | none => rfl
  | some e => exact absurd (h.event_lt r.eventId e he) (lt_irrefl _)

theorem setEvent (h : r.Valid) (id : ℕ) (e : Option Event)
    (hid : e.isSome → id < r.eventId ∧ id ∉ r.reserved)
    (he : ∀ e' ∈ e, e'.events.timeout = true ∨ ∀ x ∈ r.ptimer, x.id ≠ id) :
    (r.setEvent id e).Valid where
  entry_lt := h.entry_lt
  event_lt i e' he' := by
    by_cases hi : i = id
    · subst hi
      exact (hid (by simp_all [Reactor.setEvent])).1
    · refine h.event_lt i e' ?_
      simpa [Reactor.setEvent, Function.update_of_ne hi] using he'
  reserved_lt := h.reserved_lt
  reserved_none i hi := by
    by_cases hid' : i = id
    · subst hid'
      have hnone : e = none := Option.not_isSome_iff_eq_none.mp fun hsome => (hid hsome).2 hi
      simp [Reactor.setEvent, hnone]
    · simpa [Reactor.setEvent, Function.update_of_ne hid'] using h.reserved_none i hi
  reserved_nodup := h.reserved_nodup
  timeout x hx e' he' := by
    by_cases hid : x.id = id
    · have hmem : e' ∈ e := by simpa [Reactor.setEvent, hid] using he'
      exact (he e' hmem).resolve_right fun hne => hne x hx hid
    · refine h.timeout x hx e' ?_
      simpa [Reactor.setEvent, Function.update_of_ne hid] using he'

/-- A change of the event under an id that keeps its timeout bit. -/
theorem modify (h : r.Valid) {id : ℕ} {e e' : Event} (he : r.events id = some e)
    (ht : e'.events.timeout = e.events.timeout) : (r.setEvent id (some e')).Valid := by
  have hid : id ∉ r.reserved := fun hmem => by simp [h.reserved_none id hmem] at he
  apply h.setEvent id (some e') (fun _ => ⟨h.event_lt id e he, hid⟩)
  intro e'' he''
  obtain rfl : e' = e'' := by simpa using he''
  by_cases hx : ∃ x ∈ r.ptimer, x.id = id
  · obtain ⟨x, hx, rfl⟩ := hx
    exact Or.inl (ht.trans (h.timeout x hx e he))
  · exact Or.inr fun x hmem hid => hx ⟨x, hmem, hid⟩

theorem emplace (h : r.Valid) {id : ℕ} (hid : id < r.eventId) (stamp : ℤ)
    (ht : ∀ e, r.events id = some e → e.events.timeout = true) :
    (r.emplace id stamp).Valid where
  entry_lt x hx := by
    rcases List.mem_append.mp hx with hx | hx
    · exact h.entry_lt x hx
    · obtain rfl : x = ⟨id, stamp⟩ := by simpa using hx
      exact hid
  event_lt := h.event_lt
  reserved_lt := h.reserved_lt
  reserved_none := h.reserved_none
  reserved_nodup := h.reserved_nodup
  timeout x hx e he := by
    rcases List.mem_append.mp hx with hx | hx
    · exact h.timeout x hx e he
    · obtain rfl : x = ⟨id, stamp⟩ := by simpa using hx
      exact ht e he

theorem arm (h : r.Valid) {id : ℕ} {e : Event} (he : r.events id = some e) (now : ℤ) :
    (r.arm id e now).Valid := by
  unfold Reactor.arm
  split
  · next ht =>
      refine h.emplace (h.event_lt id e he) _ fun e' he' => ?_
      obtain rfl : e = e' := Option.some.inj (he.symm.trans he')
      exact ht
  · exact h

theorem insertEvent (h : r.Valid) (e : Event) : (r.insertEvent e).Valid where
  entry_lt x hx := Nat.lt_succ_of_lt (h.entry_lt x hx)
  event_lt i e' he' := by
    by_cases hi : i = r.eventId
    · exact hi ▸ Nat.lt_succ_self _
    · refine Nat.lt_succ_of_lt (h.event_lt i e' ?_)
      simpa [Reactor.insertEvent, Function.update_of_ne hi] using he'
  reserved_lt i hi := Nat.lt_succ_of_lt (h.reserved_lt i hi)
  reserved_none i hi := by
    have hne : i ≠ r.eventId := (h.reserved_lt i hi).ne
    simpa [Reactor.insertEvent, Function.update_of_ne hne] using h.reserved_none i hi
  reserved_nodup := h.reserved_nodup
  timeout x hx e' he' := by
    have hne : x.id ≠ r.eventId := (h.entry_lt x hx).ne
    refine h.timeout x hx e' ?_
    simpa [Reactor.insertEvent, Function.update_of_ne hne] using he'

theorem insertTimer (h : r.Valid) {id : ℕ} (hid : id ∈ r.reserved) {timer : Event}
    {now : ℤ} {r' : Reactor} (hrun : r.insertTimer id timer now = .ok r') : r'.Valid := by
  unfold Reactor.insertTimer at hrun
  split at hrun
  · cases hrun
  split at hrun
  · cases hrun
  next ht =>
    cases hrun
    have ht : timer.events.timeout = true := by simpa using ht
    have herase : Valid { r with reserved := r.reserved.erase id } :=
      ⟨h.entry_lt, h.event_lt, fun i hi => h.reserved_lt i (List.mem_of_mem_erase hi),
        fun i hi => h.reserved_none i (List.mem_of_mem_erase hi), h.reserved_nodup.erase id,
        h.timeout⟩
    have hset := herase.setEvent id (some timer)
      (fun _ => ⟨h.reserved_lt id hid, h.reserved_nodup.not_mem_erase⟩)
      fun e' he' => by
        obtain rfl : timer = e' := by simpa using he'
        exact Or.inl ht
    refine hset.emplace (h.reserved_lt id hid) _ fun e he => ?_
    obtain rfl : timer = e := by simpa [Reactor.setEvent] using he
    exact ht

theorem eventRemove (h : r.Valid) (id : ℕ) : (r.eventRemove id).Valid := by
  unfold Reactor.eventRemove
  split
  · exact h
  · have hset := h.setEvent id none (by simp) (by simp)
    exact ⟨hset.entry_lt, hset.event_lt, hset.reserved_lt, hset.reserved_none,
      hset.reserved_nodup, hset.timeout⟩

theorem cancel (h : r.Valid) (id : ℕ) : (r.cancel id).Valid := by
  unfold Reactor.cancel
  split
  · exact h
  split
  · exact h.setEvent id none (by simp) (by simp)
  · exact h

theorem fetchAdd (h : r.Valid) : r.fetchAdd.Valid where
  entry_lt x hx := Nat.lt_succ_of_lt (h.entry_lt x hx)
  event_lt i e he := Nat.lt_succ_of_lt (h.event_lt i e he)
  reserved_lt i hi := by
    rcases List.mem_append.mp hi with hi | hi
    · exact Nat.lt_succ_of_lt (h.reserved_lt i hi)
    · rw [List.mem_singleton.mp hi]
      exact Nat.lt_succ_self _
  reserved_none i hi := by
    rcases List.mem_append.mp hi with hi | hi
    · exact h.reserved_none i hi
    · rw [List.mem_singleton.mp hi]
      exact h.fresh
  reserved_nodup := by
    refine List.nodup_append.mpr ⟨h.reserved_nodup, List.nodup_singleton _, ?_⟩
    intro i hi j hj
    rw [List.mem_singleton.mp hj]
    exact (h.reserved_lt i hi).ne
  timeout := h.timeout

/-- Every call keeps the registry valid. -/
theorem step (h : r.Valid) {c : ReactorCall} {r' : Reactor} (hrun : r.step c = .ok r') :
    r'.Valid := by
  cases c with
  | fetchAdd =>
      cases hrun
      exact h.fetchAdd
  | runAfter id delay now | runEvery id delay now =>
      simp only [Reactor.step] at hrun
      split at hrun
      · next hid => exact h.insertTimer hid hrun
      · cases hrun
        exact h
  | add e accepted now =>
      simp only [Reactor.step, Reactor.eventUpdate] at hrun
      split at hrun
      · cases hrun
        exact h
      split at hrun
      · cases hrun
      · cases hrun
        apply (h.insertEvent e).arm
        simp [Reactor.insertEvent]
  | update id read write accepted now =>
      simp only [Reactor.step, Reactor.eventUpdate] at hrun
      split at hrun
      · cases hrun
        exact h
      next e he =>
        have hset : (r.setEvent id (some (e.setInterest read write))).Valid := h.modify he rfl
        split at hrun
        · cases hrun
          exact hset
        · cases hrun
          apply hset.arm
          simp [Reactor.setEvent]
  | tie id alive =>
      cases hrun
      cases he : r.events id with
      | none => exact h.setEvent id none (by simp) (by simp)
      | some e => exact h.modify he rfl
  | remove id =>
      cases hrun
      exact h.eventRemove id
  | cancel id =>
      cases hrun
      exact h.cancel id

end Valid

end Reactor

end Hare.Io
