import Hare.Base.Reactor

/-!
# Event objects and the maps of a cycle

`Hare.Base.Reactor` describes the registry of a cycle by what is registered under an id.
Here the event objects are apart: an object knows the cycle it belongs to and its id, the
event map points to objects, and the poller watches descriptors on behalf of objects.  The
functions of the cycle and of `ReactorEpoll` keep these in step with each other, in several
places and orders, and assert that they do.

`Registered` is what always holds between them, `Exact` what holds in addition as long as
`Exec` has not left descriptors behind.
-/

namespace Hare.Io

open PriorityQueue

/-- The event objects: the one of the cycle itself, those of the user, and the timers of
`RunAfter` and `RunEvery`, which no one else has a pointer to. -/
inductive EventPtr
  | notify
  | user (n : ℕ)
  | timer (id : ℕ)
  deriving DecidableEq, Repr

/-- Whether the event is a timer of `RunAfter` or `RunEvery`. -/
@[grind] def EventPtr.isTimer : EventPtr → Bool
  | .timer _ => true
  | _ => false

/-- What `Event::cycle` returns. -/
inductive Owner
  | null
  | this
  | other
  deriving DecidableEq, Repr

/-- An event object; `id` is missing for -1. -/
structure EventImpl where
  event : Event
  cycle : Owner
  id : Option ℕ
  deriving DecidableEq, Repr

namespace EventImpl

/-- An object that belongs to no cycle. -/
@[grind] def new (event : Event) : EventImpl := ⟨event, .null, none⟩

@[grind] def active (o : EventImpl) (id : ℕ) : EventImpl := { o with cycle := .this, id := some id }

@[grind] def reset (o : EventImpl) : EventImpl := { o with cycle := .null, id := none }

end EventImpl

/-- The assertions on event objects and maps. -/
inductive Assertion
  /-- `ReactorEpoll::EventUpdate` of a new event: its descriptor is not in `inverse_map_`. -/
  | updateNew
  /-- `ReactorEpoll::EventUpdate` of a known event: it is in both maps. -/
  | updateKnown
  /-- `ReactorEpoll::EventRemove`: the descriptor is in `inverse_map_` and the event reset. -/
  | removeKnown
  /-- `ReactorEpoll::FillActiveEvents`: a reported event is in both maps. -/
  | fillActive
  /-- `Cycle::EventUpdate`: a new id is not in `events_`. -/
  | insertNew
  /-- `Cycle::EventRemove`: the id of the event leads to it. -/
  | removeSame
  /-- `RunAfter` and `RunEvery`: the timer has no id yet. -/
  | timerNew
  /-- `RunAfter` and `RunEvery`: the id of the timer is not in `events_`. -/
  | timerInsert
  /-- `RunAfter` and `RunEvery`: the timer has a timeout. -/
  | timerTimeout
  deriving DecidableEq, Repr

/-- Whether it is an assertion of the poller. -/
def Assertion.ofReactor : Assertion → Bool
  | .updateNew | .updateKnown | .removeKnown | .fillActive => true
  | _ => false

/-- The event objects and the maps of a cycle. -/
structure Registry where
  object : EventPtr → EventImpl
  /-- `events_`. -/
  events : ℕ → Option EventPtr
  /-- `inverse_map_`. -/
  inverseMap : ℤ → Option ℕ
  /-- `ptimer_`. -/
  ptimer : List TimerElem
  eventId : ℕ
  /-- The descriptors the kernel watches, and the event it reports for each. -/
  epoll : ℤ → Option EventPtr

namespace Registry

/-- The descriptor of an event. -/
def fd (r : Registry) (p : EventPtr) : ℤ := (r.object p).event.fd

def modify (r : Registry) (p : EventPtr) (f : EventImpl → EventImpl) : Registry :=
  { r with object := Function.update r.object p (f (r.object p)) }

/-- `ptimer_.emplace`. -/
def emplace (r : Registry) (id : ℕ) (stamp : ℤ) : Registry :=
  { r with ptimer := r.ptimer ++ [⟨id, stamp⟩] }

/-! ## The poller -/

/-- `epoll_ctl` with `ADD` or `MOD`, when the kernel accepts it. -/
def watch (r : Registry) (p : EventPtr) : Registry :=
  { r with epoll := Function.update r.epoll (r.fd p) (some p) }

/-- `ReactorEpoll::EventUpdate`; nothing when it returns false.  Whatever else the kernel
may refuse, it does refuse to add a descriptor it watches and to modify one it does not. -/
def reactorUpdate (r : Registry) (p : EventPtr) (accepted : Bool) :
    Except Assertion (Option Registry) :=
  match (r.object p).id with
  | none =>
    if (r.inverseMap (r.fd p)).isSome then .error .updateNew
    else if accepted && (r.epoll (r.fd p)).isNone then .ok (some (r.watch p))
    else .ok none
  | some id =>
    if (r.inverseMap (r.fd p)).isNone then .error .updateKnown
    else if r.events id ≠ some p then .error .updateKnown
    else if accepted && (r.epoll (r.fd p)).isSome then .ok (some (r.watch p))
    else .ok none

/-- `ReactorEpoll::EventRemove`. -/
def reactorRemove (r : Registry) (p : EventPtr) : Except Assertion Registry :=
  if (r.inverseMap (r.fd p)).isNone then .error .removeKnown
  else if (r.object p).id.isSome then .error .removeKnown
  else .ok { r with epoll := Function.update r.epoll (r.fd p) none }

/-! ## The functions of the cycle -/

/-- The registration of an event that has no id yet. -/
def activate (r : Registry) (p : EventPtr) : Except Assertion Registry :=
  if (r.events r.eventId).isSome then .error .insertNew
  else .ok { r.modify p (EventImpl.active · r.eventId) with
    events := Function.update r.events r.eventId (some p)
    inverseMap :=
      if 0 ≤ r.fd p ∧ r.inverseMap (r.fd p) = none then
        Function.update r.inverseMap (r.fd p) (some r.eventId)
      else r.inverseMap
    eventId := r.eventId + 1 }

/-- An event with a timeout gets an entry in the queue. -/
def arm (r : Registry) (p : EventPtr) (now : ℤ) : Registry :=
  match (r.object p).id with
  | some id =>
    if (r.object p).event.events.timeout then r.emplace id (now + (r.object p).event.timeval)
    else r
  | none => r

/-- The task of `Cycle::EventUpdate`. -/
def eventUpdate (r : Registry) (p : EventPtr) (accepted : Bool) (now : ℤ) :
    Except Assertion Registry := do
  let polled ← if 0 ≤ r.fd p then r.reactorUpdate p accepted else .ok (some r)
  match polled with
  | none => .ok r
  | some r =>
    let r ← if (r.object p).id.isNone then r.activate p else .ok r
    .ok (r.arm p now)

/-- Whether `Cycle::EventUpdate` goes on: the event does not belong to another cycle. -/
def mayUpdate (r : Registry) (p : EventPtr) : Bool :=
  (r.object p).cycle == .this || (r.object p).id.isNone

/-- The task of `Cycle::EventRemove`. -/
def eventRemove (r : Registry) (p : EventPtr) : Except Assertion Registry :=
  match (r.object p).id with
  | none => .ok r
  | some id =>
    match r.events id with
    | none => .ok r
    | some q =>
      if q ≠ p then .error .removeSame
      else do
        let socket := r.fd p
        let r := r.modify p EventImpl.reset
        let r ← if 0 ≤ socket then do
            let r ← r.reactorRemove p
            .ok { r with inverseMap := Function.update r.inverseMap socket none }
          else .ok r
        .ok { r with events := Function.update r.events id none }

/-- Whether `Cycle::EventRemove` goes on: the event belongs to the cycle. -/
def mayRemove (r : Registry) (p : EventPtr) : Bool :=
  (r.object p).cycle == .this && (r.object p).id.isSome

/-- `Cycle::EventUpdate` on the cycle thread. -/
def callUpdate (r : Registry) (p : EventPtr) (accepted : Bool) (now : ℤ) :
    Except Assertion Registry :=
  if r.mayUpdate p then r.eventUpdate p accepted now else .ok r

/-- `Cycle::EventRemove` on the cycle thread. -/
def callRemove (r : Registry) (p : EventPtr) : Except Assertion Registry :=
  if r.mayRemove p then r.eventRemove p else .ok r

/-- The task of `Cycle::Cancel`. -/
def cancel (r : Registry) (id : ℕ) : Registry :=
  match r.events id with
  | none => r
  | some p =>
    if r.fd p < 0 then
      { r.modify p EventImpl.reset with events := Function.update r.events id none }
    else r

/-- `RunAfter` and `RunEvery` make a timer and draw its id. -/
def createTimer (r : Registry) (delay : ℤ) (isPersist : Bool) : Registry :=
  { r.modify (.timer r.eventId) fun _ => .new (Timer.new delay isPersist) with
    eventId := r.eventId + 1 }

/-- The task of `RunAfter` and `RunEvery`. -/
def registerTimer (r : Registry) (id : ℕ) (now : ℤ) : Except Assertion Registry :=
  if (r.object (.timer id)).id.isSome then .error .timerNew
  else if (r.events id).isSome then .error .timerInsert
  else if !(r.object (.timer id)).event.events.timeout then .error .timerTimeout
  else .ok ({ r.modify (.timer id) (EventImpl.active · id) with
    events := Function.update r.events id (some (.timer id)) }.emplace id
      (now + (r.object (.timer id)).event.timeval))

/-- Whether an event is in `events_`, whose keys have all been drawn from the counter. -/
def registered (r : Registry) (p : EventPtr) : Bool :=
  (List.range r.eventId).any fun id => r.events id = some p

/-- `Reset` of all events, and `events_` and `ptimer_` cleared. -/
def resetAll (r : Registry) : Registry :=
  { r with
    object := fun p => if r.registered p then (r.object p).reset else r.object p
    events := fun _ => none
    ptimer := [] }

/-- The beginning of `Exec`, before its loop. -/
def enter (r : Registry) (accepted : Bool) (now : ℤ) : Except Assertion Registry := do
  let r ← r.callUpdate .notify accepted now
  .ok (r.modify .notify fun o => { o with event := o.event.tie true })

/-- What `Exec` does with an active event when `HandleEvent` has returned. -/
def afterEvent (r : Registry) (p : EventPtr) : Except Assertion Registry :=
  if (r.object p).event.events.persist then .ok r else r.callRemove p

/-- The queue after `pop`. -/
def pop (P : Top TimerPriority) (r : Registry) : Registry :=
  { r with ptimer := P.pop r.ptimer }

/-- What `NotifyTimer` does with the event of the entry it looked at when `HandleEvent` has
returned. -/
def afterTimer (P : Top TimerPriority) (r : Registry) (id : ℕ) (p : EventPtr)
    (reactorTime : ℤ) : Except Assertion Registry := do
  let r ←
    if (r.object p).event.events.persist then
      .ok (r.emplace id (reactorTime + (r.object p).event.timeval))
    else r.callRemove p
  .ok (r.pop P)

/-- The end of `Exec`, behind its loop. -/
def leave (r : Registry) : Except Assertion Registry := do
  let r ← r.callRemove .notify
  .ok (r.modify .notify fun o => { o with event := o.event.tie false }).resetAll

/-! ## What holds between objects and maps -/

/-- What always holds: the events of the map know it, and their descriptors lead to them.
The timers have no descriptor and are registered under their own ids. -/
structure Registered (r : Registry) : Prop where
  own : ∀ {id p}, r.events id = some p → (r.object p).id = some id ∧ (r.object p).cycle = .this
  mem : ∀ {p}, (r.object p).cycle = .this → ∃ id, r.events id = some p
  null : ∀ {p}, (r.object p).cycle = .null → (r.object p).id = none
  other : ∀ {p}, (r.object p).cycle = .other → (∃ n, p = .user n) ∧ (r.object p).id.isSome
  lt : ∀ {id p}, r.events id = some p → id < r.eventId
  inverse : ∀ {id p}, r.events id = some p → 0 ≤ r.fd p → r.inverseMap (r.fd p) = some id
  kernel : ∀ {id p}, r.events id = some p → 0 ≤ r.fd p → r.epoll (r.fd p) = some p
  watched : ∀ {d p}, r.epoll d = some p → 0 ≤ d ∧ p.isTimer = false
  timer : ∀ id, r.fd (.timer id) = -1
  label : ∀ {id i}, r.events id = some (.timer i) → i = id

/-- The descriptors in the map and in the kernel are those of registered events. -/
structure Exact (r : Registry) : Prop where
  inverse : ∀ {d id}, r.inverseMap d = some id → ∃ p, r.events id = some p ∧ r.fd p = d ∧ 0 ≤ d
  kernel : ∀ {d p}, r.epoll d = some p → ∃ id, r.events id = some p ∧ r.fd p = d ∧ 0 ≤ d

variable {r : Registry} {p q : EventPtr} {id : ℕ}

namespace Registered

variable (h : r.Registered)
include h

/-- An event is registered under one id. -/
theorem eq_of_events {i j : ℕ} (hi : r.events i = some p) (hj : r.events j = some p) : i = j :=
  Option.some.inj ((h.own hi).1.symm.trans (h.own hj).1)

/-- Registered events have different descriptors. -/
theorem eq_of_fd {i j : ℕ} (hi : r.events i = some p) (hj : r.events j = some q)
    (hfd : r.fd p = r.fd q) (hpos : 0 ≤ r.fd p) : p = q := by
  have hp := h.kernel hi hpos
  rw [hfd, h.kernel hj (hfd ▸ hpos)] at hp
  exact (Option.some.inj hp).symm

theorem fresh : r.events r.eventId = none := by
  cases he : r.events r.eventId with
  | none => rfl
  | some p => exact absurd (h.lt he) (Nat.lt_irrefl _)

/-- An event of no cycle is in no map. -/
theorem not_mem_of_null (hp : (r.object p).cycle = .null) (id : ℕ) : r.events id ≠ some p := by
  intro he
  rw [(h.own he).2] at hp
  cases hp

theorem registered_iff : r.registered p = true ↔ ∃ id, r.events id = some p := by
  simp only [registered, List.any_eq_true, List.mem_range, decide_eq_true_eq]
  exact ⟨fun ⟨id, _, he⟩ => ⟨id, he⟩, fun ⟨id, he⟩ => ⟨id, h.lt he, he⟩⟩

/-- An event of this cycle or of none has an id exactly when it is registered. -/
theorem null_of_id (hp : (r.object p).cycle ≠ .other) (hid : (r.object p).id = none) :
    (r.object p).cycle = .null := by
  cases hc : (r.object p).cycle with
  | null => rfl
  | this =>
      obtain ⟨id, he⟩ := h.mem hc
      rw [(h.own he).1] at hid
      cases hid
  | other => exact absurd hc hp

theorem events_of_id (hp : (r.object p).cycle ≠ .other) (hid : (r.object p).id = some id) :
    r.events id = some p := by
  cases hc : (r.object p).cycle with
  | null =>
      rw [h.null hc] at hid
      cases hid
  | this =>
      obtain ⟨i, he⟩ := h.mem hc
      rw [(h.own he).1] at hid
      cases hid
      exact he
  | other => exact absurd hc hp

end Registered

end Registry

end Hare.Io
