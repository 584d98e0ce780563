import Hare.Base.Registry
import Hare.Lib.IndexMap
import Hare.Lib.LabelledRun

/-!
# The poll reactor

A cycle over `poll` keeps three numberings of its events: the ids drawn from a counter that
timers share, the descriptors, and the positions in the list given to `poll`.  The list
begins with sixteen unused entries.  `ReactorPoll` has a map from descriptors to positions of
its own, `EventRemove` moves the last entry into the place of the one it removes, and
`FillActiveEvents` takes positions for ids.

The functions of the cycle are those of `Hare.Base.Registry`, over this reactor.  The assertion of
`RunEvery` on its timer, which fails over any reactor (`Hare.Base.Periodic`), is left out here.

The base class has a map from descriptors to ids, which a cycle over `poll` writes and never
reads, and a queue of timers, which decides when timers fire; both are left out.
-/

namespace Hare.Io

open LabelledRun

/-! ## The masks -/

def pollIn : BitVec 16 := 0x001
def pollOut : BitVec 16 := 0x004
def pollErr : BitVec 16 := 0x008
def pollHup : BitVec 16 := 0x010
def pollNval : BitVec 16 := 0x020
def pollRdhup : BitVec 16 := 0x2000

/-- `DecodePoll`. -/
def decodePoll (events : Events) : BitVec 16 :=
  let res := if events.write then pollOut else 0
  let res := if events.read then res ||| pollIn else res
  if events.closed then res ||| pollRdhup else res

/-- `EncodePoll`. -/
def encodePoll (events : BitVec 16) : Events :=
  let events :=
    if events &&& (pollHup ||| pollErr ||| pollNval) ≠ 0 then events ||| (pollIn ||| pollOut)
    else events
  { read := events &&& pollIn ≠ 0
    write := events &&& pollOut ≠ 0
    closed := events &&& pollRdhup ≠ 0 }

/-! ## The reactor -/

/-- An entry of `poll_fds_`. -/
structure PollFd where
  fd : ℤ
  events : BitVec 16
  revents : BitVec 16
  deriving DecidableEq, Repr

/-- The test of `FillActiveEvents`, on a signed number. -/
def PollFd.happened (pfd : PollFd) : Bool := 0 < pfd.revents.toInt

def initEventsCnt : ℕ := 16

/-- Why a call is not completed. -/
inductive PollHalt
  /-- `ReactorPoll::EventUpdate` of a new event: its descriptor is not in the map. -/
  | updateNew
  /-- `ReactorPoll::EventUpdate` of a known event: it is in both maps. -/
  | updateKnown
  /-- `ReactorPoll::EventUpdate` of a known event: the position is one of the list. -/
  | updateIndex
  /-- `ReactorPoll::EventUpdate` of a known event: the entry is that of its descriptor. -/
  | updateFd
  /-- `ReactorPoll::EventRemove`: the descriptor is in the map. -/
  | removeKnown
  /-- `ReactorPoll::EventRemove`: the position is one of the list. -/
  | removeIndex
  /-- `ReactorPoll::EventRemove`: the entry has the mask of the event. -/
  | removeEvents
  /-- `ReactorPoll::EventRemove`: the descriptor of the last entry is in the map. -/
  | removeSwap
  /-- `FillActiveEvents`: the position is the id of an event. -/
  | fillFound
  /-- `FillActiveEvents`: that event has the descriptor. -/
  | fillFd
  /-- `Cycle::EventUpdate`: a new id is not in `events_`. -/
  | insertNew
  /-- `Cycle::EventRemove`: the id of the event leads to it. -/
  | removeSame
  /-- `RunAfter` and `RunEvery`: the timer has no id yet. -/
  | timerNew
  /-- `RunAfter` and `RunEvery`: the id of the timer is not in `events_`. -/
  | timerInsert
  /-- The call cannot be made. -/
  | disabled
  deriving DecidableEq, Repr

structure PollReactor where
  object : EventPtr → EventImpl
  /-- `events_`. -/
  events : ℕ → Option EventPtr
  eventId : ℕ
  /-- The ids drawn for timers that are not registered yet. -/
  drawn : List ℕ
  /-- `poll_fds_`. -/
  pollFds : List PollFd
  /-- `ReactorPoll::inverse_map_`. -/
  inverseMap : ℤ → Option ℕ
  /-- `active_events_`. -/
  active : List (EventPtr × Events)

namespace PollReactor

/-- A new reactor, and events that belong to no cycle. -/
def init (event : EventPtr → Event) : PollReactor where
  object p := .new (if p.isTimer then Timer.new 0 false else event p)
  events _ := none
  eventId := 0
  drawn := []
  pollFds := List.replicate initEventsCnt ⟨0, 0, 0⟩
  inverseMap _ := none
  active := []

/-- The descriptor of an event. -/
def fd (r : PollReactor) (p : EventPtr) : ℤ := (r.object p).event.fd

/-- The mask of an event, for `poll`. -/
def mask (r : PollReactor) (p : EventPtr) : BitVec 16 := decodePoll (r.object p).event.events

def modify (r : PollReactor) (p : EventPtr) (f : EventImpl → EventImpl) : PollReactor :=
  { r with object := Function.update r.object p (f (r.object p)) }

/-- `ReactorPoll::EventUpdate`. -/
def reactorUpdate (r : PollReactor) (p : EventPtr) : Except PollHalt PollReactor :=
  match (r.object p).id with
  | none =>
    if (r.inverseMap (r.fd p)).isSome then .error .updateNew
    else .ok { r with
      pollFds := r.pollFds ++ [⟨r.fd p, r.mask p, 0⟩]
      inverseMap := Function.update r.inverseMap (r.fd p) (some r.pollFds.length) }
  | some id =>
    if r.events id ≠ some p then .error .updateKnown
    else
      match r.inverseMap (r.fd p) with
      | none => .error .updateKnown
      | some index =>
        match r.pollFds[index]? with
        | none => .error .updateIndex
        | some pfd =>
          if pfd.fd = r.fd p ∨ pfd.fd = -r.fd p - 1 then
            .ok { r with pollFds := r.pollFds.set index ⟨r.fd p, r.mask p, 0⟩ }
          else .error .updateFd

/-- `ReactorPoll::EventRemove`. -/
def reactorRemove (r : PollReactor) (p : EventPtr) : Except PollHalt PollReactor :=
  match r.inverseMap (r.fd p) with
  | none => .error .removeKnown
  | some index =>
    match r.pollFds[index]?, r.pollFds.getLast? with
    | some pfd, some last =>
      if pfd.events ≠ r.mask p then .error .removeEvents
      else if index = r.pollFds.length - 1 then
        .ok { r with
          pollFds := r.pollFds.dropLast
          inverseMap := Function.update r.inverseMap (r.fd p) none }
      else if (r.inverseMap last.fd).isNone then .error .removeSwap
      else
        .ok { r with
          pollFds := (r.pollFds.set index last).dropLast
          inverseMap :=
            Function.update (Function.update r.inverseMap last.fd (some index)) (r.fd p) none }
    | _, _ => .error .removeIndex

/-! ## The functions of the cycle -/

/-- The registration of an event that has no id yet. -/
def activate (r : PollReactor) (p : EventPtr) : Except PollHalt PollReactor :=
  if (r.events r.eventId).isSome then .error .insertNew
  else .ok { r.modify p (EventImpl.active · r.eventId) with
    events := Function.update r.events r.eventId (some p)
    eventId := r.eventId + 1 }

/-- `Cycle::EventUpdate` on the cycle thread. -/
def eventUpdate (r : PollReactor) (p : EventPtr) : Except PollHalt PollReactor := do
  if (r.object p).cycle ≠ .this ∧ (r.object p).id.isSome then
    .ok r
  else
    let r ← if 0 ≤ r.fd p then r.reactorUpdate p else .ok r
    if (r.object p).id.isNone then r.activate p else .ok r

/-- `Cycle::EventRemove` on the cycle thread. -/
def eventRemove (r : PollReactor) (p : EventPtr) : Except PollHalt PollReactor :=
  match (r.object p).cycle, (r.object p).id with
  | .this, some id =>
    match r.events id with
    | none => .ok r
    | some q =>
      if q ≠ p then .error .removeSame
      else do
        let r := r.modify p EventImpl.reset
        let r ← if 0 ≤ r.fd p then r.reactorRemove p else .ok r
        .ok { r with events := Function.update r.events id none }
  | _, _ => .ok r

/-- `EnableRead`, `DisableRead`, `EnableWrite` and `DisableWrite`. -/
def setInterest (r : PollReactor) (p : EventPtr) (read write : Bool) :
    Except PollHalt PollReactor :=
  let r := r.modify p fun o => { o with event := o.event.setInterest read write }
  if (r.object p).cycle = .null then .ok r else r.eventUpdate p

/-- `RunAfter` and `RunEvery` make a timer and draw its id. -/
def createTimer (r : PollReactor) (delay : ℤ) (isPersist : Bool) : PollReactor :=
  { r.modify (.timer r.eventId) fun _ => .new (Timer.new delay isPersist) with
    eventId := r.eventId + 1
    drawn := r.drawn ++ [r.eventId] }

/-- The task of `RunAfter` and `RunEvery`. -/
def registerTimer (r : PollReactor) (id : ℕ) : Except PollHalt PollReactor :=
  if (r.object (.timer id)).id.isSome then .error .timerNew
  else if (r.events id).isSome then .error .timerInsert
  else .ok { r.modify (.timer id) (EventImpl.active · id) with
    events := Function.update r.events id (some (.timer id))
    drawn := r.drawn.erase id }

/-- The task of `Cycle::Cancel`. -/
def cancel (r : PollReactor) (id : ℕ) : PollReactor :=
  match r.events id with
  | none => r
  | some p =>
    if r.fd p < 0 then
      { r.modify p EventImpl.reset with events := Function.update r.events id none }
    else r

/-! ## Poll -/

/-- What the kernel writes: the answer for each registered descriptor, and nothing for the
unused entries. -/
def polled (r : PollReactor) (answer : ℤ → BitVec 16) : PollReactor :=
  { r with
    pollFds := r.pollFds.mapIdx fun k pfd =>
      { pfd with revents := if k < initEventsCnt then 0 else answer pfd.fd } }

/-- What `poll` returns: the number of entries for which something happened. -/
def ready (r : PollReactor) : ℕ := r.pollFds.countP (·.revents ≠ 0)

/-- The loop of `FillActiveEvents`, from the entry at the position `eventId`. -/
def fillLoop (r : PollReactor) (eventId numOfEvents : ℕ) (active : List (EventPtr × Events)) :
    List PollFd → Except PollHalt (List (EventPtr × Events))
  | [] => .ok active
  | pfd :: pollFds =>
    if numOfEvents = 0 then .ok active
    else if pfd.happened then
      match r.events eventId with
      | none => .error .fillFound
      | some p =>
        if r.fd p = pfd.fd then
          r.fillLoop (eventId + 1) (numOfEvents - 1) (active ++ [(p, encodePoll pfd.revents)])
            pollFds
        else .error .fillFd
    else r.fillLoop (eventId + 1) numOfEvents active pollFds

/-- `FillActiveEvents`. -/
def fillActiveEvents (r : PollReactor) (numOfEvents : ℕ) : Except PollHalt PollReactor := do
  let active ← r.fillLoop 0 numOfEvents r.active r.pollFds
  .ok { r with active }

/-- `ReactorPoll::Poll`, with the answer of the kernel. -/
def poll (r : PollReactor) (answer : ℤ → BitVec 16) : Except PollHalt PollReactor :=
  (r.polled answer).fillActiveEvents (r.polled answer).ready

end PollReactor

/-- A call on the cycle thread, or a timer made on any thread. -/
inductive PollCall
  | update (p : EventPtr)
  | interest (p : EventPtr) (read write : Bool)
  | remove (p : EventPtr)
  | createTimer (delay : ℤ) (isPersist : Bool)
  | registerTimer (id : ℕ)
  | cancel (id : ℕ)
  /-- The loop of `Exec` clears the active events and polls. -/
  | poll (answer : ℤ → BitVec 16)

namespace PollReactor

/-- A call.  No one but the cycle has a pointer to a timer. -/
def step (r : PollReactor) : PollCall → Except PollHalt PollReactor
  | .update p => if p.isTimer then .error .disabled else r.eventUpdate p
  | .interest p read write =>
    if p.isTimer then .error .disabled else r.setInterest p read write
  | .remove p => r.eventRemove p
  | .createTimer delay isPersist => .ok (r.createTimer delay isPersist)
  | .registerTimer id => if id ∈ r.drawn then r.registerTimer id else .error .disabled
  | .cancel id => .ok (r.cancel id)
  | .poll answer => { r with active := [] }.poll answer

end PollReactor

end Hare.Io
