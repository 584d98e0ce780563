import Hare.Base.Cycle
import Hare.Base.Moves

/-!
# A cycle with its events and timers

`Exec` with everything that runs on the cycle thread and everything other threads do to it,
as one system of interleaved steps.  The task queue and the notify descriptor are those of
`Hare.Base.Cycle`, the event objects and maps those of `Hare.Base.Registry`; here they are
moved together.  What user code does in a callback, in a task or outside of `Exec` is a
sequence of `call` steps; a callback ends with `finish`.

A call from another thread is made of a check, the `push_back` of a task and the `Notify`;
anything can happen in between.  `Cancel` from another thread returns when its task has run.

`History` and the field `removed` record what a run did; no step depends on them.
-/

namespace Hare.Io

open LabelledRun PriorityQueue

/-- What is queued in `pending_functions`. -/
inductive Job
  /-- A task of the user. -/
  | user
  /-- The task of the `RunAfter` or `RunEvery` that drew the id. -/
  | register (id : ℕ) (isPersist : Bool)
  /-- The task of a `Cancel`, and whether the call that drew the id had returned before. -/
  | cancel (id : ℕ) (after : Bool)
  /-- The task of an `EventUpdate`. -/
  | update (n : ℕ)
  /-- The task of an `EventRemove`. -/
  | remove (n : ℕ)
  deriving DecidableEq, Repr

/-- The code of the user the cycle thread runs. -/
inductive Frame
  /-- The callback of an active event. -/
  | event (p : EventPtr)
  /-- The callback of the event of a queue entry. -/
  | timer (id : ℕ)
  /-- A task. -/
  | task
  deriving DecidableEq, Repr

/-- A call on the cycle thread; `now` is the time and `accepted` the answer of the kernel. -/
inductive Call
  /-- `EventUpdate`. -/
  | update (n : ℕ) (accepted : Bool) (now : ℤ)
  /-- `EnableRead`, `DisableRead`, `EnableWrite` and `DisableWrite`. -/
  | setInterest (n : ℕ) (read write accepted : Bool) (now : ℤ)
  /-- `EventRemove` and `Deactivate`. -/
  | remove (n : ℕ)
  /-- `Tie`. -/
  | tie (n : ℕ) (alive : Bool)
  | runAfter (delay now : ℤ)
  | runEvery (delay now : ℤ)
  | cancel (id : ℕ)
  deriving DecidableEq, Repr

/-- A call on another thread, up to its check. -/
inductive Ask
  | update (n : ℕ)
  | remove (n : ℕ)
  | runAfter (delay : ℤ)
  | runEvery (delay : ℤ)
  | cancel (id : ℕ)
  deriving DecidableEq, Repr

/-- Why a step is not taken or does not end. -/
inductive Halt
  | stop (s : Stop)
  | assertion (a : Assertion)
  /-- `NotifyTimer` uses its reference into `events_` after the entry has been erased. -/
  | dangling
  deriving DecidableEq, Repr

/-- A step of the system. -/
inductive CycleLabel
  /-- `Exec` starts. -/
  | exec (accepted : Bool) (now : ℤ)
  /-- `Poll` returns. -/
  | poll (time : ℤ) (ready : List EventPtr)
  /-- `HandleEvent` of the next active event. -/
  | dispatch
  /-- The code of the user returns. -/
  | finish
  /-- `NotifyTimer` looks at the next entry that is due. -/
  | notifyTimer
  /-- `NotifyTimer` has returned, and `DoPendingFunctions` swaps the pending tasks out. -/
  | swap
  /-- The next task. -/
  | start (accepted : Bool) (now : ℤ)
  /-- The loop tests `quit` and goes on. -/
  | again
  /-- The loop tests `quit`, and `Exec` ends. -/
  | leave
  /-- A call on the cycle thread. -/
  | call (k : Call)
  /-- A call on another thread, up to its check. -/
  | ask (k : Ask)
  /-- Such a call queues its task. -/
  | push (job : Job)
  /-- `QueueInCycle` of a task of the user. -/
  | queue (inThread : Bool)
  /-- Another thread ends its `QueueInCycle`; the id is the one its `RunAfter` returns. -/
  | notify (id : Option ℕ)
  /-- `Exit`, up to its `Notify`. -/
  | exit (inThread : Bool)
  /-- Another thread ends its `Exit`. -/
  | notifyExit
  deriving DecidableEq, Repr

/-- What the steps that concern only the task queue and the notify descriptor are there. -/
def CycleLabel.quiet : CycleLabel → Option (LoopLabel Job)
  | .queue inThread => some (.queueInCycle inThread .user)
  | .notify none => some .notify
  | .exit inThread => some (.exit inThread)
  | .notifyExit => some .notifyExit
  | _ => none

/-- What a run did with its timers. -/
structure History where
  /-- The ids `RunAfter` has returned. -/
  returned : List ℕ
  /-- The timers `NotifyTimer` has called `HandleEvent` of. -/
  dispatched : List ℕ
  /-- The ids for which a `Cancel` called after the `RunAfter` had returned has returned, at a
  time when the timer had not been dispatched. -/
  cancelled : List ℕ
  /-- The delays of the timers of `RunEvery`. -/
  every : ℕ → Option ℤ

/-- A cycle and the threads that use it. -/
structure Cycle where
  registry : Registry
  loop : Loop Job
  /-- The entries of `active_events_` that have not been handled yet. -/
  active : List EventPtr
  frame : Option Frame
  reactorTime : ℤ
  /-- The calls of other threads behind their check and before their `push_back`. -/
  asked : List Job
  /-- The ids of the `RunAfter` calls of other threads before their `Notify`. -/
  callers : List ℕ
  /-- The events taken out of `events_` since `Poll` returned. -/
  removed : List EventPtr
  history : History

/-- The events before the first call: the notify event of the cycle, and events of the user
that belong to no cycle or to another one. -/
structure Setup where
  notifyFd : ℤ
  user : ℕ → EventImpl
  notify_nonneg : 0 ≤ notifyFd
  apart : ∀ n, (user n).cycle ≠ .this
  null : ∀ n, (user n).cycle = .null → (user n).id = none
  other : ∀ n, (user n).cycle = .other → (user n).id.isSome

/-- The event objects before the first call. -/
def Setup.object (s : Setup) : EventPtr → EventImpl
  | .notify => .new (Event.new s.notifyFd true { read := true, persist := true } 0)
  | .user n => s.user n
  | .timer _ => .new (Timer.new 0 false)

/-- The events taken out of the map between two registries. -/
def Registry.lost (r r' : Registry) : List EventPtr :=
  (List.range r.eventId).filterMap fun id =>
    if r'.events id = r.events id then none else r.events id

/-- The events `FillActiveEvents` finds for what the kernel reports. -/
def Registry.finds (r : Registry) (p : EventPtr) : Bool :=
  (r.inverseMap (r.fd p)).bind r.events == some p

/-- What a call on the cycle thread does to the registry. -/
def Call.effect (running : Bool) (r : Registry) : Call → Except Assertion Registry
  | .update n accepted now => r.callUpdate (.user n) accepted now
  | .setInterest n read write accepted now =>
    let r := r.modify (.user n) fun o => { o with event := o.event.setInterest read write }
    if (r.object (.user n)).cycle = .this then r.callUpdate (.user n) accepted now else .ok r
  | .remove n => r.callRemove (.user n)
  | .tie n alive => .ok (r.modify (.user n) fun o => { o with event := o.event.tie alive })
  | .runAfter delay now =>
    if running then (r.createTimer delay false).registerTimer r.eventId now else .ok r
  | .runEvery delay now =>
    if running then (r.createTimer delay true).registerTimer r.eventId now else .ok r
  | .cancel id => .ok (if running then r.cancel id else r)

/-- What a task of the library does to the registry.  The checks of `EventUpdate` and
`EventRemove` have been made by the caller. -/
def Job.effect (accepted : Bool) (now : ℤ) (r : Registry) : Job → Except Assertion Registry
  | .user => .ok r
  | .register id _ => r.registerTimer id now
  | .cancel id _ => .ok (r.cancel id)
  | .update n => r.eventUpdate (.user n) accepted now
  | .remove n => r.eventRemove (.user n)

/-- What a call on another thread does to the registry: `RunAfter` and `RunEvery` make their
timer and draw its id. -/
def Ask.effect (running : Bool) (r : Registry) : Ask → Registry
  | .runAfter delay => if running then r.createTimer delay false else r
  | .runEvery delay => if running then r.createTimer delay true else r
  | _ => r

/-- The timer whose `RunAfter` returns when its task has been queued. -/
def Job.caller : Job → List ℕ
  | .register id false => [id]
  | _ => []

namespace History

def empty : History := ⟨[], [], [], fun _ => none⟩

/-- A `Cancel` returns. -/
def cancel (h : History) (id : ℕ) (after : Bool) : History :=
  if after && !h.dispatched.contains id then { h with cancelled := id :: h.cancelled } else h

/-- `NotifyTimer` calls `HandleEvent`. -/
def dispatch (h : History) : EventPtr → History
  | .timer id => { h with dispatched := id :: h.dispatched }
  | _ => h

/-- A task has run. -/
def job (h : History) : Job → History
  | .cancel id after => h.cancel id after
  | _ => h

/-- A call on the cycle thread has returned; `next` is the id a new timer has drawn. -/
def call (h : History) (running : Bool) (next : ℕ) : Call → History
  | .runAfter _ _ => if running then { h with returned := next :: h.returned } else h
  | .runEvery delay _ =>
    if running then { h with every := Function.update h.every next (some delay) } else h
  | .cancel id => h.cancel id (h.returned.contains id)
  | _ => h

/-- A call on another thread has made its check.  A `Cancel` returns when the cycle does not
run. -/
def ask (h : History) (running : Bool) (next : ℕ) : Ask → History
  | .runEvery delay =>
    if running then { h with every := Function.update h.every next (some delay) } else h
  | .cancel id => if running then h else h.cancel id (h.returned.contains id)
  | _ => h

end History

namespace Cycle

def init (s : Setup) : Cycle where
  registry :=
    { object := s.object, events := fun _ => none, inverseMap := fun _ => none, ptimer := []
      eventId := 0, epoll := fun _ => none }
  loop := .init
  active := []
  frame := none
  reactorTime := 0
  asked := []
  callers := []
  removed := []
  history := .empty

def isRunning (c : Cycle) : Bool := c.loop.phase != .idle

/-- Whether the cycle thread runs code of the user. -/
def inUserCode (c : Cycle) : Bool := !c.isRunning || c.frame.isSome

/-- The entry `NotifyTimer` looks at next. -/
def due (P : Top TimerPriority) (c : Cycle) : Option TimerElem :=
  (P.top c.registry.ptimer).filter fun top => top.stamp ≤ c.reactorTime

/-- A new registry. -/
def setRegistry (c : Cycle) (r : Registry) : Cycle :=
  { c with registry := r, removed := c.removed ++ c.registry.lost r }

/-- Work on the registry, which may fail. -/
def work (c : Cycle) : Except Assertion Registry → Except Halt Cycle
  | .ok r => .ok (c.setRegistry r)
  | .error a => .error (.assertion a)

/-- A move of the loop. -/
def advance (c : Cycle) (l : LoopLabel Job) : Except Halt Cycle :=
  match c.loop.step l with
  | .ok loop => .ok { c with loop }
  | .error s => .error (.stop s)

/-- `Poll` returns: the kernel reports each event once, and only events it watches. -/
def poll (c : Cycle) (time : ℤ) (ready : List EventPtr) : Except Halt Cycle :=
  if ready.Nodup ∧ ready.all (fun p => c.registry.epoll (c.registry.fd p) = some p) then do
    let c ← c.advance (.pollReturn (ready.contains .notify))
    if ready.all c.registry.finds then
      .ok { c with active := ready, reactorTime := time, removed := [] }
    else .error (.assertion .fillActive)
  else .error (.stop .disabled)

/-- One turn of the walk over the active events, up to a callback of the user. -/
def dispatch (c : Cycle) : Except Halt Cycle :=
  match c.active, c.frame with
  | p :: active, none =>
    let c := { c with active }
    if p = .notify then do
      let c ← c.advance .readNotify
      c.work (c.registry.afterEvent p)
    else if (c.registry.object p).event.handleEvent then .ok { c with frame := some (.event p) }
    else c.work (c.registry.afterEvent p)
  | _, _ => .error (.stop .disabled)

/-- The code of the user returns. -/
def finish (P : Top TimerPriority) (c : Cycle) : Except Halt Cycle :=
  match c.frame with
  | none => .error (.stop .disabled)
  | some (.event p) => { c with frame := none }.work (c.registry.afterEvent p)
  | some (.timer id) =>
    match c.registry.events id with
    | none => .error .dangling
    | some p => { c with frame := none }.work (c.registry.afterTimer P id p c.reactorTime)
  | some .task => .ok { c with frame := none }

/-- One turn of `NotifyTimer`, up to a callback of the user. -/
def notifyTimer (P : Top TimerPriority) (c : Cycle) : Except Halt Cycle :=
  match c.loop.phase, c.active, c.frame, c.due P with
  | .handling _, [], none, some top =>
    match c.registry.events top.id with
    | none => .ok (c.setRegistry (c.registry.pop P))
    | some p =>
      if (c.registry.object p).event.handleEvent then
        .ok { c with frame := some (.timer top.id), history := c.history.dispatch p }
      else
        { c with history := c.history.dispatch p }.work
          (c.registry.afterTimer P top.id p c.reactorTime)
  | _, _, _, _ => .error (.stop .disabled)

/-- The next task of `DoPendingFunctions`. -/
def start (c : Cycle) (accepted : Bool) (now : ℤ) : Except Halt Cycle :=
  match c.frame, c.loop.functions with
  | none, q :: _ => do
    let c ← c.advance .start
    match q.task with
    | .user => .ok { c with frame := some .task }
    | job => work { c with history := c.history.job job } (job.effect accepted now c.registry)
  | _, _ => .error (.stop .disabled)

/-- The task a call on another thread will queue, if its check lets it. -/
def asks (c : Cycle) : Ask → Option Job
  | .update n => if c.registry.mayUpdate (.user n) then some (.update n) else none
  | .remove n => if c.registry.mayRemove (.user n) then some (.remove n) else none
  | .runAfter _ => if c.isRunning then some (.register c.registry.eventId false) else none
  | .runEvery _ => if c.isRunning then some (.register c.registry.eventId true) else none
  | .cancel id =>
    if c.isRunning then some (.cancel id (c.history.returned.contains id)) else none

/-- A call on another thread, up to its check. -/
def ask (c : Cycle) (k : Ask) : Cycle :=
  { c.setRegistry (k.effect c.isRunning c.registry) with
    asked := (c.asks k).toList ++ c.asked
    history := c.history.ask c.isRunning c.registry.eventId k }

/-- Such a call queues its task. -/
def push (c : Cycle) (job : Job) : Except Halt Cycle :=
  if job ∈ c.asked then do
    let c ← c.advance (.queueInCycle false job)
    .ok { c with asked := c.asked.erase job, callers := job.caller ++ c.callers }
  else .error (.stop .disabled)

/-- Another thread ends its `QueueInCycle`, and a `RunAfter` returns with it. -/
def notify (c : Cycle) : Option ℕ → Except Halt Cycle
  | some id =>
    if id ∈ c.callers then do
      let c ← c.advance .notify
      .ok { c with
        callers := c.callers.erase id
        history := { c.history with returned := id :: c.history.returned } }
    else .error (.stop .disabled)
  | none =>
    if c.callers.length < c.loop.senders then c.advance .notify else .error (.stop .disabled)

def step (P : Top TimerPriority) (c : Cycle) : CycleLabel → Except Halt Cycle
  | .exec accepted now => do
    let c ← c.advance .exec
    c.work (c.registry.enter accepted now)
  | .poll time ready => c.poll time ready
  | .dispatch => c.dispatch
  | .finish => c.finish P
  | .notifyTimer => c.notifyTimer P
  | .swap =>
    if c.active = [] ∧ c.frame = none ∧ c.due P = none then c.advance .swap
    else .error (.stop .disabled)
  | .start accepted now => c.start accepted now
  | .again =>
    if c.frame = none ∧ c.loop.quit = false then c.advance .loop else .error (.stop .disabled)
  | .leave =>
    if c.frame = none ∧ c.loop.quit = true then do
      let c ← c.advance .loop
      { c with active := [] }.work c.registry.leave
    else .error (.stop .disabled)
  | .call k =>
    if c.inUserCode then
      { c with history := c.history.call c.isRunning c.registry.eventId k }.work
        (k.effect c.isRunning c.registry)
    else .error (.stop .disabled)
  | .ask k => .ok (c.ask k)
  | .push job => c.push job
  | .queue inThread =>
    if inThread = true ∧ c.inUserCode = false then .error (.stop .disabled)
    else c.advance (.queueInCycle inThread .user)
  | .notify id => c.notify id
  | .exit inThread =>
    if inThread = true ∧ c.inUserCode = false then .error (.stop .disabled)
    else c.advance (.exit inThread)
  | .notifyExit => c.advance .notifyExit

/-! ## What a step can do -/

/-- What a step can do, one case for each way to take it.  Work on the registry may fail. -/
inductive Outcome (P : Top TimerPriority) (c : Cycle) : CycleLabel → Except Halt Cycle → Prop
  | stopped {l : CycleLabel} {s : Stop} : Outcome P c l (.error (.stop s))
  | exec {accepted : Bool} {now : ℤ} {loop : Loop Job} (hl : c.loop.Step .exec loop) :
      Outcome P c (.exec accepted now) ({ c with loop }.work (c.registry.enter accepted now))
  | poll {time : ℤ} {ready : List EventPtr} {loop : Loop Job} (hnd : ready.Nodup)
      (hk : ∀ p ∈ ready, c.registry.epoll (c.registry.fd p) = some p)
      (hfind : ∀ p ∈ ready, c.registry.finds p = true)
      (hl : c.loop.Step (.pollReturn (ready.contains .notify)) loop) :
      Outcome P c (.poll time ready)
        (.ok { c with loop, active := ready, reactorTime := time, removed := [] })
  | fill {time : ℤ} {ready : List EventPtr} {p : EventPtr}
      (hk : c.registry.epoll (c.registry.fd p) = some p) (hfind : c.registry.finds p = false) :
      Outcome P c (.poll time ready) (.error (.assertion .fillActive))
  | handle {p : EventPtr} {active : List EventPtr} (ha : c.active = p :: active)
      (hf : c.frame = none) (hp : p ≠ .notify) :
      Outcome P c .dispatch (.ok { c with active, frame := some (.event p) })
  | handled {p : EventPtr} {active : List EventPtr} (ha : c.active = p :: active)
      (hf : c.frame = none) (hp : p ≠ .notify) :
      Outcome P c .dispatch ({ c with active }.work (c.registry.afterEvent p))
  | readNotify {active : List EventPtr} {loop : Loop Job} (ha : c.active = .notify :: active)
      (hf : c.frame = none) (hl : c.loop.Step .readNotify loop) :
      Outcome P c .dispatch ({ c with active, loop }.work (c.registry.afterEvent .notify))
  | finishEvent {p : EventPtr} (hf : c.frame = some (.event p)) :
      Outcome P c .finish ({ c with frame := none }.work (c.registry.afterEvent p))
  | finishTimer {id : ℕ} {p : EventPtr} (hf : c.frame = some (.timer id))
      (he : c.registry.events id = some p) :
      Outcome P c .finish
        ({ c with frame := none }.work (c.registry.afterTimer P id p c.reactorTime))
  | dangling {id : ℕ} (hf : c.frame = some (.timer id)) (he : c.registry.events id = none) :
      Outcome P c .finish (.error .dangling)
  | finishTask (hf : c.frame = some .task) : Outcome P c .finish (.ok { c with frame := none })
  | skip {top : TimerElem} (ha : c.active = []) (hf : c.frame = none)
      (hd : c.due P = some top) (he : c.registry.events top.id = none) :
      Outcome P c .notifyTimer (.ok (c.setRegistry (c.registry.pop P)))
  | fire {top : TimerElem} {p : EventPtr} {unread : Bool} (hp : c.loop.phase = .handling unread)
      (ha : c.active = []) (hf : c.frame = none) (hd : c.due P = some top)
      (he : c.registry.events top.id = some p) :
      Outcome P c .notifyTimer
        (.ok { c with frame := some (.timer top.id), history := c.history.dispatch p })
  | fired {top : TimerElem} {p : EventPtr} {unread : Bool} (hp : c.loop.phase = .handling unread)
      (ha : c.active = []) (hf : c.frame = none) (hd : c.due P = some top)
      (he : c.registry.events top.id = some p) :
      Outcome P c .notifyTimer
        ({ c with history := c.history.dispatch p }.work
          (c.registry.afterTimer P top.id p c.reactorTime))
  | swap {loop : Loop Job} (ha : c.active = []) (hf : c.frame = none)
      (hl : c.loop.Step .swap loop) : Outcome P c .swap (.ok { c with loop })
  | startUser {accepted : Bool} {now : ℤ} {q : Queued Job} {functions : List (Queued Job)}
      {loop : Loop Job} (hf : c.frame = none) (hq : c.loop.functions = q :: functions)
      (hj : q.task = .user) (hl : c.loop.Step .start loop) :
      Outcome P c (.start accepted now) (.ok { c with loop, frame := some .task })
  | startJob {accepted : Bool} {now : ℤ} {q : Queued Job} {functions : List (Queued Job)}
      {loop : Loop Job} (hf : c.frame = none) (hq : c.loop.functions = q :: functions)
      (hj : q.task ≠ .user) (hl : c.loop.Step .start loop) :
      Outcome P c (.start accepted now)
        ({ c with loop, history := c.history.job q.task }.work
          (q.task.effect accepted now c.registry))
  | again {loop : Loop Job} (hf : c.frame = none) (hq : c.loop.quit = false)
      (hl : c.loop.Step .loop loop) :
      Outcome P c .again (.ok { c with loop })
  | leave {loop : Loop Job} (hf : c.frame = none) (hl : c.loop.Step .loop loop) :
      Outcome P c .leave ({ c with loop, active := [] }.work c.registry.leave)
  | call {k : Call} (hu : c.inUserCode = true) :
      Outcome P c (.call k)
        ({ c with history := c.history.call c.isRunning c.registry.eventId k }.work
          (k.effect c.isRunning c.registry))
  | ask {k : Ask} : Outcome P c (.ask k) (.ok (c.ask k))
  | push {job : Job} {loop : Loop Job} (hj : job ∈ c.asked)
      (hl : c.loop.Step (.queueInCycle false job) loop) :
      Outcome P c (.push job)
        (.ok { c with loop, asked := c.asked.erase job, callers := job.caller ++ c.callers })
  | returns {id : ℕ} {loop : Loop Job} (hid : id ∈ c.callers) (hl : c.loop.Step .notify loop) :
      Outcome P c (.notify (some id))
        (.ok { c with
          loop, callers := c.callers.erase id
          history := { c.history with returned := id :: c.history.returned } })
  | quiet {l : CycleLabel} {move : LoopLabel Job} {loop : Loop Job} (hq : l.quiet = some move)
      (hl : c.loop.Step move loop) : Outcome P c l (.ok { c with loop })

section Cases

variable {P : Top TimerPriority} {c : Cycle}

/-- A step that begins with a move of the loop either stops there or goes on behind it. -/
theorem advance_cases {l : LoopLabel Job} {Q : Except Halt Cycle → Prop}
    {f : Cycle → Except Halt Cycle} (hstop : ∀ s, Q (.error (.stop s)))
    (hok : ∀ loop, c.loop.Step l loop → Q (f { c with loop })) : Q (c.advance l >>= f) := by
  rw [advance]
  cases hs : c.loop.step l with
  | ok loop => exact hok loop (Loop.step_of_ok hs)
  | error s => exact hstop s

theorem advance_quiet {l : CycleLabel} {move : LoopLabel Job} (hq : l.quiet = some move) :
    Outcome P c l (c.advance move) := by
  rw [advance]
  cases hs : c.loop.step move with
  | ok loop => exact .quiet hq (Loop.step_of_ok hs)
  | error s => exact .stopped

theorem poll_outcome (time : ℤ) (ready : List EventPtr) :
    Outcome P c (.poll time ready) (c.poll time ready) := by
  rw [poll]
  split
  · next h =>
      have hk : ∀ p ∈ ready, c.registry.epoll (c.registry.fd p) = some p := by
        simpa [List.all_eq_true] using h.2
      refine advance_cases (fun s => .stopped) fun loop hl => ?_
      dsimp only
      split
      · next hfind => exact .poll h.1 hk (by simpa [List.all_eq_true] using hfind) hl
      · next hfind =>
          simp only [List.all_eq_true, not_forall] at hfind
          obtain ⟨p, hp, hfind⟩ := hfind
          exact .fill (hk p hp) (by simpa using hfind)
  · exact .stopped

theorem dispatch_outcome : Outcome P c .dispatch c.dispatch := by
  rw [dispatch]
  split
  · next p active ha hf =>
      split
      · next hp =>
          subst hp
          exact advance_cases (fun s => .stopped) fun loop hl => .readNotify ha hf hl
      · next hp =>
          dsimp only
          split
          · exact .handle ha hf hp
          · exact .handled ha hf hp
  · exact .stopped

theorem finish_outcome : Outcome P c .finish (c.finish P) := by
  rw [finish]
  split
  · exact .stopped
  · next p hf => exact .finishEvent hf
  · next id hf =>
      split
      · next he => exact .dangling hf he
      · next p he => exact .finishTimer hf he
  · next hf => exact .finishTask hf

theorem notifyTimer_outcome : Outcome P c .notifyTimer (c.notifyTimer P) := by
  rw [notifyTimer]
  split
  · next top hp ha hf hd =>
      split
      · next he => exact .skip ha hf hd he
      · next p he =>
          split
          · exact .fire hp ha hf hd he
          · exact .fired hp ha hf hd he
  · exact .stopped

theorem start_outcome (accepted : Bool) (now : ℤ) :
    Outcome P c (.start accepted now) (c.start accepted now) := by
  rw [start]
  split
  · next q functions hf hq =>
      refine advance_cases (fun s => .stopped) fun loop hl => ?_
      split
      · next hj => exact .startUser hf hq hj hl
      · next hj => exact .startJob hf hq hj hl
  · exact .stopped

theorem push_outcome (job : Job) : Outcome P c (.push job) (c.push job) := by
  rw [push]
  split
  · next hj => exact advance_cases (fun s => .stopped) fun loop hl => .push hj hl
  · exact .stopped

theorem notify_outcome (id : Option ℕ) : Outcome P c (.notify id) (c.notify id) := by
  cases id with
  | some id =>
      rw [notify]
      split
      · next hid => exact advance_cases (fun s => .stopped) fun loop hl => .returns hid hl
      · exact .stopped
  | none =>
      rw [notify]
      split
      · exact advance_quiet rfl
      · exact .stopped

/-- Every step is one of the cases. -/
theorem step_outcome (P : Top TimerPriority) (c : Cycle) (l : CycleLabel) :
    Outcome P c l (c.step P l) := by
  cases l with
  | exec accepted now => exact advance_cases (fun s => .stopped) fun loop hl => .exec hl
  | poll time ready => exact poll_outcome time ready
  | dispatch => exact dispatch_outcome
  | finish => exact finish_outcome
  | notifyTimer => exact notifyTimer_outcome
  | swap =>
      rw [step]
      split
      · next h =>
          rw [← bind_pure (c.advance .swap)]
          exact advance_cases (fun s => .stopped) fun loop hl => .swap h.1 h.2.1 hl
      · exact .stopped
  | start accepted now => exact start_outcome accepted now
  | again =>
      rw [step]
      split
      · next h =>
          rw [← bind_pure (c.advance .loop)]
          exact advance_cases (fun s => .stopped) fun loop hl => .again h.1 h.2 hl
      · exact .stopped
  | leave =>
      rw [step]
      split
      · next h => exact advance_cases (fun s => .stopped) fun loop hl => .leave h.1 hl
      · exact .stopped
  | call k =>
      rw [step]
      split
      · next hu => exact .call hu
      · exact .stopped
  | ask k => exact .ask
  | push job => exact push_outcome job
  | queue inThread =>
      rw [step]
      split
      · exact .stopped
      · exact advance_quiet rfl
  | notify id => exact notify_outcome id
  | exit inThread =>
      rw [step]
      split
      · exact .stopped
      · exact advance_quiet rfl
  | notifyExit => exact advance_quiet rfl

end Cases

end Cycle

end Hare.Io
