import Hare.Base.Cycle
import Hare.Base.Event
import Hare.Lib.Chunks
import Hare.Net.Buffer

/-!
# The sessions of a worker

A worker of a server is a cycle together with the TCP sessions it serves.  The loop of the
cycle is the one of `Hare.Io.Loop`; this module says what its callbacks and tasks do to the
sessions.

Code of the user runs inside the library: the connect, read, write and high-water callbacks,
tasks, timers and other events.  From there every call of the library can be made, on any
session.  The cycle thread is therefore modelled with its stack: a frame for each function
of the library that has called the user and goes on afterwards, and a frame for the code of
the user itself, which can make any number of calls before it returns.

The out-buffer of a session is its list of blocks, which `OutStream.simulates_chunks`
justifies.  `Buffer::Read` and `Buffer::Write` return an unsigned number: an error of the
system call is the answer 0.

## Main definitions

* `Session`: a session, its event and its references.
* `Task`, `Frame`, `Worker`: the worker.
* `Worker.handleWrite`, `Worker.handleClose`, `Worker.perform`.
* `WorkerLabel`, `Worker.step`: the system.
* `Worker.Step`: what a step answers, case by case.
-/

namespace Hare.Net

open LabelledRun Io

inductive SessionState
  | connecting
  | connected
  | disconnecting
  | disconnected
  deriving DecidableEq, Repr

def defaultHighWater : ℕ := 64 * 1024 * 1024

/-- What a call of `Send` or `Append` hands over. -/
inductive Message
  | send (bytes : List UInt8)
  | append (blocks : List (List UInt8))
  deriving DecidableEq, Repr

namespace Message

/-- The bytes of the call. -/
def bytes : Message → List UInt8
  | send bytes => bytes
  | append blocks => blocks.flatten

/-- The blocks of the temporary buffer.  `Buffer::Add` takes nothing when the size exceeds
its maximum, and `Send` does not look at its answer. -/
def chunks : Message → List (List UInt8)
  | send bytes => if bytes.length ≤ maxSize then Chunks.push [] bytes else []
  | append blocks => blocks.filter (· ≠ [])

/-- `Buffer::Add` takes nothing of the call. -/
def refused : Message → Bool
  | send bytes => decide (maxSize < bytes.length)
  | append _ => false

end Message

structure Session where
  state : SessionState
  event : Event
  /-- The event is part of the cycle. -/
  registered : Bool
  /-- The mask last given to the reactor. -/
  mask : Events
  reading : Bool
  /-- The blocks of `out_buffer`. -/
  out : List (List UInt8)
  highWaterMark : ℕ
  /-- `high_water` is set. -/
  highWater : Bool
  /-- The server has made the session. -/
  created : Bool
  /-- The worker's table of sessions holds it. -/
  owned : Bool
  /-- The user holds a pointer to it. -/
  held : Bool
  /-- The write side of the socket is shut down. -/
  shut : Bool
  /-- Calls of `Send` and `Append` on other threads that have tested the state. -/
  sending : List Message
  /-- Calls of `Shutdown` on other threads that have found the session connected. -/
  tested : ℕ
  /-- Calls of `Shutdown` on other threads that have set the state. -/
  shutting : ℕ
  /-- The bytes the socket has taken. -/
  accepted : List UInt8
  /-- The bytes of all calls of `Send` and `Append` that returned true before `Shutdown`. -/
  promised : List UInt8
  /-- Bytes among these have been refused by the temporary buffer. -/
  refused : Bool
  /-- How many bytes have been queued after `Shutdown`, by calls that had tested the state
  before. -/
  late : ℕ
  /-- How often `HandleClose` has run. -/
  closes : ℕ

namespace Session

def new : Session where
  state := .connecting
  event := Event.new 0 true { read := true, write := true, persist := true } 0
  registered := false
  mask := {}
  reading := false
  out := []
  highWaterMark := defaultHighWater
  highWater := false
  created := false
  owned := false
  held := false
  shut := false
  sending := []
  tested := 0
  shutting := 0
  accepted := []
  promised := []
  refused := false
  late := 0
  closes := 0

/-- `Event::Writing`. -/
def writing (s : Session) : Bool := s.event.events.write

/-- `out_buffer.Size()`. -/
def size (s : Session) : ℕ := s.out.flatten.length

def setState (s : Session) (state : SessionState) : Session := { s with state }

/-- `Cycle::EventUpdate` on the cycle thread: the reactor is given the mask of an event that is
part of the cycle. -/
def update (s : Session) : Session :=
  { s with mask := if s.registered then s.event.events else s.mask }

/-- `EnableRead` and `DisableRead`. -/
def setRead (s : Session) (read : Bool) : Session :=
  { s with event := s.event.setInterest read s.event.events.write }.update

/-- `EnableWrite` and `DisableWrite`. -/
def setWrite (s : Session) (write : Bool) : Session :=
  { s with event := s.event.setInterest s.event.events.read write }.update

/-- `StartRead`. -/
def startRead (s : Session) : Session :=
  if !s.reading || !s.event.events.read then { s.setRead true with reading := true } else s

/-- `StopRead`. -/
def stopRead (s : Session) : Session :=
  if s.reading || s.event.events.read then { s.setRead false with reading := false } else s

/-- The session with other values of what `StartRead` and `StopRead` set. -/
def withReading (s : Session) (read : Bool) (mask : Events) (reading : Bool) : Session :=
  { s with event := s.event.setInterest read s.event.events.write, mask, reading }

/-- What `out_buffer.Write` offers to the socket. -/
def offered (s : Session) : List UInt8 := Chunks.gather numWriteIovec s.size s.out

/-- `out_buffer.Write`, of which the socket takes at most `accept` bytes. -/
def write (s : Session) (accept : ℕ) : Session :=
  let taken := s.offered.take accept
  { s with out := Chunks.drop taken.length s.out, accepted := s.accepted ++ taken }

/-- `out_buffer.Append`. -/
def append (s : Session) (chunks : List (List UInt8)) : Session :=
  { s with out := s.out ++ chunks }

/-- The beginning of `HandleClose`. -/
def close (s : Session) : Session :=
  { (s.setState .disconnected).setRead false |>.setWrite false with closes := s.closes + 1 }

@[simp] theorem setWrite_writing (s : Session) (b : Bool) : (s.setWrite b).writing = b := rfl
@[simp] theorem setWrite_state (s : Session) (b : Bool) : (s.setWrite b).state = s.state := rfl
@[simp] theorem close_state (s : Session) : s.close.state = .disconnected := rfl
@[simp] theorem close_writing (s : Session) : s.close.writing = false := rfl
@[simp] theorem close_closes (s : Session) : s.close.closes = s.closes + 1 := rfl
@[simp] theorem close_accepted (s : Session) : s.close.accepted = s.accepted := rfl
@[simp] theorem close_promised (s : Session) : s.close.promised = s.promised := rfl
@[simp] theorem close_refused (s : Session) : s.close.refused = s.refused := rfl
@[simp] theorem close_created (s : Session) : s.close.created = s.created := rfl
@[simp] theorem close_owned (s : Session) : s.close.owned = s.owned := rfl

/-- A call of `Shutdown` on another thread sets the state. -/
def setDisconnecting (s : Session) : Session :=
  { s with state := .disconnecting, tested := s.tested - 1, shutting := s.shutting + 1 }

/-- `Shutdown` after the state has been set. -/
def finishShutdown (s : Session) : Session := if s.writing then s else { s with shut := true }

/-- The end of `Send` and `Append`, when the task has been queued: the call returns true. -/
def promise (s : Session) (m : Message) : Session :=
  if s.state = .connected then
    { s with promised := s.promised ++ m.bytes, refused := s.refused || m.refused }
  else
    { s with late := s.late + m.chunks.flatten.length }

end Session

/-- A task of the worker's cycle. -/
inductive Task
  /-- A task of the user. -/
  | user
  /-- The task of `Send` and `Append`, with the temporary buffer. -/
  | send (i : ℕ) (chunks : List (List UInt8))
  /-- The task of `HandleWrite` that calls the write callback. -/
  | written (i : ℕ)
  /-- The task of `TcpServe::NewSession`. -/
  | newSession (i : ℕ)
  deriving DecidableEq, Repr

/-- The session a task keeps alive. -/
def Task.keeps : Task → Option ℕ
  | .user => none
  | .send i _ | .written i | .newSession i => some i

/-- A function on the stack of the cycle thread. -/
inductive Frame
  /-- Code of the user. -/
  | user
  /-- `HandleCallback`, with the events it has still to handle. -/
  | callback (i : ℕ) (revents : Events)
  /-- `HandleClose`, after the connect callback. -/
  | closed (i : ℕ)
  /-- The task of `NewSession`, before `ConnectEstablished`. -/
  | establish (i : ℕ)
  /-- `ConnectEstablished`, after the connect callback. -/
  | established (i : ℕ)
  deriving DecidableEq, Repr

/-- The session a frame keeps alive. -/
def Frame.keeps : Frame → Option ℕ
  | .user => none
  | .callback i _ | .closed i | .establish i | .established i => some i

/-- An active event: that of a session, or another one, whose callback is code of the
user. -/
inductive Active
  | session (i : ℕ) (revents : Events)
  | other
  deriving DecidableEq, Repr

/-- The session of an active event. -/
def Active.session? : Active → Option ℕ
  | .session i _ => some i
  | .other => none

structure Worker where
  loop : Loop Task
  sessions : ℕ → Session
  /-- The active events not handled yet. -/
  active : List Active
  stack : List Frame

/-- Why a step of a worker is not taken. -/
inductive Halt
  /-- What the loop says, or a step that is not enabled. -/
  | stop (r : Stop)
  /-- The assertion of `HandleClose`. -/
  | handleClose (i : ℕ)
  /-- The assertion of `ConnectEstablished`. -/
  | connectEstablished (i : ℕ)
  /-- The assertion on the table of sessions when a session is added. -/
  | newSession (i : ℕ)
  /-- The assertion on the table of sessions when a session is destroyed. -/
  | destroy (i : ℕ)
  /-- A call of `high_water` while it is empty. -/
  | highWater (i : ℕ)
  deriving DecidableEq, Repr

namespace Worker

def init : Worker where
  loop := Loop.init
  sessions := fun _ => Session.new
  active := []
  stack := []

def disabled {α : Type} : Except Halt α := .error (.stop .disabled)

def modify (w : Worker) (i : ℕ) (f : Session → Session) : Worker :=
  { w with sessions := Function.update w.sessions i (f (w.sessions i)) }

@[simp] theorem modify_self (w : Worker) (i : ℕ) (f : Session → Session) :
    (w.modify i f).sessions i = f (w.sessions i) := by
  simp [modify]

theorem modify_other (w : Worker) {i j : ℕ} (hj : j ≠ i) (f : Session → Session) :
    (w.modify i f).sessions j = w.sessions j := by
  simp [modify, Function.update_of_ne hj]

@[simp] theorem modify_stack (w : Worker) (i : ℕ) (f : Session → Session) :
    (w.modify i f).stack = w.stack := rfl

@[simp] theorem modify_loop (w : Worker) (i : ℕ) (f : Session → Session) :
    (w.modify i f).loop = w.loop := rfl

/-- Functions called, the first one on top of the stack. -/
def enter (w : Worker) (frames : List Frame) : Worker :=
  { w with stack := frames ++ w.stack }

/-- `QueueInCycle` by the library on the cycle thread. -/
def queue (w : Worker) (task : Task) : Worker := { w with loop := w.loop.push task }

/-- The cycle thread runs code of the user. -/
def userTop (w : Worker) : Bool :=
  match w.stack with
  | [] => w.loop.phase == .idle
  | frame :: _ => frame == .user

/-- Something still points to the session. -/
def alive (w : Worker) (i : ℕ) : Bool :=
  (w.sessions i).owned || (w.sessions i).held ||
    (w.loop.functions ++ w.loop.pending).any (·.task.keeps == some i) ||
    w.stack.any (·.keeps == some i)

/-! ## The functions of a session -/

/-- `HandleClose`, up to the connect callback. -/
def handleClose (w : Worker) (i : ℕ) : Except Halt Worker :=
  match (w.sessions i).state with
  | .connected | .disconnecting => .ok ((w.modify i Session.close).enter [.user, .closed i])
  | _ => .error (.handleClose i)

/-- `HandleClose`, after the connect callback. -/
def finishClose (w : Worker) (i : ℕ) : Except Halt Worker :=
  if (w.sessions i).owned then
    .ok (w.modify i fun s => { s with registered := false, owned := false })
  else
    .error (.destroy i)

/-- `HandleRead` of `received` bytes.  Without a read callback it is the connect callback
that is called. -/
def handleRead (w : Worker) (i received : ℕ) : Except Halt Worker :=
  if received = 0 then w.handleClose i else .ok (w.enter [.user])

/-- The part of `HandleWrite` that writes.  When nothing is left, the write interest is
given up and the write callback is queued. -/
def written (w : Worker) (i accept : ℕ) : Worker :=
  if ((w.sessions i).write accept).size = 0 then
    ((w.modify i (Session.write · accept)).modify i (Session.setWrite · false)).queue
      (.written i)
  else
    w.modify i (Session.write · accept)

/-- `HandleWrite`.  Its test of the number written is always true. -/
def handleWrite (w : Worker) (i accept : ℕ) : Except Halt Worker :=
  if (w.sessions i).writing then
    if (w.sessions i).state = .disconnecting then (w.written i accept).handleClose i
    else .ok (w.written i accept)
  else
    .ok w

/-- The task of `Send` and `Append`. -/
def performSend (w : Worker) (i : ℕ) (chunks : List (List UInt8)) (accept : ℕ) :
    Except Halt Worker :=
  if (w.sessions i).size = 0 then
    ((w.modify i (Session.append · chunks)).modify i (Session.setWrite · true)).handleWrite i
      accept
  else if (w.sessions i).highWaterMark < (w.sessions i).size ∧
      (w.sessions i).highWaterMark ≠ 0 then
    if (w.sessions i).highWater then .ok ((w.modify i (Session.append · chunks)).enter [.user])
    else .error (.highWater i)
  else
    .ok (w.modify i (Session.append · chunks))

/-- The task of `NewSession`, up to the new-session callback. -/
def newSession (w : Worker) (i : ℕ) : Except Halt Worker :=
  if (w.sessions i).owned then
    .error (.newSession i)
  else
    .ok ((w.modify i fun s => { s with owned := true }).enter [.user, .establish i])

/-- `ConnectEstablished`, up to the connect callback. -/
def connectEstablished (w : Worker) (i : ℕ) : Except Halt Worker :=
  if (w.sessions i).state = .connecting then
    .ok ((w.modify i (Session.setState · .connected)).enter [.user, .established i])
  else
    .error (.connectEstablished i)

/-- `ConnectEstablished`, after the connect callback. -/
def finishConnect (w : Worker) (i : ℕ) : Worker :=
  w.modify i fun s =>
    { s with event := s.event.tie true, registered := true }.update.setRead true

/-- A task is called. -/
def perform (w : Worker) (accept : ℕ) : Task → Except Halt Worker
  | .user | .written _ => .ok (w.enter [.user])
  | .send i chunks => w.performSend i chunks accept
  | .newSession i => w.newSession i

/-! ## Calls -/

/-- A call of the library by code of the user on the cycle thread. -/
inductive UserCall
  | send (i : ℕ) (m : Message)
  | shutdown (i : ℕ)
  | forceClose (i : ℕ)
  /-- `TcpServe::NewSession` on the worker's own cycle, in the callback of an acceptor. -/
  | newSession (i : ℕ)
  | setHighWaterMark (i n : ℕ)
  | setHighWaterCallback (i : ℕ) (set : Bool)
  | startRead (i : ℕ)
  | stopRead (i : ℕ)

/-- A call by code of the user on the cycle thread. -/
def call (w : Worker) : UserCall → Except Halt Worker
  | .send i m =>
    if (w.sessions i).state = .connected then
      .ok ((w.queue (.send i m.chunks)).modify i (Session.promise · m))
    else
      .ok w
  | .shutdown i =>
    if (w.sessions i).state = .connected then
      .ok (w.modify i fun s => (s.setState .disconnecting).finishShutdown)
    else
      .ok w
  | .forceClose i =>
    match (w.sessions i).state with
    | .connected | .disconnecting => w.handleClose i
    | _ => .ok w
  | .newSession i =>
    if (w.sessions i).created then disabled
    else (w.modify i fun s => { s with created := true }).newSession i
  | .setHighWaterMark i n => .ok (w.modify i fun s => { s with highWaterMark := n })
  | .setHighWaterCallback i set => .ok (w.modify i fun s => { s with highWater := set })
  | .startRead i => .ok (w.modify i Session.startRead)
  | .stopRead i => .ok (w.modify i Session.stopRead)

/-- `StartRead` and `StopRead` touch nothing but the read interest. -/
theorem call_reading {w w' : Worker} {c : UserCall} {i : ℕ}
    (hc : c = .startRead i ∨ c = .stopRead i) (hs : w.call c = .ok w') :
    ∃ read mask reading, w' = w.modify i (Session.withReading · read mask reading) := by
  rcases hc with rfl | rfl <;> cases hs <;>
    simp only [modify, Session.startRead, Session.stopRead] <;> split
  · exact ⟨true, _, true, rfl⟩
  · exact ⟨(w.sessions i).event.events.read, (w.sessions i).mask, (w.sessions i).reading, rfl⟩
  · exact ⟨false, _, false, rfl⟩
  · exact ⟨(w.sessions i).event.events.read, (w.sessions i).mask, (w.sessions i).reading, rfl⟩

end Worker

/-- A step of the system. -/
inductive WorkerLabel
  /-- A step of the loop that touches no session, or another thread's share of one. -/
  | cycle (l : LoopLabel Task)
  /-- `Poll` returns with active events, the notify event among them or not. -/
  | poll (ready : Bool) (active : List Active)
  /-- The next active event is handled. -/
  | dispatch
  /-- The callback of a timer is called. -/
  | timer
  /-- The next task is called; the socket takes at most `accept` bytes if it writes. -/
  | start (accept : ℕ)
  /-- `HandleCallback` goes on with `HandleRead`, which reads `received` bytes. -/
  | read (received : ℕ)
  /-- `HandleCallback` goes on with `HandleWrite`. -/
  | write (accept : ℕ)
  /-- `HandleCallback` goes on with `HandleClose`. -/
  | close
  /-- The function on top of the stack returns, or goes on after code of the user. -/
  | resume
  /-- The user calls the library on the cycle thread. -/
  | call (c : Worker.UserCall)
  /-- Another thread calls `Send` or `Append`: the test of the state. -/
  | sendCheck (i : ℕ) (m : Message)
  /-- Another thread queues the task of a call of `Send` or `Append`. -/
  | sendPush (i : ℕ) (m : Message)
  /-- Another thread calls `Shutdown`: the test of the state. -/
  | shutdownCheck (i : ℕ)
  /-- Another thread goes on with a call of `Shutdown` that has passed the test: the state is
  set, whatever it is now. -/
  | shutdownSet (i : ℕ)
  /-- Another thread ends a call of `Shutdown`. -/
  | shutdownEnd (i : ℕ)
  /-- Another thread calls `TcpServe::NewSession`. -/
  | newSession (i : ℕ)
  /-- The user takes a pointer to a session. -/
  | keep (i : ℕ)
  /-- The user drops its pointer to a session. -/
  | drop (i : ℕ)

namespace Worker

/-- A step of the loop can be taken as it is. -/
def passes (w : Worker) : LoopLabel Task → Bool
  | .exec | .readNotify | .loop => w.stack.isEmpty
  | .swap => w.stack.isEmpty && w.active.isEmpty
  | .pollReturn _ | .start => false
  | .queueInCycle inThread task | .runInCycle inThread task =>
    task == .user && (!inThread || w.userTop)
  | .exit inThread => !inThread || w.userTop
  | .notify | .notifyExit => true

/-- A step of the loop, with the verdict of the loop on it. -/
def stepLoop (w : Worker) (l : LoopLabel Task) : Except Halt Worker :=
  match w.loop.step l with
  | .ok loop => .ok { w with loop }
  | .error r => .error (.stop r)

/-- The end of `Exec`: the events of all sessions are taken out of the cycle. -/
def settle (w : Worker) : Worker :=
  if w.loop.phase = .idle then
    { w with sessions := fun i => { w.sessions i with registered := false } }
  else
    w

/-- The active events of a `Poll`: each is in the cycle, and occurs once. -/
def Polled (w : Worker) (active : List Active) : Prop :=
  (active.filterMap Active.session?).Nodup ∧
    ∀ i ∈ active.filterMap Active.session?, (w.sessions i).registered = true

instance (w : Worker) (active : List Active) : Decidable (w.Polled active) :=
  inferInstanceAs (Decidable (_ ∧ _))

/-- The next active event is handled: `HandleEvent` calls back when the event is tied to a
session that is alive. -/
def dispatch (w : Worker) : Except Halt Worker :=
  match w.loop.phase, w.stack, w.active with
  | .handling _, [], .session i revents :: active =>
    let w := { w with active }
    if { (w.sessions i).event with alive := w.alive i }.handleEvent then
      .ok (w.enter [.callback i revents])
    else
      .ok w
  | .handling _, [], .other :: active => .ok ({ w with active }.enter [.user])
  | _, _, _ => disabled

/-- The function on top of the stack returns or goes on. -/
def resume (w : Worker) : Except Halt Worker :=
  match w.stack with
  | [] => disabled
  | .user :: stack => .ok { w with stack }
  | .callback _ revents :: stack =>
    if revents.read || revents.write || revents.closed then disabled
    else .ok { w with stack }
  | .closed i :: stack => { w with stack }.finishClose i
  | .establish i :: stack => { w with stack }.connectEstablished i
  | .established i :: stack => .ok ({ w with stack }.finishConnect i)

def step (w : Worker) : WorkerLabel → Except Halt Worker
  | .cycle l =>
    if w.passes l then
      match w.stepLoop l with
      | .ok w => .ok (if l = .loop then w.settle else w)
      | .error e => .error e
    else
      disabled
  | .poll ready active =>
    if w.Polled active then
      match w.stepLoop (.pollReturn ready) with
      | .ok w => .ok { w with active }
      | .error e => .error e
    else
      disabled
  | .dispatch => w.dispatch
  | .timer =>
    match w.loop.phase, w.stack, w.active with
    | .handling _, [], [] => .ok (w.enter [.user])
    | _, _, _ => disabled
  | .start accept =>
    match w.stack, w.loop.functions with
    | [], q :: _ =>
      match w.stepLoop .start with
      | .ok w => w.perform accept q.task
      | .error e => .error e
    | _, _ => disabled
  | .read received =>
    match w.stack with
    | .callback i revents :: stack =>
      if revents.read then
        { w with stack := .callback i { revents with read := false } :: stack }.handleRead i
          received
      else
        disabled
    | _ => disabled
  | .write accept =>
    match w.stack with
    | .callback i revents :: stack =>
      if !revents.read && revents.write then
        { w with stack := .callback i { revents with write := false } :: stack }.handleWrite i
          accept
      else
        disabled
    | _ => disabled
  | .close =>
    match w.stack with
    | .callback i revents :: stack =>
      if !revents.read && !revents.write && revents.closed then
        { w with stack := .callback i { revents with closed := false } :: stack }.handleClose i
      else
        disabled
    | _ => disabled
  | .resume => w.resume
  | .call c => if w.userTop then w.call c else disabled
  | .sendCheck i m =>
    if (w.sessions i).state = .connected then
      .ok (w.modify i fun s => { s with sending := s.sending ++ [m] })
    else
      .ok w
  | .sendPush i m =>
    if m ∈ (w.sessions i).sending then
      match w.stepLoop (.queueInCycle false (.send i m.chunks)) with
      | .ok w => .ok (w.modify i fun s => { s with sending := s.sending.erase m }.promise m)
      | .error e => .error e
    else
      disabled
  | .shutdownCheck i =>
    if (w.sessions i).state = .connected then
      .ok (w.modify i fun s => { s with tested := s.tested + 1 })
    else
      .ok w
  | .shutdownSet i =>
    if (w.sessions i).tested = 0 then disabled
    else .ok (w.modify i Session.setDisconnecting)
  | .shutdownEnd i =>
    if (w.sessions i).shutting = 0 then disabled
    else .ok (w.modify i fun s => { s with shutting := s.shutting - 1 }.finishShutdown)
  | .newSession i =>
    if (w.sessions i).created then disabled
    else
      match w.stepLoop (.queueInCycle false (.newSession i)) with
      | .ok w => .ok (w.modify i fun s => { s with created := true })
      | .error e => .error e
  | .keep i =>
    if w.alive i then .ok (w.modify i fun s => { s with held := true }) else disabled
  | .drop i => .ok (w.modify i fun s => { s with held := false })

/-- What a step answers: the loop stops it or it is not enabled, it finds nothing to do, or
it is taken. -/
inductive Step (w : Worker) : WorkerLabel → Except Halt Worker → Prop
  | stop (l : WorkerLabel) (r : Stop) : Step w l (.error (.stop r))
  | idle (l : WorkerLabel) : Step w l (.ok w)
  | cycle {l : LoopLabel Task} {loop : Loop Task} (hl : w.passes l = true)
      (hs : Loop.Step w.loop l loop) :
      Step w (.cycle l) (.ok (if l = .loop then { w with loop }.settle else { w with loop }))
  | poll {ready : Bool} {active : List Active} {loop : Loop Task}
      (hs : Loop.Step w.loop (.pollReturn ready) loop) :
      Step w (.poll ready active) (.ok { w with loop, active })
  | dispatch : Step w .dispatch w.dispatch
  | timer : Step w .timer (.ok (w.enter [.user]))
  | start {accept : ℕ} {q : Queued Task} {functions : List (Queued Task)} {loop : Loop Task}
      (hstack : w.stack = []) (hfun : w.loop.functions = q :: functions)
      (hs : Loop.Step w.loop .start loop) :
      Step w (.start accept) ({ w with loop }.perform accept q.task)
  | read {received i : ℕ} {revents : Events} {stack : List Frame}
      (hstack : w.stack = .callback i revents :: stack) (hread : revents.read = true) :
      Step w (.read received)
        ({ w with stack := .callback i { revents with read := false } :: stack }.handleRead i
          received)
  | write {accept i : ℕ} {revents : Events} {stack : List Frame}
      (hstack : w.stack = .callback i revents :: stack)
      (hread : revents.read = false) (hwrite : revents.write = true) :
      Step w (.write accept)
        ({ w with stack := .callback i { revents with write := false } :: stack }.handleWrite i
          accept)
  | close {i : ℕ} {revents : Events} {stack : List Frame}
      (hstack : w.stack = .callback i revents :: stack) (hread : revents.read = false)
      (hwrite : revents.write = false) (hclosed : revents.closed = true) :
      Step w .close
        ({ w with stack := .callback i { revents with closed := false } :: stack }.handleClose i)
  | resume : Step w .resume w.resume
  | call {c : UserCall} (huser : w.userTop = true) : Step w (.call c) (w.call c)
  | sendCheck {i : ℕ} {m : Message} (hstate : (w.sessions i).state = .connected) :
      Step w (.sendCheck i m) (.ok (w.modify i fun s => { s with sending := s.sending ++ [m] }))
  | sendPush {i : ℕ} {m : Message} {loop : Loop Task} (hmem : m ∈ (w.sessions i).sending)
      (hs : Loop.Step w.loop (.queueInCycle false (.send i m.chunks)) loop) :
      Step w (.sendPush i m)
        (.ok ({ w with loop }.modify i fun s =>
          { s with sending := s.sending.erase m }.promise m))
  | shutdownCheck {i : ℕ} (hstate : (w.sessions i).state = .connected) :
      Step w (.shutdownCheck i) (.ok (w.modify i fun s => { s with tested := s.tested + 1 }))
  | shutdownSet {i : ℕ} (htested : (w.sessions i).tested ≠ 0) :
      Step w (.shutdownSet i) (.ok (w.modify i Session.setDisconnecting))
  | shutdownEnd {i : ℕ} (hshutting : (w.sessions i).shutting ≠ 0) :
      Step w (.shutdownEnd i)
        (.ok (w.modify i fun s => { s with shutting := s.shutting - 1 }.finishShutdown))
  | newSession {i : ℕ} {loop : Loop Task}
      (hs : Loop.Step w.loop (.queueInCycle false (.newSession i)) loop) :
      Step w (.newSession i) (.ok ({ w with loop }.modify i fun s => { s with created := true }))
  | keep {i : ℕ} :
      Step w (.keep i) (.ok (w.modify i fun s => { s with held := true }))
  | drop {i : ℕ} :
      Step w (.drop i) (.ok (w.modify i fun s => { s with held := false }))

/-- A step of the loop is stopped or taken. -/
theorem stepLoop_cases (w : Worker) (l : LoopLabel Task) :
    (∃ r, w.stepLoop l = .error (.stop r)) ∨
      ∃ loop, Loop.Step w.loop l loop ∧ w.stepLoop l = .ok { w with loop } := by
  unfold stepLoop
  split
  · next loop hloop => exact Or.inr ⟨loop, Loop.step_of_ok hloop, rfl⟩
  · next r hloop => exact Or.inl ⟨r, rfl⟩

theorem step_cases (w : Worker) (l : WorkerLabel) : w.Step l (w.step l) := by
  cases l <;> simp only [step, disabled]
  case cycle l =>
    split
    · next hl =>
        rcases w.stepLoop_cases l with ⟨r, hr⟩ | ⟨loop, hs, hok⟩
        · rw [hr]; exact .stop _ r
        · rw [hok]; exact .cycle hl hs
    · exact .stop _ _
  case poll ready active =>
    split
    · rcases w.stepLoop_cases (.pollReturn ready) with ⟨r, hr⟩ | ⟨loop, hs, hok⟩
      · rw [hr]; exact .stop _ r
      · rw [hok]; exact .poll hs
    · exact .stop _ _
  case dispatch => exact .dispatch
  case timer =>
    split
    · exact .timer
    · exact .stop _ _
  case start accept =>
    split
    · next q functions hstack hfun =>
        rcases w.stepLoop_cases .start with ⟨r, hr⟩ | ⟨loop, hs, hok⟩
        · rw [hr]; exact .stop _ r
        · rw [hok]; exact .start hstack hfun hs
    · exact .stop _ _
  case read received =>
    split
    · next hstack =>
        split
        · next hread => exact .read hstack hread
        · exact .stop _ _
    · exact .stop _ _
  case write accept =>
    split
    · next hstack =>
        split
        · next hrev =>
            simp only [Bool.and_eq_true, Bool.not_eq_true'] at hrev
            exact .write hstack hrev.1 hrev.2
        · exact .stop _ _
    · exact .stop _ _
  case close =>
    split
    · next hstack =>
        split
        · next hrev =>
            simp only [Bool.and_eq_true, Bool.not_eq_true'] at hrev
            exact .close hstack hrev.1.1 hrev.1.2 hrev.2
        · exact .stop _ _
    · exact .stop _ _
  case resume => exact .resume
  case call c =>
    split
    · next huser => exact .call huser
    · exact .stop _ _
  case sendCheck i m =>
    split
    · next hstate => exact .sendCheck hstate
    · exact .idle _
  case sendPush i m =>
    split
    · next hmem =>
        rcases w.stepLoop_cases (.queueInCycle false (.send i m.chunks)) with
          ⟨r, hr⟩ | ⟨loop, hs, hok⟩
        · rw [hr]; exact .stop _ r
        · rw [hok]; exact .sendPush hmem hs
    · exact .stop _ _
  case shutdownCheck i =>
    split
    · next hstate => exact .shutdownCheck hstate
    · exact .idle _
  case shutdownSet i =>
    split
    · exact .stop _ _
    · next htested => exact .shutdownSet htested
  case shutdownEnd i =>
    split
    · exact .stop _ _
    · next hshutting => exact .shutdownEnd hshutting
  case newSession i =>
    split
    · exact .stop _ _
    · rcases w.stepLoop_cases (.queueInCycle false (.newSession i)) with
        ⟨r, hr⟩ | ⟨loop, hs, hok⟩
      · rw [hr]; exact .stop _ r
      · rw [hok]; exact .newSession hs
  case keep i =>
    split
    · exact .keep
    · exact .stop _ _
  case drop i => exact .drop

end Worker

end Hare.Net
