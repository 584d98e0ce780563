import Hare.Net.Acts

/-!
# The client

A client connects, and reconnects, over one cycle.  `ConnectTo` asks `Connected` and queues a
task that calls `connect`; when that goes well the task makes a session and puts it in the
place of the one the client holds.  The task does not ask again.  So it can throw a session
away that is not closed: one made by an earlier task, or one that was shut down and still has
something to send.

The task moves the peer address into the constructor of the session, and names the session after
the same address in another argument of the same call.  C++ does not say which argument comes
first; when it is the address, the call on what is left of it is undefined (`movedAddress`).

At the end of `HandleClose` the client drops the session it holds.  That is the one that has been
closed, and is disconnected, unless `Shutdown` on another thread has tested a session before its
close and sets it back to disconnecting afterwards.

The sessions of a client run the code of the sessions of a server, on a cycle of the same kind,
so the client is a layer over `Worker`.  What differs is how sessions are made and what
`HandleClose` ends with, and these steps the client takes itself.  The closures the client
queues are tasks of the user for the worker; the client knows them by their tickets.  The flag
`owned` of a session says that the client holds it.

A step ends with the destructors of the sessions that nothing refers to any more.
-/

namespace Hare.Net

open LabelledRun Io

/-- What `connect` leaves in `errno`. -/
inductive ConnectErrno
  | success
  | inprogress
  | intr
  | isconn
  | again
  | addrinuse
  | addrnotavail
  | connrefused
  | netunreach
  | acces
  | perm
  | afnosupport
  | already
  | badf
  | fault
  | notsock
  | unexpected
  deriving DecidableEq, Repr

/-- A branch of the `switch` of `ConnectTo`. -/
inductive ConnectBranch
  | established
  | retry
  | failed
  deriving DecidableEq, Repr

def ConnectErrno.branch : ConnectErrno → ConnectBranch
  | success | inprogress | intr | isconn => .established
  | again | addrinuse | addrnotavail | connrefused | netunreach => .retry
  | acces | perm | afnosupport | already | badf | fault | notsock | unexpected => .failed

/-- When the peer address is moved into the constructor of a session: after the calls of `Family`
and `ToIpPort` on it for the other arguments, or before one of them. -/
inductive ArgumentOrder
  | addressLast
  | addressFirst
  deriving DecidableEq, Repr

/-- A closure the client passes to its cycle. -/
inductive ClientTask
  /-- `Connected`, for a thread that waits for the answer. -/
  | connected (thread : ℕ)
  | connectTo (retry : Bool) (times : ℤ)
  /-- `Send` and `Append`, with the buffer. -/
  | append (blocks : List (List UInt8))
  | close
  deriving DecidableEq, Repr

/-- A call of `Connected` on another thread. -/
inductive Asked
  | no
  | waiting
  | answered (connected : Bool)
  deriving DecidableEq, Repr

structure Client where
  worker : Worker
  /-- The closures of the client, by the tickets of their tasks. -/
  tasks : ℕ → Option ClientTask
  session : Option ℕ
  /-- How many sessions have been made. -/
  made : ℕ
  /-- The timers of `ConnectTo`, with the tries they have left. -/
  timers : List ℤ
  asked : ℕ → Asked
  /-- The tasks `DoPendingFunctions` has called since its swap. -/
  called : List Task

/-- Why a step of a client is not taken. -/
inductive ClientHalt
  | worker (h : Halt)
  /-- `ConnectEstablished` of a session that is not there. -/
  | nullSession
  /-- A call on the peer address when it has been moved away. -/
  | movedAddress
  /-- The assertion of `~TcpSession`. -/
  | destructor (i : ℕ)
  deriving DecidableEq, Repr

/-- A step of the system. -/
inductive ClientLabel
  /-- A step of the worker that does not concern the client. -/
  | worker (l : WorkerLabel)
  /-- The next task is called, a closure of the client, with what `connect` would leave in
  `errno` and the order in which a constructor evaluates its arguments. -/
  | task (errno : ConnectErrno) (order : ArgumentOrder)
  /-- The task of `ConnectTo` goes on after the connect callback. -/
  | establish
  /-- `HandleClose` goes on after the connect callback. -/
  | closed
  /-- A timer of `ConnectTo` expires. -/
  | retry (k : ℕ)
  /-- The user calls `ConnectTo` on the cycle thread. -/
  | connectTo (retry : Bool) (times : ℤ)
  /-- The user calls `Send` or `Append` on the cycle thread. -/
  | send (m : Message)
  /-- The user calls `Close` on the cycle thread. -/
  | close
  /-- Another thread calls `Connected`, or one of the functions that call it first. -/
  | ask (thread : ℕ)
  /-- Its call returns, after `Connected`. -/
  | answer (thread : ℕ)
  /-- Its call is one of `ConnectTo`, which goes on. -/
  | connectFrom (thread : ℕ) (retry : Bool) (times : ℤ)
  /-- Its call is one of `Send` or `Append`, which goes on. -/
  | sendFrom (thread : ℕ) (m : Message)
  /-- Another thread calls `Close`. -/
  | closeFrom

/-- The buffer `Send` and `Append` of a client hand to the session.  Unlike that of a session
the `Send` of a client gives up when `Buffer::Add` does. -/
def Message.buffer? : Message → Option (List (List UInt8))
  | send bytes => if bytes.length ≤ maxSize then some (Chunks.push [] bytes) else none
  | append blocks => some blocks

namespace Client

def init : Client where
  worker := Worker.init
  tasks _ := none
  session := none
  made := 0
  timers := []
  asked _ := .no
  called := []

def disabled {α : Type} : Except ClientHalt α := .error (.worker (.stop .disabled))

/-- What the worker answers. -/
def lift (c : Client) : Except Halt Worker → Except ClientHalt Client
  | .ok worker => .ok { c with worker }
  | .error h => .error (.worker h)

/-! ## The functions of a client -/

/-- The state of the session the client holds. -/
def state? (c : Client) : Option SessionState :=
  c.session.map fun i => (c.worker.sessions i).state

/-- `Connected` on the cycle thread. -/
def connected (c : Client) : Bool :=
  c.worker.loop.phase != .idle && c.state? == some .connected

/-- The worker has queued a task, and the task is this closure. -/
def record (c : Client) (worker : Worker) (task : ClientTask) : Client :=
  { c with worker, tasks := Function.update c.tasks c.worker.loop.pushed.length (some task) }

/-- A closure is queued on the cycle thread. -/
def queue (c : Client) (task : ClientTask) : Client := c.record (c.worker.queue .user) task

/-- A closure is queued on another thread. -/
def post (c : Client) (l : LoopLabel Task) (task : ClientTask) : Except ClientHalt Client :=
  match c.worker.stepLoop l with
  | .ok worker => .ok (c.record worker task)
  | .error h => .error (.worker h)

/-- `session.reset`. -/
def reset (c : Client) (session : Option ℕ) : Client :=
  { c with
    session
    worker := { c.worker with
      sessions := fun i => { c.worker.sessions i with owned := session == some i } } }

/-- `ConnectTo` on the cycle thread. -/
def connectTo (c : Client) (retry : Bool) (times : ℤ) : Client :=
  if c.connected then c else c.queue (.connectTo retry times)

/-- The task of `ConnectTo` makes a session and calls the connect callback. -/
def newSession (c : Client) : Client :=
  let worker := c.worker.modify c.made fun _ => { Session.new with created := true }
  let c' := { c with worker, made := c.made + 1 }.reset (some c.made)
  { c' with worker := c'.worker.enter [.user, .establish c.made] }

@[simp] theorem newSession_session (c : Client) : c.newSession.session = some c.made := rfl

@[simp] theorem newSession_made (c : Client) : c.newSession.made = c.made + 1 := rfl

theorem newSession_state (c : Client) (i : ℕ) :
    (c.newSession.worker.sessions i).state =
      if i = c.made then .connecting else (c.worker.sessions i).state := by
  split
  · next hi => simp [newSession, reset, Worker.enter, hi, Session.new]
  · next hi => simp [newSession, reset, Worker.enter, Worker.modify_other _ hi]

/-- `DestroySession`. -/
def destroySession (c : Client) : Client := c.reset none

/-- A closure is called. -/
def perform (c : Client) (errno : ConnectErrno) (order : ArgumentOrder) :
    ClientTask → Except ClientHalt Client
  | .connected thread =>
    .ok { c with
      asked := Function.update c.asked thread (.answered (c.state? == some .connected)) }
  | .connectTo retry times =>
    match errno.branch with
    | .established => if order = .addressLast then .ok c.newSession else .error .movedAddress
    | .retry => .ok (if retry && 0 < times then { c with timers := c.timers ++ [times] } else c)
    | .failed => .ok c
  | .append blocks =>
    match c.session with
    | some i => c.lift (c.worker.call (.send i (.append blocks)))
    | none => .ok c
  | .close =>
    match c.session with
    | some i => c.lift (c.worker.call (.forceClose i))
    | none => .ok c

/-! ## Steps -/

/-- The closure of the client that is called next. -/
def next (c : Client) : Option ClientTask :=
  match c.worker.stack, c.worker.loop.functions with
  | [], q :: _ => c.tasks q.ticket
  | _, _ => none

/-- A step of the worker can be taken as it is. -/
def passes (c : Client) : WorkerLabel → Bool
  | .newSession _ | .call (.newSession _) => false
  | .start _ => c.next.isNone
  | .resume =>
    match c.worker.stack with
    | .closed _ :: _ | .establish _ :: _ => false
    | _ => true
  | _ => true

/-- The client after a step of the worker.  `DoPendingFunctions` drops the tasks it has called
when it returns, and the end of `Exec` drops the timers. -/
def follow (c : Client) (worker : Worker) : WorkerLabel → Client
  | .start _ =>
    { c with worker, called := (c.worker.loop.functions.map Queued.task).take 1 ++ c.called }
  | .cycle .loop =>
    { c with worker, called := [], timers := if worker.loop.phase = .idle then [] else c.timers }
  | _ => { c with worker }

theorem follow_worker (c : Client) (worker : Worker) (k : WorkerLabel) :
    (c.follow worker k).worker = worker := by
  unfold follow
  split <;> rfl

theorem follow_session (c : Client) (worker : Worker) (k : WorkerLabel) :
    (c.follow worker k).session = c.session := by
  unfold follow
  split <;> rfl

theorem follow_made (c : Client) (worker : Worker) (k : WorkerLabel) :
    (c.follow worker k).made = c.made := by
  unfold follow
  split <;> rfl

/-- A step, up to the destructors. -/
def act (c : Client) : ClientLabel → Except ClientHalt Client
  | .worker l =>
    if c.passes l then
      match c.worker.step l with
      | .ok worker => .ok (c.follow worker l)
      | .error h => .error (.worker h)
    else
      disabled
  | .task errno order =>
    match c.next with
    | some task =>
      match c.worker.stepLoop .start with
      | .ok worker => { c with worker }.perform errno order task
      | .error h => .error (.worker h)
    | none => disabled
  | .establish =>
    match c.worker.stack, c.session with
    | .establish _ :: stack, some i => c.lift ({ c.worker with stack }.connectEstablished i)
    | .establish _ :: _, none => .error .nullSession
    | _, _ => disabled
  | .closed =>
    match c.worker.stack with
    | .closed i :: stack =>
      let worker := { c.worker with stack }.modify i fun s => { s with registered := false }
      .ok { c with worker }.destroySession
    | _ => disabled
  | .retry k =>
    match c.worker.loop.phase, c.worker.stack, c.worker.active, c.timers[k]? with
    | .handling _, [], [], some times =>
      .ok ({ c with timers := c.timers.eraseIdx k }.connectTo true (times - 1))
    | _, _, _, _ => disabled
  | .connectTo retry times =>
    if c.worker.userTop then .ok (c.connectTo retry times) else disabled
  | .send m =>
    if c.worker.userTop then
      match m.buffer? with
      | some blocks =>
        if c.connected then c.perform .success .addressLast (.append blocks) else .ok c
      | none => .ok c
    else
      disabled
  | .close => if c.worker.userTop then c.perform .success .addressLast .close else disabled
  | .ask thread =>
    if c.asked thread = .no then
      if c.worker.loop.phase = .idle then
        .ok { c with asked := Function.update c.asked thread (.answered false) }
      else
        { c with asked := Function.update c.asked thread .waiting }.post (.runInCycle false .user)
          (.connected thread)
    else
      disabled
  | .answer thread =>
    match c.asked thread with
    | .answered _ => .ok { c with asked := Function.update c.asked thread .no }
    | _ => disabled
  | .connectFrom thread retry times =>
    if c.asked thread = .answered false then
      { c with asked := Function.update c.asked thread .no }.post (.queueInCycle false .user)
        (.connectTo retry times)
    else
      disabled
  | .sendFrom thread m =>
    match c.asked thread, m.buffer? with
    | .answered true, some blocks =>
      { c with asked := Function.update c.asked thread .no }.post (.runInCycle false .user)
        (.append blocks)
    | _, _ => disabled
  | .closeFrom => c.post (.runInCycle false .user) .close

/-- Something still points to the session: the client, the user, a task or a function that runs.
The task of `ConnectTo` does not. -/
def referenced (c : Client) (i : ℕ) : Bool :=
  c.session == some i || (c.worker.sessions i).held ||
    ((c.worker.loop.functions ++ c.worker.loop.pending).map Queued.task ++ c.called).any
      (·.keeps == some i) ||
    c.worker.stack.any fun f => f != .establish i && f.keeps == some i

/-- A session is destroyed that is not disconnected. -/
def aborts (c : Client) (i : ℕ) : Bool :=
  !c.referenced i && (c.worker.sessions i).state != .disconnected

def step (c : Client) (l : ClientLabel) : Except ClientHalt Client :=
  match c.act l with
  | .ok c' =>
    match (List.range c'.made).find? c'.aborts with
    | some i => .error (.destructor i)
    | none => .ok c'
  | .error h => .error h

/-- What should hold of a step, up to the destructors: the session the client lets go of is
disconnected, and the peer address is not used after it has been moved away. -/
def Spares (c : Client) : Except ClientHalt Client → Prop
  | .ok c' => ∀ i, c.session = some i → c'.session ≠ some i →
      (c.worker.sessions i).state = .disconnected
  | .error h => h ≠ .movedAddress

/-- Every step of the run spares the session of the client. -/
def NeverDiscards (ls : List ClientLabel) : Prop :=
  Meets step (fun c l => c.Spares (c.act l)) init ls

/-- A session is only made while the client holds none, and from an address that is still there. -/
def Vacant (c : Client) : ClientLabel → Prop
  | .task errno order =>
    match c.next, errno.branch with
    | some (.connectTo _ _), .established => order = .addressLast ∧ c.session = none
    | _, _ => True
  | _ => True

/-- When a `HandleClose` ends, the session the client holds has not been set back by `Shutdown`, and
has been closed. -/
def StaysClosed (c : Client) : ClientLabel → Prop
  | .closed => ∀ i stack j, c.worker.stack = .closed i :: stack → c.session = some j →
    (c.worker.sessions j).state = .disconnected
  | _ => True

/-- The calls of `Shutdown` on other threads set the state of sessions that are still open. -/
def Prompt (c : Client) : ClientLabel → Prop
  | .worker l => c.worker.Prompt l
  | _ => True

/-! ## What a step does -/

/-- What a step can do, up to the destructors. -/
inductive Move (c : Client) : ClientLabel → Client → Prop
  /-- The worker goes on, and the client holds what it held. -/
  | worker {l : ClientLabel} {k : WorkerLabel} {c' : Client} (hl : l = .worker k ∨ k = .timer)
      (hk : c.passes k = true)
      (hacts : Worker.Acts c.worker k c.worker c'.worker) (hsession : c'.session = c.session)
      (hmade : c'.made = c.made) : Move c l c'
  | establish {i j : ℕ} {stack : List Frame} (hstack : c.worker.stack = .establish j :: stack)
      (hsession : c.session = some i) (hstate : (c.worker.sessions i).state = .connecting) :
      Move c .establish { c with
        worker := ({ c.worker with stack }.modify i (Session.setState · .connected)).enter
          [.user, .established i] }
  | closed {i : ℕ} {stack : List Frame} (hstack : c.worker.stack = .closed i :: stack) :
      Move c .closed (destroySession { c with
        worker := { c.worker with stack }.modify i fun s => { s with registered := false } })
  | newSession {errno : ConnectErrno} {retry : Bool} {times : ℤ} {loop : Loop Task}
      (hnext : c.next = some (.connectTo retry times)) (herrno : errno.branch = .established)
      (hs : Loop.Step c.worker.loop .start loop) :
      Move c (.task errno .addressLast) { c with worker := { c.worker with loop } }.newSession

/-- What a step answers. -/
inductive Answer (c : Client) (l : ClientLabel) : Except ClientHalt Client → Prop
  | halt {h : ClientHalt} (hne : h ≠ .movedAddress ∧ ∀ i, h ≠ .destructor i) :
      Answer c l (.error h)
  | moved (hc : ¬ c.Vacant l) : Answer c l (.error .movedAddress)
  | move {c' : Client} (hm : Move c l c') : Answer c l (.ok c')

variable {c c' : Client} {l : ClientLabel} {i : ℕ} {f : Session → Session} {task : ClientTask}
  {k : WorkerLabel}

theorem Answer.disabled : Answer c l Client.disabled := .halt (by simp)

/-- The client lets the worker go on. -/
theorem Answer.acts (hacts : Worker.Acts c.worker .timer c.worker c'.worker)
    (hsession : c'.session = c.session) (hmade : c'.made = c.made) : Answer c l (.ok c') :=
  .move (.worker (.inr rfl) rfl hacts hsession hmade)

theorem Answer.quiet (hworker : c'.worker = c.worker) (hsession : c'.session = c.session)
    (hmade : c'.made = c.made) : Answer c l (.ok c') :=
  .acts (by rw [hworker]; exact .refl _) hsession hmade

/-- The worker is asked, after some acts. -/
theorem Answer.lift {r : Except Halt Worker} (hsession : c'.session = c.session)
    (hmade : c'.made = c.made)
    (hr : ∀ worker, r = .ok worker → Worker.Acts c.worker .timer c.worker worker) :
    Answer c l (c'.lift r) := by
  cases r with
  | ok worker => exact .acts (hr worker rfl) hsession hmade
  | error h => exact .halt (by simp)

/-- A closure is queued on another thread. -/
theorem Answer.post {k : LoopLabel Task} (hworker : c'.worker = c.worker)
    (hsession : c'.session = c.session) (hmade : c'.made = c.made)
    (hk : ∀ i, k.pushes ≠ some (.written i)) : Answer c l (c'.post k task) := by
  unfold Client.post
  rcases c'.worker.stepLoop_cases k with ⟨r, hr⟩ | ⟨loop, hs, hok⟩
  · rw [hr]
    exact .halt (by simp)
  · rw [hok]
    rw [hworker] at hs
    refine .acts (Worker.Act.acts ?_) hsession hmade
    simpa [record, hworker] using Worker.Act.loop hs hk

theorem Answer.connectTo {retry : Bool} {times : ℤ} (hworker : c'.worker = c.worker)
    (hsession : c'.session = c.session) (hmade : c'.made = c.made) :
    Answer c l (.ok (c'.connectTo retry times)) := by
  unfold Client.connectTo
  split
  · exact .quiet hworker hsession hmade
  · have hact : Worker.Act c.worker .timer c.worker (c.worker.queue .user) := .queue (by simp)
    refine .acts ?_ hsession hmade
    simpa [queue, record, hworker] using hact.acts

/-- A closure that is not the one of `ConnectTo` is called, after some acts. -/
theorem Answer.perform {errno : ConnectErrno} {order : ArgumentOrder}
    (hacts : Worker.Acts c.worker .timer c.worker c'.worker) (hsession : c'.session = c.session)
    (hmade : c'.made = c.made)
    (hnew : ∀ retry times, task = .connectTo retry times → errno.branch = .established →
      Answer c l (if order = .addressLast then .ok c'.newSession else .error .movedAddress)) :
    Answer c l (c'.perform errno order task) := by
  cases task with
  | connected thread => exact .acts hacts hsession hmade
  | connectTo retry times =>
      simp only [Client.perform]
      split
      · next h => exact hnew retry times rfl h
      · split <;> exact .acts hacts hsession hmade
      · exact .acts hacts hsession hmade
  | append blocks | close =>
      simp only [Client.perform]
      split
      · exact .lift hsession hmade fun _ hw => hacts.trans (Worker.call_acts hw)
      · exact .acts hacts hsession hmade

/-- **What a step does.** -/
theorem act_answer (c : Client) (l : ClientLabel) : Answer c l (c.act l) := by
  cases l <;> simp only [act]
  case worker k =>
    split
    · next hk =>
        split
        · next worker hs =>
            refine .move
              (.worker (.inl rfl) hk ?_ (c.follow_session worker k) (c.follow_made worker k))
            rw [follow_worker]
            exact Worker.step_acts hs
        · exact .halt (by simp)
    · exact .disabled
  case task errno order =>
    split
    · next task hnext =>
        rcases c.worker.stepLoop_cases .start with ⟨r, hr⟩ | ⟨loop, hs, hok⟩
        · rw [hr]
          exact .halt (by simp)
        · rw [hok]
          have hact : Worker.Act c.worker .timer c.worker { c.worker with loop } :=
            .loop hs (by simp [LoopLabel.pushes])
          refine .perform hact.acts rfl rfl fun retry times htask herrno => ?_
          subst htask
          cases order with
          | addressLast => exact .move (.newSession hnext herrno hs)
          | addressFirst => exact .moved (by simp [Vacant, hnext, herrno])
    · exact .disabled
  case establish =>
    split
    · next j stack i hstack hsession =>
        unfold Worker.connectEstablished
        split
        · next hstate => exact .move (.establish hstack hsession hstate)
        · exact .halt (by simp)
    · exact .halt (by simp)
    · exact .disabled
  case closed =>
    split
    · next hstack => exact .move (.closed hstack)
    · exact .disabled
  case retry k =>
    split
    · exact .connectTo rfl rfl rfl
    · exact .disabled
  case connectTo retry times =>
    split
    · exact .connectTo rfl rfl rfl
    · exact .disabled
  case send m =>
    split
    · split
      · split
        · exact .perform (.refl _) rfl rfl (by simp)
        · exact .quiet rfl rfl rfl
      · exact .quiet rfl rfl rfl
    · exact .disabled
  case close =>
    split
    · exact .perform (.refl _) rfl rfl (by simp)
    · exact .disabled
  case ask thread =>
    split
    · split
      · exact .quiet rfl rfl rfl
      · exact .post rfl rfl rfl (by simp [LoopLabel.pushes])
    · exact .disabled
  case answer thread =>
    split
    · exact .quiet rfl rfl rfl
    · exact .disabled
  case connectFrom thread retry times =>
    split
    · exact .post rfl rfl rfl (by simp [LoopLabel.pushes])
    · exact .disabled
  case sendFrom thread m =>
    split
    · exact .post rfl rfl rfl (by simp [LoopLabel.pushes])
    · exact .disabled
  case closeFrom => exact .post rfl rfl rfl (by simp [LoopLabel.pushes])

/-! ## The invariant -/

/-- The sessions whose `HandleClose` is in its connect callback. -/
def closing (stack : List Frame) : List ℕ :=
  stack.filterMap fun
    | .closed i => some i
    | _ => none

theorem closing_plain {f : Frame} (hf : f.plain = true) (stack : List Frame) :
    closing (f :: stack) = closing stack := by
  cases f <;> first | rfl | cases hf

theorem closing_closed (i : ℕ) (stack : List Frame) :
    closing (.closed i :: stack) = i :: closing stack := rfl

theorem state_modify {w : Worker}
    (hf : (f (w.sessions i)).state = (w.sessions i).state) (j : ℕ) :
    ((w.modify i f).sessions j).state = (w.sessions j).state := by
  by_cases hj : j = i
  · subst hj
    simpa using hf
  · rw [w.modify_other hj]

/-- A session the client holds is disconnected only while its `HandleClose` is on the stack. -/
structure Holding (session : Option ℕ) (made : ℕ) (w : Worker) : Prop where
  order : w.loop.InOrder
  held : ∀ i, session = some i → i < made
  closing : ∀ i, session = some i → (w.sessions i).state = .disconnected → .closed i ∈ w.stack

theorem holding_init : Holding none 0 Worker.init where
  order := Loop.inOrder_init
  held _ h := by cases h
  closing _ h := by cases h

namespace Holding

variable {session : Option ℕ} {made : ℕ} {w w' : Worker}

/-- A change that closes no session and ends no `HandleClose`. -/
theorem change (h : Holding session made w) (horder : w'.loop.InOrder)
    (hstack : ∀ i, .closed i ∈ w.stack → .closed i ∈ w'.stack)
    (hstate : ∀ i, (w'.sessions i).state = .disconnected → (w.sessions i).state = .disconnected) :
    Holding session made w' where
  order := horder
  held := h.held
  closing i hi hdis := hstack i (h.closing i hi (hstate i hdis))

theorem modify (h : Holding session made w)
    (hf : (f (w.sessions i)).state = .disconnected → (w.sessions i).state = .disconnected) :
    Holding session made (w.modify i f) := by
  refine h.change h.order (fun _ => id) fun j hj => ?_
  by_cases hji : j = i
  · subst hji
    exact hf (by simpa using hj)
  · rwa [w.modify_other hji] at hj

/-- `HandleClose`, up to the connect callback. -/
theorem close (h : Holding session made w) (i : ℕ) :
    Holding session made ((w.modify i Session.close).enter [.user, .closed i]) where
  order := h.order
  held := h.held
  closing j hj hdis := by
    by_cases hji : j = i
    · simp [Worker.enter, hji]
    · simp only [Worker.enter, w.modify_other hji] at hdis
      exact List.mem_append_right _ (h.closing j hj hdis)

/-- A step of the worker that the client leaves to it. -/
theorem act (h : Holding session made w) {w₀ : Worker}
    (hresume : k = .resume → ∀ i stack, w₀.stack ≠ .closed i :: stack)
    (ha : Worker.Act w₀ k w w') : Holding session made w' := by
  have horder : w'.loop.InOrder := Worker.act_inOrder ha h.order
  cases ha with
  | settle =>
      refine h.change horder (fun i => ?_) fun i => ?_ <;> unfold Worker.settle <;> split <;>
        exact id
  | user | called htied | establish i =>
      exact h.change horder (fun _ => List.mem_append_right _) fun _ => id
  | next hstack => exact h.change horder (fun i hi => by simpa [hstack] using hi) fun _ => id
  | leave hstack hf =>
      refine h.change horder (fun i hi => ?_) fun _ => id
      rw [hstack] at hi
      rcases List.mem_cons.mp hi with rfl | hi
      · cases hf
      · exact hi
  | manage hf => exact h.modify (by rw [hf.state]; exact id)
  | reading hf => exact h.modify (by rw [hf]; exact id)
  | @connect i _ hl hstack hstate =>
      have hset : Holding session made (w.modify i (Session.setState · .connected)) :=
        h.modify fun hdis => by cases hdis
      exact hset.change horder (fun _ => List.mem_append_right _) fun _ => id
  | @connected i stack hl hw hstack =>
      have hpop : Holding session made { w with stack } :=
        h.change h.order (fun j hj => by simpa [hstack] using hj) fun _ => id
      exact hpop.modify (i := i) id
  | shutdown hstate hf => exact h.modify fun hdis => by cases hf.state.symm.trans hdis
  | set hl hw htested => exact h.modify fun hdis => by cases hdis
  | close hopen => exact h.close _
  | closed hl hw hstack => exact absurd (hw ▸ hstack) (hresume hl _ _)
  | @begin i chunks hsend hsame hstack =>
      have happend : Holding session made (w.modify i (Session.append · chunks)) := h.modify id
      exact happend.modify (f := (Session.setWrite · true)) id
  | append chunks hsize => exact h.modify id
  | @written i accept hwrites hw =>
      have hwrite : Holding session made (w.modify i (Session.write · accept)) := h.modify id
      unfold Worker.written at horder ⊢
      split at horder
      · next hsize =>
          rw [if_pos hsize]
          have hclear := hwrite.modify (i := i) (f := (Session.setWrite · false)) id
          exact hclear.change horder (fun _ => id) fun _ => id
      · next hsize =>
          rw [if_neg hsize]
          exact hwrite
  | _ => exact h.change horder (fun _ => id) fun _ => id

end Holding

/-- A step of the worker that is taken as it is does not end a `HandleClose`, and is not the one the
client takes for it. -/
theorem ne_of_passes (hk : c.passes k = true) (hl : k = .resume) (i : ℕ)
    (stack : List Frame) :
    c.worker.stack ≠ .closed i :: stack ∧ c.worker.stack ≠ .establish i :: stack := by
  subst hl
  constructor <;> intro hstack <;> simp [passes, hstack] at hk

theorem Move.holding (hm : Move c l c') (h : Holding c.session c.made c.worker) :
    Holding c'.session c'.made c'.worker := by
  cases hm with
  | @worker _ k _ hl hk hacts hsession hmade =>
      rw [hsession, hmade]
      exact hacts.preserves (P := Holding c.session c.made)
        (fun _ _ ha hv => hv.act (fun heq i stack => (ne_of_passes hk heq i stack).1) ha) h
  | @establish i j stack hstack hsession hstate =>
      have hpop : Holding c.session c.made { c.worker with stack } :=
        h.change h.order (fun k hk => by simpa [hstack] using hk) fun _ => id
      have hset := hpop.modify (i := i) (f := (Session.setState · .connected)) fun hdis => by
        cases hdis
      exact hset.change h.order (fun _ => List.mem_append_right _) fun _ => id
  | closed hstack => exact ⟨h.order, fun _ hi => (by cases hi), fun _ hi => (by cases hi)⟩
  | @newSession errno retry times loop hnext herrno hs =>
      refine ⟨h.order.step hs, by simp, fun i hi hdis => ?_⟩
      cases hi
      simp [newSession_state] at hdis

/-- All sessions but the one the client holds have been closed, and that one has not, or its
`HandleClose` is on the stack. -/
structure Tidy (session : Option ℕ) (made : ℕ) (w : Worker) : Prop where
  order : w.loop.InOrder
  held : ∀ i, session = some i → i < made
  rest : ∀ i < made, session ≠ some i → (w.sessions i).state = .disconnected
  fresh : ∀ i, made ≤ i → (w.sessions i).state = .connecting
  frames : closing w.stack =
    session.toList.filter fun i => (w.sessions i).state = .disconnected

theorem tidy_init : Tidy none 0 Worker.init where
  order := Loop.inOrder_init
  held _ h := by cases h
  rest _ h := absurd h (Nat.not_lt_zero _)
  fresh _ _ := rfl
  frames := rfl

namespace Tidy

variable {session : Option ℕ} {made : ℕ} {w w' : Worker}

/-- A session that can be closed is the one the client holds. -/
theorem session_eq (h : Tidy session made w)
    (hopen : (w.sessions i).state = .connected ∨ (w.sessions i).state = .disconnecting) :
    session = some i := by
  have hlt : i < made := by
    by_contra hge
    have hfresh := h.fresh i (Nat.le_of_not_lt hge)
    rcases hopen with hopen | hopen <;> cases hopen.symm.trans hfresh
  by_contra hne
  have hrest := h.rest i hlt hne
  rcases hopen with hopen | hopen <;> cases hopen.symm.trans hrest

/-- A change that opens no new session and closes none. -/
theorem change (h : Tidy session made w) (horder : w'.loop.InOrder)
    (hframes : closing w'.stack = closing w.stack)
    (hclosed : ∀ i, (w'.sessions i).state = .disconnected ↔ (w.sessions i).state = .disconnected)
    (hfresh : ∀ i, made ≤ i → (w'.sessions i).state = (w.sessions i).state) :
    Tidy session made w' where
  order := horder
  held := h.held
  rest i hi hne := (hclosed i).mpr (h.rest i hi hne)
  fresh i hi := (hfresh i hi).trans (h.fresh i hi)
  frames := by simpa [hframes, hclosed] using h.frames

/-- A change that leaves the state of every session. -/
theorem same (h : Tidy session made w) (horder : w'.loop.InOrder)
    (hframes : closing w'.stack = closing w.stack)
    (hstate : ∀ i, (w'.sessions i).state = (w.sessions i).state) : Tidy session made w' :=
  h.change horder hframes (fun i => by rw [hstate]) fun i _ => hstate i

theorem modify (h : Tidy session made w)
    (hf : (f (w.sessions i)).state = (w.sessions i).state) : Tidy session made (w.modify i f) :=
  h.same h.order rfl (state_modify hf)

/-- `HandleClose`, up to the connect callback. -/
theorem close (h : Tidy session made w)
    (hopen : (w.sessions i).state = .connected ∨ (w.sessions i).state = .disconnecting) :
    Tidy session made ((w.modify i Session.close).enter [.user, .closed i]) := by
  have hsession := h.session_eq hopen
  subst hsession
  have hne : (w.sessions i).state ≠ .disconnected := by
    rcases hopen with hopen | hopen <;> simp [hopen]
  refine ⟨h.order, h.held, fun j hj hji => ?_, fun j hj => ?_, ?_⟩
  · have hji : j ≠ i := fun heq => hji (heq ▸ rfl)
    simpa [Worker.enter, w.modify_other hji] using h.rest j hj (by simpa using hji.symm)
  · have hji : j ≠ i := by
      have := h.held i rfl
      omega
    simpa [Worker.enter, w.modify_other hji] using h.fresh j hj
  · have hnil : closing w.stack = [] := by simpa [hne] using h.frames
    change i :: closing w.stack = _
    simp [Worker.enter, hnil]

/-- `Shutdown` of a session that is open. -/
theorem disconnecting (h : Tidy session made w)
    (hopen : (w.sessions i).state = .connected ∨ (w.sessions i).state = .disconnecting)
    (hf : (f (w.sessions i)).state = .disconnecting) : Tidy session made (w.modify i f) := by
  have hlt := h.held i (h.session_eq hopen)
  refine h.change h.order rfl (fun j => ?_) fun j hj => ?_
  · by_cases hji : j = i
    · subst hji
      rcases hopen with hopen | hopen <;> simp [hf, hopen]
    · rw [w.modify_other hji]
  · have hji : j ≠ i := by omega
    rw [w.modify_other hji]

/-- A step of the worker that the client leaves to it. -/
theorem act (h : Tidy session made w) {w₀ : Worker}
    (hprompt : w₀.Prompt k)
    (hresume : k = .resume → ∀ i stack,
      w₀.stack ≠ .closed i :: stack ∧ w₀.stack ≠ .establish i :: stack)
    (ha : Worker.Act w₀ k w w') : Tidy session made w' := by
  have horder : w'.loop.InOrder := Worker.act_inOrder ha h.order
  cases ha with
  | settle =>
      refine h.same horder ?_ fun i => ?_ <;> unfold Worker.settle <;> split <;> rfl
  | next hstack => exact h.same horder (by rw [hstack]; rfl) fun _ => rfl
  | leave hstack hf => exact h.same horder (by rw [hstack, closing_plain hf]) fun _ => rfl
  | manage hf => exact h.modify hf.state
  | reading hf => exact h.modify (by rw [hf]; rfl)
  | connect hl hstack hstate => exact absurd hstack (hresume hl _ _).2
  | @connected i stack hl hw hstack =>
      have hpop : Tidy session made { w with stack } :=
        h.same h.order (by rw [hstack]; rfl) fun _ => rfl
      exact hpop.modify (i := i) rfl
  | shutdown hstate hf => exact h.disconnecting (Or.inl hstate) hf.state
  | set hl hw htested =>
      subst hl hw
      exact h.disconnecting (hprompt htested) rfl
  | close hopen => exact h.close hopen
  | closed hl hw hstack => exact absurd (hw ▸ hstack) (hresume hl _ _).1
  | begin chunks hsend hsame hstack => exact (h.modify rfl).modify (by rfl)
  | append chunks hsize => exact h.modify rfl
  | @written i accept hwrites hw =>
      have hwrite : Tidy session made (w.modify i (Session.write · accept)) := h.modify rfl
      unfold Worker.written at horder ⊢
      split at horder
      · next hsize =>
          rw [if_pos hsize]
          have hclear := hwrite.modify (i := i) (f := (Session.setWrite · false)) rfl
          exact hclear.same horder rfl fun _ => rfl
      · next hsize =>
          rw [if_neg hsize]
          exact hwrite
  | _ => exact h.same horder rfl fun _ => rfl

/-- `HandleClose`, after the connect callback: it is the one of the session the client holds. -/
theorem closed (h : Tidy session made w) {stack : List Frame}
    (hstack : w.stack = .closed i :: stack) :
    session = some i ∧ (w.sessions i).state = .disconnected ∧ closing stack = [] := by
  have hframes := h.frames
  rw [hstack, closing_closed] at hframes
  cases session with
  | none => cases hframes
  | some j =>
      by_cases hj : (w.sessions j).state = .disconnected
      · simp only [Option.toList_some, hj, List.filter_cons_of_pos, decide_true,
          List.filter_nil, List.cons.injEq] at hframes
        obtain ⟨rfl, hnil⟩ := hframes
        exact ⟨rfl, hj, hnil⟩
      · simp [hj] at hframes

end Tidy

/-- A move that meets the conditions keeps the invariant. -/
theorem Move.tidy (hm : Move c l c') (hc : c.Vacant l) (hprompt : c.Prompt l)
    (h : Tidy c.session c.made c.worker) : Tidy c'.session c'.made c'.worker := by
  cases hm with
  | @worker _ k _ hl hk hacts hsession hmade =>
      have hworker : c.worker.Prompt k := by
        rcases hl with rfl | rfl
        · exact hprompt
        · trivial
      rw [hsession, hmade]
      exact hacts.preserves (P := Tidy c.session c.made)
        (fun _ _ ha hv => hv.act hworker (ne_of_passes hk) ha) h
  | @establish i j stack hstack hsession hstate =>
      have hlt := h.held i hsession
      refine h.change h.order (by rw [hstack]; rfl) (fun k => ?_) fun k hk => ?_
      · by_cases hki : k = i
        · subst hki
          simp [Worker.enter, Session.setState, hstate]
        · simp [Worker.enter, Worker.modify_other _ hki]
      · have hki : k ≠ i := by omega
        simp [Worker.enter, Worker.modify_other _ hki]
  | @closed i stack hstack =>
      obtain ⟨hsession, hstate, hnil⟩ := h.closed hstack
      have hsame : ∀ j, ((({ c.worker with stack }.modify i
          fun s => { s with registered := false }).sessions j).state) =
          (c.worker.sessions j).state := state_modify rfl
      refine ⟨h.order, by simp [destroySession, reset], fun j hj _ => ?_, fun j hj => ?_, ?_⟩
      · refine (hsame j).trans ?_
        by_cases hji : j = i
        · exact hji ▸ hstate
        · exact h.rest j hj (by simpa [hsession] using Ne.symm hji)
      · exact (hsame j).trans (h.fresh j hj)
      · simpa [destroySession, reset] using hnil
  | @newSession errno retry times loop hnext herrno hs =>
      have hnone : c.session = none := (by simpa [Vacant, hnext, herrno] using hc)
      have hnil : closing c.worker.stack = [] := by simpa [hnone] using h.frames
      refine ⟨h.order.step hs, by simp, fun j hj hne => ?_, fun j hj => ?_, ?_⟩
      · have hne : j ≠ c.made := by simpa using Ne.symm hne
        have hlt : j < c.made + 1 := hj
        rw [newSession_state, if_neg hne]
        exact h.rest j (by omega) (by simp [hnone])
      · have hge : c.made + 1 ≤ j := hj
        rw [newSession_state, if_neg (show j ≠ c.made by omega)]
        exact h.fresh j (by omega)
      · change closing c.worker.stack = _
        simp [hnil, newSession_state]

/-- A move lets go of a session only when it is disconnected. -/
theorem Move.spares (hm : Move c l c') (hc : c.Vacant l) (hclosed : c.StaysClosed l)
    (hi : c.session = some i) (hne : c'.session ≠ some i) :
    (c.worker.sessions i).state = .disconnected := by
  cases hm with
  | worker hl hk hacts hsession hmade => exact absurd (hsession.trans hi) hne
  | establish hstack hsession hstate => exact absurd hi hne
  | closed hstack => exact hclosed _ _ i hstack hi
  | newSession hnext herrno hs =>
      have hnone : c.session = none := by simpa [Vacant, hnext, herrno] using hc
      cases hnone.symm.trans hi

/-- No destructor fails. -/
theorem Tidy.find_aborts (h : Tidy c.session c.made c.worker) :
    (List.range c.made).find? c.aborts = none := by
  rw [List.find?_eq_none]
  intro i hi
  by_cases hsession : c.session = some i
  · simp [aborts, referenced, hsession]
  · simp [aborts, h.rest i (List.mem_range.mp hi) hsession]

theorem next_eq_some (h : c.next = some task) :
    c.worker.stack = [] ∧ ∃ q functions, c.worker.loop.functions = q :: functions := by
  unfold next at h
  split at h
  · next q functions hstack hfun => exact ⟨hstack, q, functions, hfun⟩
  · cases h

/-- The condition fails at a task that connects, from an address that has been moved away or while
the client holds a session. -/
theorem of_not_vacant (hc : ¬ c.Vacant l) :
    ∃ errno order retry times, l = .task errno order ∧ errno.branch = .established ∧
      c.next = some (.connectTo retry times) ∧
      (order = .addressLast → ∃ i, c.session = some i) := by
  unfold Vacant at hc
  split at hc
  · next errno order =>
      split at hc
      · next retry times hnext herrno =>
          refine ⟨errno, order, retry, times, rfl, herrno, hnext, fun horder => ?_⟩
          exact Option.ne_none_iff_exists'.mp fun hnone => hc ⟨horder, hnone⟩
      · exact absurd trivial hc
  · exact absurd trivial hc

/-- Such a task throws away the session, which is not disconnected: no `HandleClose` is on the
stack when a task is called. -/
theorem not_spares_task (h : Holding c.session c.made c.worker) (hc : ¬ c.Vacant l) :
    ¬ c.Spares (c.act l) := by
  obtain ⟨errno, order, retry, times, rfl, herrno, hnext, hheld⟩ := of_not_vacant hc
  obtain ⟨hstack, q, functions, hfun⟩ := next_eq_some hnext
  obtain ⟨loop, hloop⟩ := h.order.exists_start hfun
  have hact : c.act (.task errno order) =
      if order = .addressLast then .ok { c with worker := { c.worker with loop } }.newSession
      else .error .movedAddress := by
    simp [act, hnext, Worker.stepLoop, hloop, perform, herrno]
  rw [hact]
  split
  · next horder =>
      obtain ⟨i, hi⟩ := hheld horder
      have hlt := h.held i hi
      intro hs
      have hmem := h.closing i hi (hs i hi (by simp; omega))
      simp [hstack] at hmem
  · exact fun hs => hs rfl

/-- The end of a `HandleClose` drops a session that is not disconnected. -/
theorem not_spares_closed (hc : ¬ c.StaysClosed l) : ¬ c.Spares (c.act l) := by
  unfold StaysClosed at hc
  split at hc
  · simp only [not_forall] at hc
    obtain ⟨i, stack, j, hstack, hj, hstate⟩ := hc
    intro hs
    simp only [act, hstack] at hs
    exact hstate (hs j hj (by simp [destroySession, reset]))
  · exact absurd trivial hc

theorem Holding.spares_iff (h : Holding c.session c.made c.worker) :
    c.Spares (c.act l) ↔ c.Vacant l ∧ c.StaysClosed l := by
  constructor
  · intro hs
    exact ⟨by_contra fun hc => not_spares_task h hc hs, by_contra fun hc => not_spares_closed hc hs⟩
  · rintro ⟨hc, hclosed⟩
    have hanswer := c.act_answer l
    generalize c.act l = r at hanswer
    cases hanswer with
    | halt hne => exact hne.1
    | moved hnot => exact absurd hc hnot
    | move hm => exact fun i hi hne => hm.spares hc hclosed hi hne

theorem step_eq_ok (hs : c.step l = .ok c') : c.act l = .ok c' := by
  unfold step at hs
  split at hs
  · next c'' hact =>
      split at hs <;> cases hs
      exact hact
  · cases hs

theorem step_holding (h : Holding c.session c.made c.worker) (hs : c.step l = .ok c') :
    Holding c'.session c'.made c'.worker := by
  have hact := step_eq_ok hs
  have hanswer := c.act_answer l
  rw [hact] at hanswer
  cases hanswer with
  | move hm => exact hm.holding h

theorem step_tidy (h : Tidy c.session c.made c.worker) (hc : c.Vacant l) (hprompt : c.Prompt l)
    (hs : c.step l = .ok c') : Tidy c'.session c'.made c'.worker := by
  have hact := step_eq_ok hs
  have hanswer := c.act_answer l
  rw [hact] at hanswer
  cases hanswer with
  | move hm => exact hm.tidy hc hprompt h

/-- In a tidy state the `HandleClose` that ends is the one of the session the client holds. -/
theorem Tidy.staysClosed (h : Tidy c.session c.made c.worker) (l : ClientLabel) :
    c.StaysClosed l := by
  unfold StaysClosed
  split
  · intro i stack j hstack hj
    obtain ⟨hsession, hstate, -⟩ := h.closed hstack
    cases hsession.symm.trans hj
    exact hstate
  · trivial

/-- From a tidy state a step that meets the conditions ends with no failed destructor. -/
theorem Tidy.step_ne_destructor (h : Tidy c.session c.made c.worker) (hc : c.Vacant l)
    (hprompt : c.Prompt l) (i : ℕ) : c.step l ≠ .error (.destructor i) := by
  have hanswer := c.act_answer l
  unfold step
  generalize c.act l = r at hanswer
  cases hanswer with
  | halt hne => simpa using hne.2 i
  | moved hnot => exact absurd hc hnot
  | move hm => simp [(hm.tidy hc hprompt h).find_aborts]

/-- **When a client never discards a live session.**  In every run, whatever `connect` answers, in
whichever order the arguments of a constructor are evaluated and however the calls are interleaved:
every session the client lets go of is disconnected and no address is used after it has been moved
away, if and only if every task of `ConnectTo` that connects finds no session and asks the address
before it moves it, and no session the client holds is anything but disconnected when a
`HandleClose` ends.

The latter takes a `Shutdown` on another thread whose test and store are far apart.  If there is
none, the first condition is enough, and no destructor of a session fails. -/
theorem neverDiscards_iff (ls : List ClientLabel) :
    (NeverDiscards ls ↔ Meets step (fun c l => c.Vacant l ∧ c.StaysClosed l) init ls) ∧
    (Meets step (fun c l => c.Vacant l ∧ c.Prompt l) init ls →
      NeverDiscards ls ∧ ∀ ks i, ks <+: ls → run step init ks ≠ .error (.destructor i)) := by
  have hiff : NeverDiscards ls ↔ Meets step (fun c l => c.Vacant l ∧ c.StaysClosed l) init ls :=
    meets_congr (fun c => Holding c.session c.made c.worker) (fun _ _ h => h.spares_iff)
      (fun _ _ _ h _ hs => step_holding h hs) holding_init
  refine ⟨hiff, fun hm => ⟨hiff.mpr ?_, fun ks i hks herr => ?_⟩⟩
  · exact hm.imp (fun c => Tidy c.session c.made c.worker) (fun _ l h hc => ⟨hc.1, h.staysClosed l⟩)
      (fun _ _ _ h hc hs => step_tidy h hc.1 hc.2 hs) tidy_init
  · obtain ⟨ks', l, c, hpre, hrun, hl⟩ := exists_of_run_error herr
    have hks' := hm.of_isPrefix (((List.prefix_append ks' [l]).trans hpre).trans hks)
    have htidy : Tidy c.session c.made c.worker :=
      invariant (fun c => Tidy c.session c.made c.worker)
        (fun _ _ _ h hc hs => step_tidy h hc.1 hc.2 hs) tidy_init hks' hrun
    obtain ⟨hc, hprompt⟩ := hm.cond_of_run (hpre.trans hks) hrun
    exact htidy.step_ne_destructor hc hprompt i hl

/-- `ConnectTo` is called twice before the cycle runs, and the first task connects. -/
def connectTwice : List ClientLabel :=
  [.connectTo true 30, .connectTo true 30, .worker (.cycle .exec), .worker (.cycle .loop),
    .worker (.poll false []), .worker (.cycle .swap), .task .success .addressLast,
    .worker .resume, .establish, .worker .resume, .worker .resume]

/-- The second task connects as well.  It puts a new session in the place of the first one, which
is connected, and the destructor of that one fails. -/
theorem second_connectTo_destroys :
    ∃ c, run step init connectTwice = .ok c ∧
      (c.session, (c.worker.sessions 0).state, stopped (c.step (.task .success .addressLast))) =
        (some 0, .connected, some (.destructor 0)) :=
  map_eq_ok (by decide +kernel)

/-- When the session has been closed before, `ConnectTo` can connect again. -/
example :
    (run step init (connectTwice.tail ++ [.worker (.cycle .loop),
      .worker (.poll false []), .worker .timer, .close, .worker .resume, .closed,
      .connectTo true 30, .worker .resume, .worker (.cycle .swap),
      .task .inprogress .addressLast])).map
        (fun c => (c.session, (c.worker.sessions 0).state, c.made)) =
      .ok (some 1, .disconnected, 2) := by
  decide +kernel

end Client

end Hare.Net
