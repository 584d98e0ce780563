import Mathlib.Logic.Relation
import Hare.Net.Session

/-!
# What a step of a worker is made of

Every step of a worker is a chain of acts: a step of the loop, a task queued, a function
called or left, one change of one session.  Only a few acts matter for what the sessions do:
`ConnectEstablished` and `HandleClose` in their two halves, `Shutdown`, and the write.  What
an act keeps, a step keeps (`Worker.step_preserves`).

An act is taken within a step `l` from a state `w₀`, and the acts that write or register say
which step that is.
-/

namespace Hare.Net

open LabelledRun Io

/-- The functions that neither open nor close a session when they go on. -/
def Frame.plain : Frame → Bool
  | .user | .callback _ _ | .establish _ => true
  | .closed _ | .established _ => false

namespace Session

/-- The sessions agree in their state, their event and their output. -/
structure Alike (s s' : Session) : Prop where
  state : s'.state = s.state
  event : s'.event = s.event
  registered : s'.registered = s.registered
  mask : s'.mask = s.mask
  out : s'.out = s.out
  accepted : s'.accepted = s.accepted
  tested : s'.tested ≠ 0 → s.tested ≠ 0 ∨ s.state = .connected
  closes : s'.closes = s.closes

variable {s s' : Session}

theorem Alike.refl (s : Session) : s.Alike s := ⟨rfl, rfl, rfl, rfl, rfl, rfl, Or.inl, rfl⟩

theorem Alike.promise (h : s.Alike s') (m : Message) : s.Alike (s'.promise m) := by
  unfold Session.promise
  split <;> exact ⟨h.state, h.event, h.registered, h.mask, h.out, h.accepted, h.tested, h.closes⟩

theorem Alike.finishShutdown (h : s.Alike s') : s.Alike s'.finishShutdown := by
  unfold Session.finishShutdown
  split
  · exact h
  · exact ⟨h.state, h.event, h.registered, h.mask, h.out, h.accepted, h.tested, h.closes⟩

theorem Alike.writing (h : s.Alike s') : s'.writing = s.writing := by
  rw [Session.writing, h.event]
  rfl

theorem Alike.size (h : s.Alike s') : s'.size = s.size := by
  rw [Session.size, h.out]
  rfl

end Session

namespace Worker

/-- The step calls the task of `Send` or `Append` of a session with an empty out-buffer. -/
def Sends (w : Worker) (i : ℕ) : WorkerLabel → Prop
  | .start _ =>
    w.stack = [] ∧ (w.sessions i).size = 0 ∧
      ∃ ticket chunks functions, w.loop.functions = ⟨ticket, .send i chunks⟩ :: functions
  | _ => False

/-- The step writes to the socket of a session. -/
def Writes (w : Worker) (i : ℕ) : WorkerLabel → Prop
  | .write _ =>
    (w.sessions i).writing = true ∧ ∃ revents stack, w.stack = .callback i revents :: stack ∧
      revents.read = false ∧ revents.write = true
  | l => w.Sends i l

/-- A call of `Shutdown` on another thread sets the state of a session that is still open. -/
def Prompt (w : Worker) : WorkerLabel → Prop
  | .shutdownSet i => (w.sessions i).tested ≠ 0 →
    (w.sessions i).state = .connected ∨ (w.sessions i).state = .disconnecting
  | _ => True

instance (w : Worker) (l : WorkerLabel) : Decidable (w.Prompt l) := by
  cases l <;> unfold Prompt <;> infer_instance

/-- An act within the step `l` from `w₀`. -/
inductive Act (w₀ : Worker) (l : WorkerLabel) (w : Worker) : Worker → Prop
  | loop {k : LoopLabel Task} {loop : Loop Task} (hs : Loop.Step w.loop k loop)
      (hk : ∀ i, k.pushes ≠ some (.written i)) : Act w₀ l w { w with loop }
  | queue {task : Task} (htask : ∀ i, task ≠ .written i) : Act w₀ l w (w.queue task)
  | active (active : List Active) : Act w₀ l w { w with active }
  /-- The end of `Exec`. -/
  | settle : Act w₀ l w w.settle
  | user : Act w₀ l w (w.enter [.user])
  | called {i : ℕ} {revents : Events} (htied : (w.sessions i).event.tied = true) :
      Act w₀ l w (w.enter [.callback i revents])
  | next {i : ℕ} {revents revents' : Events} {stack : List Frame}
      (hstack : w.stack = .callback i revents :: stack) :
      Act w₀ l w { w with stack := .callback i revents' :: stack }
  | leave {f : Frame} {stack : List Frame} (hstack : w.stack = f :: stack)
      (hf : f.plain = true) : Act w₀ l w { w with stack }
  | manage {i : ℕ} {f : Session → Session} (h : (w.sessions i).Alike (f (w.sessions i))) :
      Act w₀ l w (w.modify i f)
  /-- `StartRead` and `StopRead`. -/
  | reading {i : ℕ} {f : Session → Session} {read reading : Bool}
      (h : f (w.sessions i) = { (w.sessions i).setRead read with reading }) :
      Act w₀ l w (w.modify i f)
  | establish (i : ℕ) : Act w₀ l w (w.enter [.user, .establish i])
  /-- `ConnectEstablished`, up to the connect callback. -/
  | connect {i : ℕ} {stack : List Frame} (hl : l = .resume)
      (hstack : w₀.stack = .establish i :: stack) (hstate : (w.sessions i).state = .connecting) :
      Act w₀ l w ((w.modify i (Session.setState · .connected)).enter [.user, .established i])
  /-- `ConnectEstablished`, after the connect callback. -/
  | connected {i : ℕ} {stack : List Frame} (hl : l = .resume) (hw : w = w₀)
      (hstack : w.stack = .established i :: stack) :
      Act w₀ l w ({ w with stack }.finishConnect i)
  | shutdown {i : ℕ} {f : Session → Session} (hstate : (w.sessions i).state = .connected)
      (h : ((w.sessions i).setState .disconnecting).Alike (f (w.sessions i))) :
      Act w₀ l w (w.modify i f)
  /-- A call of `Shutdown` on another thread sets the state. -/
  | set {i : ℕ} (hl : l = .shutdownSet i) (hw : w = w₀) (htested : (w.sessions i).tested ≠ 0) :
      Act w₀ l w (w.modify i Session.setDisconnecting)
  /-- `HandleClose`, up to the connect callback. -/
  | close {i : ℕ}
      (hopen : (w.sessions i).state = .connected ∨ (w.sessions i).state = .disconnecting) :
      Act w₀ l w ((w.modify i Session.close).enter [.user, .closed i])
  /-- `HandleClose`, after the connect callback. -/
  | closed {i : ℕ} {stack : List Frame} (hl : l = .resume) (hw : w = w₀)
      (hstack : w.stack = .closed i :: stack) :
      Act w₀ l w
        ({ w with stack }.modify i fun s => { s with registered := false, owned := false })
  /-- The task of `Send` and `Append` finds the out-buffer empty. -/
  | begin {i : ℕ} (chunks : List (List UInt8)) (hsend : w₀.Sends i l)
      (hsame : w.sessions i = w₀.sessions i) (hstack : w.stack = []) :
      Act w₀ l w ((w.modify i (Session.append · chunks)).modify i (Session.setWrite · true))
  /-- The task of `Send` and `Append` finds bytes in the out-buffer. -/
  | append {i : ℕ} (chunks : List (List UInt8)) (hsize : (w.sessions i).size ≠ 0) :
      Act w₀ l w (w.modify i (Session.append · chunks))
  | written {i : ℕ} (accept : ℕ) (hwrites : w₀.Writes i l)
      (hw : (w.sessions i).writing = true) : Act w₀ l w (w.written i accept)

/-- A chain of acts. -/
def Acts (w₀ : Worker) (l : WorkerLabel) : Worker → Worker → Prop :=
  Relation.ReflTransGen (Act w₀ l)

variable {w w' w₀ : Worker} {l : WorkerLabel}

theorem Acts.refl (w : Worker) : Acts w₀ l w w := Relation.ReflTransGen.refl

theorem Act.acts (h : Act w₀ l w w') : Acts w₀ l w w' := Relation.ReflTransGen.single h

theorem Acts.trans {w'' : Worker} (h : Acts w₀ l w w') (h' : Acts w₀ l w' w'') :
    Acts w₀ l w w'' :=
  Relation.ReflTransGen.trans h h'

/-- An act, and more acts. -/
theorem Act.then {w'' : Worker} (h : Act w₀ l w w') (h' : Acts w₀ l w' w'') : Acts w₀ l w w'' :=
  h.acts.trans h'

/-! ## The functions of a session -/

theorem handleClose_of_open {i : ℕ}
    (h : (w.sessions i).state = .connected ∨ (w.sessions i).state = .disconnecting) :
    w.handleClose i = .ok ((w.modify i Session.close).enter [.user, .closed i]) := by
  rcases h with h | h <;> simp [handleClose, h]

/-- `HandleClose` returns or its assertion fails. -/
theorem handleClose_cases (w : Worker) (i : ℕ) :
    ((w.sessions i).state = .connected ∨ (w.sessions i).state = .disconnecting) ∧
        w.handleClose i = .ok ((w.modify i Session.close).enter [.user, .closed i]) ∨
      ((w.sessions i).state = .connecting ∨ (w.sessions i).state = .disconnected) ∧
        w.handleClose i = .error (.handleClose i) := by
  cases h : (w.sessions i).state <;> simp [handleClose, h]

theorem handleClose_acts {i : ℕ} (hs : w.handleClose i = .ok w') : Acts w₀ l w w' := by
  rcases w.handleClose_cases i with ⟨hopen, hok⟩ | ⟨-, herr⟩
  · cases hok.symm.trans hs
    exact (Act.close hopen).acts
  · cases herr.symm.trans hs

theorem handleRead_acts {i received : ℕ} (hs : w.handleRead i received = .ok w') :
    Acts w₀ l w w' := by
  unfold handleRead at hs
  split at hs
  · exact handleClose_acts hs
  · cases hs
    exact Act.user.acts

theorem handleWrite_acts {i accept : ℕ} (hwrites : (w.sessions i).writing = true → w₀.Writes i l)
    (hs : w.handleWrite i accept = .ok w') : Acts w₀ l w w' := by
  unfold handleWrite at hs
  split at hs
  · next hw =>
      have hact : Act w₀ l w (w.written i accept) := .written accept (hwrites hw) hw
      split at hs
      · exact hact.then (handleClose_acts hs)
      · cases hs
        exact hact.acts
  · cases hs
    exact .refl w

theorem performSend_acts {i accept : ℕ} {chunks : List (List UInt8)}
    (hsend : (w.sessions i).size = 0 → w₀.Sends i l) (hwrites : w₀.Sends i l → w₀.Writes i l)
    (hsame : w.sessions i = w₀.sessions i) (hstack : w.stack = [])
    (hs : w.performSend i chunks accept = .ok w') : Acts w₀ l w w' := by
  unfold performSend at hs
  split at hs
  · next hsize =>
      exact (Act.begin chunks (hsend hsize) hsame hstack).then
        (handleWrite_acts (fun _ => hwrites (hsend hsize)) hs)
  next hsize =>
    have happend : Act w₀ l w (w.modify i (Session.append · chunks)) := .append chunks hsize
    split at hs
    · split at hs <;> cases hs
      exact happend.then Act.user.acts
    · cases hs
      exact happend.acts

theorem newSession_acts {i : ℕ} (hs : w.newSession i = .ok w') : Acts w₀ l w w' := by
  unfold newSession at hs
  split at hs <;> cases hs
  have howned : Act w₀ l w (w.modify i fun s => { s with owned := true }) :=
    .manage ⟨rfl, rfl, rfl, rfl, rfl, rfl, Or.inl, rfl⟩
  exact howned.then (Act.establish i).acts

theorem call_acts {c : UserCall} (hs : w.call c = .ok w') : Acts w₀ l w w' := by
  cases c with
  | send i m =>
      simp only [call] at hs
      split at hs <;> cases hs
      · have hqueue : Act w₀ l w (w.queue (.send i m.chunks)) := .queue (by simp)
        exact hqueue.then (Act.manage ((Session.Alike.refl _).promise m)).acts
      · exact .refl w
  | shutdown i =>
      simp only [call] at hs
      split at hs <;> cases hs
      · next hstate => exact (Act.shutdown hstate (Session.Alike.refl _).finishShutdown).acts
      · exact .refl w
  | forceClose i =>
      simp only [call] at hs
      split at hs
      · exact handleClose_acts hs
      · exact handleClose_acts hs
      · cases hs
        exact .refl w
  | newSession i =>
      simp only [call] at hs
      split at hs
      · cases hs
      · have hcreated : Act w₀ l w (w.modify i fun s => { s with created := true }) :=
          .manage ⟨rfl, rfl, rfl, rfl, rfl, rfl, Or.inl, rfl⟩
        exact hcreated.then (newSession_acts hs)
  | setHighWaterMark i n | setHighWaterCallback i set =>
      cases hs
      exact (Act.manage ⟨rfl, rfl, rfl, rfl, rfl, rfl, Or.inl, rfl⟩).acts
  | startRead i =>
      cases hs
      by_cases h : (!(w.sessions i).reading || !(w.sessions i).event.events.read) = true
      · exact (Act.reading (if_pos h)).acts
      · refine (Act.manage ?_).acts
        rw [Session.startRead, if_neg h]
        exact .refl _
  | stopRead i =>
      cases hs
      by_cases h : ((w.sessions i).reading || (w.sessions i).event.events.read) = true
      · exact (Act.reading (if_pos h)).acts
      · refine (Act.manage ?_).acts
        rw [Session.stopRead, if_neg h]
        exact .refl _

theorem dispatch_acts (hs : w.dispatch = .ok w') : Acts w₀ l w w' := by
  unfold dispatch at hs
  split at hs
  · next i revents active _ _ _ =>
      simp only at hs
      split at hs <;> cases hs
      · next hcall =>
          refine (Act.active active).then (Act.called ?_).acts
          revert hcall
          simp only [Event.handleEvent]
          split <;> simp_all
      · exact (Act.active active).acts
  · next active _ _ _ =>
      cases hs
      exact (Act.active active).then Act.user.acts
  · cases hs

theorem resume_acts (hs : w.resume = .ok w') : Acts w .resume w w' := by
  unfold resume at hs
  split at hs
  · cases hs
  · next stack hstack => cases hs; exact (Act.leave hstack rfl).acts
  · next i revents stack hstack =>
      split at hs <;> cases hs
      exact (Act.leave hstack rfl).acts
  · next i stack hstack =>
      unfold finishClose at hs
      split at hs <;> cases hs
      exact (Act.closed rfl rfl hstack).acts
  · next i stack hstack =>
      unfold connectEstablished at hs
      split at hs <;> cases hs
      next hstate => exact (Act.leave hstack rfl).then (Act.connect rfl hstack hstate).acts
  · next i stack hstack => cases hs; exact (Act.connected rfl rfl hstack).acts

/-- A loop step that is taken as it is pushes no task of the library. -/
theorem pushes_of_passes {k : LoopLabel Task} {i : ℕ} (hk : w.passes k = true) :
    k.pushes ≠ some (.written i) := by
  cases k with
  | queueInCycle inThread task =>
      have htask : task = .user := by simp_all [passes]
      simp [LoopLabel.pushes, htask]
  | runInCycle inThread task =>
      have htask : task = .user := by simp_all [passes]
      cases inThread <;> simp [LoopLabel.pushes, htask]
  | _ => simp [LoopLabel.pushes]

/-- The task of a worker is called. -/
theorem start_acts {accept : ℕ} {q : Queued Task} {functions : List (Queued Task)}
    {loop : Loop Task} (hstack : w.stack = []) (hfun : w.loop.functions = q :: functions)
    (hs : { w with loop }.perform accept q.task = .ok w') :
    Acts w (.start accept) { w with loop } w' := by
  obtain ⟨ticket, task⟩ := q
  cases task with
  | user | written i => cases hs; exact Act.user.acts
  | newSession i => exact newSession_acts hs
  | send i chunks =>
      exact performSend_acts (fun hsize => ⟨hstack, hsize, _, _, _, hfun⟩) id rfl hstack hs

/-- **What a step is made of.**  Every step that is taken is a chain of acts. -/
theorem step_acts (hs : w.step l = .ok w') : Acts w l w w' := by
  have hcases := w.step_cases l
  generalize w.step l = r at hcases hs
  cases hcases with
  | stop l r => cases hs
  | idle l => cases hs; exact .refl w
  | @cycle k loop hk hloop =>
      have hact : Act w (.cycle k) w { w with loop } := .loop hloop fun _ => pushes_of_passes hk
      cases hs
      split
      · exact hact.then Act.settle.acts
      · exact hact.acts
  | @poll ready active loop hloop =>
      have hact : Act w (.poll ready active) w { w with loop } :=
        .loop hloop (by simp [LoopLabel.pushes])
      cases hs
      exact hact.then (Act.active active).acts
  | dispatch => exact dispatch_acts hs
  | timer => cases hs; exact Act.user.acts
  | start hstack hfun hloop =>
      exact (Act.loop hloop (by simp [LoopLabel.pushes])).then (start_acts hstack hfun hs)
  | read hstack hread => exact (Act.next hstack).then (handleRead_acts hs)
  | write hstack hread hwrite =>
      exact (Act.next hstack).then
        (handleWrite_acts (fun hw => ⟨hw, _, _, hstack, hread, hwrite⟩) hs)
  | close hstack hread hwrite hclosed => exact (Act.next hstack).then (handleClose_acts hs)
  | resume => exact resume_acts hs
  | call huser => exact call_acts hs
  | shutdownCheck hstate =>
      cases hs
      exact (Act.manage ⟨rfl, rfl, rfl, rfl, rfl, rfl, fun _ => Or.inr hstate, rfl⟩).acts
  | shutdownSet htested =>
      cases hs
      exact (Act.set rfl rfl htested).acts
  | shutdownEnd hshutting =>
      cases hs
      refine Act.acts (.manage (.finishShutdown ?_))
      exact ⟨rfl, rfl, rfl, rfl, rfl, rfl, Or.inl, rfl⟩
  | @sendPush i m loop hmem hloop =>
      have hact : Act w (.sendPush i m) w { w with loop } :=
        .loop hloop (by simp [LoopLabel.pushes])
      cases hs
      refine hact.then (Act.acts (.manage (.promise ?_ m)))
      exact ⟨rfl, rfl, rfl, rfl, rfl, rfl, Or.inl, rfl⟩
  | @newSession i loop hloop =>
      have hact : Act w (.newSession i) w { w with loop } :=
        .loop hloop (by simp [LoopLabel.pushes])
      cases hs
      exact hact.then (Act.manage ⟨rfl, rfl, rfl, rfl, rfl, rfl, Or.inl, rfl⟩).acts
  | sendCheck hstate | keep | drop =>
      cases hs
      exact (Act.manage ⟨rfl, rfl, rfl, rfl, rfl, rfl, Or.inl, rfl⟩).acts

/-- What every act keeps, a chain of acts keeps. -/
theorem Acts.preserves {P : Worker → Prop} (hact : ∀ v v', Act w₀ l v v' → P v → P v')
    (h : P w) (hacts : Acts w₀ l w w') : P w' := by
  induction hacts with
  | refl => exact h
  | tail _ ha ih => exact hact _ _ ha ih

/-- What every act within a step keeps, the step keeps. -/
theorem step_preserves {P : Worker → Prop} (hact : ∀ v v', Act w l v v' → P v → P v')
    (h : P w) (hs : w.step l = .ok w') : P w' :=
  (step_acts hs).preserves hact h

/-! ## The queue -/

/-- Every act keeps the order of the queue. -/
theorem act_inOrder (ha : Act w₀ l w w')
    (h : w.loop.InOrder) : w'.loop.InOrder := by
  cases ha with
  | loop hs hk => exact h.step hs
  | queue htask => exact h.push _
  | settle =>
      unfold settle
      split <;> exact h
  | written accept hwrites hw =>
      unfold written
      split
      · exact h.push _
      · exact h
  | _ => exact h

/-- Every step keeps the order of the queue. -/
theorem step_inOrder (h : w.loop.InOrder) (hs : w.step l = .ok w') :
    w'.loop.InOrder :=
  step_preserves (fun _ _ ha => act_inOrder ha) h hs

theorem inOrder_of_run {ls : List WorkerLabel} (hrun : run step init ls = .ok w) :
    w.loop.InOrder :=
  invariant_of_step (fun w => w.loop.InOrder) (fun _ _ _ h hl => step_inOrder h hl)
    Loop.inOrder_init hrun

end Worker

end Hare.Net
