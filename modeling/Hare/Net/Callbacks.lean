import Hare.Net.Pointers
import Hare.Net.SessionClose

/-!
# The order of the callbacks

What the user of a session sees of it are the calls of the callbacks: the new-session callback of
the server, the connect callback for `SESSION_CONNECTED` and for `SESSION_CLOSED`, and in between
those for what was read, for what was written and for the high-water mark.  They come in the order
of a small automaton (`Phase.next`): a session is announced, connected and closed, each once and in
this order, and the others come behind `SESSION_CONNECTED` only.  They may come behind
`SESSION_CLOSED` too, as a task queued before or as an event of the same `Poll`.

The worker refines the automaton: the phase of a session can be read off what is known of it, and
a step that calls back moves it along.
-/

namespace Hare.Net

open LabelledRun Io

/-- A callback of a session. -/
inductive Callback
  /-- The new-session callback of the server. -/
  | newSession
  /-- The connect callback, with `SESSION_CONNECTED`. -/
  | connected
  /-- The read callback, or the connect callback with `SESSION_ERROR` where there is none. -/
  | received
  | written
  | highWater
  /-- The connect callback, with `SESSION_CLOSED`. -/
  | closed
  deriving DecidableEq, Repr

/-- The callbacks for data. -/
def Callback.isData : Callback → Bool
  | .received | .written | .highWater => true
  | .newSession | .connected | .closed => false

/-- What the user knows of a session. -/
inductive Phase
  | unknown
  | announced
  | opened
  | closed
  deriving DecidableEq, Repr

/-- The callbacks that may come in a phase, and the phase they lead to. -/
def Phase.next : Phase → Callback → Option Phase
  | .unknown, .newSession => some .announced
  | .announced, .connected => some .opened
  | .opened, .closed => some .closed
  | .opened, c => if c.isData then some .opened else none
  | .closed, c => if c.isData then some .closed else none
  | _, _ => none

/-- The words that lead to a phase. -/
def Phase.Word : Phase → List Callback → Prop
  | .unknown, word => word = []
  | .announced, word => word = [.newSession]
  | .opened, word => ∃ data, (∀ c ∈ data, c.isData = true) ∧
      word = .newSession :: .connected :: data
  | .closed, word => ∃ data late, (∀ c ∈ data ++ late, c.isData = true) ∧
      word = .newSession :: .connected :: (data ++ .closed :: late)

theorem Phase.Word.next {phase phase' : Phase} {word : List Callback} {c : Callback}
    (h : phase.Word word) (hnext : phase.next c = some phase') : phase'.Word (word ++ [c]) := by
  cases phase with
  | unknown =>
      cases c <;> cases hnext
      rw [h]
      rfl
  | announced =>
      cases c <;> cases hnext
      rw [h]
      exact ⟨[], by simp, rfl⟩
  | opened =>
      obtain ⟨data, hdata, rfl⟩ := h
      cases hc : c.isData with
      | true =>
          have hstay : Phase.opened.next c = some .opened := by cases c <;> first | rfl | cases hc
          cases hstay.symm.trans hnext
          refine ⟨data ++ [c], ?_, rfl⟩
          simpa [or_imp, forall_and, hc] using hdata
      | false =>
          cases c with
          | closed =>
              cases hnext
              exact ⟨data, [], by simpa using hdata, rfl⟩
          | newSession | connected => cases hnext
          | received | written | highWater => cases hc
  | closed =>
      obtain ⟨data, late, hdata, rfl⟩ := h
      cases hc : c.isData with
      | true =>
          have hstay : Phase.closed.next c = some .closed := by cases c <;> first | rfl | cases hc
          cases hstay.symm.trans hnext
          refine ⟨data, late ++ [c], ?_, by simp⟩
          intro c' hc'
          simp only [List.mem_append, List.mem_singleton] at hdata hc'
          rcases hc' with hmem | hmem | rfl
          · exact hdata c' (.inl hmem)
          · exact hdata c' (.inr hmem)
          · exact hc
      | false =>
          cases c with
          | newSession | connected | closed => cases hnext
          | received | written | highWater => cases hc

/-- What the automaton accepts. -/
theorem Phase.word_of_accepts {phase : Phase} {word : List Callback}
    (h : word.foldlM Phase.next .unknown = some phase) : phase.Word word := by
  induction word using List.reverseRecOn generalizing phase with
  | nil =>
      cases h
      rfl
  | append_singleton word c ih =>
      rw [List.foldlM_append] at h
      obtain ⟨mid, hmid, hc⟩ := Option.bind_eq_some_iff.mp h
      exact (ih hmid).next (by simpa using hc)

/-- The session a queued task posts for. -/
def Task.posts : Task → Option ℕ
  | .send i _ | .written i => some i
  | .user | .newSession _ => none

/-! ## The callbacks of a step -/

/-- What `HandleWrite` calls. -/
def Session.writeCalls (s : Session) : Option Callback :=
  if s.writing ∧ s.state = .disconnecting then some .closed else none

/-- What the task of `Send` and `Append` calls. -/
def Session.sendCalls (s : Session) : Option Callback :=
  if s.size = 0 then if s.state = .disconnecting then some .closed else none
  else if s.highWaterMark < s.size ∧ s.highWaterMark ≠ 0 then some .highWater
  else none

namespace Worker

/-- The callback a task calls. -/
def taskCalls (w : Worker) : Task → Option (ℕ × Callback)
  | .user => none
  | .send i _ => (w.sessions i).sendCalls.map (i, ·)
  | .written i => some (i, .written)
  | .newSession i => some (i, .newSession)

/-- The callback a step calls. -/
def calls (w : Worker) : WorkerLabel → Option (ℕ × Callback)
  | .start _ =>
    match w.loop.functions with
    | q :: _ => w.taskCalls q.task
    | [] => none
  | .read received =>
    match w.stack with
    | .callback i _ :: _ => some (i, if received = 0 then .closed else .received)
    | _ => none
  | .write _ =>
    match w.stack with
    | .callback i _ :: _ => (w.sessions i).writeCalls.map (i, ·)
    | _ => none
  | .close =>
    match w.stack with
    | .callback i _ :: _ => some (i, .closed)
    | _ => none
  | .resume =>
    match w.stack with
    | .establish i :: _ => some (i, .connected)
    | _ => none
  | .call (.forceClose i) =>
    if (w.sessions i).state = .connected ∨ (w.sessions i).state = .disconnecting then
      some (i, .closed)
    else
      none
  | .call (.newSession i) => some (i, .newSession)
  | _ => none

/-- The callbacks of one session. -/
def callsOf (i : ℕ) (w : Worker) (l : WorkerLabel) : List Callback :=
  match w.calls l with
  | some (j, c) => if j = i then [c] else []
  | none => []

/-! ## Phases -/

/-- The phase, from what is observed of a session. -/
def Facts.phase (f : Facts) : Phase :=
  match f.opening, f.establishes with
  | .before, 0 => .unknown
  | .before, _ + 1 => .announced
  | .during, _ => .opened
  | .after, _ => .closed

def phase (w : Worker) (i : ℕ) : Phase := (w.facts i).phase

variable {w w' v : Worker} {l : WorkerLabel} {i : ℕ} {c : Callback} {accept : ℕ}

/-- A step that calls back so moves the phases of the sessions as the automaton says, and it leads
into code of the user. -/
def Answers (w w' : Worker) : Option (ℕ × Callback) → Prop
  | none => w'.phase = w.phase
  | some (i, c) => w'.userTop = true ∧ ∃ phase, (w.phase i).next c = some phase ∧
      w'.phase = Function.update w.phase i phase

theorem phase_of_facts (h : w'.facts = w.facts) : w'.phase = w.phase := by
  funext i
  rw [phase, phase, h]

theorem phase_update {f : Facts} (h : w'.facts = Function.update w.facts i f) :
    w'.phase = Function.update w.phase i f.phase := by
  funext j
  by_cases hj : j = i
  · rw [hj, phase, h, Function.update_self, Function.update_self]
  · rw [phase, h, Function.update_of_ne hj, Function.update_of_ne hj, phase]

/-- Once a session is connected, the data callbacks may come. -/
theorem next_data (hstate : (w.sessions i).state ≠ .connecting) (hc : c.isData = true) :
    (w.phase i).next c = some (w.phase i) := by
  have hopening : (w.facts i).opening ≠ .before :=
    fun hbefore => hstate (SessionState.opening_eq_before.mp hbefore)
  unfold phase Facts.phase
  cases hop : (w.facts i).opening with
  | before => exact absurd hop hopening
  | during => cases c <;> first | rfl | cases hc
  | after => cases c <;> first | rfl | cases hc

theorem answers_data (hv : v.facts = w.facts) (hstate : (w.sessions i).state ≠ .connecting)
    (hc : c.isData = true) : Answers w (v.enter [.user]) (some (i, c)) := by
  refine ⟨rfl, w.phase i, next_data hstate hc, ?_⟩
  rw [phase_of_facts (facts_user.trans hv), Function.update_eq_self]

/-! ## What is posted for a session -/

/-- Tasks are queued, and calls of `Send` and `Append` under way, for sessions in `P` only. -/
structure Posting (P : ℕ → Prop) (w : Worker) : Prop where
  tasks : ∀ task ∈ w.tasks, ∀ i, task.posts = some i → P i
  sending : ∀ i, (w.sessions i).sending ≠ [] → P i

section Posting

variable {P : ℕ → Prop}

theorem Posting.enter (h : Posting P v) (frames : List Frame) : Posting P (v.enter frames) :=
  ⟨h.tasks, h.sending⟩

theorem Posting.modify {f : Session → Session} (h : Posting P v)
    (hsending : (f (v.sessions i)).sending ≠ [] → (v.sessions i).sending ≠ [] ∨ P i) :
    Posting P (v.modify i f) where
  tasks := h.tasks
  sending j hj := by
    by_cases hji : j = i
    · subst hji
      rw [modify_self] at hj
      exact (hsending hj).elim (h.sending j) id
    · rw [modify_other v hji] at hj
      exact h.sending j hj

theorem Posting.keep {f : Session → Session} (h : Posting P v)
    (hsending : (f (v.sessions i)).sending = (v.sessions i).sending) : Posting P (v.modify i f) :=
  h.modify fun hne => .inl (hsending ▸ hne)

theorem Posting.queue {task : Task} (h : Posting P v) (htask : ∀ i, task.posts = some i → P i) :
    Posting P (v.queue task) where
  tasks t ht := by
    rw [tasks_queue, List.mem_append, List.mem_singleton] at ht
    rcases ht with hold | rfl
    · exact h.tasks t hold
    · exact htask
  sending := h.sending

theorem Posting.handleClose (h : Posting P v) (hs : v.handleClose i = .ok w') :
    Posting P w' := by
  rcases v.handleClose_cases i with ⟨-, hok⟩ | ⟨-, herr⟩
  · cases hok.symm.trans hs
    have hclose : Posting P (v.modify i Session.close) := h.keep rfl
    exact hclose.enter _
  · cases herr.symm.trans hs

theorem Posting.written (h : Posting P v) (hi : P i) (accept : ℕ) :
    Posting P (v.written i accept) := by
  have hwrite : Posting P (v.modify i (Session.write · accept)) := h.keep rfl
  unfold Worker.written
  split
  · exact (hwrite.keep rfl).queue fun j hj => by cases hj; exact hi
  · exact hwrite

theorem Posting.handleWrite (h : Posting P v) (hi : P i)
    (hs : v.handleWrite i accept = .ok w') : Posting P w' := by
  unfold Worker.handleWrite at hs
  split at hs
  · split at hs
    · exact (h.written hi accept).handleClose hs
    · cases hs
      exact h.written hi accept
  · cases hs
    exact h

theorem Posting.performSend {chunks : List (List UInt8)} (h : Posting P v) (hi : P i)
    (hs : v.performSend i chunks accept = .ok w') : Posting P w' := by
  have happend : Posting P (v.modify i (Session.append · chunks)) := h.keep rfl
  unfold Worker.performSend at hs
  split at hs
  · exact (happend.keep rfl).handleWrite hi hs
  · split at hs
    · split at hs <;> cases hs
      exact happend.enter _
    · cases hs
      exact happend

theorem Posting.newSession (h : Posting P v) (hs : v.newSession i = .ok w') : Posting P w' := by
  unfold Worker.newSession at hs
  split at hs <;> cases hs
  have howned : Posting P (v.modify i fun s => { s with owned := true }) := h.keep rfl
  exact howned.enter _

/-- A step of the loop, other than the start of a task. -/
theorem Posting.loop {k : LoopLabel Task} {loop : Loop Task} (h : Posting P v)
    (hin : v.loop.InOrder) (hk : k ≠ .start)
    (hpush : ∀ task, k.pushes = some task → ∀ i, task.posts = some i → P i)
    (hs : Loop.Step v.loop k loop) : Posting P { v with loop } where
  tasks task hmem := by
    rcases tasks_loop hin hk hs with htasks | htasks
    · rw [htasks, List.mem_append, Option.mem_toList] at hmem
      exact hmem.elim (h.tasks task) (hpush task)
    · exact h.tasks task (htasks ▸ hmem)
  sending := h.sending

theorem Posting.settle (h : Posting P v) : Posting P v.settle := by
  unfold Worker.settle
  split
  · exact ⟨h.tasks, h.sending⟩
  · exact h

theorem Posting.resume (h : Posting P w) (hs : w.resume = .ok w') : Posting P w' := by
  have hpop : ∀ stack, Posting P { w with stack } := fun _ => ⟨h.tasks, h.sending⟩
  unfold Worker.resume at hs
  split at hs
  · cases hs
  · cases hs
    exact hpop _
  · split at hs <;> cases hs
    exact hpop _
  · unfold finishClose at hs
    split at hs <;> cases hs
    exact (hpop _).keep rfl
  · unfold connectEstablished at hs
    split at hs <;> cases hs
    exact Posting.enter ((hpop _).keep rfl) _
  · cases hs
    exact (hpop _).keep rfl

theorem Posting.dispatch (h : Posting P w) (hs : w.dispatch = .ok w') : Posting P w' := by
  unfold Worker.dispatch at hs
  split at hs
  · simp only at hs
    split at hs <;> cases hs <;> exact ⟨h.tasks, h.sending⟩
  · cases hs
    exact ⟨h.tasks, h.sending⟩
  · cases hs

theorem sending_promise (s : Session) (m : Message) : (s.promise m).sending = s.sending := by
  unfold Session.promise
  split <;> rfl

theorem sending_finishShutdown (s : Session) : s.finishShutdown.sending = s.sending := by
  unfold Session.finishShutdown
  split <;> rfl

theorem Posting.call {u : UserCall} (h : Posting P w)
    (hopen : ∀ i, (w.sessions i).state = .connected → P i) (hs : w.call u = .ok w') :
    Posting P w' := by
  cases u with
  | send i m =>
      simp only [Worker.call] at hs
      split at hs <;> cases hs
      · next hstate =>
          have hqueue : Posting P (w.queue (.send i m.chunks)) :=
            h.queue fun j hj => by cases hj; exact hopen i hstate
          exact hqueue.keep (sending_promise _ _)
      · exact h
  | shutdown i =>
      simp only [Worker.call] at hs
      split at hs <;> cases hs
      · exact h.keep (sending_finishShutdown _)
      · exact h
  | forceClose i =>
      simp only [Worker.call] at hs
      split at hs
      · exact h.handleClose hs
      · exact h.handleClose hs
      · cases hs
        exact h
  | newSession i =>
      simp only [Worker.call] at hs
      split at hs
      · cases hs
      · exact Posting.newSession (h.keep rfl) hs
  | setHighWaterMark i n | setHighWaterCallback i set =>
      cases hs
      exact h.keep rfl
  | startRead i =>
      obtain ⟨read, mask, reading, rfl⟩ := call_reading (.inl rfl) hs
      exact h.keep rfl
  | stopRead i =>
      obtain ⟨read, mask, reading, rfl⟩ := call_reading (.inr rfl) hs
      exact h.keep rfl

/-- A task is taken from the queue and called. -/
theorem Posting.start {q : Queued Task} {functions : List (Queued Task)}
    {loop : Loop Task} (h : Posting P w) (hfun : w.loop.functions = q :: functions)
    (hloop : Loop.Step w.loop .start loop)
    (hs : ({ w with loop } : Worker).perform accept q.task = .ok w') : Posting P w' := by
  have htasks : w.tasks = q.task :: ({ w with loop } : Worker).tasks := tasks_start hfun hloop
  have hpop : Posting P { w with loop } :=
    ⟨fun task hmem => h.tasks task (by simp [htasks, hmem]), h.sending⟩
  have htask : ∀ i, q.task.posts = some i → P i := h.tasks q.task (by simp [htasks])
  obtain ⟨ticket, task⟩ := q
  cases task with
  | user | written i =>
      cases hs
      exact hpop.enter _
  | send i chunks => exact hpop.performSend (htask i rfl) hs
  | newSession i => exact hpop.newSession hs

end Posting

/-- What is posted is posted for sessions that have been connected. -/
def Posts (w : Worker) : Prop := Posting (fun i => (w.sessions i).state ≠ .connecting) w

theorem posts_init : init.Posts := ⟨by simp [tasks, init, Loop.init], fun _ h => absurd rfl h⟩

theorem posts_step (hin : w.loop.InOrder) (hinv : w.Inv) (h : w.Posts) (hprompt : w.Prompt l)
    (hs : w.step l = .ok w') : w'.Posts := by
  have hconnected : ∀ i, (w.sessions i).state = .connected → (w.sessions i).state ≠ .connecting :=
    fun i hi => by simp [hi]
  have hnext : ∀ stack, Posting (fun i => (w.sessions i).state ≠ .connecting) { w with stack } :=
    fun _ => ⟨h.tasks, h.sending⟩
  suffices hw' : Posting (fun i => (w.sessions i).state ≠ .connecting) w' by
    have hforward := (step_keeps hs hinv).2 hprompt
    have hlate : ∀ i, (w.sessions i).state ≠ .connecting → (w'.sessions i).state ≠ .connecting :=
      fun i => (hforward i).ne_connecting
    exact ⟨fun task ht i hi => hlate i (hw'.tasks task ht i hi),
      fun i hi => hlate i (hw'.sending i hi)⟩
  have hcases := w.step_cases l
  generalize w.step l = r at hcases hs
  cases hcases with
  | stop l r => cases hs
  | idle l => cases hs; exact h
  | @cycle k loop hk hloop =>
      have hstart : k ≠ .start := by rintro rfl; cases hk
      have hloop' := Posting.loop h hin hstart (fun task htask j hj => by
        cases eq_user_of_passes hk htask
        cases hj) hloop
      cases hs
      split
      · exact hloop'.settle
      · exact hloop'
  | poll hloop =>
      have hloop' := Posting.loop h hin (by simp) (by simp [LoopLabel.pushes]) hloop
      cases hs
      exact ⟨hloop'.tasks, hloop'.sending⟩
  | dispatch => exact Posting.dispatch h hs
  | timer => cases hs; exact Posting.enter h _
  | start hstack hfun hloop => exact Posting.start h hfun hloop hs
  | @read received i revents stack hstack hread =>
      unfold handleRead at hs
      split at hs
      · exact (hnext _).handleClose hs
      · cases hs
        exact (hnext _).enter _
  | @write accept i revents stack hstack hread hwrite =>
      exact (hnext _).handleWrite (hinv.begun _ (by rw [hstack]; exact List.mem_cons_self) i rfl) hs
  | close hstack hread hwrite hclosed => exact (hnext _).handleClose hs
  | resume => exact Posting.resume h hs
  | call huser => exact Posting.call h hconnected hs
  | @sendCheck i m hstate =>
      cases hs
      exact Posting.modify h fun _ => .inr (hconnected i hstate)
  | @sendPush i m loop hmem hloop =>
      have hsending : (w.sessions i).sending ≠ [] := List.ne_nil_of_mem hmem
      have hloop' := Posting.loop h hin (by simp) (fun task htask j hj => by
        cases htask
        cases hj
        exact h.sending i hsending) hloop
      cases hs
      exact hloop'.modify fun _ => .inl hsending
  | shutdownCheck hstate | shutdownSet htested =>
      cases hs
      exact Posting.keep h rfl
  | shutdownEnd hshutting =>
      cases hs
      exact Posting.keep h (sending_finishShutdown _)
  | newSession hloop =>
      have hloop' := Posting.loop h hin (by simp) (fun task htask j hj => by
        cases htask
        cases hj) hloop
      cases hs
      exact hloop'.keep rfl
  | keep | drop =>
      cases hs
      exact Posting.keep h rfl

/-! ## What a step calls -/

theorem answers_handleClose (hv : v.facts = w.facts) (hs : v.handleClose i = .ok w') :
    Answers w w' (some (i, .closed)) := by
  obtain ⟨hduring, hfacts⟩ := facts_handleClose hv hs
  refine ⟨?_, .closed, ?_, phase_update hfacts⟩
  · rcases v.handleClose_cases i with ⟨-, hok⟩ | ⟨-, herr⟩
    · cases hok.symm.trans hs
      rfl
    · cases herr.symm.trans hs
  · rw [phase, Facts.phase, hduring]
    rfl

theorem answers_handleRead {received : ℕ} (hv : v.facts = w.facts)
    (hstate : (w.sessions i).state ≠ .connecting) (hs : v.handleRead i received = .ok w') :
    Answers w w' (some (i, if received = 0 then .closed else .received)) := by
  unfold handleRead at hs
  split at hs
  · next hzero =>
      rw [if_pos hzero]
      exact answers_handleClose hv hs
  · next hsome =>
      rw [if_neg hsome]
      cases hs
      exact answers_data hv hstate rfl

theorem answers_handleWrite (hv : v.facts = w.facts)
    (hs : v.handleWrite i accept = .ok w') :
    Answers w w' ((v.sessions i).writeCalls.map (i, ·)) := by
  have hwritten : (v.written i accept).facts = w.facts := (facts_written v i accept).trans hv
  unfold handleWrite at hs
  split at hs
  · next hwriting =>
      split at hs
      · next hstate =>
          rw [Session.writeCalls, if_pos ⟨hwriting, hstate⟩]
          exact answers_handleClose hwritten hs
      · next hstate =>
          rw [Session.writeCalls, if_neg fun h => hstate h.2]
          cases hs
          exact phase_of_facts hwritten
  · next hwriting =>
      rw [Session.writeCalls, if_neg fun h => hwriting h.1]
      cases hs
      exact phase_of_facts hv

theorem answers_performSend {chunks : List (List UInt8)} (hv : v.facts = w.facts)
    (hsession : v.sessions i = w.sessions i) (hstate : (w.sessions i).state ≠ .connecting)
    (hs : v.performSend i chunks accept = .ok w') :
    Answers w w' ((w.sessions i).sendCalls.map (i, ·)) := by
  have happend : (v.modify i (Session.append · chunks)).facts = w.facts :=
    (facts_modify rfl rfl rfl).trans hv
  have hwrite : ((v.modify i (Session.append · chunks)).modify i
      (Session.setWrite · true)).facts = w.facts := (facts_modify rfl rfl rfl).trans happend
  unfold performSend at hs
  rw [← hsession, Session.sendCalls]
  split at hs
  · next hsize =>
      rw [if_pos hsize]
      have hcalls := answers_handleWrite hwrite hs
      have hsame : (((v.modify i (Session.append · chunks)).modify i
          (Session.setWrite · true)).sessions i).writeCalls =
          if (v.sessions i).state = .disconnecting then some .closed else none := by
        simp [Session.writeCalls, Session.append]
      rwa [hsame] at hcalls
  · next hsize =>
      rw [if_neg hsize]
      split at hs
      · next hhigh =>
          rw [if_pos hhigh]
          split at hs <;> cases hs
          exact answers_data happend hstate rfl
      · next hhigh =>
          rw [if_neg hhigh]
          cases hs
          exact phase_of_facts happend

/-- The new-session callback is called for a session that is not known yet. -/
theorem answers_newSession {f : Facts} (hbefore : (w.facts i).opening = .before)
    (hnone : (w.facts i).establishes = 0) (hopening : f.opening = .before)
    (hestablishes : f.establishes = 1) (hfacts : w'.facts = Function.update w.facts i f)
    (hs : v.newSession i = .ok w') : Answers w w' (some (i, .newSession)) := by
  refine ⟨?_, f.phase, ?_, phase_update hfacts⟩
  · unfold newSession at hs
    split at hs <;> cases hs
    rfl
  · simp [phase, Facts.phase, hbefore, hnone, hopening, hestablishes, Phase.next]

theorem answers_resume (hs : w.resume = .ok w') : Answers w w' (w.calls .resume) := by
  unfold resume at hs
  split at hs
  · cases hs
  · next stack hstack =>
      cases hs
      simp only [calls, hstack]
      exact phase_of_facts (facts_pop hstack rfl)
  · next i revents stack hstack =>
      split at hs <;> cases hs
      simp only [calls, hstack]
      exact phase_of_facts (facts_pop hstack rfl)
  · next i stack hstack =>
      unfold finishClose at hs
      split at hs <;> cases hs
      simp only [calls, hstack]
      funext j
      by_cases hj : j = i
      · subst hj
        simp [phase, facts, Facts.phase, hstack]
      · simp [phase, facts, Facts.phase, hstack, modify_other _ hj]
  · next i stack hstack =>
      obtain ⟨hbefore, hn, hfacts⟩ := facts_connectEstablished hstack hs
      simp only [calls, hstack]
      refine ⟨?_, .opened, ?_, phase_update hfacts⟩
      · unfold connectEstablished at hs
        split at hs <;> cases hs
        rfl
      · simp [phase, Facts.phase, hbefore, hn, Phase.next]
  · next i stack hstack =>
      cases hs
      simp only [calls, hstack]
      have hconnect : (({ w with stack } : Worker).finishConnect i).facts =
          ({ w with stack } : Worker).facts := facts_modify rfl rfl rfl
      exact phase_of_facts (hconnect.trans (facts_pop hstack rfl))

theorem answers_call {u : UserCall} (hstaged : w.Staged) (hs : w.call u = .ok w') :
    Answers w w' (w.calls (.call u)) := by
  cases u with
  | forceClose i =>
      simp only [call] at hs
      simp only [calls]
      split at hs
      · next hstate =>
          rw [if_pos (.inl hstate)]
          exact answers_handleClose rfl hs
      · next hstate =>
          rw [if_pos (.inr hstate)]
          exact answers_handleClose rfl hs
      · next hconnected hdisconnecting =>
          rw [if_neg fun hopen => hopen.elim hconnected hdisconnecting]
          cases hs
          rfl
  | newSession i =>
      obtain ⟨hcreated, -, hfacts⟩ := facts_adopt hs
      have hfresh := hstaged.fresh hcreated
      simp only [call] at hs
      split at hs
      · cases hs
      · refine answers_newSession ?_ ?_ ?_ ?_ hfacts hs <;> rw [hfresh] <;> rfl
  | _ => exact phase_of_facts (facts_call rfl hs)

/-- A task is taken from the queue and called. -/
theorem answers_start {q : Queued Task} {functions : List (Queued Task)}
    {loop : Loop Task} (hstaged : w.Staged) (hposts : w.Posts)
    (hfun : w.loop.functions = q :: functions) (hloop : Loop.Step w.loop .start loop)
    (hs : ({ w with loop } : Worker).perform accept q.task = .ok w') :
    Answers w w' (w.calls (.start accept)) := by
  have hmem : q.task ∈ w.tasks := by simp [tasks, hfun]
  obtain ⟨ticket, task⟩ := q
  simp only [calls, hfun, taskCalls]
  cases task with
  | user =>
      cases hs
      exact phase_of_facts (facts_user.trans (facts_start hfun hloop (by simp)))
  | written i =>
      cases hs
      exact answers_data (facts_start hfun hloop (by simp)) (hposts.tasks _ hmem i rfl) rfl
  | send i chunks =>
      exact answers_performSend (facts_start hfun hloop (by simp)) rfl
        (hposts.tasks _ hmem i rfl) hs
  | newSession i =>
      have hqueued := hstaged.queued hmem
      obtain ⟨-, -, hfacts⟩ := facts_begin hfun hloop hs
      refine answers_newSession ?_ ?_ ?_ ?_ hfacts hs <;> rw [hqueued] <;> rfl

/-- `HandleCallback` goes on when it is on top of the stack. -/
theorem exists_callback (hl : l = .close ∨ (∃ n, l = .read n) ∨ ∃ n, l = .write n)
    (hs : w.step l = .ok w') : ∃ i revents stack, w.stack = .callback i revents :: stack := by
  rcases hl with rfl | ⟨n, rfl⟩ | ⟨n, rfl⟩
  all_goals
    simp only [step] at hs
    split at hs
    · next i revents stack hstack => exact ⟨i, revents, stack, hstack⟩
    · cases hs

/-- **The worker follows the automaton.** -/
theorem answers_step (hin : w.loop.InOrder) (hstaged : w.Staged) (hinv : w.Inv) (hposts : w.Posts)
    (hprompt : w.Prompt l) (hs : w.step l = .ok w') : Answers w w' (w.calls l) := by
  cases l with
  | start accept =>
      simp only [step] at hs
      split at hs
      · next q functions hstack hfun =>
          rcases w.stepLoop_cases .start with ⟨r, hr⟩ | ⟨loop, hloop, hok⟩
          · rw [hr] at hs
            cases hs
          · rw [hok] at hs
            exact answers_start hstaged hposts hfun hloop hs
      · cases hs
  | read received =>
      obtain ⟨i, revents, stack, hstack⟩ := exists_callback (.inr (.inl ⟨received, rfl⟩)) hs
      have hbegun : (w.sessions i).state ≠ .connecting :=
        hinv.begun _ (by rw [hstack]; exact List.mem_cons_self) i rfl
      simp only [step, hstack] at hs
      split at hs
      · simp only [calls, hstack]
        exact answers_handleRead (facts_next hstack) hbegun hs
      · cases hs
  | write accept =>
      obtain ⟨i, revents, stack, hstack⟩ := exists_callback (.inr (.inr ⟨accept, rfl⟩)) hs
      simp only [step, hstack] at hs
      split at hs
      · simp only [calls, hstack]
        have hanswers := answers_handleWrite (facts_next hstack) hs
        exact hanswers
      · cases hs
  | close =>
      obtain ⟨i, revents, stack, hstack⟩ := exists_callback (.inl rfl) hs
      simp only [step, hstack] at hs
      split at hs
      · simp only [calls, hstack]
        exact answers_handleClose (facts_next hstack) hs
      · cases hs
  | resume => exact answers_resume hs
  | call c =>
      simp only [step] at hs
      split at hs
      · exact answers_call hstaged hs
      · cases hs
  | newSession i =>
      rcases turns_newSession hs with hsame | ⟨j, f, hturn, hfacts⟩
      · exact phase_of_facts hsame
      · cases hturn with
        | accept hcreated => exact (phase_update hfacts).trans (Function.update_eq_self i w.phase)
        | close hopen hl => exact absurd rfl (hl i).1
  | _ => exact phase_of_facts (facts_step hin hprompt rfl hs)

/-! ## Whole runs -/

/-- What holds in every state of every run. -/
structure Calling (w : Worker) : Prop where
  inOrder : w.loop.InOrder
  staged : w.Staged
  inv : w.Inv
  posts : w.Posts

theorem calling_init : init.Calling := ⟨Loop.inOrder_init, staged_init, inv_init, posts_init⟩

theorem Calling.step (h : w.Calling) (hprompt : w.Prompt l) (hs : w.step l = .ok w') :
    w'.Calling where
  inOrder := step_inOrder h.inOrder hs
  staged := staged_step h.inOrder h.staged hprompt hs
  inv := (step_keeps hs h.inv).1
  posts := posts_step h.inOrder h.inv h.posts hprompt hs

/-- What a session is told in a step leads from its phase to the next one. -/
theorem Answers.foldlM (h : Answers w w' (w.calls l)) (i : ℕ) :
    (callsOf i w l).foldlM Phase.next (w.phase i) = some (w'.phase i) := by
  unfold callsOf
  cases hc : w.calls l with
  | none =>
      rw [hc] at h
      rw [h]
      rfl
  | some e =>
      obtain ⟨j, c⟩ := e
      rw [hc] at h
      obtain ⟨-, phase, hnext, hphase⟩ := h
      by_cases hj : j = i
      · subst hj
        simp [hnext, hphase]
      · simp [hj, hphase, Function.update_of_ne (Ne.symm hj)]

end Worker

/-- What the user has been told of a session in a state. -/
def SessionState.Told : SessionState → List Callback → Prop
  | .connecting, told => told = [] ∨ told = [.newSession]
  | .connected, told | .disconnecting, told =>
    ∃ data, (∀ c ∈ data, c.isData = true) ∧ told = .newSession :: .connected :: data
  | .disconnected, told => ∃ data late, (∀ c ∈ data ++ late, c.isData = true) ∧
      told = .newSession :: .connected :: (data ++ .closed :: late)

theorem Worker.told_of_word {w : Worker} {i : ℕ} {told : List Callback}
    (h : (w.phase i).Word told) : (w.sessions i).state.Told told := by
  unfold Worker.phase Worker.Facts.phase at h
  have hopening : (w.facts i).opening = (w.sessions i).state.opening := rfl
  cases hstate : (w.sessions i).state with
  | connecting =>
      rw [hopening, hstate] at h
      cases hn : (w.facts i).establishes with
      | zero =>
          rw [hn] at h
          exact .inl h
      | succ n =>
          rw [hn] at h
          exact .inr h
  | connected | disconnecting | disconnected =>
      rw [hopening, hstate] at h
      exact h

/-- **The callbacks of a session come in order.**  Along every run of a worker, whatever the
interleaving and whatever the user does in the callbacks, a session is announced, connected and
closed at most once each and in this order, as its state says, and the data callbacks come behind
`SESSION_CONNECTED`.  The calls of `Shutdown` on other threads have to set the state of sessions
that are still open: a session that is set back to disconnecting can be closed again. -/
theorem callbacks_in_order {ls : List WorkerLabel} {w : Worker}
    (hprompt : Meets Worker.step Worker.Prompt Worker.init ls)
    (hrun : run Worker.step Worker.init ls = .ok w) (i : ℕ) :
    (w.sessions i).state.Told (trace Worker.step (Worker.callsOf i) Worker.init ls) := by
  have hstep : ∀ w l w' phase, (w.Calling ∧ phase = w.phase i) → w.Prompt l →
      Worker.step w l = .ok w' →
      ∃ phase', (Worker.callsOf i w l).foldlM Phase.next phase = some phase' ∧
        w'.Calling ∧ phase' = w'.phase i := by
    rintro w l w' phase ⟨h, rfl⟩ hc hs
    have hanswers := Worker.answers_step h.inOrder h.staged h.inv h.posts hc hs
    exact ⟨w'.phase i, hanswers.foldlM i, h.step hc hs, rfl⟩
  obtain ⟨phase, hphase, -, rfl⟩ := accepts_trace
    (fun w phase => w.Calling ∧ phase = w.phase i) hstep ⟨Worker.calling_init, rfl⟩ hprompt hrun
  exact Worker.told_of_word (Phase.word_of_accepts hphase)

/-- Of two sessions that are readable at once the callback of the first closes the second, and the
second is told of what it has read all the same. -/
def readAfterClose : List WorkerLabel :=
  Worker.twoSessions ++ [.dispatch, .read 5, .call (.forceClose 1), .resume, .resume, .resume,
    .resume, .dispatch, .read 3]

theorem callbacks_in_order_late : ∃ w, run Worker.step Worker.init readAfterClose = .ok w ∧
    (w.sessions 1).state = .disconnected ∧
    trace Worker.step (Worker.callsOf 1) Worker.init readAfterClose =
      [.newSession, .connected, .closed, .received] ∧
    SessionState.disconnected.Told
      (trace Worker.step (Worker.callsOf 1) Worker.init readAfterClose) := by
  obtain ⟨w, hrun, hstate⟩ := map_eq_ok (f := fun w : Worker => (w.sessions 1).state)
    (r := run Worker.step Worker.init readAfterClose) (b := .disconnected) (by decide +kernel)
  refine ⟨w, hrun, hstate, by decide +kernel, ?_⟩
  rw [← hstate]
  exact callbacks_in_order (by decide +kernel) hrun 1

end Hare.Net
