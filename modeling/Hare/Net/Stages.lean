import Hare.Net.Acts

/-!
# The life of a session

A session goes through six stages: it is made by the server and its task is queued, the task puts
it into the table of the worker and connects it, it is open, it is closed, and it is taken out of
the table.  What belongs to a stage (the flags, the state, the queued task, the functions on the
stack) is one record, `Facts`, and a step changes it for one session at most and along one arrow
(`step_turn`).  So each session is in one of the stages in every state of every run, and of the
assertions of a worker that of `HandleClose` is the only one that can fail (`step_ne_assert`).
-/

namespace Hare.Net

open LabelledRun Io

/-- The states, up to `Shutdown`. -/
inductive Opening
  | before
  | during
  | after
  deriving DecidableEq, Repr

def SessionState.opening : SessionState → Opening
  | .connecting => .before
  | .connected | .disconnecting => .during
  | .disconnected => .after

theorem SessionState.opening_eq_during {state : SessionState} :
    state.opening = .during ↔ state = .connected ∨ state = .disconnecting := by
  cases state <;> simp [opening]

theorem SessionState.opening_eq_before {state : SessionState} :
    state.opening = .before ↔ state = .connecting := by
  cases state <;> simp [opening]

namespace Worker

/-- What is observed of a session. -/
structure Facts where
  created : Bool
  owned : Bool
  opening : Opening
  /-- The queued tasks of `NewSession`. -/
  tasks : ℕ
  /-- The calls of the new-session callback on the stack. -/
  establishes : ℕ
  /-- The calls of `HandleClose` on the stack. -/
  closes : ℕ
  deriving DecidableEq, Repr

/-- The tasks that are queued. -/
def tasks (w : Worker) : List Task := (w.loop.functions ++ w.loop.pending).map Queued.task

@[simp] theorem tasks_modify (w : Worker) (i : ℕ) (f : Session → Session) :
    (w.modify i f).tasks = w.tasks := rfl

def facts (w : Worker) (i : ℕ) : Facts where
  created := (w.sessions i).created
  owned := (w.sessions i).owned
  opening := (w.sessions i).state.opening
  tasks := w.tasks.count (.newSession i)
  establishes := w.stack.count (.establish i)
  closes := w.stack.count (.closed i)

/-- How a step changes what is observed of a session. -/
inductive Turn (w : Worker) : WorkerLabel → ℕ → Facts → Prop
  /-- `NewSession` on another thread. -/
  | accept {i : ℕ} (h : (w.facts i).created = false) :
      Turn w (.newSession i) i
        { w.facts i with
          created := true
          tasks := (w.facts i).tasks + 1 }
  /-- `NewSession` on the thread of the worker. -/
  | adopt {i : ℕ} (h : (w.facts i).created = false) (howned : (w.facts i).owned = false) :
      Turn w (.call (.newSession i)) i
        { w.facts i with
          created := true
          owned := true
          establishes := (w.facts i).establishes + 1 }
  /-- The task of `NewSession`. -/
  | begin {i accept n : ℕ} {ticket : ℕ} {functions : List (Queued Task)} (hstack : w.stack = [])
      (hfun : w.loop.functions = ⟨ticket, .newSession i⟩ :: functions)
      (htasks : (w.facts i).tasks = n + 1) (howned : (w.facts i).owned = false) :
      Turn w (.start accept) i
        { w.facts i with
          owned := true
          tasks := n
          establishes := (w.facts i).establishes + 1 }
  /-- `ConnectEstablished`. -/
  | connect {i n : ℕ} {stack : List Frame} (hstack : w.stack = .establish i :: stack)
      (hn : (w.facts i).establishes = n + 1) (hopen : (w.facts i).opening = .before) :
      Turn w .resume i
        { w.facts i with
          opening := .during
          establishes := n }
  /-- `HandleClose`, up to the connect callback. -/
  | close {l : WorkerLabel} {i : ℕ} (hopen : (w.facts i).opening = .during)
      (hl : ∀ j, l ≠ .newSession j ∧ l ≠ .call (.newSession j)) :
      Turn w l i
        { w.facts i with
          opening := .after
          closes := (w.facts i).closes + 1 }
  /-- `HandleClose`, after the connect callback. -/
  | finish {i n : ℕ} {stack : List Frame} (hstack : w.stack = .closed i :: stack)
      (hn : (w.facts i).closes = n + 1) (howned : (w.facts i).owned = true) :
      Turn w .resume i
        { w.facts i with
          owned := false
          closes := n }

/-- The step changes nothing that is observed, or makes a turn. -/
def Turns (w : Worker) (l : WorkerLabel) (w' : Worker) : Prop :=
  w'.facts = w.facts ∨ ∃ i f, Turn w l i f ∧ w'.facts = Function.update w.facts i f

variable {w w' v : Worker} {l : WorkerLabel} {i : ℕ} {loop : Loop Task} {e : Halt} {accept : ℕ}
  {functions : List (Queued Task)} {stack : List Frame} {task : Task} {c : UserCall}
  {k : LoopLabel Task} {q : Queued Task}

/-! ## Operations -/

/-- The functions on the stack that are not counted. -/
def uncounted : Frame → Bool
  | .user | .callback _ _ | .established _ => true
  | .establish _ | .closed _ => false

/-- A change of one session that cannot be observed. -/
theorem facts_modify {f : Session → Session}
    (hcreated : (f (w.sessions i)).created = (w.sessions i).created)
    (howned : (f (w.sessions i)).owned = (w.sessions i).owned)
    (hstate : (f (w.sessions i)).state.opening = (w.sessions i).state.opening) :
    (w.modify i f).facts = w.facts := by
  funext j
  by_cases hj : j = i
  · subst hj
    simp [facts, tasks, hcreated, howned, hstate]
  · simp [facts, tasks, modify_other w hj]

theorem count_eq_zero_of_uncounted {frames : List Frame}
    (h : ∀ frame ∈ frames, uncounted frame = true) (i : ℕ) :
    frames.count (.establish i) = 0 ∧ frames.count (.closed i) = 0 := by
  constructor <;> exact List.count_eq_zero.mpr fun hmem => by cases h _ hmem

theorem facts_enter {frames : List Frame} (h : ∀ frame ∈ frames, uncounted frame = true) :
    (w.enter frames).facts = w.facts := by
  funext i
  obtain ⟨hest, hclosed⟩ := count_eq_zero_of_uncounted h i
  simp [facts, tasks, enter, List.count_append, hest, hclosed]

theorem facts_user : (w.enter [.user]).facts = w.facts :=
  facts_enter (by simp [uncounted])

theorem facts_pop {frame : Frame} (hstack : w.stack = frame :: stack)
    (h : uncounted frame = true) : ({ w with stack } : Worker).facts = w.facts := by
  have hw : w = ({ w with stack } : Worker).enter [frame] := by
    rw [enter]
    simp [← hstack]
  conv_rhs => rw [hw]
  exact (facts_enter (by simpa using h)).symm

/-- `HandleCallback` goes on to its next event. -/
theorem facts_next {revents revents' : Events}
    (hstack : w.stack = .callback i revents :: stack) :
    ({ w with stack := .callback i revents' :: stack } : Worker).facts = w.facts := by
  have hpush : (({ w with stack } : Worker).enter [.callback i revents']).facts =
      ({ w with stack } : Worker).facts := facts_enter (by simp [uncounted])
  exact hpush.trans (facts_pop hstack rfl)

theorem tasks_queue (task : Task) : (w.queue task).tasks = w.tasks ++ [task] := by
  simp [tasks, queue, Loop.push]

theorem facts_queue (h : ∀ j, task ≠ .newSession j) :
    (w.queue task).facts = w.facts := by
  funext i
  have hcount : [task].count (.newSession i) = 0 :=
    List.count_eq_zero.mpr fun hmem => h i (List.mem_singleton.mp hmem).symm
  simp only [facts, tasks_queue, List.count_append, hcount, Nat.add_zero]
  rfl

/-- A step of the loop that touches no task of `NewSession`. -/
theorem facts_loop (h : ∀ i, ({ w with loop } : Worker).tasks.count (.newSession i) =
      w.tasks.count (.newSession i)) :
    { w with loop }.facts = w.facts := by
  funext i
  simp only [facts, h]

theorem facts_settle : w.settle.facts = w.facts := by
  unfold settle
  split <;> rfl

/-! ## The functions of a session -/

theorem facts_written (w : Worker) (i accept : ℕ) : (w.written i accept).facts = w.facts := by
  have hwrite : (w.modify i (Session.write · accept)).facts = w.facts := facts_modify rfl rfl rfl
  unfold written
  split
  · rw [facts_queue (by simp), facts_modify rfl rfl rfl, hwrite]
  · exact hwrite

/-- What is observed of one session has changed. -/
theorem facts_update {F : Facts} (hi : w'.facts i = F)
    (hother : ∀ j, j ≠ i → w'.facts j = v.facts j) (hv : v.facts = w.facts) :
    w'.facts = Function.update w.facts i F := by
  funext j
  by_cases hj : j = i
  · rw [hj, hi, Function.update_self]
  · rw [hother j hj, hv, Function.update_of_ne hj]

/-- One session is changed, and functions that work for it are called. -/
theorem facts_modify_enter {f : Session → Session} {frame : Frame} {j : ℕ} (hj : j ≠ i)
    (hframe : frame = .establish i ∨ frame = .closed i ∨ frame = .established i) :
    ((v.modify i f).enter [.user, frame]).facts j = v.facts j := by
  rcases hframe with rfl | rfl | rfl <;>
    simp [facts, tasks, enter, modify_other v hj, Ne.symm hj]

/-- `HandleClose`, from a state that shows the same of the sessions as `w`. -/
theorem facts_handleClose (hv : v.facts = w.facts) (hs : v.handleClose i = .ok w') :
    (w.facts i).opening = .during ∧
      w'.facts = Function.update w.facts i
        { w.facts i with
          opening := .after
          closes := (w.facts i).closes + 1 } := by
  rcases v.handleClose_cases i with ⟨hopen, hok⟩ | ⟨-, herr⟩
  · cases hok.symm.trans hs
    rw [← hv]
    refine ⟨SessionState.opening_eq_during.mpr hopen, facts_update ?_ (fun j hj => ?_) rfl⟩
    · simp [facts, tasks, enter, SessionState.opening]
    · exact facts_modify_enter hj (.inr (.inl rfl))
  · cases herr.symm.trans hs

theorem turns_handleClose (hv : v.facts = w.facts)
    (hl : ∀ j, l ≠ .newSession j ∧ l ≠ .call (.newSession j))
    (hs : v.handleClose i = .ok w') : Turns w l w' := by
  obtain ⟨hduring, hfacts⟩ := facts_handleClose hv hs
  exact .inr ⟨i, _, .close hduring hl, hfacts⟩

theorem turns_handleRead {received : ℕ} (hv : v.facts = w.facts)
    (hl : ∀ j, l ≠ .newSession j ∧ l ≠ .call (.newSession j))
    (hs : v.handleRead i received = .ok w') : Turns w l w' := by
  unfold handleRead at hs
  split at hs
  · exact turns_handleClose hv hl hs
  · cases hs
    exact .inl (facts_user.trans hv)

theorem turns_handleWrite (hv : v.facts = w.facts)
    (hl : ∀ j, l ≠ .newSession j ∧ l ≠ .call (.newSession j))
    (hs : v.handleWrite i accept = .ok w') : Turns w l w' := by
  unfold handleWrite at hs
  split at hs
  · split at hs
    · exact turns_handleClose ((facts_written v i accept).trans hv) hl hs
    · cases hs
      exact .inl ((facts_written v i accept).trans hv)
  · cases hs
    exact .inl hv

theorem turns_performSend {chunks : List (List UInt8)} (hv : v.facts = w.facts)
    (hl : ∀ j, l ≠ .newSession j ∧ l ≠ .call (.newSession j))
    (hs : v.performSend i chunks accept = .ok w') : Turns w l w' := by
  have happend : (v.modify i (Session.append · chunks)).facts = w.facts :=
    (facts_modify rfl rfl rfl).trans hv
  unfold performSend at hs
  split at hs
  · exact turns_handleWrite ((facts_modify rfl rfl rfl).trans happend) hl hs
  · split at hs
    · split at hs <;> cases hs
      exact .inl (facts_user.trans happend)
    · cases hs
      exact .inl happend

/-- The task of `NewSession`, from the state in which it has been taken from the queue. -/
theorem facts_newSession (hs : v.newSession i = .ok w') : (v.facts i).owned = false ∧
    w'.facts = Function.update v.facts i
      { v.facts i with
        owned := true
        establishes := (v.facts i).establishes + 1 } := by
  unfold newSession at hs
  split at hs <;> cases hs
  next howned =>
    refine ⟨by simpa [facts] using howned, facts_update ?_ (fun j hj => ?_) rfl⟩
    · simp [facts, tasks, enter]
    · exact facts_modify_enter hj (.inl rfl)

/-- The calls that can change what is observed. -/
def UserCall.turns : UserCall → Bool
  | .forceClose _ | .newSession _ => true
  | _ => false

theorem facts_call (hc : c.turns = false) (hs : w.call c = .ok w') :
    w'.facts = w.facts := by
  cases c with
  | forceClose i | newSession i => cases hc
  | send i m =>
      simp only [call] at hs
      split at hs <;> cases hs
      · refine (facts_modify ?_ ?_ ?_).trans (facts_queue (by simp))
        all_goals
          unfold Session.promise
          split <;> rfl
      · rfl
  | shutdown i =>
      simp only [call] at hs
      split at hs <;> cases hs
      · next hstate =>
          refine facts_modify ?_ ?_ ?_
          all_goals
            unfold Session.finishShutdown
            split <;> simp [Session.setState, SessionState.opening, hstate]
      · rfl
  | setHighWaterMark i n | setHighWaterCallback i set =>
      cases hs
      exact facts_modify rfl rfl rfl
  | startRead i =>
      obtain ⟨read, mask, reading, rfl⟩ := call_reading (.inl rfl) hs
      exact facts_modify rfl rfl rfl
  | stopRead i =>
      obtain ⟨read, mask, reading, rfl⟩ := call_reading (.inr rfl) hs
      exact facts_modify rfl rfl rfl

/-- `NewSession` on the thread of the worker. -/
theorem facts_adopt (hs : w.call (.newSession i) = .ok w') :
    (w.facts i).created = false ∧ (w.facts i).owned = false ∧
      w'.facts = Function.update w.facts i
        { w.facts i with
          created := true
          owned := true
          establishes := (w.facts i).establishes + 1 } := by
  simp only [call] at hs
  split at hs
  · cases hs
  · next hcreated =>
      obtain ⟨howned, hfacts⟩ := facts_newSession hs
      refine ⟨by simpa [facts] using hcreated, by simpa [facts] using howned, ?_⟩
      rw [hfacts]
      funext j
      by_cases hj : j = i
      · subst hj
        simp [facts, tasks]
      · simp [facts, tasks, modify_other w hj, hj]

theorem turns_call (hs : w.call c = .ok w') : Turns w (.call c) w' := by
  cases c with
  | forceClose i =>
      have hl : ∀ j, (WorkerLabel.call (.forceClose i)) ≠ .newSession j ∧
          (WorkerLabel.call (.forceClose i)) ≠ .call (.newSession j) := by simp
      simp only [call] at hs
      split at hs
      · exact turns_handleClose rfl hl hs
      · exact turns_handleClose rfl hl hs
      · cases hs
        exact .inl rfl
  | newSession i =>
      obtain ⟨hcreated, howned, hfacts⟩ := facts_adopt hs
      exact .inr ⟨i, _, .adopt hcreated howned, hfacts⟩
  | _ => exact .inl (facts_call rfl hs)

theorem facts_dispatch (hs : w.dispatch = .ok w') : w'.facts = w.facts := by
  unfold dispatch at hs
  split at hs
  · simp only at hs
    split at hs <;> cases hs
    · exact facts_enter (by simp [uncounted])
    · rfl
  · cases hs
    exact facts_user
  · cases hs

/-- `ConnectEstablished`, up to the connect callback. -/
theorem facts_connectEstablished (hstack : w.stack = .establish i :: stack)
    (hs : ({ w with stack } : Worker).connectEstablished i = .ok w') :
    (w.facts i).opening = .before ∧ (w.facts i).establishes = stack.count (.establish i) + 1 ∧
      w'.facts = Function.update w.facts i
        { w.facts i with
          opening := .during
          establishes := stack.count (.establish i) } := by
  unfold connectEstablished at hs
  split at hs <;> cases hs
  next hstate =>
    refine ⟨congrArg SessionState.opening hstate, by simp [facts, hstack],
      facts_update ?_ (fun j hj => ?_) rfl⟩
    · simp [facts, tasks, hstack, enter, Session.setState, SessionState.opening]
    · simp [facts, tasks, hstack, enter, modify_other _ hj, Ne.symm hj]

theorem turns_resume (hs : w.resume = .ok w') : Turns w .resume w' := by
  unfold resume at hs
  split at hs
  · cases hs
  · next stack hstack =>
      cases hs
      exact .inl (facts_pop hstack rfl)
  · next i revents stack hstack =>
      split at hs <;> cases hs
      exact .inl (facts_pop hstack rfl)
  · next i stack hstack =>
      unfold finishClose at hs
      split at hs <;> cases hs
      next howned =>
        refine .inr ⟨i, _, .finish hstack (n := stack.count (.closed i)) ?_ ?_,
          facts_update ?_ (fun j hj => ?_) (v := w) rfl⟩
        · simp [facts, hstack]
        · simpa [facts] using howned
        · simp [facts, tasks, hstack]
        · simp [facts, tasks, hstack, modify_other _ hj, Ne.symm hj]
  · next i stack hstack =>
      obtain ⟨hbefore, hn, hfacts⟩ := facts_connectEstablished hstack hs
      exact .inr ⟨i, _, .connect hstack hn hbefore, hfacts⟩
  · next i stack hstack =>
      cases hs
      have hconnect : (({ w with stack } : Worker).finishConnect i).facts =
          ({ w with stack } : Worker).facts := facts_modify rfl rfl rfl
      exact .inl (hconnect.trans (facts_pop hstack rfl))

/-! ## A step -/

/-- What a step of the loop does to the queued tasks. -/
theorem tasks_loop (hin : w.loop.InOrder)
    (hk : k ≠ .start) (hs : Loop.Step w.loop k loop) :
    ({ w with loop } : Worker).tasks = w.tasks ++ k.pushes.toList ∨
      ({ w with loop } : Worker).tasks = w.tasks := by
  cases hs with
  | start => exact absurd rfl hk
  | swap hp =>
      have hnil : w.loop.functions = [] := hin.swapped (by simp [hp])
      exact .inr (by simp [tasks, hnil])
  | queueOwn hu => exact .inl (by simp [tasks, Loop.push, LoopLabel.pushes])
  | queueOther hl hne => exact .inl (by simp [tasks, Loop.push, hl])
  | _ => exact .inr rfl

theorem facts_loop_of_step (hin : w.loop.InOrder)
    (hk : k ≠ .start) (hpush : ∀ i, k.pushes ≠ some (.newSession i))
    (hs : Loop.Step w.loop k loop) : ({ w with loop } : Worker).facts = w.facts := by
  refine facts_loop fun i => ?_
  rcases tasks_loop hin hk hs with htasks | htasks
  · have hcount : k.pushes.toList.count (.newSession i) = 0 :=
      List.count_eq_zero.mpr fun hmem => hpush i (Option.mem_toList.mp hmem)
    rw [htasks, List.count_append, hcount, Nat.add_zero]
  · rw [htasks]

/-- A step of the loop that is taken as it is pushes tasks of the user only. -/
theorem eq_user_of_passes (hk : w.passes k = true)
    (hpush : k.pushes = some task) : task = .user := by
  cases k with
  | queueInCycle inThread t =>
      cases hpush
      simp_all [passes]
  | runInCycle inThread t =>
      cases inThread <;> cases hpush
      simp_all [passes]
  | _ => cases hpush

theorem tasks_start
    (hfun : w.loop.functions = q :: functions) (hloop : Loop.Step w.loop .start loop) :
    w.tasks = q.task :: ({ w with loop } : Worker).tasks := by
  cases hloop with
  | start hp hq =>
      rw [hfun] at hq
      cases hq
      simp [tasks, hfun]
  | queueOther hl => cases hl

/-- What is observed when a task has been taken from the queue, if it is none of `NewSession`. -/
theorem facts_start
    (hfun : w.loop.functions = q :: functions) (hloop : Loop.Step w.loop .start loop)
    (hne : ∀ j, q.task ≠ .newSession j) : ({ w with loop } : Worker).facts = w.facts :=
  facts_loop fun j => by rw [tasks_start hfun hloop, List.count_cons_of_ne (hne j)]

/-- The task of `NewSession` is taken from the queue and called. -/
theorem facts_begin {ticket : ℕ}
    (hfun : w.loop.functions = ⟨ticket, .newSession i⟩ :: functions)
    (hloop : Loop.Step w.loop .start loop)
    (hs : ({ w with loop } : Worker).newSession i = .ok w') :
    (w.facts i).owned = false ∧
      (w.facts i).tasks = ({ w with loop } : Worker).tasks.count (.newSession i) + 1 ∧
      w'.facts = Function.update w.facts i
        { w.facts i with
          owned := true
          tasks := ({ w with loop } : Worker).tasks.count (.newSession i)
          establishes := (w.facts i).establishes + 1 } := by
  have htasks := tasks_start hfun hloop
  obtain ⟨howned, hfacts⟩ := facts_newSession hs
  refine ⟨howned, by simp [facts, htasks], ?_⟩
  rw [hfacts]
  funext j
  by_cases hj : j = i
  · subst hj
    simp [facts]
  · simp [hj, facts, htasks, Ne.symm hj]

/-- A task is taken from the queue and called. -/
theorem turns_start (hstack : w.stack = []) (hfun : w.loop.functions = q :: functions)
    (hloop : Loop.Step w.loop .start loop)
    (hs : ({ w with loop } : Worker).perform accept q.task = .ok w') :
    Turns w (.start accept) w' := by
  obtain ⟨ticket, task⟩ := q
  cases task with
  | user | written i =>
      cases hs
      exact .inl (facts_user.trans (facts_start hfun hloop (by simp)))
  | send i chunks =>
      exact turns_performSend (facts_start hfun hloop (by simp)) (by simp) hs
  | newSession i =>
      obtain ⟨howned, hcount, hfacts⟩ := facts_begin hfun hloop hs
      exact .inr ⟨i, _, .begin hstack hfun hcount howned, hfacts⟩

/-- `NewSession` on another thread. -/
theorem turns_newSession (hs : w.step (.newSession i) = .ok w') :
    Turns w (.newSession i) w' := by
  simp only [step] at hs
  split at hs
  · cases hs
  · next hcreated =>
      rcases w.stepLoop_cases (.queueInCycle false (.newSession i)) with
        ⟨r, hr⟩ | ⟨loop, hloop, hok⟩
      · rw [hr] at hs
        cases hs
      · rw [hok] at hs
        cases hs
        have htasks : ({ w with loop } : Worker).tasks = w.tasks ++ [.newSession i] := by
          cases hloop with
          | queueOther hl => cases hl; simp [tasks, Loop.push]
        refine .inr ⟨i, _, .accept (by simpa [facts] using hcreated),
          facts_update ?_ (fun j hj => ?_) (v := w) rfl⟩
        · simp [facts, htasks]
        · simp [facts, htasks, modify_other _ hj, Ne.symm hj]

/-- The steps that can change what is observed. -/
def turning : WorkerLabel → Bool
  | .start _ | .read _ | .write _ | .close | .resume | .call _ | .newSession _ => true
  | _ => false

theorem facts_step (hin : w.loop.InOrder) (hprompt : w.Prompt l) (hl : turning l = false)
    (hs : w.step l = .ok w') : w'.facts = w.facts := by
  have hcases := w.step_cases l
  generalize w.step l = r at hcases hs
  cases hcases with
  | stop l r => cases hs
  | idle l => cases hs; rfl
  | @cycle k loop hk hloop =>
      have hstart : k ≠ .start := by rintro rfl; cases hk
      have hpush : ∀ i, k.pushes ≠ some (.newSession i) := fun i hi => by
        cases eq_user_of_passes hk hi
      have hfacts := facts_loop_of_step hin hstart hpush hloop
      cases hs
      split
      · exact facts_settle.trans hfacts
      · exact hfacts
  | poll hloop =>
      have hfacts := facts_loop_of_step hin (by simp) (by simp [LoopLabel.pushes]) hloop
      cases hs
      exact hfacts
  | dispatch => exact facts_dispatch hs
  | timer => cases hs; exact facts_user
  | @shutdownSet i htested =>
      cases hs
      refine facts_modify rfl rfl ?_
      rw [SessionState.opening_eq_during.mpr (hprompt htested)]
      rfl
  | shutdownEnd hshutting =>
      cases hs
      refine facts_modify ?_ ?_ ?_
      all_goals
        unfold Session.finishShutdown
        split <;> rfl
  | sendPush hmem hloop =>
      have hfacts := facts_loop_of_step hin (by simp) (by simp [LoopLabel.pushes]) hloop
      cases hs
      refine (facts_modify ?_ ?_ ?_).trans hfacts
      all_goals
        unfold Session.promise
        split <;> rfl
  | sendCheck hstate | shutdownCheck hstate | keep | drop =>
      cases hs
      exact facts_modify rfl rfl rfl
  | _ => cases hl

/-- **What a step does to the sessions.**  It changes nothing that is observed, or it makes one
turn. -/
theorem step_turn (hin : w.loop.InOrder) (hprompt : w.Prompt l) (hs : w.step l = .ok w') :
    Turns w l w' := by
  by_cases hnew : ∃ i, l = .newSession i
  · obtain ⟨i, rfl⟩ := hnew
    exact turns_newSession hs
  cases hl : turning l with
  | false => exact .inl (facts_step hin hprompt hl hs)
  | true =>
      have hcases := w.step_cases l
      generalize w.step l = r at hcases hs
      cases hcases with
      | stop l r => cases hs
      | idle l => cases hs; exact .inl rfl
      | start hstack hfun hloop => exact turns_start hstack hfun hloop hs
      | read hstack hread => exact turns_handleRead (facts_next hstack) (by simp) hs
      | write hstack hread hwrite => exact turns_handleWrite (facts_next hstack) (by simp) hs
      | close hstack hread hwrite hclosed =>
          exact turns_handleClose (facts_next hstack) (by simp) hs
      | resume => exact turns_resume hs
      | call huser => exact turns_call hs
      | @newSession i loop hloop => exact absurd ⟨i, rfl⟩ hnew
      | _ => cases hl

/-! ## Stages -/

/-- The stages of a session. -/
inductive Stage
  /-- It has not been made. -/
  | fresh
  /-- Its task is queued. -/
  | queued
  /-- The new-session callback runs. -/
  | establishing
  | opened
  /-- The connect callback of `HandleClose` runs. -/
  | closing
  /-- It has been taken out of the table. -/
  | gone
  deriving DecidableEq, Repr

/-- What is observed of a session in a stage. -/
def Stage.facts : Stage → Facts
  | fresh => ⟨false, false, .before, 0, 0, 0⟩
  | queued => ⟨true, false, .before, 1, 0, 0⟩
  | establishing => ⟨true, true, .before, 0, 1, 0⟩
  | opened => ⟨true, true, .during, 0, 0, 0⟩
  | closing => ⟨true, true, .after, 0, 0, 1⟩
  | gone => ⟨true, false, .after, 0, 0, 0⟩

/-- Each session is in a stage. -/
def Staged (w : Worker) : Prop := ∀ i, ∃ stage : Stage, w.facts i = stage.facts

theorem staged_init : init.Staged := fun _ => ⟨.fresh, rfl⟩

/-- A turn leads from a stage to the next one. -/
theorem Turn.stage {f : Facts} {stage : Stage} (h : Turn w l i f)
    (hstage : w.facts i = stage.facts) : ∃ stage' : Stage, f = stage'.facts := by
  cases h with
  | accept hcreated =>
      rw [hstage] at hcreated ⊢
      cases stage <;> cases hcreated
      exact ⟨.queued, rfl⟩
  | adopt hcreated howned =>
      rw [hstage] at hcreated ⊢
      cases stage <;> cases hcreated
      exact ⟨.establishing, rfl⟩
  | begin hstack hfun htasks howned =>
      rw [hstage] at htasks ⊢
      cases stage <;> cases htasks
      exact ⟨.establishing, rfl⟩
  | connect hstack hn hopen =>
      rw [hstage] at hn ⊢
      cases stage <;> cases hn
      exact ⟨.opened, rfl⟩
  | close hopen hl =>
      rw [hstage] at hopen ⊢
      cases stage <;> cases hopen
      exact ⟨.closing, rfl⟩
  | finish hstack hn howned =>
      rw [hstage] at hn ⊢
      cases stage <;> cases hn
      exact ⟨.gone, rfl⟩

/-- Every step keeps the sessions in their stages. -/
theorem staged_step (hin : w.loop.InOrder) (h : w.Staged) (hprompt : w.Prompt l)
    (hs : w.step l = .ok w') : w'.Staged := by
  rcases step_turn hin hprompt hs with hsame | ⟨i, f, hturn, hfacts⟩
  · intro j
    rw [hsame]
    exact h j
  · intro j
    rw [hfacts]
    by_cases hj : j = i
    · subst hj
      rw [Function.update_self]
      obtain ⟨stage, hstage⟩ := h j
      exact hturn.stage hstage
    · rw [Function.update_of_ne hj]
      exact h j

theorem staged_of_run {ls : List WorkerLabel} (hprompt : Meets step Prompt init ls)
    (hrun : run step init ls = .ok w) : w.Staged := by
  have hboth : w.loop.InOrder ∧ w.Staged :=
    invariant (fun w => w.loop.InOrder ∧ w.Staged)
      (fun _ _ _ h hc hs => ⟨step_inOrder h.1 hs, staged_step h.1 h.2 hc hs⟩)
      ⟨Loop.inOrder_init, staged_init⟩ hprompt hrun
  exact hboth.2

/-! ## The assertions -/

/-- The assertions on the table of sessions, and that of `ConnectEstablished`. -/
def asserted : Halt → Bool
  | .newSession _ | .destroy _ | .connectEstablished _ => true
  | .stop _ | .handleClose _ | .highWater _ => false

theorem Staged.fresh (h : w.Staged) (hfresh : (w.facts i).created = false) :
    w.facts i = Stage.fresh.facts := by
  obtain ⟨stage, hstage⟩ := h i
  rw [hstage] at hfresh ⊢
  cases stage <;> cases hfresh
  rfl

theorem Staged.queued (h : w.Staged) (htask : .newSession i ∈ w.tasks) :
    w.facts i = Stage.queued.facts := by
  obtain ⟨stage, hstage⟩ := h i
  have hpos : 0 < (w.facts i).tasks := List.count_pos_iff.mpr htask
  rw [hstage] at hpos ⊢
  cases stage <;> first | rfl | cases hpos

theorem Staged.establishing (h : w.Staged) (hest : .establish i ∈ w.stack) :
    w.facts i = Stage.establishing.facts := by
  obtain ⟨stage, hstage⟩ := h i
  have hpos : 0 < (w.facts i).establishes := List.count_pos_iff.mpr hest
  rw [hstage] at hpos ⊢
  cases stage <;> first | rfl | cases hpos

theorem Staged.opened (h : w.Staged) (hopen : (w.facts i).opening = .during) :
    w.facts i = Stage.opened.facts := by
  obtain ⟨stage, hstage⟩ := h i
  rw [hstage] at hopen ⊢
  cases stage <;> cases hopen
  rfl

/-- Between two tasks the sessions in the table are open. -/
theorem Staged.opened_of_owned (h : w.Staged) (hstack : w.stack = [])
    (howned : (w.sessions i).owned = true) : w.facts i = Stage.opened.facts := by
  obtain ⟨stage, hstage⟩ := h i
  have hown : (w.facts i).owned = true := howned
  have hestablishes : (w.facts i).establishes = 0 := by simp [facts, hstack]
  have hcloses : (w.facts i).closes = 0 := by simp [facts, hstack]
  rw [hstage] at hown hestablishes hcloses ⊢
  cases stage with
  | fresh | queued | gone => cases hown
  | establishing => cases hestablishes
  | opened => rfl
  | closing => cases hcloses

theorem Staged.closing (h : w.Staged) (hclosed : .closed i ∈ w.stack) :
    w.facts i = Stage.closing.facts := by
  obtain ⟨stage, hstage⟩ := h i
  have hpos : 0 < (w.facts i).closes := List.count_pos_iff.mpr hclosed
  rw [hstage] at hpos ⊢
  cases stage <;> first | rfl | cases hpos

theorem handleClose_not_asserted (hs : w.handleClose i = .error e) :
    asserted e = false := by
  rcases w.handleClose_cases i with ⟨-, hok⟩ | ⟨-, herr⟩
  · cases hok.symm.trans hs
  · cases herr.symm.trans hs
    rfl

theorem handleWrite_not_asserted (hs : w.handleWrite i accept = .error e) :
    asserted e = false := by
  unfold handleWrite at hs
  split at hs
  · split at hs
    · exact handleClose_not_asserted hs
    · cases hs
  · cases hs

theorem newSession_eq_ok (howned : (w.sessions i).owned = false) :
    ∃ w', w.newSession i = .ok w' := by
  simp [newSession, howned]

theorem perform_not_asserted (hnew : ∀ i, task = .newSession i → (w.sessions i).owned = false)
    (hs : w.perform accept task = .error e) : asserted e = false := by
  cases task with
  | user | written i => cases hs
  | newSession i =>
      obtain ⟨w', hok⟩ := newSession_eq_ok (hnew i rfl)
      cases hok.symm.trans hs
  | send i chunks =>
      simp only [perform, performSend] at hs
      split at hs
      · exact handleWrite_not_asserted hs
      · split at hs
        · split at hs <;> cases hs
          rfl
        · cases hs

theorem dispatch_not_asserted (hs : w.dispatch = .error e) : asserted e = false := by
  unfold dispatch at hs
  split at hs
  · simp only at hs
    split at hs <;> cases hs
  · cases hs
  · cases hs
    rfl

theorem Staged.resume_not_asserted (h : w.Staged) (hs : w.resume = .error e) :
    asserted e = false := by
  unfold resume at hs
  split at hs
  · cases hs
    rfl
  · cases hs
  · split at hs <;> cases hs
    rfl
  · next i stack hstack =>
      have howned : (w.sessions i).owned = true :=
        congrArg Facts.owned (h.closing (by simp [hstack]))
      rw [finishClose, if_pos howned] at hs
      cases hs
  · next i stack hstack =>
      have hopening : (w.sessions i).state.opening = .before :=
        congrArg Facts.opening (h.establishing (by simp [hstack]))
      rw [connectEstablished, if_pos (SessionState.opening_eq_before.mp hopening)] at hs
      cases hs
  · cases hs

theorem Staged.call_not_asserted (h : w.Staged)
    (hs : w.call c = .error e) : asserted e = false := by
  cases c with
  | forceClose i =>
      simp only [call] at hs
      split at hs
      · exact handleClose_not_asserted hs
      · exact handleClose_not_asserted hs
      · cases hs
  | newSession i =>
      simp only [call] at hs
      split at hs
      · cases hs
        rfl
      · next hcreated =>
          have howned :
              ((w.modify i fun s => { s with created := true }).sessions i).owned = false := by
            have hfresh : (w.sessions i).owned = false :=
              congrArg Facts.owned (h.fresh (by simpa [facts] using hcreated))
            simpa using hfresh
          obtain ⟨w', hok⟩ := newSession_eq_ok howned
          cases hok.symm.trans hs
  | send i m | shutdown i =>
      simp only [call] at hs
      split at hs <;> cases hs
  | _ => cases hs

/-- The assertions on the table and that of `ConnectEstablished` do not fail. -/
theorem step_ne_assert (h : w.Staged) (hs : w.step l = .error e) :
    asserted e = false := by
  have hcases := w.step_cases l
  generalize w.step l = r at hcases hs
  cases hcases with
  | stop l r => cases hs; rfl
  | dispatch => exact dispatch_not_asserted hs
  | @start accept q functions loop hstack hfun hloop =>
      refine perform_not_asserted (fun i htask => ?_) hs
      exact congrArg Facts.owned (h.queued (i := i) (by simp [tasks, hfun, htask]))
  | read hstack hread =>
      unfold handleRead at hs
      split at hs
      · exact handleClose_not_asserted hs
      · cases hs
  | write hstack hread hwrite => exact handleWrite_not_asserted hs
  | close hstack hread hwrite hclosed => exact handleClose_not_asserted hs
  | resume => exact h.resume_not_asserted hs
  | call huser => exact h.call_not_asserted hs
  | _ => cases hs

end Worker

end Hare.Net
