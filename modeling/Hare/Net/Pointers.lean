import Hare.Net.Stages

/-!
# The pointers to a session

A session is destroyed when nothing refers to it any more: neither the table of the worker nor the
user, no queued task and no function on the stack.  No step makes a pointer to such a session
(`alive_of_step`), other than a call of `Send` or `Append` on another thread, which goes on with the
pointer of its caller.
-/

namespace Hare.Net

open LabelledRun Io

namespace Worker

variable {w w' v : Worker} {l : WorkerLabel} {i : ℕ} {frame : Frame} {accept : ℕ}
  {stack : List Frame}

/-- What still points to a session. -/
theorem alive_iff : w.alive i = true ↔ (w.sessions i).owned = true ∨ (w.sessions i).held = true ∨
    (∃ task ∈ w.tasks, task.keeps = some i) ∨ ∃ frame ∈ w.stack, frame.keeps = some i := by
  simp only [alive, tasks, Bool.or_eq_true, List.any_eq_true, beq_iff_eq, List.mem_map, or_assoc]
  constructor
  · rintro (h | h | ⟨q, hq, hk⟩ | h)
    · exact .inl h
    · exact .inr (.inl h)
    · exact .inr (.inr (.inl ⟨q.task, ⟨q, hq, rfl⟩, hk⟩))
    · exact .inr (.inr (.inr h))
  · rintro (h | h | ⟨task, ⟨q, hq, rfl⟩, hk⟩ | h)
    · exact .inl h
    · exact .inr (.inl h)
    · exact .inr (.inr (.inl ⟨q, hq, hk⟩))
    · exact .inr (.inr (.inr h))

/-- Only sessions in `P` are pointed to. -/
def Within (P : ℕ → Prop) (w : Worker) : Prop := ∀ i, w.alive i = true → P i

section Within

variable {P : ℕ → Prop}

/-- Nothing is pointed to that was not before, but for sessions in `P`. -/
theorem Within.of_new (h : Within P v)
    (howned : ∀ i, (w'.sessions i).owned = true → (v.sessions i).owned = true ∨ P i)
    (hheld : ∀ i, (w'.sessions i).held = true → (v.sessions i).held = true ∨ P i)
    (htasks : ∀ task ∈ w'.tasks, task ∈ v.tasks ∨ ∀ i, task.keeps = some i → P i)
    (hstack : ∀ frame ∈ w'.stack, frame ∈ v.stack ∨ ∀ i, frame.keeps = some i → P i) :
    Within P w' := by
  intro i hi
  rcases alive_iff.mp hi with ho | hh | ⟨task, hmem, hkeeps⟩ | ⟨frame, hmem, hkeeps⟩
  · exact (howned i ho).elim (fun ho => h i (alive_iff.mpr (.inl ho))) id
  · exact (hheld i hh).elim (fun hh => h i (alive_iff.mpr (.inr (.inl hh)))) id
  · rcases htasks task hmem with hold | hnew
    · exact h i (alive_iff.mpr (.inr (.inr (.inl ⟨task, hold, hkeeps⟩))))
    · exact hnew i hkeeps
  · rcases hstack frame hmem with hold | hnew
    · exact h i (alive_iff.mpr (.inr (.inr (.inr ⟨frame, hold, hkeeps⟩))))
    · exact hnew i hkeeps

theorem Within.enter {frames : List Frame} (h : Within P v)
    (hframes : ∀ frame ∈ frames, ∀ i, frame.keeps = some i → P i) : Within P (v.enter frames) := by
  refine h.of_new (fun _ => .inl) (fun _ => .inl) (fun _ => .inl) fun frame hmem => ?_
  exact (List.mem_append.mp hmem).elim (fun hnew => .inr (hframes frame hnew)) .inl

theorem Within.user (h : Within P v) : Within P (v.enter [.user]) :=
  h.enter (by simp [Frame.keeps])

/-- Code of the user is called by a function that goes on afterwards. -/
theorem Within.call (h : Within P v) (hframe : frame.keeps = some i) (hi : P i) :
    Within P (v.enter [.user, frame]) := by
  refine h.enter fun f hmem j hj => ?_
  simp only [List.mem_cons, List.not_mem_nil, or_false] at hmem
  rcases hmem with rfl | rfl
  · cases hj
  · cases hframe.symm.trans hj
    exact hi

theorem Within.queue {task : Task} (h : Within P v) (htask : ∀ i, task.keeps = some i → P i) :
    Within P (v.queue task) := by
  refine h.of_new (fun _ => .inl) (fun _ => .inl) (fun t hmem => ?_) fun _ => .inl
  rw [tasks_queue, List.mem_append, List.mem_singleton] at hmem
  rcases hmem with hold | rfl
  · exact .inl hold
  · exact .inr htask

/-- A change of one session.  Its flags may be set if it is in `P`. -/
theorem Within.modify {f : Session → Session} (h : Within P v)
    (howned : (f (v.sessions i)).owned = true → (v.sessions i).owned = true ∨ P i)
    (hheld : (f (v.sessions i)).held = true → (v.sessions i).held = true ∨ P i) :
    Within P (v.modify i f) := by
  refine h.of_new (fun j hj => ?_) (fun j hj => ?_) (fun _ => .inl) fun _ => .inl
  · by_cases hji : j = i
    · subst hji
      exact howned (by simpa using hj)
    · exact .inl (by simpa [modify_other v hji] using hj)
  · by_cases hji : j = i
    · subst hji
      exact hheld (by simpa using hj)
    · exact .inl (by simpa [modify_other v hji] using hj)

theorem Within.keep {f : Session → Session} (h : Within P v)
    (howned : (f (v.sessions i)).owned = (v.sessions i).owned)
    (hheld : (f (v.sessions i)).held = (v.sessions i).held) : Within P (v.modify i f) :=
  h.modify (fun ho => .inl (howned ▸ ho)) fun hh => .inl (hheld ▸ hh)

theorem Within.handleClose (h : Within P v) (hi : P i) (hs : v.handleClose i = .ok w') :
    Within P w' := by
  rcases v.handleClose_cases i with ⟨-, hok⟩ | ⟨-, herr⟩
  · cases hok.symm.trans hs
    exact Within.call (h.keep rfl rfl) rfl hi
  · cases herr.symm.trans hs

theorem Within.written (h : Within P v) (hi : P i) (accept : ℕ) :
    Within P (v.written i accept) := by
  have hwrite : Within P (v.modify i (Session.write · accept)) := h.keep rfl rfl
  unfold Worker.written
  split
  · exact (hwrite.keep rfl rfl).queue fun j hj => by cases hj; exact hi
  · exact hwrite

theorem Within.handleWrite (h : Within P v) (hi : P i)
    (hs : v.handleWrite i accept = .ok w') : Within P w' := by
  unfold Worker.handleWrite at hs
  split at hs
  · split at hs
    · exact (h.written hi accept).handleClose hi hs
    · cases hs
      exact h.written hi accept
  · cases hs
    exact h

theorem Within.performSend {chunks : List (List UInt8)} (h : Within P v) (hi : P i)
    (hs : v.performSend i chunks accept = .ok w') : Within P w' := by
  have happend : Within P (v.modify i (Session.append · chunks)) := h.keep rfl rfl
  unfold Worker.performSend at hs
  split at hs
  · exact (happend.keep rfl rfl).handleWrite hi hs
  · split at hs
    · split at hs <;> cases hs
      exact happend.user
    · cases hs
      exact happend

theorem Within.newSession (h : Within P v) (hi : P i) (hs : v.newSession i = .ok w') :
    Within P w' := by
  unfold Worker.newSession at hs
  split at hs <;> cases hs
  exact Within.call (h.modify (fun _ => .inr hi) fun hh => .inl hh) rfl hi

/-- A step of the loop, other than the start of a task. -/
theorem Within.loop {k : LoopLabel Task} {loop : Loop Task} (h : Within P v)
    (hin : v.loop.InOrder) (hk : k ≠ .start)
    (hpush : ∀ task, k.pushes = some task → ∀ i, task.keeps = some i → P i)
    (hs : Loop.Step v.loop k loop) : Within P { v with loop } := by
  refine h.of_new (fun _ => .inl) (fun _ => .inl) (fun task hmem => ?_) fun _ => .inl
  rcases tasks_loop hin hk hs with htasks | htasks
  · rw [htasks, List.mem_append, Option.mem_toList] at hmem
    exact hmem.elim .inl fun hnew => .inr (hpush task hnew)
  · exact .inl (htasks ▸ hmem)

theorem Within.settle (h : Within P v) : Within P v.settle := by
  unfold Worker.settle
  split
  · exact h.of_new (fun _ => .inl) (fun _ => .inl) (fun _ => .inl) fun _ => .inl
  · exact h

theorem Within.pop (h : Within P v)
    (hstack : v.stack = frame :: stack) : Within P { v with stack } :=
  h.of_new (fun _ => .inl) (fun _ => .inl) (fun _ => .inl)
    fun _ hf => .inl (hstack ▸ List.mem_cons_of_mem _ hf)

theorem Within.of_frame (h : Within P v)
    (hstack : v.stack = frame :: stack) (hi : frame.keeps = some i) : P i :=
  h i (alive_iff.mpr (.inr (.inr (.inr ⟨frame, hstack ▸ List.mem_cons_self, hi⟩))))

theorem Within.next {revents revents' : Events} (h : Within P v)
    (hstack : v.stack = .callback i revents :: stack) :
    Within P { v with stack := .callback i revents' :: stack } := by
  have henter : Within P (({ v with stack } : Worker).enter [.callback i revents']) :=
    (h.pop hstack).enter fun frame hmem j hj => by
      cases List.mem_singleton.mp hmem
      exact h.of_frame hstack hj
  exact henter

/-- `HandleEvent` calls back for an object that is alive. -/
theorem alive_of_handleEvent {e : Event} (h : e.handleEvent = true) : e.alive = true := by
  unfold Event.handleEvent at h
  split at h
  · split at h
    · cases h
    · next halive => simpa using halive
  · cases h

theorem Within.dispatch (h : Within P w) (hs : w.dispatch = .ok w') : Within P w' := by
  unfold Worker.dispatch at hs
  split at hs
  · simp only at hs
    split at hs <;> cases hs
    · next i revents active _ _ _ hcall =>
        refine Within.enter h fun frame hmem j hj => ?_
        cases List.mem_singleton.mp hmem
        cases hj
        exact h i (alive_of_handleEvent hcall)
    · exact h
  · cases hs
    exact Within.user h
  · cases hs

theorem Within.resume (h : Within P w) (hs : w.resume = .ok w') : Within P w' := by
  unfold Worker.resume at hs
  split at hs
  · cases hs
  · next stack hstack =>
      cases hs
      exact h.pop hstack
  · next i revents stack hstack =>
      split at hs <;> cases hs
      exact h.pop hstack
  · next i stack hstack =>
      unfold finishClose at hs
      split at hs <;> cases hs
      exact (h.pop hstack).modify (fun ho => by cases ho) fun hh => .inl hh
  · next i stack hstack =>
      unfold connectEstablished at hs
      split at hs <;> cases hs
      exact Within.call ((h.pop hstack).keep rfl rfl) rfl (h.of_frame hstack rfl)
  · next i stack hstack =>
      cases hs
      exact (h.pop hstack).keep rfl rfl

end Within

/-- The session a step may make a pointer to: a new one, or one that another thread calls. -/
def makes : WorkerLabel → Option ℕ
  | .newSession i | .call (.newSession i) | .sendPush i _ => some i
  | _ => none

theorem Staged.within_call {P : ℕ → Prop} {c : UserCall} (h : w.Staged) (hw : Within P w)
    (hmakes : ∀ i, makes (.call c) = some i → P i) (hs : w.call c = .ok w') : Within P w' := by
  have hopen : ∀ i, (w.sessions i).state.opening = .during → P i := fun i hi =>
    hw i (alive_iff.mpr (.inl (congrArg Facts.owned (h.opened hi))))
  cases c with
  | send i m =>
      simp only [call] at hs
      split at hs <;> cases hs
      · next hstate =>
          have hi : P i := hopen i (by simp [hstate, SessionState.opening])
          refine Within.keep (hw.queue fun j hj => by cases hj; exact hi) ?_ ?_
          all_goals
            unfold Session.promise
            split <;> rfl
      · exact hw
  | shutdown i =>
      simp only [call] at hs
      split at hs <;> cases hs
      · refine hw.keep ?_ ?_
        all_goals
          unfold Session.finishShutdown
          split <;> rfl
      · exact hw
  | forceClose i =>
      simp only [call] at hs
      split at hs
      · next hstate => exact hw.handleClose (hopen i (by simp [hstate, SessionState.opening])) hs
      · next hstate => exact hw.handleClose (hopen i (by simp [hstate, SessionState.opening])) hs
      · cases hs
        exact hw
  | newSession i =>
      simp only [call] at hs
      split at hs
      · cases hs
      · exact Within.newSession (hw.keep rfl rfl) (hmakes i rfl) hs
  | setHighWaterMark i n | setHighWaterCallback i set =>
      cases hs
      exact hw.keep rfl rfl
  | startRead i =>
      obtain ⟨read, mask, reading, rfl⟩ := call_reading (.inl rfl) hs
      exact hw.keep rfl rfl
  | stopRead i =>
      obtain ⟨read, mask, reading, rfl⟩ := call_reading (.inr rfl) hs
      exact hw.keep rfl rfl

/-- A task is taken from the queue and called. -/
theorem Within.start {P : ℕ → Prop} {q : Queued Task} {functions : List (Queued Task)}
    {loop : Loop Task} (h : Within P w) (hfun : w.loop.functions = q :: functions)
    (hloop : Loop.Step w.loop .start loop)
    (hs : ({ w with loop } : Worker).perform accept q.task = .ok w') : Within P w' := by
  have htasks : w.tasks = q.task :: ({ w with loop } : Worker).tasks := tasks_start hfun hloop
  have htask : ∀ i, q.task.keeps = some i → P i := fun i hi =>
    h i (alive_iff.mpr (.inr (.inr (.inl ⟨q.task, by simp [htasks], hi⟩))))
  have hpop : Within P { w with loop } :=
    h.of_new (fun _ => .inl) (fun _ => .inl) (fun task hmem => .inl (by simp [htasks, hmem]))
      fun _ => .inl
  obtain ⟨ticket, task⟩ := q
  cases task with
  | user | written i =>
      cases hs
      exact hpop.user
  | send i chunks => exact hpop.performSend (htask i rfl) hs
  | newSession i => exact hpop.newSession (htask i rfl) hs

/-- **No pointer comes from nowhere.**  What a step leaves a pointer to had one before, unless the
step makes the session, or is a call on another thread. -/
theorem alive_of_step (hin : w.loop.InOrder) (h : w.Staged) (hs : w.step l = .ok w')
    (hi : w'.alive i = true) : w.alive i = true ∨ makes l = some i := by
  have hw : Within (fun i => w.alive i = true ∨ makes l = some i) w := fun _ => .inl
  suffices hw' : Within (fun i => w.alive i = true ∨ makes l = some i) w' from hw' i hi
  clear hi
  have hstep := hs
  have hcases := w.step_cases l
  generalize w.step l = r at hcases hs
  cases hcases with
  | stop l r => cases hs
  | idle l => cases hs; exact hw
  | @cycle k loop hk hloop =>
      have hstart : k ≠ .start := by rintro rfl; cases hk
      have hnext := hw.loop hin hstart (fun task htask j hj => by
        cases eq_user_of_passes hk htask
        cases hj) hloop
      cases hs
      split
      · exact hnext.settle
      · exact hnext
  | poll hloop =>
      have hnext := hw.loop hin (by simp) (by simp [LoopLabel.pushes]) hloop
      cases hs
      exact hnext
  | dispatch => exact hw.dispatch hs
  | timer => cases hs; exact hw.user
  | start hstack hfun hloop => exact hw.start hfun hloop hs
  | read hstack hread =>
      unfold handleRead at hs
      split at hs
      · exact (hw.next hstack).handleClose (hw.of_frame hstack rfl) hs
      · cases hs
        exact (hw.next hstack).user
  | write hstack hread hwrite =>
      exact (hw.next hstack).handleWrite (hw.of_frame hstack rfl) hs
  | close hstack hread hwrite hclosed =>
      exact (hw.next hstack).handleClose (hw.of_frame hstack rfl) hs
  | resume => exact hw.resume hs
  | call huser => exact h.within_call hw (fun _ => .inr) hs
  | shutdownCheck hstate | shutdownSet htested | sendCheck hstate =>
      cases hs
      exact hw.keep rfl rfl
  | drop =>
      cases hs
      exact hw.modify .inl fun hh => by cases hh
  | shutdownEnd hshutting =>
      cases hs
      refine hw.keep ?_ ?_
      all_goals
        unfold Session.finishShutdown
        split <;> rfl
  | sendPush hmem hloop =>
      have hnext := hw.loop hin (by simp) (fun task htask j hj => by
        cases htask; exact .inr hj) hloop
      cases hs
      refine hnext.keep ?_ ?_
      all_goals
        unfold Session.promise
        split <;> rfl
  | newSession hloop =>
      have hnext := hw.loop hin (by simp) (fun task htask j hj => by
        cases htask; exact .inr hj) hloop
      cases hs
      exact hnext.keep rfl rfl
  | @keep i =>
      have halive : w.alive i = true := by
        simp only [step] at hstep
        split at hstep
        · assumption
        · cases hstep
      cases hs
      exact hw.modify .inl fun _ => .inr (.inl halive)

end Worker

end Hare.Net
