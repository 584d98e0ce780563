import Hare.Base.Fault
import Hare.Lib.LabelledRun
import Mathlib.Data.List.Nodup
import Mathlib.Data.List.Range

/-!
# The task queue of a cycle

The loop of a cycle and the threads that give it tasks, as one system of interleaved steps.
A step is a piece of code that no other thread can split: a critical section of
`functions_mutex`, one access to the notify descriptor, one move of the loop.  A call of
`QueueInCycle` from another thread is therefore two steps, the `push_back` and the
`Notify`, and anything can happen between them.

The tasks are numbered in the order of their `push_back`; `pushed` and `started` record the
history of a run and are read by no step.

## Main definitions

* `Phase`: where the cycle thread is.
* `Loop`, `LoopLabel`, `Loop.step`: the system.
* `Loop.NotStranded`: what should hold whenever the loop polls.
* `Loop.Announced`: the condition under which it does.

## Main results

* `Loop.queue_in_order`: tasks are started in the order of `push_back`, each once.
* `Loop.notStranded_iff_announced`: which calls can strand a task.
-/

namespace Hare.Io

open LabelledRun

/-- Where the cycle thread is. -/
inductive Phase
  /-- Outside `Exec`. -/
  | idle
  /-- In `Reactor::Poll`. -/
  | polling
  /-- Between the return of `Poll` and `DoPendingFunctions`, in the callbacks of events and
  timers; whether the notify event is active and not handled yet. -/
  | handling (unread : Bool)
  /-- In `DoPendingFunctions`, after the swap; whether a task has been started.  At the start of
  `Exec`, where no task is swapped out, the loop goes to its first test of `quit` from here. -/
  | calling (running : Bool)
  deriving DecidableEq, Repr

/-- A task with its place in the order of `push_back`. -/
structure Queued (τ : Type*) where
  ticket : ℕ
  task : τ
  deriving DecidableEq, Repr

/-- A cycle and the threads that use it. -/
structure Loop (τ : Type*) where
  phase : Phase
  quit : Bool
  /-- `pending_functions`. -/
  pending : List (Queued τ)
  /-- The tasks `DoPendingFunctions` has swapped out and not started yet. -/
  functions : List (Queued τ)
  /-- The counter of the notify descriptor. -/
  counter : ℕ
  /-- The other threads between the `push_back` and the `Notify` of `QueueInCycle`. -/
  senders : ℕ
  /-- The other threads in `Exit`, before its `Notify`. -/
  exiting : ℕ
  /-- All tasks queued so far. -/
  pushed : List (Queued τ)
  /-- All queued tasks started so far. -/
  started : List (Queued τ)
  deriving DecidableEq, Repr

/-- A step of the system.  `inThread` says whether the call is made on the cycle thread. -/
inductive LoopLabel (τ : Type*)
  /-- `Exec` starts, up to the first test of `quit`. -/
  | exec
  /-- `Poll` returns, with the notify event active or not. -/
  | pollReturn (ready : Bool)
  /-- The callback of the notify event reads the descriptor. -/
  | readNotify
  /-- `DoPendingFunctions` swaps the pending tasks out. -/
  | swap
  /-- The next swapped-out task is called. -/
  | start
  /-- The loop tests `quit`, at its start or when `DoPendingFunctions` has returned. -/
  | loop
  /-- The `push_back` of a call of `QueueInCycle`. -/
  | queueInCycle (inThread : Bool) (task : τ)
  /-- A call of `RunInCycle`, up to the `push_back` if it makes one. -/
  | runInCycle (inThread : Bool) (task : τ)
  /-- Another thread ends its `QueueInCycle`. -/
  | notify
  /-- A call of `Exit`, up to its `Notify`. -/
  | exit (inThread : Bool)
  /-- Another thread ends its `Exit`. -/
  | notifyExit
  deriving DecidableEq, Repr

/-- The task a step pushes. -/
def LoopLabel.pushes {τ : Type*} : LoopLabel τ → Option τ
  | .queueInCycle _ task => some task
  | .runInCycle false task => some task
  | _ => none

/-- The steps the loop takes by itself after an event has been handled. -/
def LoopLabel.own {τ : Type*} : LoopLabel τ → Bool
  | .exec | .start | .loop => true
  | _ => false

namespace Loop

variable {τ : Type*} {s s' : Loop τ} {l : LoopLabel τ} {ls : List (LoopLabel τ)} {q : Queued τ}
  {functions : List (Queued τ)}

def init : Loop τ where
  phase := .idle
  quit := false
  pending := []
  functions := []
  counter := 0
  senders := 0
  exiting := 0
  pushed := []
  started := []

/-- The write of `SendNotify`, which fails when the counter is at its maximum. -/
def sendNotify (counter : ℕ) : ℕ :=
  if counter < 0xfffffffffffffffe then counter + 1 else counter

/-- Whether the cycle thread runs code of the user: outside `Exec`, in a callback or in a
task. -/
def inUserCode (s : Loop τ) : Bool :=
  match s.phase with
  | .idle => true
  | .polling => false
  | .handling _ => true
  | .calling running => running

/-- `pending_functions.push_back`. -/
def push (s : Loop τ) (task : τ) : Loop τ :=
  let q := ⟨s.pushed.length, task⟩
  { s with pending := s.pending ++ [q], pushed := s.pushed ++ [q] }

/-- `QueueInCycle` up to its `Notify`, which only other threads send. -/
def queueInCycle (s : Loop τ) (inThread : Bool) (task : τ) : Except Stop (Loop τ) :=
  if inThread then
    if s.inUserCode then .ok (s.push task) else .error .disabled
  else
    .ok { s.push task with senders := s.senders + 1 }

def step (s : Loop τ) : LoopLabel τ → Except Stop (Loop τ)
  | .exec =>
    match s.phase with
    | .idle => .ok { s with phase := .calling false, quit := false }
    | _ => if s.inUserCode then .error (.fault .assertFailed) else .error .disabled
  | .pollReturn ready =>
    match s.phase with
    | .polling =>
      if ready ∧ s.counter = 0 then .error .disabled
      else .ok { s with phase := .handling ready }
    | _ => .error .disabled
  | .readNotify =>
    match s.phase with
    | .handling true => .ok { s with phase := .handling false, counter := 0 }
    | _ => .error .disabled
  | .swap =>
    match s.phase with
    | .handling false =>
      .ok { s with phase := .calling false, pending := [], functions := s.pending }
    | _ => .error .disabled
  | .start =>
    match s.phase, s.functions with
    | .calling _, q :: functions =>
      .ok { s with phase := .calling true, functions, started := s.started ++ [q] }
    | _, _ => .error .disabled
  | .loop =>
    match s.phase, s.functions with
    | .calling _, [] => .ok { s with phase := if s.quit then .idle else .polling }
    | _, _ => .error .disabled
  | .queueInCycle inThread task => s.queueInCycle inThread task
  | .runInCycle inThread task =>
    -- on the cycle thread the task is called at once and never queued
    if inThread then
      if s.inUserCode then .ok s else .error .disabled
    else
      s.queueInCycle false task
  | .notify =>
    if s.senders = 0 then .error .disabled
    else .ok { s with senders := s.senders - 1, counter := sendNotify s.counter }
  | .exit inThread =>
    if inThread then
      if s.inUserCode then .ok { s with quit := true } else .error .disabled
    else
      .ok { s with quit := true, exiting := s.exiting + 1 }
  | .notifyExit =>
    if s.exiting = 0 then .error .disabled
    else .ok { s with exiting := s.exiting - 1, counter := sendNotify s.counter }

/-- What a step that is taken does, one case for each way to take it. -/
inductive Step (s : Loop τ) : LoopLabel τ → Loop τ → Prop
  | exec (hp : s.phase = .idle) : Step s .exec { s with phase := .calling false, quit := false }
  | pollReturn {ready : Bool} (hp : s.phase = .polling) :
      Step s (.pollReturn ready) { s with phase := .handling ready }
  | readNotify (hp : s.phase = .handling true) :
      Step s .readNotify { s with phase := .handling false, counter := 0 }
  | swap (hp : s.phase = .handling false) :
      Step s .swap { s with phase := .calling false, pending := [], functions := s.pending }
  | start {running : Bool} {q : Queued τ} {functions : List (Queued τ)}
      (hp : s.phase = .calling running) (hq : s.functions = q :: functions) :
      Step s .start
        { s with phase := .calling true, functions, started := s.started ++ [q] }
  | loop {running : Bool} (hp : s.phase = .calling running) (hq : s.functions = []) :
      Step s .loop { s with phase := if s.quit then .idle else .polling }
  | queueOwn {task : τ} (hu : s.inUserCode = true) :
      Step s (.queueInCycle true task) (s.push task)
  | queueOther {l : LoopLabel τ} {task : τ} (hl : l.pushes = some task)
      (hne : l ≠ .queueInCycle true task) :
      Step s l { s.push task with senders := s.senders + 1 }
  | runOwn {task : τ} : Step s (.runInCycle true task) s
  | notify (hn : 0 < s.senders) : Step s .notify
      { s with senders := s.senders - 1, counter := sendNotify s.counter }
  | exit {inThread : Bool} {exiting : ℕ} :
      Step s (.exit inThread) { s with quit := true, exiting }
  | notifyExit : Step s .notifyExit
      { s with exiting := s.exiting - 1, counter := sendNotify s.counter }

theorem step_of_ok (hs : s.step l = .ok s') :
    Step s l s' := by
  cases l <;> simp only [step, queueInCycle] at hs
  case exec =>
    split at hs
    · next hp => cases hs; exact .exec hp
    · split at hs <;> cases hs
  case pollReturn ready =>
    split at hs
    · next hp => split at hs <;> cases hs; exact .pollReturn hp
    · cases hs
  case readNotify =>
    split at hs
    · next hp => cases hs; exact .readNotify hp
    · cases hs
  case swap =>
    split at hs
    · next hp => cases hs; exact .swap hp
    · cases hs
  case start =>
    split at hs
    · next hp hq => cases hs; exact .start hp hq
    · cases hs
  case loop =>
    split at hs
    · next hp hq => cases hs; exact .loop hp hq
    · cases hs
  case queueInCycle inThread task =>
    cases inThread with
    | true =>
        rw [if_pos rfl] at hs
        split at hs <;> cases hs
        next hu => exact .queueOwn hu
    | false => cases hs; exact .queueOther rfl (by simp)
  case runInCycle inThread task =>
    cases inThread with
    | true =>
        rw [if_pos rfl] at hs
        split at hs <;> cases hs
        exact .runOwn
    | false => cases hs; exact .queueOther rfl (by simp)
  case notify =>
    split at hs <;> cases hs
    next hn => exact .notify (Nat.pos_of_ne_zero hn)
  case exit inThread =>
    cases inThread with
    | true =>
        rw [if_pos rfl] at hs
        split at hs <;> cases hs
        exact .exit
    | false => cases hs; exact .exit
  case notifyExit =>
    split at hs <;> cases hs
    exact .notifyExit

/-! ## Order -/

/-- What holds of the queue in every state: nothing is lost, doubled or overtaken. -/
structure InOrder (s : Loop τ) : Prop where
  order : s.started ++ s.functions ++ s.pending = s.pushed
  tickets : s.pushed.map Queued.ticket = List.range s.pushed.length
  /-- Tasks are swapped out only while `DoPendingFunctions` runs. -/
  swapped : (∀ running, s.phase ≠ .calling running) → s.functions = []

theorem inOrder_init : (init : Loop τ).InOrder where
  order := rfl
  tickets := rfl
  swapped _ := rfl

theorem InOrder.push (h : s.InOrder) (task : τ) : (s.push task).InOrder where
  order := by
    simp only [Loop.push, ← h.order, List.append_assoc]
  tickets := by
    simp only [Loop.push, List.map_append, List.map_cons, List.map_nil, h.tickets,
      List.length_append, List.length_cons, List.length_nil, List.range_succ]
  swapped := h.swapped

/-- Every step keeps the order. -/
theorem InOrder.step (h : s.InOrder) (hs : Step s l s') :
    s'.InOrder := by
  cases hs with
  | exec hp => exact ⟨h.order, h.tickets, fun hne => absurd rfl (hne false)⟩
  | pollReturn hp | readNotify hp =>
      exact ⟨h.order, h.tickets, fun _ => h.swapped (by simp [hp])⟩
  | swap hp =>
      have hnil : s.functions = [] := h.swapped (by simp [hp])
      refine ⟨?_, h.tickets, fun hne => absurd rfl (hne false)⟩
      simpa [hnil] using h.order
  | start hp hq =>
      refine ⟨?_, h.tickets, fun hne => absurd rfl (hne true)⟩
      simpa [hq] using h.order
  | loop hp hq => exact ⟨h.order, h.tickets, fun _ => hq⟩
  | queueOwn hu => exact h.push _
  | @queueOther l task hl hne =>
      have hpush := h.push task
      exact ⟨hpush.order, hpush.tickets, hpush.swapped⟩
  | runOwn => exact h
  | notify hn | exit | notifyExit => exact ⟨h.order, h.tickets, h.swapped⟩

theorem step_start {running : Bool}
    (hp : s.phase = .calling running)
    (hq : s.functions = q :: functions) :
    s.step .start =
      .ok { s with phase := .calling true, functions, started := s.started ++ [q] } := by
  simp [step, hp, hq]

/-- A task that has been swapped out can be started. -/
theorem InOrder.exists_start (h : s.InOrder)
    (hq : s.functions = q :: functions) :
    ∃ s', s.step .start = .ok s' := by
  cases hp : s.phase with
  | calling running => exact ⟨_, step_start hp hq⟩
  | _ =>
      have hnil : s.functions = [] := h.swapped (by simp [hp])
      rw [hnil] at hq
      cases hq

/-- The tasks that have been queued and not started. -/
def waiting (s : Loop τ) : List τ := (s.functions ++ s.pending).map Queued.task

theorem waiting_push (s : Loop τ) (task : τ) : (s.push task).waiting = s.waiting ++ [task] := by
  simp [waiting, push]

/-- A step moves queued tasks, and adds the ones it pushes. -/
theorem Step.waiting_eq (h : s.InOrder) (hs : Step s l s')
    (hl : l ≠ .start) : s'.waiting = s.waiting ++ l.pushes.toList := by
  cases hs with
  | swap hp =>
      have hnil : s.functions = [] := h.swapped (by simp [hp])
      simp [waiting, hnil, LoopLabel.pushes]
  | start hp hq => exact absurd rfl hl
  | queueOwn hu => exact s.waiting_push _
  | queueOther hpush hne =>
      rw [hpush]
      exact s.waiting_push _
  | _ => simp [waiting, LoopLabel.pushes]

/-- The task that is started is the first one. -/
theorem Step.waiting_start (hs : Step s .start s') (hq : s.functions = q :: functions) :
    s.waiting = q.task :: s'.waiting := by
  cases hs with
  | start hp hq' =>
      cases hq.symm.trans hq'
      simp [waiting, hq]
  | queueOther hpush hne => cases hpush

/-- A step adds to the history what it pushes. -/
theorem Step.pushed_eq (hs : Step s l s') :
    s'.pushed.map Queued.task = s.pushed.map Queued.task ++ l.pushes.toList := by
  cases hs with
  | queueOther hl hne => simp [hl, push]
  | queueOwn hu => simp [LoopLabel.pushes, push]
  | _ => simp [LoopLabel.pushes]

/-- The history of a run is what its steps push. -/
theorem pushed_of_run (hrun : run step s ls = .ok s') :
    s'.pushed.map Queued.task = s.pushed.map Queued.task ++ ls.filterMap LoopLabel.pushes := by
  induction ls generalizing s with
  | nil => cases hrun; simp
  | cons l ls ih =>
      obtain ⟨m, hl, hrest⟩ := run_cons_eq_ok hrun
      rw [ih hrest, (step_of_ok hl).pushed_eq, List.append_assoc]
      congr 1
      cases hp : l.pushes <;> simp [hp]

/-- **Tasks are started in the order they were queued, each once.**  In every state of every
interleaving, the tasks started so far, then the ones swapped out, then the pending ones are
the tasks of all `push_back` steps, in the order of these steps and without repetition. -/
theorem queue_in_order {ls : List (LoopLabel τ)} {s : Loop τ} (hrun : run step init ls = .ok s) :
    s.started ++ s.functions ++ s.pending = s.pushed ∧ s.pushed.Nodup ∧
      s.pushed.map Queued.task = ls.filterMap LoopLabel.pushes := by
  have h : s.InOrder :=
    invariant_of_step InOrder (fun _ _ _ h hl => h.step (step_of_ok hl)) inOrder_init hrun
  refine ⟨h.order, List.Nodup.of_map Queued.ticket ?_, ?_⟩
  · rw [h.tickets]
    exact List.nodup_range
  · simpa [init] using pushed_of_run hrun

/-- Two threads and a callback queue a task while the loop handles events, and the first
task queues another one when it is called. -/
def chatter : List (LoopLabel ℕ) :=
  [.exec, .loop, .pollReturn false, .queueInCycle false 10, .queueInCycle true 20, .notify,
    .swap, .start, .queueInCycle true 30, .runInCycle false 40, .start]

theorem queue_in_order_chatter :
    ∃ s, run step init chatter = .ok s ∧ s.started = [⟨0, 10⟩, ⟨1, 20⟩] ∧
      s.pending = [⟨2, 30⟩, ⟨3, 40⟩] ∧
      s.started ++ s.functions ++ s.pending = s.pushed ∧ s.pushed.Nodup ∧
      s.pushed.map Queued.task = chatter.filterMap LoopLabel.pushes :=
  ⟨_, rfl, rfl, rfl, queue_in_order rfl⟩

/-! ## Wake-ups -/

/-- Somebody will wake the loop: the notify descriptor has an unread notification, or
another thread is about to send one. -/
def Woken (s : Loop τ) : Prop := 0 < s.counter ∨ 0 < s.senders

/-- What should hold whenever the loop polls. -/
def NotStranded (s : Loop τ) : Prop :=
  s.phase = .polling → s.pending ≠ [] → s.Woken

/-- The cycle thread runs code of the user from which the loop goes to `Poll` without a
swap: a task, or the code before `Exec`. -/
def unswapped (s : Loop τ) : Bool :=
  match s.phase with
  | .idle => true
  | .calling running => running
  | _ => false

/-- A task that the cycle thread queues where no swap follows finds the loop woken. -/
def Announced (s : Loop τ) : LoopLabel τ → Prop
  | .queueInCycle true _ => s.unswapped = true → s.Woken
  | _ => True

/-- Outside the handling of events, pending tasks have a wake-up. -/
def Covered (s : Loop τ) : Prop :=
  (∀ unread, s.phase ≠ .handling unread) → s.pending ≠ [] → s.Woken

theorem sendNotify_pos (counter : ℕ) : 0 < sendNotify counter := by
  unfold sendNotify
  split <;> omega

theorem Covered.step (h : s.Covered) (hc : s.Announced l)
    (hs : Step s l s') : s'.Covered := by
  cases hs with
  | exec hp | start hp hq | loop hp hq => exact fun _ hne => h (by simp [hp]) hne
  | pollReturn hp | readNotify hp => exact fun hn => absurd rfl (hn _)
  | swap hp => exact fun _ hne => absurd rfl hne
  | queueOwn hu =>
      intro hn _
      refine hc ?_
      unfold inUserCode at hu
      unfold unswapped
      cases hp : s.phase with
      | idle => rfl
      | polling => simp [hp] at hu
      | handling unread => exact absurd hp (hn unread)
      | calling running => simpa [hp] using hu
  | queueOther hl hne => exact fun _ _ => Or.inr (Nat.succ_pos _)
  | runOwn | exit => exact h
  | notify hn | notifyExit => exact fun _ _ => Or.inl (sendNotify_pos _)

theorem covered_init : (init : Loop τ).Covered := fun _ hne => absurd rfl hne

theorem covered_of_run (h : s.Covered)
    (hm : Meets step Announced s ls) (hrun : run step s ls = .ok s') : s'.Covered :=
  invariant Covered (fun _ _ _ h hc hs => h.step hc (step_of_ok hs)) h hm hrun

/-- The steps of the loop itself are not restricted. -/
theorem announced_of_own (hl : l.own = true) (s : Loop τ) :
    s.Announced l := by
  cases l <;> trivial

theorem meets_of_own {es : List (LoopLabel τ)} (h : ∀ l ∈ es, l.own = true) (s : Loop τ) :
    Meets step Announced s es := by
  induction es generalizing s with
  | nil => trivial
  | cons l es ih =>
      exact ⟨announced_of_own (h l List.mem_cons_self) s,
        fun s' _ => ih (fun l' hl' => h l' (List.mem_cons_of_mem l hl')) s'⟩

/-- The loop reaches `Poll` by its own steps, with the queue and the wake-ups as they are. -/
def ReachesPoll (s : Loop τ) : Prop :=
  ∃ es s', (∀ l ∈ es, l.own = true) ∧ run step s es = .ok s' ∧ s'.phase = .polling ∧
    s'.pending = s.pending ∧ s'.counter = s.counter ∧ s'.senders = s.senders

theorem ReachesPoll.of_step {s m : Loop τ} (hl : l.own = true)
    (hs : s.step l = .ok m) (hp : m.pending = s.pending) (hc : m.counter = s.counter)
    (hn : m.senders = s.senders) (h : m.ReachesPoll) : s.ReachesPoll := by
  obtain ⟨es, s', hes, hrun, hphase, hp', hc', hn'⟩ := h
  refine ⟨l :: es, s', ?_, by rw [run_cons_ok hs, hrun], hphase, hp'.trans hp, hc'.trans hc,
    hn'.trans hn⟩
  intro k hk
  rcases List.mem_cons.mp hk with rfl | hk
  · exact hl
  · exact hes k hk

theorem reachesPoll_of_polling (hp : s.phase = .polling) : s.ReachesPoll :=
  ⟨[], s, by simp, rfl, hp, rfl, rfl, rfl⟩

/-- The tasks still to be called are called, and the loop turns. -/
theorem reachesPoll_of_turn {running : Bool} (hp : s.phase = .calling running)
    (hturn : ReachesPoll
      { s with
        phase := if s.quit then .idle else .polling
        functions := []
        started := s.started ++ s.functions }) : s.ReachesPoll := by
  obtain ⟨functions, hq⟩ : ∃ functions, s.functions = functions := ⟨_, rfl⟩
  induction functions generalizing s running with
  | nil =>
      have hs : s.step .loop = .ok { s with phase := if s.quit then .idle else .polling } := by
        simp [step, hp, hq]
      refine ReachesPoll.of_step rfl hs rfl rfl rfl ?_
      simpa [hq] using hturn
  | cons q functions ih =>
      refine ReachesPoll.of_step rfl (step_start hp hq) rfl rfl rfl (ih rfl ?_ rfl)
      simpa [hq] using hturn

theorem reachesPoll_of_idle (hp : s.phase = .idle) : s.ReachesPoll := by
  have hs : s.step .exec = .ok { s with phase := .calling false, quit := false } := by
    simp [step, hp]
  exact ReachesPoll.of_step rfl hs rfl rfl rfl
    (reachesPoll_of_turn rfl (reachesPoll_of_polling rfl))

theorem reachesPoll_of_calling {running : Bool} (hp : s.phase = .calling running) :
    s.ReachesPoll := by
  refine reachesPoll_of_turn hp ?_
  cases hquit : s.quit with
  | true => exact reachesPoll_of_idle (by simp)
  | false => exact reachesPoll_of_polling (by simp)

theorem reachesPoll_of_unswapped (h : s.unswapped = true) : s.ReachesPoll := by
  unfold unswapped at h
  split at h
  · next hp => exact reachesPoll_of_idle hp
  · next hp => exact reachesPoll_of_calling hp
  · cases h

theorem inUserCode_of_unswapped (h : s.unswapped = true) :
    s.inUserCode = true := by
  unfold unswapped at h
  unfold inUserCode
  split at h <;> simp_all

/-- A task queued where no swap follows and nobody wakes the loop is stranded. -/
theorem stranded_of_not_announced (hbad : ¬ s.Announced l) :
    ∃ es s', (∀ k ∈ es, k.own = true) ∧ run step s (l :: es) = .ok s' ∧
      ¬ s'.NotStranded := by
  unfold Announced at hbad
  split at hbad
  · next task =>
      simp only [Classical.not_imp] at hbad
      obtain ⟨hu, hasleep⟩ := hbad
      have hs : s.step (.queueInCycle true task) = .ok (s.push task) := by
        simp [step, queueInCycle, inUserCode_of_unswapped hu]
      obtain ⟨es, s', hes, hrun, hphase, hp, hc, hn⟩ :=
        reachesPoll_of_unswapped (s := s.push task) hu
      refine ⟨es, s', hes, by rw [run_cons_ok hs, hrun], fun h => hasleep ?_⟩
      have hwoken := h hphase (by simp [hp, push])
      rw [Woken, hc, hn] at hwoken
      exact hwoken
  · exact absurd trivial hbad

/-- **Which calls can strand a task.**  Take any interleaving and let the loop go on by
itself from any point of it.  Whenever it polls with tasks pending it is going to be woken,
exactly when every task queued by the cycle thread outside the handling of events was
queued while somebody was going to wake the loop. -/
theorem notStranded_iff_announced (ls : List (LoopLabel τ)) :
    (∀ ks es s', ks <+: ls → (∀ l ∈ es, l.own = true) →
      run step init (ks ++ es) = .ok s' → s'.NotStranded) ↔ Meets step Announced init ls := by
  constructor
  · intro hall
    by_contra hm
    obtain ⟨ks, l, m, hpre, hks, hbad⟩ := exists_of_not_meets hm
    obtain ⟨es, s', hes, hrun, hstranded⟩ := stranded_of_not_announced hbad
    refine hstranded (hall (ks ++ [l]) es s' hpre hes ?_)
    rw [List.append_assoc, run_append hks]
    exact hrun
  · intro hm ks es s' hpre hes hrun hphase
    obtain ⟨m, hks, hrest⟩ := run_append_eq_ok hrun
    have hcov : m.Covered := covered_of_run covered_init (hm.of_isPrefix hpre) hks
    exact covered_of_run hcov (meets_of_own hes m) hrest (by simp [hphase])

/-- A task queues another one while no other thread does anything: the loop polls with the
task pending and no notification. -/
theorem task_strands_task :
    ∃ s : Loop ℕ, run step init [.exec, .loop, .queueInCycle false 0, .notify,
        .pollReturn true, .readNotify, .swap, .start, .queueInCycle true 1, .loop] = .ok s ∧
      s.phase = .polling ∧ s.pending = [⟨1, 1⟩] ∧ s.counter = 0 ∧ s.senders = 0 ∧
      ¬ s.NotStranded := by
  refine ⟨⟨.polling, false, [⟨1, 1⟩], [], 0, 0, 0, [⟨0, 0⟩, ⟨1, 1⟩], [⟨0, 0⟩]⟩, rfl, rfl, rfl,
    rfl, rfl, ?_⟩
  simp [NotStranded, Woken]

end Loop

end Hare.Io
