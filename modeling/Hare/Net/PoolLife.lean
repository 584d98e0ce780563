import Hare.Net.PoolStop
import Mathlib.Data.List.TakeWhile

/-!
# The life of a pool

`IOPool::Start` makes one thread for each item; the thread makes a cycle, runs it, and deletes it.
`IOPool::Stop` queues a closure on each cycle, which closes the sessions of the item and calls
`Exit`, and joins the threads.  In between, the server queues tasks on the cycles
(`TcpServe::NewSession`).  All of this happens on the thread of the server, the main thread; nobody
waits for a cycle to be made, or keeps one from being deleted.

The system is the main thread together with the loops of `Hare.Base.Cycle`.  Code of the user that
runs on a worker may queue tasks of its own there, but does not call `Exit`.  The sessions of an
item come and go on its thread, as the tasks and events there have it; what the closure of `Stop`
does to them is the loop of `Hare.Net.PoolStop`.
-/

namespace Hare.Net

open LabelledRun Io

/-- A task of the cycle of an item. -/
inductive ItemTask (τ : Type*)
  /-- The closure of `Stop`. -/
  | stop
  | work (task : τ)
  deriving DecidableEq, Repr

def ItemTask.isStop {τ : Type*} : ItemTask τ → Bool
  | .stop => true
  | .work _ => false

@[simp] theorem ItemTask.isStop_stop {τ : Type*} : (stop : ItemTask τ).isStop = true := rfl

@[simp] theorem ItemTask.isStop_work {τ : Type*} (task : τ) : (work task).isStop = false := rfl

/-- Where the thread of an item is. -/
inductive ThreadPoint
  /-- There is no thread yet. -/
  | unborn
  /-- Before the cycle is made. -/
  | spawned
  /-- Before `Exec`. -/
  | created
  /-- In `Exec`, or behind it and before `cycle.reset()`. -/
  | executing
  | ended
  deriving DecidableEq, Repr

structure Item (τ : Type*) where
  thread : ThreadPoint
  loop : Loop (ItemTask τ)
  sessions : OpenSessions

/-- Where the main thread is. -/
inductive MainPoint
  /-- In `Start`, with so many threads made. -/
  | starting (k : ℕ)
  | running
  /-- In `RunInCycle` of the server, between the `push_back` and the `Notify`. -/
  | posted (k : ℕ)
  /-- In the first loop of `Stop`. -/
  | stopping (k : ℕ)
  /-- In `RunInCycle` of `Stop`, between the `push_back` and the `Notify`. -/
  | queued (k : ℕ)
  /-- In the second loop of `Stop`. -/
  | joining (k : ℕ)
  | finished
  deriving DecidableEq, Repr

structure PoolLife (τ : Type*) where
  main : MainPoint
  item : ℕ → Item τ
  /-- What the server has queued; read by no step. -/
  posts : ℕ → List τ

inductive LifeLabel (τ : Type*)
  /-- The next instruction of `Start` or `Stop`, or the `Notify` of `RunInCycle`. -/
  | main
  /-- The server gives a task to `RunInCycle`. -/
  | post (k : ℕ) (task : τ)
  /-- `Stop` is called. -/
  | stop
  /-- The thread of an item makes the cycle. -/
  | create (k : ℕ)
  /-- A step of the cycle of an item, or a call its user makes there. -/
  | worker (k : ℕ) (l : LoopLabel (ItemTask τ))
  /-- A callback or task of an item has opened or closed sessions, and these are left. -/
  | serve (k : ℕ) (sessions : OpenSessions)
  /-- The thread of an item deletes the cycle and ends. -/
  | reset (k : ℕ)

/-- `Poll` returns, on the thread of an item. -/
def LifeLabel.polls {τ : Type*} (k : ℕ) : LifeLabel τ → Bool
  | .worker j (.pollReturn _) => j = k
  | _ => false

namespace Item

variable {τ : Type*}

/-- Not made yet. -/
def unborn : Item τ := ⟨.unborn, Loop.init, .empty⟩

/-- `cycle` points to a cycle. -/
def hasCycle (item : Item τ) : Bool :=
  match item.thread with
  | .created | .executing => true
  | .unborn | .spawned | .ended => false

/-- The steps the thread of an item takes in `Exec`. -/
def own : LoopLabel (ItemTask τ) → Bool
  | .pollReturn _ | .readNotify | .swap | .start | .loop => true
  | .queueInCycle inThread task => inThread && !task.isStop
  | _ => false

/-- A step in `Exec`.  The closure of `Stop` closes the sessions, clears their table and ends with
`Exit`. -/
def exec (item : Item τ) (l : LoopLabel (ItemTask τ)) : Except Stop (Item τ) := do
  let next ← item.loop.step l
  match l, item.loop.functions with
  | .start, ⟨_, .stop⟩ :: _ =>
      match item.sessions.stop with
      | .ok _ => do
          let loop ← next.step (.exit true)
          .ok { item with loop, sessions := .empty }
      | .error f => .error (.fault f)
  | _, _ => .ok { item with loop := next }

def work (item : Item τ) (l : LoopLabel (ItemTask τ)) : Except Stop (Item τ) :=
  match item.thread with
  | .created =>
      match l with
      | .exec => do
          let loop ← item.loop.step .exec
          .ok { item with thread := .executing, loop }
      | _ => .error .disabled
  | .executing =>
      if own l = true ∧ item.loop.phase ≠ .idle then item.exec l else .error .disabled
  | _ => .error .disabled

/-- The closure of `Stop` has been called. -/
def halted (loop : Loop (ItemTask τ)) : Bool := loop.started.any (·.task.isStop)

/-- The thread runs a callback or a task.  The tasks that make sessions are all in front of the
closure of `Stop`. -/
def serves (item : Item τ) : Bool :=
  decide (item.thread = .executing) && item.loop.inUserCode && !halted item.loop

/-- `RunInCycle` on another thread, up to the `Notify`. -/
def push (item : Item τ) (task : ItemTask τ) : Except Stop (Item τ) :=
  if item.hasCycle then do
    let loop ← item.loop.step (.runInCycle false task)
    .ok { item with loop }
  else .error (.fault .nullPointer)

/-- The `Notify` of `RunInCycle`. -/
def notify (item : Item τ) : Except Stop (Item τ) :=
  if item.hasCycle then do
    let loop ← item.loop.step .notify
    .ok { item with loop }
  else .error (.fault .useAfterFree)

end Item

namespace PoolLife

variable {τ : Type*}

def init : PoolLife τ := ⟨.starting 0, fun _ => .unborn, fun _ => []⟩

def set (s : PoolLife τ) (k : ℕ) (item : Item τ) : PoolLife τ :=
  { s with item := Function.update s.item k item }

/-- The main thread. -/
def mainStep (n : ℕ) (s : PoolLife τ) : Except Stop (PoolLife τ) :=
  match s.main with
  | .starting k =>
      if k < n then .ok { s.set k ⟨.spawned, Loop.init, .empty⟩ with main := .starting (k + 1) }
      else .ok { s with main := .running }
  | .posted k => do
      let item ← (s.item k).notify
      .ok { s.set k item with main := .running }
  | .stopping k =>
      if k < n then do
        let item ← (s.item k).push .stop
        .ok { s.set k item with main := .queued k }
      else .ok { s with main := .joining 0 }
  | .queued k => do
      let item ← (s.item k).notify
      .ok { s.set k item with main := .stopping (k + 1) }
  | .joining k =>
      if k < n then
        if (s.item k).thread = .ended then .ok { s with main := .joining (k + 1) }
        else .error .disabled
      else .ok { s with main := .finished }
  | .running | .finished => .error .disabled

def step (n : ℕ) (s : PoolLife τ) : LifeLabel τ → Except Stop (PoolLife τ)
  | .main => s.mainStep n
  | .post k task =>
      if s.main = .running ∧ k < n then do
        let item ← (s.item k).push (.work task)
        .ok { s.set k item with
          main := .posted k
          posts := Function.update s.posts k (s.posts k ++ [task]) }
      else .error .disabled
  | .stop => if s.main = .running then .ok { s with main := .stopping 0 } else .error .disabled
  | .create k =>
      if (s.item k).thread = .spawned then .ok (s.set k { s.item k with thread := .created })
      else .error .disabled
  | .worker k l => do
      let item ← (s.item k).work l
      .ok (s.set k item)
  | .serve k sessions =>
      if (s.item k).serves then .ok (s.set k { s.item k with sessions }) else .error .disabled
  | .reset k =>
      if (s.item k).thread = .executing ∧ (s.item k).loop.phase = .idle then
        .ok (s.set k { s.item k with thread := .ended })
      else .error .disabled

end PoolLife

/-! ### A worker -/

namespace Item

variable {τ : Type*} {l : LoopLabel (ItemTask τ)} {loop loop' : Loop (ItemTask τ)}
  {item item' : Item τ} {asked notifying : Bool} {task : ItemTask τ}

/-- What holds of a cycle; `asked` says whether `Stop` has queued its closure, `notifying` whether
the main thread is about to notify the cycle. -/
structure Served (asked notifying : Bool) (loop : Loop (ItemTask τ)) : Prop where
  order : loop.InOrder
  stops : loop.pushed.countP (·.task.isStop) = asked.toNat
  senders : loop.senders = notifying.toNat
  /-- The closure does not wait for the timeout of `Poll`. -/
  wake : loop.pending.any (·.task.isStop) = true →
    notifying = true ∨ 0 < loop.counter ∨ loop.phase = .handling false

/-- What holds of a cycle whose `Exec` has been called. -/
structure Runs (loop : Loop (ItemTask τ)) : Prop where
  quit : loop.quit = halted loop
  idle : loop.phase = .idle → halted loop = true
  busy : halted loop = true → loop.phase = .idle ∨ ∃ running, loop.phase = .calling running

/-- What an item has got to. -/
def Reached (item : Item τ) : Prop :=
  match item.thread with
  | .unborn | .spawned => item.loop = Loop.init
  | .created => item.loop.phase = .idle ∧ item.loop.started = []
  | .executing => Runs item.loop
  | .ended => halted item.loop = true ∧ item.loop.phase = .idle

/-- What a step in `Exec` does: it calls the closure of `Stop`, or it is a step of the loop. -/
theorem exec_cases (hs : item.exec l = .ok item') :
    (∃ running q functions, l = .start ∧ item.loop.phase = .calling running ∧
      item.loop.functions = q :: functions ∧ q.task.isStop = true ∧
      item' = { item with
        loop := { item.loop with
          phase := .calling true
          functions
          started := item.loop.started ++ [q]
          quit := true }
        sessions := .empty }) ∨
      ∃ loop', Loop.Step item.loop l loop' ∧ item' = { item with loop := loop' } ∧
        ∀ q functions, l = .start → item.loop.functions = q :: functions →
          q.task.isStop = false := by
  obtain ⟨next, hnext, hrest⟩ := bind_eq_ok hs
  have hstep := Loop.step_of_ok hnext
  clear hs
  split at hrest
  case h_1 ticket functions hfun =>
    cases hstep with
    | start hp hq =>
        cases hfun.symm.trans hq
        split at hrest
        · simp only [Loop.step, Loop.inUserCode, if_true] at hrest
          cases hrest
          exact .inl ⟨_, _, _, rfl, hp, hfun, rfl, rfl⟩
        · cases hrest
    | queueOther hl => cases hl
  case h_2 hother =>
    cases hrest
    refine .inr ⟨next, hstep, rfl, ?_⟩
    rintro ⟨ticket, task⟩ functions rfl hfun
    cases task with
    | stop => exact absurd hfun (hother ticket functions rfl)
    | work task => rfl

/-- The thread of an item queues tasks on its own cycle only. -/
theorem eq_of_own (hown : own l = true) (hl : l.pushes = some task) :
    l = .queueInCycle true task := by
  cases l with
  | queueInCycle inThread t =>
      cases inThread with
      | true =>
          cases hl
          rfl
      | false => cases hown
  | runInCycle => cases hown
  | _ => cases hl

theorem Served.announced (h : Served asked notifying loop) (hphase : loop.phase ≠ .handling false)
    (hp : loop.pending.any (·.task.isStop) = true) : notifying = true ∨ 0 < loop.counter :=
  (h.wake hp).imp_right (Or.resolve_right · hphase)

theorem Served.own_step (h : Served asked notifying loop) (hown : own l = true)
    (hs : Loop.Step loop l loop') : Served asked notifying loop' := by
  have horder := h.order.step hs
  have hannounced (hphase : loop.phase ≠ .handling false) {phase : Io.Phase}
      (hp : loop.pending.any (·.task.isStop) = true) :
      notifying = true ∨ 0 < loop.counter ∨ phase = .handling false :=
    (h.announced hphase hp).imp_right .inl
  cases hs with
  | exec | runOwn | notify | exit | notifyExit => cases hown
  | pollReturn hp | start hp hq | loop hp hq =>
      exact ⟨horder, h.stops, h.senders, hannounced (by simp [hp])⟩
  | readNotify hp => exact ⟨horder, h.stops, h.senders, fun _ => .inr (.inr rfl)⟩
  | swap hp => exact ⟨horder, h.stops, h.senders, nofun⟩
  | @queueOwn task hu =>
      have htask : task.isStop = false := by simpa [own] using hown
      refine ⟨horder, by simpa [Loop.push, htask] using h.stops, h.senders, fun hw => ?_⟩
      exact h.wake (by simpa [Loop.push, htask] using hw)
  | queueOther hl hne => exact absurd (eq_of_own hown hl) hne

theorem Runs.own_step (h : Runs loop) (hphase : loop.phase ≠ .idle) (hown : own l = true)
    (hs : Loop.Step loop l loop')
    (hnext : ∀ q functions, l = .start → loop.functions = q :: functions →
      q.task.isStop = false) : Runs loop' := by
  -- Before the loop tests `quit`, the closure has been called only in `DoPendingFunctions`.
  have hcalm (hp : ∀ running, loop.phase ≠ .calling running) : halted loop ≠ true := fun hh =>
    (h.busy hh).elim hphase fun ⟨running, hr⟩ => hp running hr
  cases hs with
  | exec | runOwn | notify | exit | notifyExit => cases hown
  | pollReturn hp | readNotify hp =>
      exact ⟨h.quit, nofun, fun hh => absurd hh (hcalm (by simp [hp]))⟩
  | swap hp => exact ⟨h.quit, nofun, fun _ => .inr ⟨false, rfl⟩⟩
  | @start running q functions hp hq =>
      have hq' := hnext q functions rfl hq
      refine ⟨?_, nofun, fun _ => .inr ⟨true, rfl⟩⟩
      rw [h.quit]
      simp [halted, hq']
  | loop hp hq =>
      refine ⟨h.quit, fun hi => ?_, fun hh => .inl ?_⟩
      · have hquit := h.quit
        cases hb : loop.quit with
        | true => exact (hb.symm.trans hquit).symm
        | false => simp [hb] at hi
      · have hquit : loop.quit = true := h.quit.trans hh
        simp [hquit]
  | queueOwn hu => exact ⟨h.quit, h.idle, h.busy⟩
  | queueOther hl hne => exact absurd (eq_of_own hown hl) hne

/-- The closure of `Stop` is called. -/
theorem Served.halt (h : Served asked notifying loop) {running : Bool}
    {q : Queued (ItemTask τ)} {functions : List (Queued (ItemTask τ))}
    (hp : loop.phase = .calling running) (hq : loop.functions = q :: functions) :
    Served asked notifying
      { loop with
        phase := .calling true
        functions
        started := loop.started ++ [q]
        quit := true } := by
  have horder := h.order.step (.start hp hq)
  exact ⟨⟨horder.order, horder.tickets, horder.swapped⟩, h.stops, h.senders,
    fun hw => (h.announced (by simp [hp]) hw).imp_right .inl⟩

/-- `RunInCycle` of the main thread, up to the `Notify`. -/
theorem Served.push (h : Served asked false loop)
    (hasked : task.isStop = true → asked = false) :
    Served (asked || task.isStop) true { loop.push task with senders := loop.senders + 1 } := by
  have horder := h.order.push task
  refine ⟨⟨horder.order, horder.tickets, horder.swapped⟩, ?_, ?_, fun _ => .inl rfl⟩
  · simp only [Loop.push, List.countP_append, h.stops, List.countP_singleton]
    cases ht : task.isStop with
    | true => simp [hasked ht]
    | false => simp
  · simp [h.senders]

theorem Served.notify (h : Served asked true loop) :
    Served asked false
      { loop with senders := loop.senders - 1, counter := Loop.sendNotify loop.counter } where
  order := ⟨h.order.order, h.order.tickets, h.order.swapped⟩
  stops := h.stops
  senders := by simp [h.senders]
  wake _ := .inr (.inl (Loop.sendNotify_pos _))

/-- What holds of an item. -/
structure Inv (asked notifying : Bool) (item : Item τ) : Prop where
  served : Served asked notifying item.loop
  reached : Reached item
  /-- The closure of `Stop` leaves no session behind. -/
  cleared : halted item.loop = true → item.sessions = .empty

theorem inv_fresh {thread : ThreadPoint} (hthread : thread = .unborn ∨ thread = .spawned) :
    Inv false false (⟨thread, Loop.init, .empty⟩ : Item τ) := by
  refine ⟨⟨Loop.inOrder_init, rfl, rfl, nofun⟩, ?_, fun _ => rfl⟩
  rcases hthread with rfl | rfl <;> rfl

/-- What an item has got to does not change when the main thread works on its queue. -/
theorem Reached.congr (h : Reached item) (hcycle : item.hasCycle = true)
    (hphase : loop.phase = item.loop.phase) (hstarted : loop.started = item.loop.started)
    (hquit : loop.quit = item.loop.quit) :
    Reached { item with loop } := by
  have hhalted : halted loop = halted item.loop := by rw [halted, hstarted, halted]
  unfold Reached at h ⊢
  unfold hasCycle at hcycle
  cases ht : item.thread <;> simp only [ht, Bool.false_eq_true] at h hcycle ⊢
  case created => exact ⟨hphase.trans h.1, hstarted.trans h.2⟩
  case executing =>
    refine ⟨?_, ?_, ?_⟩
    · rw [hquit, hhalted, h.quit]
    · rw [hphase, hhalted]
      exact h.idle
    · rw [hphase, hhalted]
      exact h.busy

/-- What a call of the main thread does to an item with a cycle. -/
theorem push_cases (hs : item.push task = .ok item') :
    item.hasCycle = true ∧ item' = { item with
      loop := { item.loop.push task with senders := item.loop.senders + 1 } } := by
  unfold push at hs
  split at hs
  · rename_i hcycle
    cases hs
    exact ⟨hcycle, rfl⟩
  · cases hs

theorem notify_cases (hs : item.notify = .ok item') :
    item.hasCycle = true ∧
      item' = { item with
        loop := { item.loop with
          senders := item.loop.senders - 1
          counter := Loop.sendNotify item.loop.counter } } := by
  unfold notify at hs
  split at hs
  · rename_i hcycle
    obtain ⟨loop, hloop, hs⟩ := bind_eq_ok hs
    cases hs
    have hstep := Loop.step_of_ok hloop
    cases hstep with
    | notify hn => exact ⟨hcycle, rfl⟩
    | queueOther hl => cases hl
  · cases hs

/-- What a step of the thread of an item does. -/
theorem work_cases (hs : item.work l = .ok item') :
    item.thread = .created ∧ l = .exec ∧
        item' = { item with
          thread := .executing
          loop := { item.loop with phase := .calling false, quit := false } } ∨
      item.thread = .executing ∧ own l = true ∧ item.loop.phase ≠ .idle ∧
        item.exec l = .ok item' := by
  unfold work at hs
  split at hs
  case h_1 ht =>
    split at hs
    · obtain ⟨loop, hloop, hs⟩ := bind_eq_ok hs
      cases hs
      have hstep := Loop.step_of_ok hloop
      cases hstep with
      | exec hp => exact .inl ⟨ht, rfl, rfl⟩
      | queueOther hl => cases hl
    · cases hs
  case h_2 ht =>
    split at hs
    · rename_i hown
      exact .inr ⟨ht, hown.1, hown.2, hs⟩
    · cases hs
  case h_3 => cases hs

theorem Inv.push (h : Inv asked false item)
    (hasked : task.isStop = true → asked = false) (hs : item.push task = .ok item') :
    Inv (asked || task.isStop) true item' := by
  obtain ⟨hcycle, rfl⟩ := push_cases hs
  exact ⟨h.served.push hasked, h.reached.congr hcycle rfl rfl rfl, h.cleared⟩

theorem Inv.notify (h : Inv asked true item) (hs : item.notify = .ok item') :
    Inv asked false item' := by
  obtain ⟨hcycle, rfl⟩ := notify_cases hs
  exact ⟨h.served.notify, h.reached.congr hcycle rfl rfl rfl, h.cleared⟩

/-- A step of the loop that is not the call of the closure. -/
theorem halted_of_step (hs : Loop.Step item.loop l loop')
    (hnext : ∀ q functions, l = .start → item.loop.functions = q :: functions →
      q.task.isStop = false) : halted loop' = halted item.loop := by
  cases hs with
  | @start running q functions hp hq => simp [halted, hnext q functions rfl hq]
  | _ => rfl

theorem Inv.work (h : Inv asked notifying item) (hs : item.work l = .ok item') :
    Inv asked notifying item' := by
  obtain ⟨hserved, hreached, hcleared⟩ := h
  rcases work_cases hs with ⟨ht, -, rfl⟩ | ⟨ht, hown, hphase, hexec⟩
  · simp only [Reached, ht] at hreached
    obtain ⟨hidle, hstarted⟩ := hreached
    have hhalted : halted item.loop = false := by simp [halted, hstarted]
    refine ⟨⟨hserved.order.step (.exec hidle), hserved.stops, hserved.senders, ?_⟩, ?_, hcleared⟩
    · exact fun hw => (hserved.announced (by simp [hidle]) hw).imp_right .inl
    · exact ⟨hhalted.symm, nofun, fun hh => absurd hh (Bool.eq_false_iff.mp hhalted)⟩
  · have hruns : Runs item.loop := by simpa [Reached, ht] using hreached
    rcases exec_cases hexec with
      ⟨running, q, functions, -, hp, hq, hstop, rfl⟩ | ⟨loop, hstep, rfl, hnext⟩
    · refine ⟨hserved.halt hp hq, ?_, fun _ => rfl⟩
      have hhalted : (item.loop.started ++ [q]).any (·.task.isStop) = true := by simp [hstop]
      simp only [Reached, ht]
      exact ⟨hhalted.symm, nofun, fun _ => .inr ⟨true, rfl⟩⟩
    · refine ⟨hserved.own_step hown hstep, ?_, fun hh => ?_⟩
      · simp only [Reached, ht]
        exact hruns.own_step hphase hown hstep hnext
      · exact hcleared ((halted_of_step hstep hnext).symm.trans hh)

/-- Sessions come and go. -/
theorem Inv.serve (h : Inv asked notifying item) (hserves : item.serves = true)
    (sessions : OpenSessions) : Inv asked notifying { item with sessions } := by
  have hnot : halted item.loop = false := by
    simp only [serves, Bool.and_eq_true, Bool.not_eq_true'] at hserves
    exact hserves.2
  refine ⟨h.served, h.reached, fun hh => ?_⟩
  rw [hnot] at hh
  cases hh

theorem Inv.create (h : Inv asked notifying item) (ht : item.thread = .spawned) :
    Inv asked notifying { item with thread := .created } := by
  obtain ⟨hserved, hreached, hcleared⟩ := h
  simp only [Reached, ht] at hreached
  exact ⟨hserved, by simp [Reached, hreached, Loop.init], hcleared⟩

theorem Inv.reset (h : Inv asked notifying item) (ht : item.thread = .executing)
    (hp : item.loop.phase = .idle) : Inv asked notifying { item with thread := .ended } := by
  obtain ⟨hserved, hreached, hcleared⟩ := h
  simp only [Reached, ht] at hreached
  exact ⟨hserved, ⟨hreached.idle hp, hp⟩, hcleared⟩

end Item

/-! ### The system -/

namespace MainPoint

/-- `Stop` has queued its closure on the cycle of an item. -/
def asked (n : ℕ) (k : ℕ) : MainPoint → Bool
  | .starting _ | .running | .posted _ => false
  | .stopping j => k < j
  | .queued j => k ≤ j
  | .joining _ | .finished => k < n

/-- The main thread is about to notify the cycle of an item. -/
def notifies (k : ℕ) : MainPoint → Bool
  | .posted j | .queued j => j = k
  | _ => false

/-- The thread of an item has been made. -/
def born (n : ℕ) (k : ℕ) : MainPoint → Bool
  | .starting j => k < j
  | _ => k < n

/-- The thread of an item has been joined. -/
def joined (n : ℕ) (k : ℕ) : MainPoint → Bool
  | .joining j => k < j
  | .finished => k < n
  | _ => false

/-- The loops of the main thread stay in their range. -/
def InRange (n : ℕ) : MainPoint → Prop
  | .starting k | .stopping k => k ≤ n
  | .posted k | .queued k => k < n
  | _ => True

end MainPoint

namespace PoolLife

variable {τ : Type*} {n : ℕ} {s s' : PoolLife τ} {l : LifeLabel τ}

/-- What a step can do. -/
inductive Move (n : ℕ) (s : PoolLife τ) : LifeLabel τ → PoolLife τ → Prop
  | spawn {k : ℕ} (hm : s.main = .starting k) (hk : k < n) :
      Move n s .main { s.set k ⟨.spawned, Loop.init, .empty⟩ with main := .starting (k + 1) }
  | run {k : ℕ} (hm : s.main = .starting k) (hk : ¬ k < n) :
      Move n s .main { s with main := .running }
  | announce {k : ℕ} {item : Item τ} (hm : s.main = .posted k)
      (hs : (s.item k).notify = .ok item) :
      Move n s .main { s.set k item with main := .running }
  | ask {k : ℕ} {item : Item τ} (hm : s.main = .stopping k) (hk : k < n)
      (hs : (s.item k).push .stop = .ok item) :
      Move n s .main { s.set k item with main := .queued k }
  | wait {k : ℕ} (hm : s.main = .stopping k) (hk : ¬ k < n) :
      Move n s .main { s with main := .joining 0 }
  | tell {k : ℕ} {item : Item τ} (hm : s.main = .queued k) (hs : (s.item k).notify = .ok item) :
      Move n s .main { s.set k item with main := .stopping (k + 1) }
  | join {k : ℕ} (hm : s.main = .joining k) (hk : k < n) (he : (s.item k).thread = .ended) :
      Move n s .main { s with main := .joining (k + 1) }
  | finish {k : ℕ} (hm : s.main = .joining k) (hk : ¬ k < n) :
      Move n s .main { s with main := .finished }
  | post {k : ℕ} {task : τ} {item : Item τ} (hm : s.main = .running) (hk : k < n)
      (hs : (s.item k).push (.work task) = .ok item) :
      Move n s (.post k task) { s.set k item with
        main := .posted k
        posts := Function.update s.posts k (s.posts k ++ [task]) }
  | stop (hm : s.main = .running) : Move n s .stop { s with main := .stopping 0 }
  | create {k : ℕ} (ht : (s.item k).thread = .spawned) :
      Move n s (.create k) (s.set k { s.item k with thread := .created })
  | worker {k : ℕ} {l : LoopLabel (ItemTask τ)} {item : Item τ}
      (hs : (s.item k).work l = .ok item) : Move n s (.worker k l) (s.set k item)
  | serve {k : ℕ} {sessions : OpenSessions} (hserves : (s.item k).serves = true) :
      Move n s (.serve k sessions) (s.set k { s.item k with sessions })
  | reset {k : ℕ} (ht : (s.item k).thread = .executing) (hp : (s.item k).loop.phase = .idle) :
      Move n s (.reset k) (s.set k { s.item k with thread := .ended })

theorem mainStep_move (hs : s.mainStep n = .ok s') : Move n s .main s' := by
  unfold mainStep at hs
  split at hs
  case h_1 k hm =>
    split at hs <;> cases hs
    case isTrue hk => exact .spawn hm hk
    case isFalse hk => exact .run hm hk
  case h_2 k hm =>
    obtain ⟨item, hitem, hs⟩ := bind_eq_ok hs
    cases hs
    exact .announce hm hitem
  case h_3 k hm =>
    split at hs
    case isTrue hk =>
      obtain ⟨item, hitem, hs⟩ := bind_eq_ok hs
      cases hs
      exact .ask hm hk hitem
    case isFalse hk =>
      cases hs
      exact .wait hm hk
  case h_4 k hm =>
    obtain ⟨item, hitem, hs⟩ := bind_eq_ok hs
    cases hs
    exact .tell hm hitem
  case h_5 k hm =>
    split at hs
    case isTrue hk =>
      split at hs <;> cases hs
      exact .join hm hk ‹_›
    case isFalse hk =>
      cases hs
      exact .finish hm hk
  all_goals cases hs

theorem step_move (hs : s.step n l = .ok s') : Move n s l s' := by
  cases l with
  | main => exact mainStep_move hs
  | post k task =>
      simp only [step] at hs
      split at hs
      case isTrue h =>
        obtain ⟨item, hitem, hs⟩ := bind_eq_ok hs
        cases hs
        exact .post h.1 h.2 hitem
      case isFalse => cases hs
  | stop =>
      simp only [step] at hs
      split at hs <;> cases hs
      exact .stop ‹_›
  | create k =>
      simp only [step] at hs
      split at hs <;> cases hs
      exact .create ‹_›
  | worker k l =>
      obtain ⟨item, hitem, hs⟩ := bind_eq_ok hs
      cases hs
      exact .worker hitem
  | serve k sessions =>
      simp only [step] at hs
      split at hs <;> cases hs
      exact .serve ‹_›
  | reset k =>
      simp only [step] at hs
      split at hs
      case isTrue h =>
        cases hs
        exact .reset h.1 h.2
      case isFalse => cases hs

/-- What has been queued on a cycle before the closure of `Stop`. -/
def earlier (loop : Loop (ItemTask τ)) : List (ItemTask τ) :=
  (loop.pushed.map Queued.task).takeWhile (!·.isStop)

structure Inv (n : ℕ) (s : PoolLife τ) : Prop where
  range : s.main.InRange n
  item : ∀ k, (s.item k).Inv (s.main.asked n k) (s.main.notifies k)
  born : ∀ k, (s.item k).thread = .unborn ↔ s.main.born n k = false
  joined : ∀ k, s.main.joined n k = true → (s.item k).thread = .ended
  posts : ∀ k, ((s.posts k).map .work).Sublist (earlier (s.item k).loop)

@[simp] theorem set_item_self (s : PoolLife τ) (k : ℕ) (item : Item τ) :
    (s.set k item).item k = item := by
  simp [set]

theorem set_item_of_ne (s : PoolLife τ) {j k : ℕ} (hne : j ≠ k) (item : Item τ) :
    (s.set k item).item j = s.item j := by
  simp [set, hne]

theorem inv_init : Inv n (init : PoolLife τ) where
  range := Nat.zero_le n
  item _ := Item.inv_fresh (.inl rfl)
  born _ := by simp [init, Item.unborn, MainPoint.born]
  joined _ h := by cases h
  posts _ := List.nil_sublist _

namespace Inv

theorem range_step (h : Inv n s) (hs : Move n s l s') : s'.main.InRange n := by
  have hr := h.range
  cases hs with
  | spawn hm hk => exact hk
  | ask hm hk hs => exact hk
  | tell hm hs =>
      rw [hm] at hr
      exact hr
  | post hm hk hs => exact hk
  | stop hm => exact Nat.zero_le n
  | run | announce | wait | join | finish => trivial
  | create | worker | serve | reset => exact hr

/-- One item is worked on, and the others see the main thread move on. -/
theorem item_set (h : Inv n s) {k : ℕ} {item : Item τ} {main : MainPoint}
    (hitem : item.Inv (main.asked n k) (main.notifies k))
    (hasked : ∀ j, j ≠ k → main.asked n j = s.main.asked n j)
    (hnotifies : ∀ j, j ≠ k → main.notifies j = s.main.notifies j) (j : ℕ) :
    ((s.set k item).item j).Inv (main.asked n j) (main.notifies j) := by
  by_cases hj : j = k
  · rw [hj, set_item_self]
    exact hitem
  · rw [set_item_of_ne s hj, hasked j hj, hnotifies j hj]
    exact h.item j

theorem item_step (h : Inv n s) (hs : Move n s l s') (j : ℕ) :
    (s'.item j).Inv (s'.main.asked n j) (s'.main.notifies j) := by
  have hitem (k : ℕ) : (s.item k).Inv (s.main.asked n k) (s.main.notifies k) := h.item k
  cases hs with
  | @spawn k hm hk =>
      have hnew : Item.Inv ((MainPoint.starting (k + 1)).asked n k)
          ((MainPoint.starting (k + 1)).notifies k) (⟨.spawned, Loop.init, .empty⟩ : Item τ) :=
        Item.inv_fresh (.inr rfl)
      refine h.item_set hnew ?_ ?_ j <;> rw [hm] <;> intro _ _ <;> rfl
  | run hm | join hm | finish hm =>
      rw [hm] at hitem
      exact hitem j
  | @announce k item hm hs | @tell k item hm hs =>
      refine h.item_set (Item.Inv.notify ?_ hs) (fun i hi => ?_) (fun i hi => ?_) j
      · simpa [hm, MainPoint.asked, MainPoint.notifies] using hitem k
      · simp only [hm, MainPoint.asked, Nat.lt_succ_iff]
      · simp [hm, MainPoint.notifies, Ne.symm hi]
  | @ask k item hm hk hs | @post k task item hm hk hs =>
      refine h.item_set ?_ (fun i hi => ?_) (fun i hi => ?_) j
      · have hfree : Item.Inv false false (s.item k) := by
          simpa [hm, MainPoint.asked, MainPoint.notifies] using hitem k
        simpa [MainPoint.asked, MainPoint.notifies] using hfree.push (fun _ => rfl) hs
      · simp [hm, MainPoint.asked, Nat.le_iff_lt_or_eq, hi]
      · simp [hm, MainPoint.notifies, Ne.symm hi]
  | @wait k hm hk =>
      have hr := h.range
      rw [hm] at hr hitem
      have hkn : k = n := Nat.le_antisymm hr (Nat.le_of_not_lt hk)
      subst hkn
      exact hitem j
  | stop hm =>
      rw [hm] at hitem
      simpa [MainPoint.asked, MainPoint.notifies] using hitem j
  | create ht => exact h.item_set ((hitem _).create ht) (fun _ _ => rfl) (fun _ _ => rfl) j
  | worker hs => exact h.item_set ((hitem _).work hs) (fun _ _ => rfl) (fun _ _ => rfl) j
  | serve hserves =>
      exact h.item_set ((hitem _).serve hserves _) (fun _ _ => rfl) (fun _ _ => rfl) j
  | reset ht hp => exact h.item_set ((hitem _).reset ht hp) (fun _ _ => rfl) (fun _ _ => rfl) j

/-- A call of the main thread does not move the thread of the item. -/
theorem thread_push {task : ItemTask τ} {item item' : Item τ} (hs : item.push task = .ok item') :
    item'.thread = item.thread := by
  obtain ⟨-, rfl⟩ := Item.push_cases hs
  rfl

theorem thread_notify {item item' : Item τ} (hs : item.notify = .ok item') :
    item'.thread = item.thread := by
  obtain ⟨-, rfl⟩ := Item.notify_cases hs
  rfl

/-- A step of a worker is one in `Exec`. -/
theorem thread_work {l : LoopLabel (ItemTask τ)} {item item' : Item τ}
    (hs : item.work l = .ok item') :
    (item.thread = .created ∨ item.thread = .executing) ∧ item'.thread = .executing := by
  rcases Item.work_cases hs with ⟨ht, -, rfl⟩ | ⟨ht, -, -, hexec⟩
  · exact ⟨.inl ht, rfl⟩
  · rcases Item.exec_cases hexec with ⟨-, -, -, -, -, -, -, rfl⟩ | ⟨loop, -, rfl, -⟩
    · exact ⟨.inr ht, ht⟩
    · exact ⟨.inr ht, ht⟩

/-- Where the threads are after a step of one of them. -/
theorem thread_set {k : ℕ} {item : Item τ} (P : ThreadPoint → Prop)
    (hk : P item.thread ↔ P (s.item k).thread) (j : ℕ) :
    P ((s.set k item).item j).thread ↔ P (s.item j).thread := by
  by_cases hj : j = k
  · rw [hj, set_item_self]
    exact hk
  · rw [set_item_of_ne s hj]

theorem born_step (h : Inv n s) (hs : Move n s l s') (j : ℕ) :
    (s'.item j).thread = .unborn ↔ s'.main.born n j = false := by
  have hr := h.range
  have hj := h.born j
  cases hs with
  | @spawn k hm hk =>
      rw [hm] at hj
      by_cases he : j = k
      · subst he
        simp [set, MainPoint.born]
      · have hlt : j < k + 1 ↔ j < k := by omega
        simpa [set, he, MainPoint.born, hlt] using hj
  | @run k hm hk =>
      rw [hm] at hj hr
      have hkn : k = n := Nat.le_antisymm hr (Nat.le_of_not_lt hk)
      subst hkn
      exact hj
  | announce hm hs | tell hm hs =>
      rw [hm] at hj
      exact (thread_set (· = .unborn) (by rw [thread_notify hs]) j).trans hj
  | ask hm hk hs | post hm hk hs =>
      rw [hm] at hj
      exact (thread_set (· = .unborn) (by rw [thread_push hs]) j).trans hj
  | wait hm | join hm | finish hm | stop hm =>
      rw [hm] at hj
      exact hj
  | create ht | reset ht hp => exact (thread_set (· = .unborn) (by simp [ht]) j).trans hj
  | worker hs =>
      obtain ⟨hbefore, hafter⟩ := thread_work hs
      refine (thread_set (· = .unborn) ?_ j).trans hj
      rcases hbefore with hb | hb <;> simp [hafter, hb]
  | serve => exact (thread_set (· = .unborn) (by rfl) j).trans hj

theorem joined_step (h : Inv n s) (hs : Move n s l s') (j : ℕ)
    (hjoined : s'.main.joined n j = true) : (s'.item j).thread = .ended := by
  have hj := h.joined j
  cases hs with
  | spawn | run | announce | ask | tell | post | stop => cases hjoined
  | wait hm hk => simp [MainPoint.joined] at hjoined
  | @join k hm hk he =>
      rw [hm] at hj
      have hle : j < k + 1 := of_decide_eq_true hjoined
      by_cases hjk : j = k
      · rw [hjk]
        exact he
      · exact hj (decide_eq_true (by omega))
  | @finish k hm hk =>
      rw [hm] at hj
      have hlt : j < n := of_decide_eq_true hjoined
      exact hj (decide_eq_true (by omega))
  | create ht => exact (thread_set (· = .ended) (by simp [ht]) j).mpr (hj hjoined)
  | worker hs =>
      obtain ⟨hbefore, hafter⟩ := thread_work hs
      refine (thread_set (· = .ended) ?_ j).mpr (hj hjoined)
      rcases hbefore with hb | hb <;> simp [hafter, hb]
  | serve => exact (thread_set (· = .ended) (by rfl) j).mpr (hj hjoined)
  | @reset k ht hp =>
      by_cases hjk : j = k
      · rw [hjk, set_item_self]
      · rw [set_item_of_ne s hjk]
        exact hj hjoined

/-! What the server queues -/

theorem earlier_isPrefix {loop loop' : Loop (ItemTask τ)}
    (h : loop.pushed.map Queued.task <+: loop'.pushed.map Queued.task) :
    earlier loop <+: earlier loop' := by
  obtain ⟨ts, hts⟩ := h
  rw [earlier, earlier, ← hts, List.takeWhile_append]
  split
  · exact (List.takeWhile_prefix _).trans (List.prefix_append _ _)
  · exact List.prefix_rfl

theorem pushed_work {l : LoopLabel (ItemTask τ)} {item item' : Item τ}
    (hs : item.work l = .ok item') :
    item.loop.pushed.map Queued.task <+: item'.loop.pushed.map Queued.task := by
  rcases Item.work_cases hs with ⟨ht, -, rfl⟩ | ⟨ht, -, -, hexec⟩
  · exact List.prefix_rfl
  · rcases Item.exec_cases hexec with
      ⟨running, q, functions, -, -, -, -, rfl⟩ | ⟨loop, hstep, rfl, -⟩
    · exact List.prefix_rfl
    · rw [hstep.pushed_eq]
      exact List.prefix_append _ _

theorem pushed_push {task : ItemTask τ} {item item' : Item τ} (hs : item.push task = .ok item') :
    item'.loop.pushed.map Queued.task = item.loop.pushed.map Queued.task ++ [task] := by
  obtain ⟨-, rfl⟩ := Item.push_cases hs
  simp [Loop.push]

/-- Before `Stop` nothing on the cycle of an item is its closure. -/
theorem earlier_of_not_asked {loop : Loop (ItemTask τ)} {notifying : Bool}
    (h : Item.Served false notifying loop) : earlier loop = loop.pushed.map Queued.task := by
  refine List.takeWhile_eq_self_iff.mpr fun task hmem => ?_
  obtain ⟨q, hq, rfl⟩ := List.mem_map.mp hmem
  simpa using List.countP_eq_zero.mp h.stops q hq

/-- An item is worked on that is not given to by the server. -/
theorem posts_set (h : Inv n s) {k : ℕ} {item : Item τ}
    (hk : (s.item k).loop.pushed.map Queued.task <+: item.loop.pushed.map Queued.task) (j : ℕ) :
    ((s.posts j).map .work).Sublist (earlier ((s.set k item).item j).loop) := by
  by_cases hj : j = k
  · rw [hj, set_item_self]
    exact (h.posts k).trans (earlier_isPrefix hk).sublist
  · rw [set_item_of_ne s hj]
    exact h.posts j

theorem posts_step (h : Inv n s) (hs : Move n s l s') (j : ℕ) :
    ((s'.posts j).map .work).Sublist (earlier (s'.item j).loop) := by
  have hnotify {k : ℕ} {item : Item τ} (hs : (s.item k).notify = .ok item) :
      (s.item k).loop.pushed.map Queued.task <+: item.loop.pushed.map Queued.task := by
    obtain ⟨-, rfl⟩ := Item.notify_cases hs
    exact List.prefix_rfl
  cases hs with
  | @spawn k hm hk =>
      have hunborn : (s.item k).thread = .unborn := (h.born k).mpr (by simp [hm, MainPoint.born])
      have hloop : (s.item k).loop = Loop.init := by
        simpa [Item.Reached, hunborn] using (h.item k).reached
      exact h.posts_set ((congrArg (·.pushed.map Queued.task) hloop) ▸ List.prefix_rfl) j
  | announce hm hs | tell hm hs => exact h.posts_set (hnotify hs) j
  | ask hm hk hs => exact h.posts_set (by rw [pushed_push hs]; exact List.prefix_append _ _) j
  | @post k task item hm hk hs =>
      by_cases hj : j = k
      · have hfree : Item.Inv false false (s.item k) := by
          simpa [hm, MainPoint.asked, MainPoint.notifies] using h.item k
        have hpushed : Item.Inv false true item := hfree.push (fun _ => rfl) hs
        have hposts := h.posts k
        rw [earlier_of_not_asked hfree.served] at hposts
        subst hj
        simp only [Function.update_self, set_item_self, List.map_append, List.map_cons,
          List.map_nil, earlier_of_not_asked hpushed.served, pushed_push hs]
        exact hposts.append (List.Sublist.refl _)
      · simp only [Function.update_of_ne hj, set_item_of_ne s hj]
        exact h.posts j
  | worker hs => exact h.posts_set (pushed_work hs) j
  | create | serve | reset =>
      refine h.posts_set ?_ j
      exact List.prefix_rfl
  | run | wait | join | finish | stop => exact h.posts j

theorem step (h : Inv n s) (hs : s.step n l = .ok s') : Inv n s' :=
  have hmove := step_move hs
  ⟨h.range_step hmove, h.item_step hmove, h.born_step hmove, h.joined_step hmove,
    h.posts_step hmove⟩

end Inv

theorem inv_of_run {ls : List (LifeLabel τ)} (hrun : run (step n) init ls = .ok s) : Inv n s :=
  invariant_of_step (Inv n) (fun _ _ _ h hs => h.step hs) inv_init hrun

end PoolLife

end Hare.Net
