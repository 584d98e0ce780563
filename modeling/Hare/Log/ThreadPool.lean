import Hare.Base.Fault
import Hare.Base.Queue
import Hare.Lib.LabelledRun
import Mathlib.Data.Fintype.Sum
import Mathlib.Tactic.DeriveFintype

/-!
# The asynchronous logger and its threads

An `AsyncLogger` owns a `ThreadPool`: a bounded blocking queue of messages and `n` workers
that take messages from it and handle them.  The threads that log are the producers, and so
are the workers themselves, since handling a message at the flush level posts a `FLUSH`
message into the same queue.  The destructor posts one `TERMINATE` message for each worker
and joins them.  All posts have the policy `BLOCK_RETRY`.

The system is one of interleaved steps.  A step is a piece of code that no other thread can
split: a critical section of the queue's mutex, or a `notify_one` with the thread it wakes.
A thread that finds the queue full (empty) sleeps on `pop_cv_` (`push_cv_`) until a
notification picks it, or until it wakes up by itself, as a condition variable permits; in
both cases it tests again.

`posted`, `taken` and `handled` record the history of a run and are read by no step.

## Main definitions

* `AsyncMsg`, `Thread`, `ThreadState`, `Pool`: messages, threads and the state of the system.
* `PoolLabel`, `Pool.step`: its steps.
* `Pool.Step`, `Pool.step_eq_ok`: what a step can do, one case for each outcome.
* `Pool.Fits`: which thread can be where in its code.
-/

namespace Hare.Log

open LabelledRun Util

/-- A message of the queue. -/
inductive AsyncMsg (μ : Type*)
  | log (msg : μ)
  | flush
  | terminate
  deriving DecidableEq, Repr

instance {μ : Type*} [Inhabited μ] : Inhabited (AsyncMsg μ) := ⟨.log default⟩

namespace AsyncMsg

variable {μ : Type*}

/-- Whether the message is a log record. -/
def isLog : AsyncMsg μ → Bool
  | .log _ => true
  | _ => false

/-- Whether the message stops the worker that takes it. -/
def isTerminate : AsyncMsg μ → Bool
  | .terminate => true
  | _ => false

end AsyncMsg

/-- The threads: `n` workers, `c` threads that log, and the one that runs the destructor. -/
inductive Thread (n c : ℕ)
  | worker (i : Fin n)
  | client (p : Fin c)
  | destructor
  deriving DecidableEq, Fintype, Repr

/-- Where a thread is in its code. -/
inductive ThreadState (μ : Type*)
  /-- Outside the logger. -/
  | idle
  /-- In `Dequeue`, before the test for an empty queue. -/
  | dequeue
  /-- Asleep on `push_cv_`. -/
  | waiting
  /-- In `Dequeue`, after the critical section and before `pop_cv_.notify_one`. -/
  | popped (msg : AsyncMsg μ)
  /-- In `HandleMsg`. -/
  | handling (msg : AsyncMsg μ)
  /-- In `Enqueue`, before the test for a full queue. -/
  | enqueue (msg : AsyncMsg μ)
  /-- Asleep on `pop_cv_`. -/
  | blocked (msg : AsyncMsg μ)
  /-- In `Enqueue`, after the critical section and before `push_cv_.notify_one`. -/
  | pushed
  /-- A worker whose loop has ended. -/
  | stopped
  deriving DecidableEq, Repr

/-- A thread pool with the threads that use it. -/
structure Pool (μ : Type*) (n c : ℕ) where
  queue : CircularQueue (AsyncMsg μ)
  threads : Thread n c → ThreadState μ
  /-- The `TERMINATE` messages the destructor has not started to post, once it has begun. -/
  remaining : Option ℕ
  /-- All messages enqueued so far. -/
  posted : List (AsyncMsg μ)
  /-- All messages dequeued so far, with the thread that took them. -/
  taken : List (Thread n c × AsyncMsg μ)
  /-- All records given to the backends so far, with the thread that formatted them. -/
  handled : List (Thread n c × μ)

/-- A step of the system. -/
inductive PoolLabel (μ : Type*) (n c : ℕ)
  /-- A thread starts a post: of a record in `Log`, or of a `FLUSH` message in `Flush`. -/
  | post (p : Fin c) (msg : AsyncMsg μ)
  /-- The destructor begins, after the last call of the other threads. -/
  | destroy
  /-- The destructor starts to post its next `TERMINATE` message. -/
  | terminate
  /-- The critical section of `Enqueue`. -/
  | enqueue (t : Thread n c)
  /-- `push_cv_.notify_one`, which ends the post. -/
  | notifyPush (t : Thread n c) (wakes : Option (Thread n c))
  /-- The critical section of `Dequeue`. -/
  | dequeue (t : Thread n c)
  /-- `pop_cv_.notify_one`, which ends `Dequeue`. -/
  | notifyPop (t : Thread n c) (wakes : Option (Thread n c))
  /-- `HandleMsg`, up to its post if it makes one. -/
  | handle (t : Thread n c)
  /-- A thread wakes up without a notification. -/
  | wake (t : Thread n c)
  deriving DecidableEq, Repr

namespace ThreadState

variable {μ : Type*}

/-- The thread outside the logger. -/
def isIdle : ThreadState μ → Bool
  | .idle => true
  | _ => false

/-- What a thread asleep on `push_cv_` does when it wakes up. -/
def pushCv : ThreadState μ → Option (ThreadState μ)
  | .waiting => some .dequeue
  | _ => none

/-- What a thread asleep on `pop_cv_` does when it wakes up. -/
def popCv : ThreadState μ → Option (ThreadState μ)
  | .blocked msg => some (.enqueue msg)
  | _ => none

theorem pushCv_eq_some {t state : ThreadState μ} :
    t.pushCv = some state ↔ t = .waiting ∧ state = .dequeue := by
  cases t <;> simp [pushCv, eq_comm]

theorem popCv_eq_some {t state : ThreadState μ} :
    t.popCv = some state ↔ ∃ msg, t = .blocked msg ∧ state = .enqueue msg := by
  cases t <;> simp [popCv, eq_comm]

/-- `HandleMsg` and the loop around it: a record at the flush level posts a `FLUSH` message,
and a `TERMINATE` message ends the loop. -/
def handleMsg (flushOn : μ → Bool) : AsyncMsg μ → ThreadState μ
  | .log msg => if flushOn msg then .enqueue .flush else .dequeue
  | .flush => .dequeue
  | .terminate => .stopped

end ThreadState

/-- The places of `Loop` outside a post. -/
def ThreadState.inLoop {μ : Type*} : ThreadState μ → Bool
  | .dequeue | .waiting | .popped _ | .handling _ | .stopped => true
  | _ => false

/-- Where in the code a thread can be, and what it can be posting: a worker runs the loop and
posts `FLUSH` messages, the others only post. -/
def Thread.fits {μ : Type*} {n c : ℕ} (t : Thread n c) : ThreadState μ → Bool
  | .idle => match t with
    | .worker _ => false
    | _ => true
  | .pushed => true
  | .enqueue msg | .blocked msg => match t, msg with
    | .worker _, .flush => true
    | .worker _, _ => false
    | .client _, msg => !msg.isTerminate
    | .destructor, msg => msg.isTerminate
  | _ => match t with
    | .worker _ => true
    | _ => false

/-- Where a thread is after its post: a worker goes on with its loop. -/
def Thread.afterPost {μ : Type*} {n c : ℕ} : Thread n c → ThreadState μ
  | .worker _ => .dequeue
  | _ => .idle

namespace Pool

variable {μ : Type*} {n c : ℕ}

/-- The logger after its construction, with every worker in its loop. -/
def init [Inhabited μ] (max : ℕ) : Pool μ n c where
  queue := .new max
  threads
    | .worker _ => .dequeue
    | _ => .idle
  remaining := none
  posted := []
  taken := []
  handled := []

/-- One thread moves. -/
def set (s : Pool μ n c) (t : Thread n c) (state : ThreadState μ) : Pool μ n c :=
  { s with threads := Function.update s.threads t state }

/-- `notify_one` on the condition variable whose sleepers `cv` tells: one of them is woken
whenever there is one. -/
def notify (s : Pool μ n c) (cv : ThreadState μ → Option (ThreadState μ)) :
    Option (Thread n c) → Except Stop (Pool μ n c)
  | none => if ∀ u, (cv (s.threads u)).isNone then .ok s else .error .disabled
  | some u =>
    match cv (s.threads u) with
    | some state => .ok (s.set u state)
    | none => .error .disabled

/-- One step; `flushOn` is `ShouldFlushOn` of the logger. -/
def step (flushOn : μ → Bool) (s : Pool μ n c) :
    PoolLabel μ n c → Except Stop (Pool μ n c)
  | .post p msg =>
    match s.remaining, s.threads (.client p), msg.isTerminate with
    | none, .idle, false => .ok (s.set (.client p) (.enqueue msg))
    | _, _, _ => .error .disabled
  | .destroy =>
    if s.remaining = none ∧ ∀ p, (s.threads (.client p)).isIdle then
      .ok { s with remaining := some n }
    else .error .disabled
  | .terminate =>
    match s.remaining, s.threads .destructor with
    | some (k + 1), .idle =>
      .ok { s.set .destructor (.enqueue .terminate) with remaining := some k }
    | _, _ => .error .disabled
  | .enqueue t =>
    match s.threads t with
    | .enqueue msg =>
      match BlockingQueue.enqueue s.queue msg with
      | none => .ok (s.set t (.blocked msg))
      | some queue => .ok { s.set t .pushed with queue, posted := s.posted ++ [msg] }
    | _ => .error .disabled
  | .notifyPush t wakes =>
    match s.threads t with
    | .pushed => (s.notify ThreadState.pushCv wakes).map (·.set t t.afterPost)
    | _ => .error .disabled
  | .dequeue t =>
    match s.threads t with
    | .dequeue =>
      match BlockingQueue.dequeue s.queue with
      | none => .ok (s.set t .waiting)
      | some (msg, queue) =>
        .ok { s.set t (.popped msg) with queue, taken := s.taken ++ [(t, msg)] }
    | _ => .error .disabled
  | .notifyPop t wakes =>
    match s.threads t with
    | .popped msg => (s.notify ThreadState.popCv wakes).map (·.set t (.handling msg))
    | _ => .error .disabled
  | .handle t =>
    match s.threads t with
    | .handling msg =>
      .ok { s.set t (ThreadState.handleMsg flushOn msg) with
        handled := match msg with
          | .log record => s.handled ++ [(t, record)]
          | _ => s.handled }
    | _ => .error .disabled
  | .wake t =>
    match s.threads t with
    | .waiting => .ok (s.set t .dequeue)
    | .blocked msg => .ok (s.set t (.enqueue msg))
    | _ => .error .disabled

/-! ## What a step can do -/

/-- The outcomes of the steps that are taken. -/
inductive Step (flushOn : μ → Bool) (s : Pool μ n c) : PoolLabel μ n c → Pool μ n c → Prop
  | post {p msg} (hopen : s.remaining = none) (ht : s.threads (.client p) = .idle)
      (hmsg : msg.isTerminate = false) :
      Step flushOn s (.post p msg) (s.set (.client p) (.enqueue msg))
  | destroy (hopen : s.remaining = none) (hidle : ∀ p, s.threads (.client p) = .idle) :
      Step flushOn s .destroy { s with remaining := some n }
  | terminate {k} (hleft : s.remaining = some (k + 1)) (ht : s.threads .destructor = .idle) :
      Step flushOn s .terminate
        { s.set .destructor (.enqueue .terminate) with remaining := some k }
  | block {t msg} (ht : s.threads t = .enqueue msg) (hfull : s.queue.full = true) :
      Step flushOn s (.enqueue t) (s.set t (.blocked msg))
  | push {t msg queue} (ht : s.threads t = .enqueue msg)
      (hq : BlockingQueue.enqueue s.queue msg = some queue) :
      Step flushOn s (.enqueue t) { s.set t .pushed with queue, posted := s.posted ++ [msg] }
  | notifyPush {t u} (ht : s.threads t = .pushed) (hu : s.threads u = .waiting) :
      Step flushOn s (.notifyPush t (some u)) ((s.set u .dequeue).set t t.afterPost)
  | endPush {t} (ht : s.threads t = .pushed) (hnone : ∀ u, s.threads u ≠ .waiting) :
      Step flushOn s (.notifyPush t none) (s.set t t.afterPost)
  | wait {t} (ht : s.threads t = .dequeue) (hq : BlockingQueue.dequeue s.queue = none) :
      Step flushOn s (.dequeue t) (s.set t .waiting)
  | pop {t msg queue} (ht : s.threads t = .dequeue)
      (hq : BlockingQueue.dequeue s.queue = some (msg, queue)) :
      Step flushOn s (.dequeue t)
        { s.set t (.popped msg) with queue, taken := s.taken ++ [(t, msg)] }
  | notifyPop {t u msg next} (ht : s.threads t = .popped msg) (hu : s.threads u = .blocked next) :
      Step flushOn s (.notifyPop t (some u)) ((s.set u (.enqueue next)).set t (.handling msg))
  | endPop {t msg} (ht : s.threads t = .popped msg)
      (hnone : ∀ u next, s.threads u ≠ .blocked next) :
      Step flushOn s (.notifyPop t none) (s.set t (.handling msg))
  | handle {t msg handled} (ht : s.threads t = .handling msg)
      (hrec : handled = s.handled ++ match msg with
        | .log record => [(t, record)]
        | _ => []) :
      Step flushOn s (.handle t) { s.set t (ThreadState.handleMsg flushOn msg) with handled }
  | wakePush {t} (ht : s.threads t = .waiting) : Step flushOn s (.wake t) (s.set t .dequeue)
  | wakePop {t msg} (ht : s.threads t = .blocked msg) :
      Step flushOn s (.wake t) (s.set t (.enqueue msg))

variable {flushOn : μ → Bool} {s s' : Pool μ n c} {l : PoolLabel μ n c}

theorem notify_eq_ok {cv : ThreadState μ → Option (ThreadState μ)} {wakes : Option (Thread n c)}
    {m : Pool μ n c} (h : s.notify cv wakes = .ok m) :
    (wakes = none ∧ m = s ∧ ∀ u, cv (s.threads u) = none) ∨
      ∃ u state, wakes = some u ∧ cv (s.threads u) = some state ∧ m = s.set u state := by
  cases wakes with
  | none =>
      rw [notify] at h
      split at h
      case isTrue hnone =>
        cases h
        exact .inl ⟨rfl, rfl, fun u => Option.isNone_iff_eq_none.mp (hnone u)⟩
      case isFalse => cases h
  | some u =>
      rw [notify] at h
      split at h
      case h_1 state hu =>
        cases h
        exact .inr ⟨u, state, rfl, hu, rfl⟩
      case h_2 => cases h

/-- Every step that is taken has one of the outcomes. -/
theorem step_eq_ok (h : s.step flushOn l = .ok s') : Step flushOn s l s' := by
  cases l with
  | post p msg =>
      simp only [step] at h
      split at h
      case h_1 hopen ht hmsg =>
        cases h
        exact .post hopen ht hmsg
      case h_2 => cases h
  | destroy =>
      simp only [step] at h
      split at h
      case isTrue hall =>
        cases h
        refine .destroy hall.1 fun p => ?_
        have hp := hall.2 p
        cases ht : s.threads (.client p) <;> simp_all [ThreadState.isIdle]
      case isFalse => cases h
  | terminate =>
      simp only [step] at h
      split at h
      case h_1 k hleft ht =>
        cases h
        exact .terminate hleft ht
      case h_2 => cases h
  | enqueue t =>
      simp only [step] at h
      split at h
      case h_1 msg ht =>
        split at h
        case h_1 hq =>
          cases h
          exact .block ht (BlockingQueue.enqueue_eq_none.mp hq)
        case h_2 hq =>
          cases h
          exact .push ht hq
      case h_2 => cases h
  | notifyPush t wakes =>
      simp only [step] at h
      split at h
      case h_1 ht =>
        obtain ⟨m, hm, rfl⟩ := map_eq_ok h
        rcases notify_eq_ok hm with ⟨rfl, rfl, hnone⟩ | ⟨u, state, rfl, hu, rfl⟩
        · exact .endPush ht fun u hu => absurd (hnone u) (by simp [hu, ThreadState.pushCv])
        · obtain ⟨hwaiting, rfl⟩ := ThreadState.pushCv_eq_some.mp hu
          exact .notifyPush ht hwaiting
      case h_2 => cases h
  | dequeue t =>
      simp only [step] at h
      split at h
      case h_1 ht =>
        split at h
        case h_1 hq =>
          cases h
          exact .wait ht hq
        case h_2 hq =>
          cases h
          exact .pop ht hq
      case h_2 => cases h
  | notifyPop t wakes =>
      simp only [step] at h
      split at h
      case h_1 msg ht =>
        obtain ⟨m, hm, rfl⟩ := map_eq_ok h
        rcases notify_eq_ok hm with ⟨rfl, rfl, hnone⟩ | ⟨u, state, rfl, hu, rfl⟩
        · exact .endPop ht fun u next hu => absurd (hnone u) (by simp [hu, ThreadState.popCv])
        · obtain ⟨next, hblocked, rfl⟩ := ThreadState.popCv_eq_some.mp hu
          exact .notifyPop ht hblocked
      case h_2 => cases h
  | handle t =>
      simp only [step] at h
      split at h
      case h_1 msg ht =>
        cases h
        exact .handle ht (by cases msg <;> simp)
      case h_2 => cases h
  | wake t =>
      simp only [step] at h
      split at h
      case h_1 ht =>
        cases h
        exact .wakePush ht
      case h_2 msg ht =>
        cases h
        exact .wakePop ht
      case h_3 => cases h

@[simp] theorem set_self (s : Pool μ n c) (t : Thread n c) (state : ThreadState μ) :
    (s.set t state).threads t = state := Function.update_self ..

theorem set_other {t u : Thread n c} {state : ThreadState μ} (hne : u ≠ t) :
    (s.set t state).threads u = s.threads u := Function.update_of_ne hne ..

@[simp] theorem set_queue (s : Pool μ n c) (t : Thread n c) (state : ThreadState μ) :
    (s.set t state).queue = s.queue := rfl

@[simp] theorem set_remaining (s : Pool μ n c) (t : Thread n c) (state : ThreadState μ) :
    (s.set t state).remaining = s.remaining := rfl

@[simp] theorem set_posted (s : Pool μ n c) (t : Thread n c) (state : ThreadState μ) :
    (s.set t state).posted = s.posted := rfl

/-! ## Which thread can be where -/

/-- Every thread is at a place of its own code, and the ring has the slots it was made
with. -/
structure Fits (max : ℕ) (s : Pool μ n c) : Prop where
  threads : ∀ t : Thread n c, t.fits (s.threads t) = true
  capacity : s.queue.maxCapacity = max

variable {max : ℕ} {t : Thread n c} {state : ThreadState μ}

theorem fits_init [Inhabited μ] : (init max : Pool μ n c).Fits max where
  threads t := by cases t <;> rfl
  capacity := rfl

/-- Only a worker runs the loop. -/
theorem Fits.exists_worker (h : s.Fits max) (hloop : (s.threads t).inLoop = true) :
    ∃ i, t = .worker i := by
  have ht := h.threads t
  cases t with
  | worker i => exact ⟨i, rfl⟩
  | client p => cases hs : s.threads (.client p) <;> simp_all [Thread.fits, ThreadState.inLoop]
  | destructor => cases hs : s.threads .destructor <;> simp_all [Thread.fits, ThreadState.inLoop]

theorem Fits.set (h : s.Fits max) (hstate : t.fits state = true) : (s.set t state).Fits max where
  threads u := by
    by_cases hu : u = t
    · rw [hu, set_self]
      exact hstate
    · rw [set_other hu]
      exact h.threads u
  capacity := h.capacity

theorem Fits.with_queue {queue : CircularQueue (AsyncMsg μ)} {posted : List (AsyncMsg μ)}
    {taken : List (Thread n c × AsyncMsg μ)} (h : s.Fits max)
    (hq : queue.maxCapacity = s.queue.maxCapacity) :
    { s with queue, posted, taken }.Fits max :=
  ⟨h.threads, hq.trans h.capacity⟩

theorem fits_afterPost (t : Thread n c) : t.fits (t.afterPost : ThreadState μ) = true := by
  cases t <;> rfl

theorem fits_handleMsg {i : Fin n} {msg : AsyncMsg μ} :
    (Thread.worker i : Thread n c).fits (ThreadState.handleMsg flushOn msg) = true := by
  cases msg with
  | log record => simp only [ThreadState.handleMsg]; split <;> rfl
  | flush => rfl
  | terminate => rfl

theorem fits_step (hmax : 0 < max) (h : s.Fits max) (hs : s.step flushOn l = .ok s') :
    s'.Fits max := by
  have hcap : 0 < s.queue.maxCapacity := h.capacity ▸ hmax
  have hfits := h.threads
  cases step_eq_ok hs with
  | post hopen ht hmsg => exact h.set (by simp [Thread.fits, hmsg])
  | destroy hopen hidle => exact ⟨h.threads, h.capacity⟩
  | terminate hleft ht => exact ⟨(h.set rfl).threads, h.capacity⟩
  | @block t msg ht hfull => exact h.set (by have := hfits t; rw [ht] at this; exact this)
  | push ht hq =>
      obtain ⟨-, -, hmaxq, -⟩ := BlockingQueue.enqueue_eq_some hcap hq
      exact (h.set rfl).with_queue hmaxq
  | @notifyPush t u ht hu =>
      obtain ⟨i, rfl⟩ := h.exists_worker (t := u) (by rw [hu]; rfl)
      exact (h.set rfl).set (fits_afterPost t)
  | @endPush t ht hnone => exact h.set (fits_afterPost t)
  | @wait t ht hq =>
      obtain ⟨i, rfl⟩ := h.exists_worker (t := t) (by rw [ht]; rfl)
      exact h.set rfl
  | @pop t msg queue ht hq =>
      obtain ⟨i, rfl⟩ := h.exists_worker (t := t) (by rw [ht]; rfl)
      obtain ⟨-, hmaxq, -⟩ := BlockingQueue.dequeue_eq_some hcap hq
      exact (h.set rfl).with_queue hmaxq
  | @notifyPop t u msg next ht hu =>
      obtain ⟨i, rfl⟩ := h.exists_worker (t := t) (by rw [ht]; rfl)
      refine Fits.set (h.set ?_) rfl
      have := hfits u
      rw [hu] at this
      exact this
  | @endPop t msg ht hnone =>
      obtain ⟨i, rfl⟩ := h.exists_worker (t := t) (by rw [ht]; rfl)
      exact h.set rfl
  | @handle t msg handled ht hrec =>
      obtain ⟨i, rfl⟩ := h.exists_worker (t := t) (by rw [ht]; rfl)
      exact ⟨(h.set fits_handleMsg).threads, h.capacity⟩
  | @wakePush t ht =>
      obtain ⟨i, rfl⟩ := h.exists_worker (t := t) (by rw [ht]; rfl)
      exact h.set rfl
  | @wakePop t msg ht => exact h.set (by have := hfits t; rw [ht] at this; exact this)

end Pool

end Hare.Log
