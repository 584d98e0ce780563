import Hare.Lib.Threads
import Hare.Log.ThreadPool

/-!
# No notification is lost

A thread asleep on a condition variable of the queue depends on a notification.  `Awake` says
that there are always enough of them under way: while a worker waits for messages there are
no more messages than notifications to come and workers about to look, and while a thread
waits for room there is no more room than notifications to come and threads about to look.

Apart from new calls every step of a thread uses up work (`Pool.work_step`), so that the
threads come to rest by themselves.  `Pool.Stuck` is the state in which none of them can go on.
-/

namespace Hare.Log

open LabelledRun Util Threads

namespace ThreadState

variable {μ : Type*}

/-- A `push_cv_.notify_one` to come, or a worker about to test for an empty queue. -/
def pushNote : ThreadState μ → ℕ
  | .pushed | .dequeue => 1
  | _ => 0

/-- A `pop_cv_.notify_one` to come, or a thread about to test for a full queue. -/
def popNote : ThreadState μ → ℕ
  | .popped _ | .enqueue _ => 1
  | _ => 0

/-- The thread has nothing to do or sleeps. -/
def atRest : ThreadState μ → Bool
  | .idle | .waiting | .blocked _ | .stopped => true
  | _ => false

end ThreadState

namespace Pool

variable {μ : Type*} {n c : ℕ}

/-- Enough notifications are under way for the threads that sleep. -/
structure Awake (s : Pool μ n c) : Prop where
  push : (∃ t, s.threads t = .waiting) →
    s.queue.content.length ≤ total ThreadState.pushNote s.threads
  pop : (∃ t msg, s.threads t = .blocked msg) →
    s.queue.maxCapacity ≤ s.queue.content.length + 1 + total ThreadState.popNote s.threads

variable {flushOn : μ → Bool} {s s' : Pool μ n c} {l : PoolLabel μ n c} {max : ℕ}
variable {t u : Thread n c} {state : ThreadState μ}

/-! ## Notifications -/

theorem awake_init [Inhabited μ] : (init max : Pool μ n c).Awake where
  push := fun ⟨t, ht⟩ => by cases t <;> cases ht
  pop := fun ⟨t, _, ht⟩ => by cases t <;> cases ht

theorem exists_of_set {old : ThreadState μ} (hne : state ≠ old)
    (h : ∃ u, (s.set t state).threads u = old) : ∃ u, s.threads u = old := by
  obtain ⟨u, hu⟩ := h
  by_cases hut : u = t
  · rw [hut, set_self] at hu
    exact absurd hu hne
  · exact ⟨u, by rwa [set_other hut] at hu⟩

theorem total_set (w : ThreadState μ → ℕ) (s : Pool μ n c) (t : Thread n c)
    (state : ThreadState μ) :
    total w (s.set t state).threads + w (s.threads t) = total w s.threads + w state :=
  total_update w s.threads t state

theorem total_set_set (w : ThreadState μ → ℕ) (s : Pool μ n c) (hne : t ≠ u)
    (state next : ThreadState μ) :
    total w ((s.set u next).set t state).threads + w (s.threads t) + w (s.threads u) =
      total w s.threads + w state + w next :=
  total_update_update w s.threads hne state next

/-- The messages that come into the queue with a step bring their notifications along. -/
theorem Awake.push_set {queue : CircularQueue (AsyncMsg μ)} (h : s.Awake)
    (hw : state ≠ .waiting) (hle : queue.content.length + (s.threads t).pushNote ≤
      s.queue.content.length + state.pushNote)
    (hex : ∃ u, (s.set t state).threads u = .waiting) :
    queue.content.length ≤ total ThreadState.pushNote (s.set t state).threads := by
  have hold := h.push (exists_of_set hw hex)
  have htotal := total_set ThreadState.pushNote s t state
  omega

/-- The room that comes into the queue with a step brings its notifications along. -/
theorem Awake.pop_set {queue : CircularQueue (AsyncMsg μ)} (h : s.Awake)
    (hb : ∀ msg, state ≠ .blocked msg) (hcap : queue.maxCapacity = s.queue.maxCapacity)
    (hle : s.queue.content.length + (s.threads t).popNote ≤
      queue.content.length + state.popNote)
    (hex : ∃ u msg, (s.set t state).threads u = .blocked msg) :
    queue.maxCapacity ≤
      queue.content.length + 1 + total ThreadState.popNote (s.set t state).threads := by
  obtain ⟨u, msg, hu⟩ := hex
  obtain ⟨u', hu'⟩ := exists_of_set (hb msg) ⟨u, hu⟩
  have hold := h.pop ⟨u', msg, hu'⟩
  have htotal := total_set ThreadState.popNote s t state
  omega

/-- A thread that does not fall asleep, and whose notifications stay, changes nothing. -/
theorem Awake.set (h : s.Awake) (hw : state ≠ .waiting) (hb : ∀ msg, state ≠ .blocked msg)
    (hpush : (s.threads t).pushNote ≤ state.pushNote)
    (hpop : (s.threads t).popNote ≤ state.popNote) : (s.set t state).Awake where
  push := h.push_set hw (Nat.add_le_add_left hpush _)
  pop := h.pop_set hb rfl (Nat.add_le_add_left hpop _)

theorem afterPost_ne_waiting (t : Thread n c) : (t.afterPost : ThreadState μ) ≠ .waiting := by
  cases t <;> simp [Thread.afterPost]

theorem afterPost_ne_blocked (t : Thread n c) (msg : AsyncMsg μ) :
    t.afterPost ≠ .blocked msg := by
  cases t <;> simp [Thread.afterPost]

theorem handleMsg_ne_waiting (flushOn : μ → Bool) (msg : AsyncMsg μ) :
    ThreadState.handleMsg flushOn msg ≠ .waiting := by
  cases msg <;> simp only [ThreadState.handleMsg] <;> (try split) <;> simp

theorem handleMsg_ne_blocked (flushOn : μ → Bool) (msg next : AsyncMsg μ) :
    ThreadState.handleMsg flushOn msg ≠ .blocked next := by
  cases msg <;> simp only [ThreadState.handleMsg] <;> (try split) <;> simp

/-- **No step loses a notification that a sleeping thread needs.** -/
theorem awake_step (hmax : 0 < max) (hfits : s.Fits max) (h : s.Awake)
    (hs : s.step flushOn l = .ok s') : s'.Awake := by
  have hcap : 0 < s.queue.maxCapacity := hfits.capacity ▸ hmax
  cases step_eq_ok hs with
  | post hopen ht hmsg =>
      exact h.set (by simp) (by simp) (by simp [ht, ThreadState.pushNote])
        (by simp [ht, ThreadState.popNote])
  | destroy hopen hidle => exact ⟨h.push, h.pop⟩
  | terminate hleft ht =>
      have hset : (s.set .destructor (.enqueue .terminate)).Awake :=
        h.set (by simp) (by simp) (by simp [ht, ThreadState.pushNote])
          (by simp [ht, ThreadState.popNote])
      exact ⟨hset.push, hset.pop⟩
  | block ht hfull =>
      have hlen := (CircularQueue.full_iff hcap).mp hfull
      refine ⟨h.push_set (by simp) (by simp [ht, ThreadState.pushNote]), fun _ => ?_⟩
      rw [set_queue]
      omega
  | push ht hq =>
      obtain ⟨-, hcontent, hmaxq, -⟩ := BlockingQueue.enqueue_eq_some hcap hq
      exact ⟨h.push_set (by simp) (by simp [ht, hcontent, ThreadState.pushNote]),
        h.pop_set (by simp) hmaxq (by simp [ht, hcontent, ThreadState.popNote])⟩
  | @notifyPush t u ht hu =>
      -- the notification is used up, and the worker it wakes is about to look
      have hne : t ≠ u := fun heq => by rw [heq, hu] at ht; cases ht
      have hpush := total_set_set ThreadState.pushNote s hne t.afterPost .dequeue
      have hpop := total_set_set ThreadState.popNote s hne t.afterPost .dequeue
      simp only [ht, hu, ThreadState.pushNote, ThreadState.popNote] at hpush hpop
      refine ⟨fun hex => ?_, fun ⟨v, m, hv⟩ => ?_⟩
      · have hold := h.push ⟨u, hu⟩
        simp only [set_queue]
        omega
      · obtain ⟨v', hv'⟩ := exists_of_set (afterPost_ne_blocked t m) ⟨v, hv⟩
        obtain ⟨v'', hv''⟩ := exists_of_set (by simp) ⟨v', hv'⟩
        have hold := h.pop ⟨v'', m, hv''⟩
        simp only [set_queue]
        omega
  | @endPush t ht hnone =>
      refine ⟨fun hex => ?_, h.pop_set (afterPost_ne_blocked t) rfl
        (by simp [ht, ThreadState.popNote])⟩
      obtain ⟨u, hu⟩ := exists_of_set (afterPost_ne_waiting t) hex
      exact absurd hu (hnone u)
  | wait ht hq =>
      have hempty := (BlockingQueue.dequeue_eq_none hcap).mp hq
      exact ⟨fun _ => by simp [hempty],
        h.pop_set (by simp) rfl (by simp [ht, ThreadState.popNote])⟩
  | pop ht hq =>
      obtain ⟨hcontent, hmaxq, -⟩ := BlockingQueue.dequeue_eq_some hcap hq
      exact ⟨h.push_set (by simp) (by simp [ht, hcontent, ThreadState.pushNote]),
        h.pop_set (by simp) hmaxq (by simp [ht, hcontent, ThreadState.popNote])⟩
  | @notifyPop t u msg next ht hu =>
      have hne : t ≠ u := fun heq => by rw [heq, hu] at ht; cases ht
      have hpush := total_set_set ThreadState.pushNote s hne (.handling msg) (.enqueue next)
      have hpop := total_set_set ThreadState.popNote s hne (.handling msg) (.enqueue next)
      simp only [ht, hu, ThreadState.pushNote, ThreadState.popNote] at hpush hpop
      refine ⟨fun hex => ?_, fun _ => ?_⟩
      · have hold := h.push (exists_of_set (by simp) (exists_of_set (by simp) hex))
        simp only [set_queue]
        omega
      · have hold := h.pop ⟨u, next, hu⟩
        simp only [set_queue]
        omega
  | endPop ht hnone =>
      refine ⟨h.push_set (by simp) (by simp [ht, ThreadState.pushNote]), fun ⟨v, m, hv⟩ => ?_⟩
      obtain ⟨v', hv'⟩ := exists_of_set (by simp) ⟨v, hv⟩
      exact absurd hv' (hnone v' m)
  | @handle t msg handled ht hrec =>
      have hset : (s.set t (ThreadState.handleMsg flushOn msg)).Awake :=
        h.set (handleMsg_ne_waiting flushOn msg) (handleMsg_ne_blocked flushOn msg)
          (by simp [ht, ThreadState.pushNote]) (by simp [ht, ThreadState.popNote])
      exact ⟨hset.push, hset.pop⟩
  | wakePush ht =>
      exact h.set (by simp) (by simp) (by simp [ht, ThreadState.pushNote])
        (by simp [ht, ThreadState.popNote])
  | wakePop ht =>
      exact h.set (by simp) (by simp) (by simp [ht, ThreadState.pushNote])
        (by simp [ht, ThreadState.popNote])

end Pool

/-! ## Work -/

namespace AsyncMsg

/-- What a message in the queue still costs: the `Dequeue` and the handling of it, with the
post of a `FLUSH` message behind a record. -/
def cost {μ : Type*} : AsyncMsg μ → ℕ
  | .log _ => 11
  | .flush => 4
  | .terminate => 3

end AsyncMsg

/-- What a thread has still to do.  A `notify_one` pays for the test of the thread it wakes. -/
def ThreadState.cost {μ : Type*} : ThreadState μ → ℕ
  | .dequeue => 1
  | .popped msg => msg.cost
  | .handling msg => msg.cost - 2
  | .enqueue msg => msg.cost + 4
  | .blocked msg => msg.cost + 3
  | .pushed => 3
  | .idle | .waiting | .stopped => 0

namespace PoolLabel

variable {μ : Type*} {n c : ℕ}

/-- The steps the threads take by themselves. -/
def own : PoolLabel μ n c → ℕ
  | .post _ _ | .destroy | .wake _ => 0
  | _ => 1

/-- The wakeups without a notification. -/
def spurious : PoolLabel μ n c → ℕ
  | .wake _ => 1
  | _ => 0

/-- The steps by which a user calls the logger. -/
def isCall : PoolLabel μ n c → Bool
  | .post _ _ | .destroy => true
  | _ => false

end PoolLabel

namespace Pool

variable {μ : Type*} {n c : ℕ} {flushOn : μ → Bool} {s s' : Pool μ n c} {l : PoolLabel μ n c}
variable {max : ℕ} {t u : Thread n c} {state : ThreadState μ}

/-- A bound on the steps the threads can take by themselves. -/
def work (s : Pool μ n c) : ℕ :=
  total ThreadState.cost s.threads + (s.queue.content.map AsyncMsg.cost).sum +
    8 * s.remaining.getD 0

theorem cost_afterPost (t : Thread n c) : (t.afterPost : ThreadState μ).cost ≤ 1 := by
  cases t <;> simp [Thread.afterPost, ThreadState.cost]

theorem two_le_cost (msg : AsyncMsg μ) : 2 ≤ msg.cost := by
  cases msg <;> simp [AsyncMsg.cost]

theorem cost_handleMsg (flushOn : μ → Bool) (msg : AsyncMsg μ) :
    (ThreadState.handleMsg flushOn msg).cost + 3 ≤ msg.cost := by
  cases msg with
  | log record =>
      simp only [ThreadState.handleMsg]
      split <;> simp [ThreadState.cost, AsyncMsg.cost]
  | flush => simp [ThreadState.handleMsg, ThreadState.cost, AsyncMsg.cost]
  | terminate => simp [ThreadState.handleMsg, ThreadState.cost, AsyncMsg.cost]

theorem work_set (s : Pool μ n c) (t : Thread n c) (state : ThreadState μ) :
    (s.set t state).work + (s.threads t).cost = s.work + state.cost := by
  have htotal := total_set ThreadState.cost s t state
  simp only [work, set_queue, set_remaining]
  omega

theorem work_set_set (s : Pool μ n c) (hne : t ≠ u) (state next : ThreadState μ) :
    ((s.set u next).set t state).work + (s.threads t).cost + (s.threads u).cost =
      s.work + state.cost + next.cost := by
  have htotal := total_set_set ThreadState.cost s hne state next
  simp only [work, set_queue, set_remaining]
  omega

/-- A thread that moves pays for the move. -/
theorem work_set_le {old : ThreadState μ} {own spurious : ℕ} (ht : s.threads t = old)
    (hcost : state.cost + own ≤ old.cost + spurious) :
    (s.set t state).work + own ≤ s.work + spurious := by
  have hwork := work_set s t state
  rw [ht] at hwork
  omega

/-- A thread that wakes another one pays for both. -/
theorem work_set_set_le {old asleep next : ThreadState μ} {own : ℕ} (ht : s.threads t = old)
    (hu : s.threads u = asleep) (hne : old ≠ asleep)
    (hcost : state.cost + next.cost + own ≤ old.cost + asleep.cost) :
    ((s.set u next).set t state).work + own ≤ s.work := by
  have htu : t ≠ u := fun heq => hne (by rw [← ht, ← hu, heq])
  have hwork := work_set_set s htu state next
  rw [ht, hu] at hwork
  omega

/-- Every step of a thread uses up work, and a spurious wakeup adds one test. -/
theorem work_step (hcap : 0 < s.queue.maxCapacity) (hcall : l.isCall = false)
    (hs : s.step flushOn l = .ok s') : s'.work + l.own ≤ s.work + l.spurious := by
  cases step_eq_ok hs with
  | post hopen ht hmsg | destroy hopen hidle => cases hcall
  | @terminate k hleft ht =>
      have htotal := total_set ThreadState.cost s .destructor (.enqueue .terminate)
      simp only [ht, ThreadState.cost, AsyncMsg.cost] at htotal
      simp only [work, hleft, Option.getD_some, PoolLabel.own, PoolLabel.spurious, set_queue]
      omega
  | @push t msg queue ht hq =>
      obtain ⟨-, hcontent, -⟩ := BlockingQueue.enqueue_eq_some hcap hq
      have htotal := total_set ThreadState.cost s t .pushed
      simp only [ht, ThreadState.cost] at htotal
      simp only [work, hcontent, List.map_append, List.sum_append, List.map_singleton,
        List.sum_singleton, PoolLabel.own, PoolLabel.spurious, set_remaining]
      omega
  | @pop t msg queue ht hq =>
      obtain ⟨hcontent, -⟩ := BlockingQueue.dequeue_eq_some hcap hq
      have htotal := total_set ThreadState.cost s t (.popped msg)
      simp only [ht, ThreadState.cost] at htotal
      simp only [work, hcontent, List.map_cons, List.sum_cons, PoolLabel.own, PoolLabel.spurious,
        set_remaining]
      omega
  | @notifyPush t u ht hu =>
      exact work_set_set_le ht hu (by simp) (Nat.add_le_add_right (cost_afterPost t) 2)
  | @endPush t ht hnone =>
      exact work_set_le ht ((Nat.add_le_add_right (cost_afterPost t) 1).trans (Nat.le_succ 2))
  | @notifyPop t u msg next ht hu =>
      have hcost := two_le_cost msg
      refine work_set_set_le ht hu (by simp) ?_
      simp only [ThreadState.cost, PoolLabel.own]
      omega
  | @endPop t msg ht hnone =>
      have hcost := two_le_cost msg
      refine work_set_le ht ?_
      simp only [ThreadState.cost, PoolLabel.own, PoolLabel.spurious]
      omega
  | @handle t msg handled ht hrec =>
      have hcost : (ThreadState.handleMsg flushOn msg).cost + 1 ≤ msg.cost - 2 + 0 :=
        Nat.le_sub_of_add_le (cost_handleMsg flushOn msg)
      have hset : (s.set t (ThreadState.handleMsg flushOn msg)).work + 1 ≤ s.work + 0 :=
        work_set_le ht hcost
      exact hset
  | block ht hfull | wait ht hq | wakePush ht | wakePop ht => exact work_set_le ht le_rfl

/-! ## Rest -/

/-- The destructor has begun and no thread can go on by itself. -/
def Stuck (flushOn : μ → Bool) (s : Pool μ n c) : Prop :=
  s.remaining ≠ none ∧ ∀ l s', l.spurious = 0 → s.step flushOn l ≠ .ok s'

/-- A notification can always be sent: to a thread that sleeps, or to no one. -/
theorem exists_notify (s : Pool μ n c) (cv : ThreadState μ → Option (ThreadState μ)) :
    ∃ wakes m, s.notify cv wakes = .ok m := by
  by_cases hnone : ∀ u, (cv (s.threads u)).isNone
  · exact ⟨none, s, by simp only [notify]; rw [if_pos hnone]⟩
  · obtain ⟨u, hu⟩ := not_forall.mp hnone
    obtain ⟨state, hstate⟩ := Option.ne_none_iff_exists'.mp (mt Option.isNone_iff_eq_none.mpr hu)
    exact ⟨some u, s.set u state, by simp only [notify, hstate]⟩

/-- The threads are stuck exactly when all of them are at rest and the destructor has nothing
left to post. -/
theorem stuck_iff : s.Stuck flushOn ↔ s.remaining ≠ none ∧
    (∀ t, (s.threads t).atRest = true) ∧
    (s.threads .destructor = .idle → s.remaining = some 0) := by
  have hgo : ∀ l, l.spurious = 0 → (∃ s', s.step flushOn l = .ok s') → ¬ s.Stuck flushOn :=
    fun l hl ⟨s', hs'⟩ hstuck => hstuck.2 l s' hl hs'
  refine ⟨fun hstuck => ⟨hstuck.1, fun t => ?_, fun hidle => ?_⟩, ?_⟩
  · cases ht : s.threads t with
    | idle | waiting | blocked | stopped => rfl
    | dequeue =>
        refine absurd hstuck (hgo (.dequeue t) rfl ?_)
        simp only [step, ht]
        split <;> exact ⟨_, rfl⟩
    | enqueue msg =>
        refine absurd hstuck (hgo (.enqueue t) rfl ?_)
        simp only [step, ht]
        split <;> exact ⟨_, rfl⟩
    | handling msg =>
        refine absurd hstuck (hgo (.handle t) rfl ?_)
        simp only [step, ht]
        exact ⟨_, rfl⟩
    | pushed =>
        obtain ⟨wakes, m, hm⟩ := s.exists_notify ThreadState.pushCv
        refine absurd hstuck (hgo (.notifyPush t wakes) rfl ?_)
        simp only [step, ht, hm]
        exact ⟨_, rfl⟩
    | popped msg =>
        obtain ⟨wakes, m, hm⟩ := s.exists_notify ThreadState.popCv
        refine absurd hstuck (hgo (.notifyPop t wakes) rfl ?_)
        simp only [step, ht, hm]
        exact ⟨_, rfl⟩
  · obtain ⟨k, hk⟩ := Option.ne_none_iff_exists'.mp hstuck.1
    cases k with
    | zero => exact hk
    | succ k =>
        refine absurd hstuck (hgo .terminate rfl ?_)
        simp only [step, hk, hidle]
        exact ⟨_, rfl⟩
  · rintro ⟨hbegun, hrest, hdone⟩
    refine ⟨hbegun, fun l s' hl hs => ?_⟩
    have hnot : ∀ {t state}, s.threads t = state → state.atRest = false → False :=
      fun {t} _ ht hf => by rw [← ht, hrest t] at hf; cases hf
    cases step_eq_ok hs with
    | post hopen ht hmsg => exact hbegun hopen
    | destroy hopen hidle => exact hbegun hopen
    | terminate hleft ht => rw [hdone ht] at hleft; cases hleft
    | block ht _ | push ht _ | notifyPush ht _ | endPush ht _ | wait ht _ | pop ht _
    | notifyPop ht _ | endPop ht _ | handle ht _ => exact hnot ht rfl
    | wakePush | wakePop => cases hl

end Pool

end Hare.Log
