import Hare.Base.QueueRun
import Hare.Log.LogFiles

/-!
# Logging without waiting

With the policy `DISCARD` a thread that logs calls `EnqueueNoWait`: it never waits, and where the
queue is full its record takes the place of the oldest message there.  That message can be a record
or a `FLUSH`; the queue counts how often this happens.  The `FLUSH` messages, of `Flush` and of the
workers, and the `TERMINATE` messages of the destructor are posted with `BLOCK_RETRY` as before.

The system is the one of `Hare.Log.ThreadPool` but for that step.  A message that is overwritten is
taken out of `posted`, so that the invariants of the pool with `BLOCK_RETRY` hold of what is left.
Only the count of the queue is not zero, and no step reads it (`Pool.step_resetCounter`).
-/

namespace Hare.Log

open LabelledRun Util Threads

/-- What `PushBack` overwrites. -/
def overwritten {α : Type*} (q : CircularQueue α) : List α := if q.full then [q.front] else []

/-- `EnqueueNoWait` appends, and what it overwrites it takes from the front. -/
theorem overwritten_append_content {α : Type*} {q : CircularQueue α} (hmax : 2 ≤ q.maxCapacity)
    (item : α) :
    overwritten q ++ (BlockingQueue.enqueueNoWait q item).content = q.content ++ [item] := by
  have hpos : 0 < q.maxCapacity := by omega
  rw [BlockingQueue.enqueueNoWait, overwritten]
  cases hfull : q.full with
  | true =>
      have hlen := (CircularQueue.full_iff hpos).mp hfull
      have hempty : q.empty = false := by
        rw [← Bool.not_eq_true, CircularQueue.empty_iff hpos, ← List.length_eq_zero_iff]
        omega
      have hcontent : q.content = q.front :: q.popFront.2.content :=
        CircularQueue.content_popFront hpos hempty
      rw [if_pos rfl, CircularQueue.content_pushBack_full hpos hfull, hcontent]
      rfl
  | false =>
      rw [if_neg Bool.false_ne_true, CircularQueue.content_pushBack hpos hfull]
      rfl

/-- The queue counts what is overwritten. -/
theorem overCounter_enqueueNoWait {α : Type*} {q : CircularQueue α} (hmax : 0 < q.maxCapacity)
    (item : α) :
    (BlockingQueue.enqueueNoWait q item).overCounter = q.overCounter + (overwritten q).length := by
  rw [BlockingQueue.enqueueNoWait, overwritten]
  cases hfull : q.full with
  | true => exact CircularQueue.pushBack_overCounter_full hmax hfull
  | false => exact CircularQueue.pushBack_overCounter hmax hfull

@[simp] theorem maxCapacity_enqueueNoWait {α : Type*} (q : CircularQueue α) (item : α) :
    (BlockingQueue.enqueueNoWait q item).maxCapacity = q.maxCapacity :=
  CircularQueue.pushBack_maxCapacity

structure DiscardPool (μ : Type*) (n c : ℕ) where
  /-- The pool; its `posted` leaves out what has been overwritten. -/
  pool : Pool μ n c
  /-- All messages enqueued so far. -/
  posts : List (AsyncMsg μ)
  /-- All messages overwritten so far. -/
  dropped : List (AsyncMsg μ)

namespace DiscardPool

variable {μ : Type*} {n c : ℕ}

def init [Inhabited μ] (max : ℕ) : DiscardPool μ n c := ⟨.init max, [], []⟩

/-- The critical section of `EnqueueNoWait`. -/
def enqueueNoWait (s : DiscardPool μ n c) (p : Fin c) (record : μ) : DiscardPool μ n c :=
  let queue := BlockingQueue.enqueueNoWait s.pool.queue (.log record)
  { pool := { s.pool.set (.client p) .pushed with
      queue
      posted := s.pool.taken.map Prod.snd ++ queue.content }
    posts := s.posts ++ [.log record]
    dropped := s.dropped ++ overwritten s.pool.queue }

@[simp] theorem enqueueNoWait_threads (s : DiscardPool μ n c) (p : Fin c) (record : μ) :
    (s.enqueueNoWait p record).pool.threads = (s.pool.set (.client p) .pushed).threads := rfl

/-- A step of the pool. -/
def poolStep (flushOn : μ → Bool) (s : DiscardPool μ n c) (l : PoolLabel μ n c) :
    Except Stop (DiscardPool μ n c) := do
  let pool ← s.pool.step flushOn l
  .ok { s with pool, posts := s.posts ++ pool.posted.drop s.pool.posted.length }

def step (flushOn : μ → Bool) (s : DiscardPool μ n c) (l : PoolLabel μ n c) :
    Except Stop (DiscardPool μ n c) :=
  match l with
  | .enqueue (.client p) =>
      match s.pool.threads (.client p) with
      | .enqueue (.log record) => .ok (s.enqueueNoWait p record)
      | _ => s.poolStep flushOn l
  | l => s.poolStep flushOn l

/-- The destructor has begun and no thread can go on by itself. -/
def Stuck (flushOn : μ → Bool) (s : DiscardPool μ n c) : Prop :=
  s.pool.remaining ≠ none ∧ ∀ l s', l.spurious = 0 → s.step flushOn l ≠ .ok s'

end DiscardPool

/-! ### The count of the queue -/

namespace Pool

variable {μ : Type*} {n c : ℕ} {flushOn : μ → Bool} {s s' : Pool μ n c} {l : PoolLabel μ n c}
variable {max : ℕ}

/-- The pool with the count of its queue at zero. -/
def resetCounter (s : Pool μ n c) : Pool μ n c :=
  { s with queue := BlockingQueue.resetCounter s.queue }

@[simp] theorem resetCounter_threads (s : Pool μ n c) : s.resetCounter.threads = s.threads := rfl

@[simp] theorem resetCounter_remaining (s : Pool μ n c) :
    s.resetCounter.remaining = s.remaining := rfl

@[simp] theorem resetCounter_content (s : Pool μ n c) :
    s.resetCounter.queue.content = s.queue.content := rfl

theorem enqueue_resetCounter {q : CircularQueue (AsyncMsg μ)} (hmax : 0 < q.maxCapacity)
    (msg : AsyncMsg μ) :
    BlockingQueue.enqueue (BlockingQueue.resetCounter q) msg =
      (BlockingQueue.enqueue q msg).map BlockingQueue.resetCounter := by
  have hfull : (BlockingQueue.resetCounter q).full = q.full := rfl
  simp only [BlockingQueue.enqueue, hfull]
  split
  · rfl
  · rename_i hroom
    have hne := CircularQueue.tail_succ_ne_head hmax (Bool.eq_false_iff.mpr hroom)
    simp [BlockingQueue.resetCounter, CircularQueue.pushBack, hmax, hne]

theorem dequeue_resetCounter (q : CircularQueue (AsyncMsg μ)) :
    BlockingQueue.dequeue (BlockingQueue.resetCounter q) =
      (BlockingQueue.dequeue q).map fun r => (r.1, BlockingQueue.resetCounter r.2) := by
  have hempty : (BlockingQueue.resetCounter q).empty = q.empty := rfl
  simp only [BlockingQueue.dequeue, hempty]
  split <;> rfl

theorem notify_resetCounter (cv : ThreadState μ → Option (ThreadState μ))
    (wakes : Option (Thread n c)) :
    s.resetCounter.notify cv wakes = (s.notify cv wakes).map resetCounter := by
  cases wakes with
  | none =>
      simp only [notify]
      by_cases hnone : ∀ u, (cv (s.threads u)).isNone
      · have hreset : ∀ u, (cv (s.resetCounter.threads u)).isNone := hnone
        rw [if_pos hreset, if_pos hnone]
        rfl
      · have hreset : ¬∀ u, (cv (s.resetCounter.threads u)).isNone := hnone
        rw [if_neg hreset, if_neg hnone]
        rfl
  | some u =>
      simp only [notify, resetCounter_threads]
      split <;> rfl

/-- No step reads the count. -/
theorem step_resetCounter (hmax : 0 < s.queue.maxCapacity) (l : PoolLabel μ n c) :
    s.resetCounter.step flushOn l = (s.step flushOn l).map resetCounter := by
  cases l with
  | post p msg =>
      simp only [step, resetCounter_threads, resetCounter_remaining]
      split <;> rfl
  | destroy =>
      simp only [step]
      by_cases hidle : s.remaining = none ∧ ∀ p, (s.threads (.client p)).isIdle
      · have hreset : s.resetCounter.remaining = none ∧
            ∀ p, (s.resetCounter.threads (.client p)).isIdle := hidle
        rw [if_pos hreset, if_pos hidle]
        rfl
      · have hreset : ¬(s.resetCounter.remaining = none ∧
            ∀ p, (s.resetCounter.threads (.client p)).isIdle) := hidle
        rw [if_neg hreset, if_neg hidle]
        rfl
  | terminate =>
      simp only [step, resetCounter_threads, resetCounter_remaining]
      split <;> rfl
  | enqueue t =>
      simp only [step, resetCounter_threads]
      split
      · rename_i msg ht
        have henqueue : BlockingQueue.enqueue s.resetCounter.queue msg = _ :=
          enqueue_resetCounter hmax msg
        rw [henqueue]
        cases BlockingQueue.enqueue s.queue msg <;> rfl
      · rfl
  | notifyPush t wakes =>
      simp only [step, resetCounter_threads, notify_resetCounter]
      split
      · cases s.notify ThreadState.pushCv wakes <;> rfl
      · rfl
  | dequeue t =>
      simp only [step, resetCounter_threads]
      split
      · have hdequeue : BlockingQueue.dequeue s.resetCounter.queue = _ :=
          dequeue_resetCounter s.queue
        rw [hdequeue]
        cases BlockingQueue.dequeue s.queue <;> rfl
      · rfl
  | notifyPop t wakes =>
      simp only [step, resetCounter_threads, notify_resetCounter]
      split
      · cases s.notify ThreadState.popCv wakes <;> rfl
      · rfl
  | handle t =>
      simp only [step, resetCounter_threads]
      split <;> rfl
  | wake t =>
      simp only [step, resetCounter_threads]
      split <;> rfl

/-- With `BLOCK_RETRY` nothing is overwritten, and what is posted stays so. -/
theorem step_history (hmax : 0 < s.queue.maxCapacity) (hs : s.step flushOn l = .ok s') :
    s'.queue.overCounter = s.queue.overCounter ∧ s.posted <+: s'.posted := by
  cases step_eq_ok hs with
  | push ht hq =>
      exact ⟨(BlockingQueue.enqueue_eq_some hmax hq).2.2.2, List.prefix_append _ _⟩
  | pop ht hq => exact ⟨(BlockingQueue.dequeue_eq_some hmax hq).2.2, List.prefix_rfl⟩
  | _ => exact ⟨rfl, List.prefix_rfl⟩

theorem blocked_of_set {t u : Thread n c} {state : ThreadState μ} {msg : AsyncMsg μ}
    (hne : state ≠ .blocked msg) (hu : (s.set t state).threads u = .blocked msg) :
    s.threads u = .blocked msg := by
  by_cases hut : u = t
  · rw [hut, set_self] at hu
    exact absurd hu hne
  · rwa [set_other hut] at hu

/-- A thread falls asleep on `pop_cv_` in its own post only. -/
theorem blocked_of_step {u : Thread n c} {msg : AsyncMsg μ} (hs : s.step flushOn l = .ok s')
    (hu : s'.threads u = .blocked msg) :
    s.threads u = .blocked msg ∨ l = .enqueue u ∧ s.threads u = .enqueue msg := by
  cases step_eq_ok hs with
  | @block t next ht hfull =>
      by_cases hut : u = t
      · subst hut
        rw [set_self] at hu
        cases hu
        exact .inr ⟨rfl, ht⟩
      · exact .inl (by rwa [set_other hut] at hu)
  | destroy => exact .inl hu
  | notifyPush =>
      exact .inl (blocked_of_set (by simp) (blocked_of_set (afterPost_ne_blocked _ _) hu))
  | endPush => exact .inl (blocked_of_set (afterPost_ne_blocked _ _) hu)
  | notifyPop => exact .inl (blocked_of_set (by simp) (blocked_of_set (by simp) hu))
  | @handle t next handled ht hrec =>
      exact .inl (blocked_of_set (handleMsg_ne_blocked flushOn next msg) hu)
  | @terminate k hleft ht =>
      have hset : (s.set .destructor (.enqueue .terminate)).threads u = .blocked msg := hu
      exact .inl (blocked_of_set (by simp) hset)
  | @push t next queue ht hq =>
      have hset : (s.set t .pushed).threads u = .blocked msg := hu
      exact .inl (blocked_of_set (by simp) hset)
  | @pop t next queue ht hq =>
      have hset : (s.set t (.popped next)).threads u = .blocked msg := hu
      exact .inl (blocked_of_set (by simp) hset)
  | _ => exact .inl (blocked_of_set (by simp) hu)

end Pool

namespace DiscardPool

variable {μ : Type*} {n c : ℕ} {flushOn : μ → Bool} {s s' : DiscardPool μ n c}
variable {l : PoolLabel μ n c} {max : ℕ}

/-! ### What a step can do -/

/-- A step is that of a thread that logs, or one of the pool. -/
inductive Step (flushOn : μ → Bool) (s : DiscardPool μ n c) (l : PoolLabel μ n c) :
    DiscardPool μ n c → Prop
  | noWait {p record} (hl : l = .enqueue (.client p))
      (ht : s.pool.threads (.client p) = .enqueue (.log record)) :
      Step flushOn s l (s.enqueueNoWait p record)
  | pool {pool} (hother : ∀ p record, l = .enqueue (.client p) →
        s.pool.threads (.client p) ≠ .enqueue (.log record))
      (hpool : s.pool.step flushOn l = .ok pool) :
      Step flushOn s l
        { s with pool, posts := s.posts ++ pool.posted.drop s.pool.posted.length }

theorem poolStep_eq_ok (hother : ∀ p record, l = .enqueue (.client p) →
      s.pool.threads (.client p) ≠ .enqueue (.log record))
    (hs : s.poolStep flushOn l = .ok s') : Step flushOn s l s' := by
  obtain ⟨pool, hpool, hs⟩ := bind_eq_ok hs
  cases hs
  exact .pool hother hpool

theorem step_eq_ok (hs : s.step flushOn l = .ok s') : Step flushOn s l s' := by
  simp only [step] at hs
  split at hs
  case h_1 p =>
    split at hs
    case h_1 record ht =>
      cases hs
      exact .noWait rfl ht
    case h_2 hother =>
      refine poolStep_eq_ok (fun q record hl => ?_) hs
      cases hl
      exact hother record
  case h_2 hother =>
    exact poolStep_eq_ok (fun p record hl => absurd hl (hother p)) hs

/-- Where the pool can go on, so can the system. -/
theorem exists_step_of_pool {pool : Pool μ n c} (hpool : s.pool.step flushOn l = .ok pool) :
    ∃ s', s.step flushOn l = .ok s' := by
  have hstep : ∃ s', s.poolStep flushOn l = .ok s' := ⟨_, by rw [poolStep, hpool]; rfl⟩
  simp only [step]
  split
  · split
    · exact ⟨_, rfl⟩
    · exact hstep
  · exact hstep

/-- The threads come to rest where those of the pool do. -/
theorem stuck_iff : s.Stuck flushOn ↔ s.pool.Stuck flushOn := by
  constructor
  · intro h
    refine ⟨h.1, fun l pool hl hpool => ?_⟩
    obtain ⟨s', hs'⟩ := exists_step_of_pool hpool
    exact h.2 l s' hl hs'
  · intro h
    refine ⟨h.1, fun l s' hl hs => ?_⟩
    cases step_eq_ok hs with
    | @noWait p record _ ht =>
        have hrest := (Pool.stuck_iff.mp h).2.1 (.client p)
        rw [ht] at hrest
        cases hrest
    | pool _ hpool => exact h.2 l _ hl hpool

/-! ### The invariant -/

/-- What the runs keep; the pool is as one with `BLOCK_RETRY` that was never given what is
overwritten. -/
structure Inv (max : ℕ) (s : DiscardPool μ n c) : Prop where
  sound : s.pool.resetCounter.Sound max
  carries : s.pool.Carries
  counted : s.pool.queue.overCounter = s.dropped.length
  kept : s.pool.posted.Sublist s.posts
  perm : s.posts.Perm (s.dropped ++ s.pool.posted)
  terminates : ∀ msg ∈ s.dropped, msg.isTerminate = false
  /-- A thread that logs does not wait. -/
  free : ∀ p record, s.pool.threads (.client p) ≠ .blocked (.log record)

theorem inv_init [Inhabited μ] : Inv max (init max : DiscardPool μ n c) where
  sound := ⟨Pool.fits_init, Pool.ledger_init, Pool.awake_init⟩
  carries := Pool.carries_init
  counted := rfl
  kept := List.Sublist.refl _
  perm := List.Perm.refl _
  terminates := nofun
  free _ _ := nofun

/-! ### A record in the place of an old message -/

section NoWait

variable {p : Fin c} {record : μ} (hmax : 2 ≤ max) (h : Inv max s)
variable (ht : s.pool.threads (.client p) = .enqueue (.log record))

include hmax h

theorem Inv.two_le_capacity : 2 ≤ s.pool.queue.maxCapacity := by
  have hcap : s.pool.queue.maxCapacity = max := h.sound.fits.capacity
  omega

omit hmax in
theorem Inv.posted_eq : s.pool.taken.map Prod.snd ++ s.pool.queue.content = s.pool.posted :=
  h.sound.ledger.inOrder

/-- The message overwritten is missing from what is posted. -/
theorem Inv.posted_enqueueNoWait (record : μ) :
    s.pool.taken.map Prod.snd ++ (overwritten s.pool.queue ++
      (BlockingQueue.enqueueNoWait s.pool.queue (.log record)).content) =
        s.pool.posted ++ [.log record] := by
  rw [overwritten_append_content (h.two_le_capacity hmax), ← List.append_assoc, h.posted_eq]

theorem Inv.sublist_enqueueNoWait :
    (s.enqueueNoWait p record).pool.posted.Sublist (s.pool.posted ++ [.log record]) := by
  rw [← h.posted_enqueueNoWait hmax record]
  exact (List.sublist_append_right _ _).append_left _

include ht

omit hmax in
/-- The destructor has not begun, and no `TERMINATE` message is there. -/
theorem Inv.opened : s.pool.remaining = none ∧ s.pool.threads .destructor = .idle ∧
    ∀ msg ∈ s.pool.posted, msg.isTerminate = false := by
  have hbusy : s.pool.resetCounter.threads (.client p) ≠ .idle := by
    rw [Pool.resetCounter_threads, ht]
    nofun
  have hopen := (h.sound.ledger.busy hbusy).2 p rfl
  obtain ⟨hidle, hzero⟩ := h.sound.ledger.opened hopen
  refine ⟨hopen, hidle, fun msg hmsg => ?_⟩
  exact Bool.eq_false_iff.mpr (List.countP_eq_zero.mp hzero msg hmsg)

theorem Inv.no_terminate : ∀ msg ∈ (s.enqueueNoWait p record).pool.posted,
    msg.isTerminate = false := by
  intro msg hmsg
  rcases List.mem_append.mp ((h.sublist_enqueueNoWait hmax).subset hmsg) with hold | hnew
  · exact (h.opened ht).2.2 msg hold
  · rw [List.mem_singleton.mp hnew]
    rfl

theorem Inv.ledger_enqueueNoWait : (s.enqueueNoWait p record).pool.resetCounter.Ledger := by
  obtain ⟨hopen, hidle, -⟩ := h.opened ht
  have hnone := h.no_terminate hmax ht
  exact {
    inOrder := rfl
    overrun := rfl
    takers := h.sound.ledger.takers
    opened _ := by
      rw [Pool.resetCounter_threads, enqueueNoWait_threads, Pool.set_other (by simp)]
      exact ⟨hidle, List.countP_eq_zero.mpr fun msg hmsg => by simp [hnone msg hmsg]⟩
    closed hbegun := absurd hopen hbegun
    terminates k hk := by
      have hk : s.pool.remaining = some k := hk
      rw [hopen] at hk
      cases hk
    logsFirst := List.pairwise_of_forall_mem_list fun msg hmsg _ _ hterminate => by
      rw [hnone msg hmsg] at hterminate
      cases hterminate
    quits u := by
      refine (h.sound.ledger.quits u).trans ?_
      rw [Pool.resetCounter_threads, Pool.resetCounter_threads, enqueueNoWait_threads]
      by_cases hu : u = .client p
      · rw [hu, Pool.set_self, ht]
        rfl
      · rw [Pool.set_other hu] }

theorem Inv.awake_enqueueNoWait : (s.enqueueNoWait p record).pool.resetCounter.Awake := by
  have hcap := h.two_le_capacity hmax
  have hlen := congrArg List.length (overwritten_append_content hcap (.log record))
  simp only [List.length_append, List.length_singleton] at hlen
  have hset : s.pool.resetCounter.threads (.client p) = .enqueue (.log record) := ht
  refine ⟨h.sound.awake.push_set (by simp) ?_, fun hex => ?_⟩
  · rw [hset]
    simp only [Pool.resetCounter_content, ThreadState.pushNote]
    change (BlockingQueue.enqueueNoWait s.pool.queue (.log record)).content.length + 0 ≤ _
    omega
  · cases hfull : s.pool.queue.full with
    | true =>
        -- there is no room, so none that a sleeping thread could have missed
        have hroom := (CircularQueue.full_iff (by omega)).mp hfull
        simp only [overwritten, hfull, if_true, List.length_singleton] at hlen
        change (BlockingQueue.enqueueNoWait s.pool.queue (.log record)).maxCapacity ≤
          (BlockingQueue.enqueueNoWait s.pool.queue (.log record)).content.length + 1 + _
        rw [maxCapacity_enqueueNoWait]
        omega
    | false =>
        refine h.sound.awake.pop_set (by simp) (maxCapacity_enqueueNoWait _ _) ?_ hex
        simp only [overwritten, hfull, Bool.false_eq_true, if_false, List.length_nil] at hlen
        rw [hset]
        simp only [Pool.resetCounter_content, ThreadState.popNote]
        change _ ≤ (BlockingQueue.enqueueNoWait s.pool.queue (.log record)).content.length + 0
        omega

theorem Inv.enqueueNoWait : Inv max (s.enqueueNoWait p record) where
  sound := ⟨⟨(h.sound.fits.set rfl).threads,
      (maxCapacity_enqueueNoWait _ _).trans h.sound.fits.capacity⟩,
    h.ledger_enqueueNoWait hmax ht, h.awake_enqueueNoWait hmax ht⟩
  carries := by
    have hset : (s.pool.set (.client p) .pushed).Carries := h.carries.set (by rw [ht]; rfl)
    exact ⟨hset.carried, hset.handlers⟩
  counted := by
    have hcap := h.two_le_capacity hmax
    have hcount := overCounter_enqueueNoWait (q := s.pool.queue) (by omega) (.log record)
    rw [h.counted] at hcount
    simpa [DiscardPool.enqueueNoWait] using hcount
  kept := (h.sublist_enqueueNoWait hmax).trans (h.kept.append_right _)
  perm := by
    have hposts := h.perm.append_right [.log record]
    rw [List.append_assoc, ← h.posted_enqueueNoWait hmax record] at hposts
    refine hposts.trans ?_
    simp only [DiscardPool.enqueueNoWait, List.append_assoc]
    refine List.Perm.append_left _ ?_
    simp only [← List.append_assoc]
    exact List.perm_append_comm.append_right _
  terminates msg hmsg := by
    rcases List.mem_append.mp hmsg with hold | hnew
    · exact h.terminates msg hold
    · have hall := h.posted_enqueueNoWait hmax record
      have hmem : msg ∈ s.pool.posted ++ [.log record] := by
        rw [← hall]
        simp [hnew]
      rcases List.mem_append.mp hmem with hposted | hlast
      · exact (h.opened ht).2.2 msg hposted
      · rw [List.mem_singleton.mp hlast]
        rfl
  free q next := by
    rw [enqueueNoWait_threads]
    by_cases hq : (.client q : Thread n c) = .client p
    · rw [hq, Pool.set_self]
      nofun
    · rw [Pool.set_other hq]
      exact h.free q next

end NoWait

/-! ### The steps of the pool -/

theorem Inv.pool {pool : Pool μ n c} (hmax : 0 < max) (h : Inv max s)
    (hother : ∀ p record, l = .enqueue (.client p) →
      s.pool.threads (.client p) ≠ .enqueue (.log record))
    (hpool : s.pool.step flushOn l = .ok pool) :
    Inv max { s with pool, posts := s.posts ++ pool.posted.drop s.pool.posted.length } := by
  have hcap : 0 < s.pool.queue.maxCapacity := by
    rw [show s.pool.queue.maxCapacity = max from h.sound.fits.capacity]
    exact hmax
  have hreset : s.pool.resetCounter.step flushOn l = .ok pool.resetCounter := by
    rw [Pool.step_resetCounter hcap, hpool]
    rfl
  obtain ⟨hover, more, hmore⟩ := Pool.step_history hcap hpool
  have hfits : s.pool.Fits max := ⟨h.sound.fits.threads, h.sound.fits.capacity⟩
  have hdrop : pool.posted.drop s.pool.posted.length = more := by
    rw [← hmore, List.drop_left]
  exact {
    sound := ⟨Pool.fits_step hmax h.sound.fits hreset,
      Pool.ledger_step hmax h.sound.fits h.sound.ledger hreset,
      Pool.awake_step hmax h.sound.fits h.sound.awake hreset⟩
    carries := Pool.carries_step hfits h.carries hpool
    counted := hover.trans h.counted
    kept := by
      rw [hdrop, ← hmore]
      exact h.kept.append_right more
    perm := by
      rw [hdrop, ← hmore, ← List.append_assoc]
      exact h.perm.append_right more
    terminates := h.terminates
    free p record hblocked := by
      rcases Pool.blocked_of_step hpool hblocked with hold | ⟨hl, ht⟩
      · exact h.free p record hold
      · exact hother p record hl ht }

theorem Inv.step (hmax : 2 ≤ max) (h : Inv max s) (hs : s.step flushOn l = .ok s') :
    Inv max s' := by
  cases step_eq_ok hs with
  | noWait hl ht => exact h.enqueueNoWait hmax ht
  | pool hother hpool => exact h.pool (by omega) hother hpool

theorem inv_of_run [Inhabited μ] (hmax : 2 ≤ max) {ls : List (PoolLabel μ n c)}
    (hrun : run (DiscardPool.step flushOn) (init max) ls = .ok s) : Inv max s :=
  invariant_of_step (Inv max) (fun _ _ _ h hs => h.step hmax hs) inv_init hrun

/-! ### Rest -/

/-- Every step of a thread uses up work, also one that overwrites a message. -/
theorem work_step (hmax : 2 ≤ max) (h : Inv max s) (hcall : l.isCall = false)
    (hs : s.step flushOn l = .ok s') : s'.pool.work + l.own ≤ s.pool.work + l.spurious := by
  have hcap := h.two_le_capacity hmax
  cases step_eq_ok hs with
  | @noWait p record hl ht =>
      subst hl
      have htotal := Pool.total_set ThreadState.cost s.pool (.client p) .pushed
      have hcontent := congrArg (fun msgs => (msgs.map AsyncMsg.cost).sum)
        (overwritten_append_content hcap (.log record))
      simp only [List.map_append, List.sum_append, List.map_singleton, List.sum_singleton,
        AsyncMsg.cost] at hcontent
      simp only [ht, ThreadState.cost, AsyncMsg.cost] at htotal
      simp only [Pool.work, enqueueNoWait_threads, PoolLabel.own, PoolLabel.spurious]
      change _ + ((BlockingQueue.enqueueNoWait s.pool.queue (.log record)).content.map
        AsyncMsg.cost).sum + 8 * s.pool.remaining.getD 0 + 1 ≤ _
      omega
  | pool hother hpool => exact Pool.work_step (by omega) hcall hpool

/-- **Where the threads come to rest.** -/
theorem rest_cases (hmax : 2 ≤ max) (hn : 0 < n) (h : Inv max s) (hstuck : s.Stuck flushOn) :
    s.pool.Wedged ∨ s.pool.resetCounter.Finished := by
  have hrest := Pool.stuck_iff.mp (stuck_iff.mp hstuck)
  have hreset : s.pool.resetCounter.Stuck flushOn := Pool.stuck_iff.mpr hrest
  exact Pool.rest_cases hmax hn h.sound.fits h.sound.ledger h.sound.awake hreset

theorem Inv.carries_resetCounter (h : Inv max s) : s.pool.resetCounter.Carries :=
  ⟨h.carries.carried, h.carries.handlers⟩

/-- The records posted have been handled or overwritten. -/
theorem Inv.perm_of_finished [DecidableEq μ] (h : Inv max s)
    (hfin : s.pool.resetCounter.Finished) :
    (s.posts.flatMap AsyncMsg.records).Perm
      (s.dropped.flatMap AsyncMsg.records ++ s.pool.handled.map Prod.snd) := by
  have hhandled := hfin.perm h.sound.fits h.sound.ledger h.carries_resetCounter
  refine (h.perm.flatMap_right AsyncMsg.records).trans ?_
  rw [List.flatMap_append]
  exact hhandled.symm.append_left _

theorem Inv.sublist_of_finished {s : DiscardPool μ 1 c} (h : Inv max s)
    (hfin : s.pool.resetCounter.Finished) :
    (s.pool.handled.map Prod.snd).Sublist (s.posts.flatMap AsyncMsg.records) := by
  have hhandled : s.pool.handled.map Prod.snd = _ :=
    hfin.inOrder h.sound.fits h.sound.ledger h.carries_resetCounter
  rw [hhandled]
  exact h.kept.flatMap AsyncMsg.records

end DiscardPool

/-- **What becomes of the messages of a logger that does not wait.**  A message posted is taken by a
worker, in the queue, or overwritten, each once, and those not overwritten stay in their order; the
queue counts the others, of which none is a `TERMINATE` message.  No thread that logs waits.  After
the last call the threads come to rest; where the destructor has begun and they are, either the
workers wait for each other, or all of them have stopped and the records are those handled and those
overwritten, with one worker in the order of the posts. -/
theorem discard_accounts {μ : Type*} [Inhabited μ] [DecidableEq μ] {n c max : ℕ}
    {flushOn : μ → Bool} {ls : List (PoolLabel μ n c)} {s : DiscardPool μ n c} (hmax : 2 ≤ max)
    (hn : 0 < n) (hrun : run (DiscardPool.step flushOn) (.init max) ls = .ok s) :
    (s.pool.taken.map Prod.snd ++ s.pool.queue.content).Sublist s.posts ∧
      s.posts.Perm (s.dropped ++ (s.pool.taken.map Prod.snd ++ s.pool.queue.content)) ∧
      s.pool.queue.overCounter = s.dropped.length ∧
      (∀ msg ∈ s.dropped, msg.isTerminate = false) ∧
      (∀ p record, s.pool.threads (.client p) ≠ .blocked (.log record)) ∧
      (∀ os s', (∀ l ∈ os, l.isCall = false) → run (DiscardPool.step flushOn) s os = .ok s' →
        (os.map PoolLabel.own).sum ≤ s.pool.work + (os.map PoolLabel.spurious).sum) ∧
      (s.Stuck flushOn → s.pool.Wedged ∨
        (∀ i, s.pool.threads (.worker i) = .stopped) ∧
          (s.posts.flatMap AsyncMsg.records).Perm
            (s.dropped.flatMap AsyncMsg.records ++ s.pool.handled.map Prod.snd) ∧
          (n = 1 →
            (s.pool.handled.map Prod.snd).Sublist (s.posts.flatMap AsyncMsg.records))) := by
  have h := DiscardPool.inv_of_run hmax hrun
  rw [h.posted_eq]
  refine ⟨h.kept, h.perm, h.counted, h.terminates, h.free, fun os s' hown hos => ?_,
    fun hstuck => ?_⟩
  · have hbound := sum_le_of_step (DiscardPool.Inv max) (fun s => s.pool.work) PoolLabel.own
      PoolLabel.spurious (fun l => l.isCall = false) (fun _ _ _ h hs => h.step hmax hs)
      (fun _ _ _ h hl hs => DiscardPool.work_step hmax h hl hs) h hown hos
    omega
  · rcases DiscardPool.rest_cases hmax hn h hstuck with hwedged | hfin
    · exact .inl hwedged
    · refine .inr ⟨hfin.stopped, h.perm_of_finished hfin, ?_⟩
      rintro rfl
      exact h.sublist_of_finished hfin

/-- Two records are posted before the only worker looks, and there is room for one. -/
def overwritingRun : List (PoolLabel ℕ 1 1) :=
  let sole : Fin 1 := Fin.last 0
  [.post sole (.log 1), .enqueue (.client sole), .notifyPush (.client sole) none,
   .post sole (.log 2), .enqueue (.client sole), .notifyPush (.client sole) none,
   .dequeue (.worker sole), .notifyPop (.worker sole) none, .handle (.worker sole),
   .destroy, .terminate, .enqueue .destructor, .notifyPush .destructor none,
   .dequeue (.worker sole), .notifyPop (.worker sole) none, .handle (.worker sole)]

/-- The first record is lost. -/
theorem discard_accounts_two : ∃ s : DiscardPool ℕ 1 1,
    run (DiscardPool.step fun _ => false) (.init 2) overwritingRun = .ok s ∧
      s.posts = [.log 1, .log 2, .terminate] ∧ s.dropped = [.log 1] ∧
      s.pool.handled = [(.worker 0, 2)] ∧ s.Stuck (fun _ => false) ∧
      s.pool.queue.overCounter = s.dropped.length ∧
      (s.pool.handled.map Prod.snd).Sublist (s.posts.flatMap AsyncMsg.records) := by
  obtain ⟨s, hrun, hs⟩ := map_eq_ok
    (f := fun s : DiscardPool ℕ 1 1 => decide ((s.pool.remaining ≠ none ∧
      (∀ t, (s.pool.threads t).atRest = true) ∧
      (s.pool.threads .destructor = .idle → s.pool.remaining = some 0)) ∧
      s.posts = [.log 1, .log 2, .terminate] ∧ s.dropped = [.log 1] ∧
      s.pool.handled = [(.worker 0, 2)] ∧ s.pool.queue.full = false))
    (r := run (DiscardPool.step fun _ => false) (.init 2) overwritingRun) (b := true)
    (by decide +kernel)
  obtain ⟨hrest, hposts, hdropped, hhandled, hroom⟩ := of_decide_eq_true hs
  have hstuck : s.Stuck (fun _ => false) := DiscardPool.stuck_iff.mpr (Pool.stuck_iff.mpr hrest)
  obtain ⟨-, -, hcount, -, -, -, hend⟩ := discard_accounts (by decide) (by decide) hrun
  refine ⟨s, hrun, hposts, hdropped, hhandled, hstuck, hcount, ?_⟩
  rcases hend hstuck with hwedged | hfin
  · rw [hwedged.1] at hroom
    cases hroom
  · exact hfin.2.2 rfl

end Hare.Log
