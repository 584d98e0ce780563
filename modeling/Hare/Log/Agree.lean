import Hare.Log.Delivery
import Hare.Log.Logger

/-!
# Synchronous and asynchronous logging

One thread logs to an asynchronous logger with one worker.  The records travel in order: in
every state those that were handed over are the ones handled, the one the worker carries,
those in the queue and the one being posted (`Pool.flow_of_run`).  So an asynchronous logger
does what a plain one does, but does it on the thread of the worker
(`asynchronous_of_finished`).

The line of a record names the thread that formats it.  Hence a backend is given different
lines by the two loggers as soon as it is given one (`agrees_iff_silent`).
-/

namespace Hare.Log

open LabelledRun Util

/-! ## The way of a record -/

/-- The record of a message. -/
def AsyncMsg.records {μ : Type*} : AsyncMsg μ → List μ
  | .log record => [record]
  | _ => []

namespace ThreadState

variable {μ : Type*}

/-- The record a worker has taken and not handled yet. -/
def carried : ThreadState μ → List μ
  | .popped msg | .handling msg => msg.records
  | _ => []

/-- The record a thread has not pushed yet. -/
def offered : ThreadState μ → List μ
  | .enqueue msg | .blocked msg => msg.records
  | _ => []

end ThreadState

/-- The record a step hands over to the logger. -/
def PoolLabel.records {μ : Type*} {n c : ℕ} : PoolLabel μ n c → List μ
  | .post _ msg => msg.records
  | _ => []

namespace Pool

variable {μ : Type*} {flushOn : μ → Bool} {s s' : Pool μ 1 1} {l : PoolLabel μ 1 1} {max : ℕ}
variable {t : Thread 1 1} {state : ThreadState μ}

/-- No record is left in the queue of a pool that has finished. -/
theorem Finished.records_eq_nil {n c : ℕ} {s : Pool μ n c} (hfin : s.Finished) :
    s.queue.content.flatMap AsyncMsg.records = [] := by
  refine List.flatMap_eq_nil_iff.mpr fun msg hmsg => ?_
  cases msg with
  | log record => exact absurd hmsg (hfin.drained record)
  | flush => rfl
  | terminate => rfl

/-- The records handed over so far, from the first handled to the one being posted. -/
def flow (s : Pool μ 1 1) : List μ :=
  s.handled.map Prod.snd ++ (s.threads (.worker 0)).carried ++
    s.queue.content.flatMap AsyncMsg.records ++ (s.threads (.client 0)).offered

/-- A thread that keeps its record changes nothing. -/
theorem flow_set (hcarried : state.carried = (s.threads t).carried)
    (hoffered : state.offered = (s.threads t).offered) : (s.set t state).flow = s.flow := by
  have hsame : ∀ u, ((s.set t state).threads u).carried = (s.threads u).carried ∧
      ((s.set t state).threads u).offered = (s.threads u).offered := by
    intro u
    by_cases hu : u = t
    · rw [hu, set_self]
      exact ⟨hcarried, hoffered⟩
    · rw [set_other hu]
      exact ⟨rfl, rfl⟩
  simp only [flow, hsame]
  rfl

theorem flow_push {msg : AsyncMsg μ} {queue : CircularQueue (AsyncMsg μ)}
    {posted : List (AsyncMsg μ)} (hfits : s.Fits max) (hcap : 0 < s.queue.maxCapacity)
    (ht : s.threads t = .enqueue msg) (hq : BlockingQueue.enqueue s.queue msg = some queue) :
    { s.set t .pushed with queue, posted }.flow = s.flow := by
  obtain ⟨-, hcontent, -⟩ := BlockingQueue.enqueue_eq_some hcap hq
  have hfit := hfits.threads t
  rw [ht] at hfit
  have hworker : ((s.set t .pushed).threads (.worker 0)).carried =
      (s.threads (.worker 0)).carried := by
    by_cases hw : .worker 0 = t
    · rw [hw, set_self, ht]
      rfl
    · rw [set_other hw]
  -- only the thread that logs pushes records
  have hclient : msg.records ++ ((s.set t .pushed).threads (.client 0)).offered =
      (s.threads (.client 0)).offered := by
    cases t with
    | client p =>
        obtain rfl : p = 0 := Subsingleton.elim _ _
        rw [set_self, ht]
        exact List.append_nil _
    | worker i =>
        rw [set_other (by simp)]
        cases msg <;> simp_all [Thread.fits, AsyncMsg.records]
    | destructor =>
        rw [set_other (by simp)]
        cases msg <;> simp_all [Thread.fits, AsyncMsg.records, AsyncMsg.isTerminate]
  simp only [flow, hworker, hcontent, ← hclient, List.flatMap_append, List.flatMap_singleton,
    List.append_assoc]
  rfl

theorem flow_pop {i : Fin 1} {msg : AsyncMsg μ} {queue : CircularQueue (AsyncMsg μ)}
    {taken : List (Thread 1 1 × AsyncMsg μ)} (hcap : 0 < s.queue.maxCapacity)
    (ht : s.threads (.worker i) = .dequeue)
    (hq : BlockingQueue.dequeue s.queue = some (msg, queue)) :
    { s.set (.worker i) (.popped msg) with queue, taken }.flow = s.flow := by
  obtain ⟨hcontent, -⟩ := BlockingQueue.dequeue_eq_some hcap hq
  obtain rfl : i = 0 := Subsingleton.elim _ _
  have hclient : (s.set (.worker 0) (.popped msg)).threads (.client 0) = s.threads (.client 0) :=
    set_other (by simp)
  simp only [flow, hclient, hcontent, ht, set_self, ThreadState.carried, List.flatMap_cons,
    List.append_nil, List.append_assoc]
  rfl

theorem flow_handle {i : Fin 1} {msg : AsyncMsg μ} {handled : List (Thread 1 1 × μ)}
    (ht : s.threads (.worker i) = .handling msg)
    (hrec : handled.map Prod.snd = s.handled.map Prod.snd ++ msg.records) :
    { s.set (.worker i) (ThreadState.handleMsg flushOn msg) with handled }.flow = s.flow := by
  obtain rfl : i = 0 := Subsingleton.elim _ _
  have hclient : (s.set (.worker 0) (ThreadState.handleMsg flushOn msg)).threads (.client 0) =
      s.threads (.client 0) := set_other (by simp)
  have hcarried : (ThreadState.handleMsg flushOn msg).carried = [] := by
    cases msg with
    | log record => simp only [ThreadState.handleMsg]; split <;> rfl
    | flush => rfl
    | terminate => rfl
  simp only [flow, hclient, hcarried, ht, set_self, hrec, List.append_nil]
  rfl

/-- A step adds the record it hands over, and keeps the order of the others. -/
theorem flow_step (hmax : 0 < max) (hfits : s.Fits max) (hs : s.step flushOn l = .ok s') :
    s'.flow = s.flow ++ l.records := by
  have hcap : 0 < s.queue.maxCapacity := hfits.capacity ▸ hmax
  have hnil := (List.append_nil s.flow).symm
  cases step_eq_ok hs with
  | @post p msg hopen ht hmsg =>
      obtain rfl : p = 0 := Subsingleton.elim _ _
      have hworker : (s.set (.client 0) (.enqueue msg)).threads (.worker 0) =
          s.threads (.worker 0) := set_other (by simp)
      simp only [flow, hworker, set_self, ht, ThreadState.offered, PoolLabel.records,
        List.append_nil]
      rfl
  | destroy hopen hidle => exact hnil
  | terminate hleft ht =>
      have hset : (s.set .destructor (.enqueue .terminate)).flow = s.flow :=
        flow_set (by rw [ht]; rfl) (by rw [ht]; rfl)
      exact hset.trans hnil
  | push ht hq => exact (flow_push hfits hcap ht hq).trans hnil
  | @pop t msg queue ht hq =>
      obtain ⟨i, rfl⟩ := hfits.exists_worker (t := t) (by rw [ht]; rfl)
      exact (flow_pop hcap ht hq).trans hnil
  | @handle t msg handled ht hrec =>
      obtain ⟨i, rfl⟩ := hfits.exists_worker (t := t) (by rw [ht]; rfl)
      refine (flow_handle ht ?_).trans hnil
      rw [hrec]
      cases msg <;> simp [AsyncMsg.records]
  | @notifyPush t u ht hu =>
      have hne : t ≠ u := fun heq => by rw [heq, hu] at ht; cases ht
      rw [flow_set, flow_set (by rw [hu]; rfl) (by rw [hu]; rfl)]
      · exact hnil
      · rw [set_other hne, ht]
        cases t <;> rfl
      · rw [set_other hne, ht]
        cases t <;> rfl
  | @endPush t ht hnone =>
      exact (flow_set (by rw [ht]; cases t <;> rfl) (by rw [ht]; cases t <;> rfl)).trans hnil
  | @notifyPop t u msg next ht hu =>
      have hne : t ≠ u := fun heq => by rw [heq, hu] at ht; cases ht
      rw [flow_set (by rw [set_other hne, ht]; rfl) (by rw [set_other hne, ht]; rfl),
        flow_set (by rw [hu]; rfl) (by rw [hu]; rfl)]
      exact hnil
  | block ht _ | wait ht _ | endPop ht _ | wakePush ht | wakePop ht =>
      exact (flow_set (by rw [ht]; rfl) (by rw [ht]; rfl)).trans hnil

/-- **Records keep their order**, from the call to the backends. -/
theorem flow_of_run (hmax : 0 < max) {ls : List (PoolLabel μ 1 1)} (hfits : s.Fits max)
    (hrun : run (step flushOn) s ls = .ok s') :
    s'.flow = s.flow ++ ls.flatMap PoolLabel.records := by
  induction ls generalizing s with
  | nil =>
      cases hrun
      exact (List.append_nil _).symm
  | cons l ls ih =>
      obtain ⟨m, hl, hrest⟩ := run_cons_eq_ok hrun
      rw [ih (fits_step hmax hfits hl) hrest, flow_step hmax hfits hl, List.flatMap_cons,
        List.append_assoc]

end Pool

/-! ## What the backends are given -/

namespace Logger

/-- The lines a backend is given for records formatted on a thread. -/
def lines (b : Backend) (tz : Time.Timezone) : ThreadData → List Msg → List (List Char × Level)
  | _, [] => []
  | self, msg :: msgs =>
    (if b.check msg.level then [((formatMsg tz msg self).1, msg.level)] else []) ++
      lines b tz (formatMsg tz msg self).2 msgs

variable {b : Backend} {tz : Time.Timezone} {self : ThreadData} {msgs : List Msg} {g : Logger}

theorem lines_log (line : List Char) (level : Level) :
    lines (b.log line level) tz self msgs = lines b tz self msgs := by
  induction msgs generalizing self with
  | nil => rfl
  | cons msg msgs ih =>
      have hcheck : (b.log line level).check msg.level = b.check msg.level := rfl
      simp only [lines, ih, hcheck]

/-- What the backends have been given when the records are through. -/
theorem sinkAll_backends : (g.sinkAll self msgs).1.backends =
    g.backends.map fun b => { b with received := b.received ++ lines b g.timezone self msgs } := by
  induction msgs generalizing g self with
  | nil => simp [sinkAll, lines]
  | cons msg msgs ih =>
      rw [sinkAll, ih]
      simp only [sinkIt, List.map_map]
      refine List.map_congr_left fun b _ => ?_
      simp only [Function.comp, lines]
      cases hcheck : b.check msg.level with
      | false => simp
      | true =>
          rw [if_pos rfl, lines_log]
          simp [Backend.log]

/-- A backend is given nothing exactly when no record reaches its level. -/
theorem lines_eq_nil : lines b tz self msgs = [] ↔ ∀ msg ∈ msgs, b.check msg.level = false := by
  induction msgs generalizing self with
  | nil => simp [lines]
  | cons msg msgs ih =>
      simp only [lines, List.append_eq_nil_iff, ih, List.forall_mem_cons]
      cases b.check msg.level <;> simp

/-- Every line is formatted by the thread. -/
theorem exists_formatMsg_of_mem {e : List Char × Level} (h : e ∈ lines b tz self msgs) :
    ∃ msg self', self'.tid = self.tid ∧ e.1 = (formatMsg tz msg self').1 := by
  induction msgs generalizing self with
  | nil => cases h
  | cons msg msgs ih =>
      rcases List.mem_append.mp h with hhead | htail
      · split at hhead
        · rw [List.mem_singleton.mp hhead]
          exact ⟨msg, self, rfl, rfl⟩
        · cases hhead
      · obtain ⟨msg', self', htid, he⟩ := ih htail
        exact ⟨msg', self', htid.trans (tid_formatMsg tz msg self), he⟩

end Logger

/-! ## The two loggers -/

/-- The thread that logs and the worker, which have different ids. -/
structure LogThreads where
  caller : ThreadData
  worker : ThreadData
  distinct : caller.tid ≠ worker.tid

/-- What the backends of a logger have been given. -/
def Logger.received (g : Logger) : List (List (List Char × Level)) :=
  g.backends.map Backend.received

/-- The plain logger after the calls. -/
def synchronous (g : Logger) (ths : LogThreads) (calls : List Call) : Logger :=
  (g.logAll ths.caller calls).1

/-- The asynchronous logger in a state of its threads: its worker has formatted the records
handled so far. -/
def asynchronous (g : Logger) (ths : LogThreads) (s : Pool Msg 1 1) : Logger :=
  (g.sinkAll ths.worker (s.handled.map Prod.snd)).1

/-- No call reaches the levels of the logger and of a backend. -/
def Silent (g : Logger) (calls : List Call) : Prop :=
  ∀ call ∈ calls, g.check call.level = true → ∀ b ∈ g.backends, b.check call.level = false

variable {g : Logger} {ths : LogThreads} {calls : List Call} {max : ℕ}
variable {ls : List (PoolLabel Msg 1 1)} {s : Pool Msg 1 1}

/-- The records handled are among those handed over. -/
theorem handled_isPrefix (hmax : 0 < max)
    (hrun : run (Pool.step g.shouldFlushOn) (.init max) ls = .ok s) :
    s.handled.map Prod.snd <+: ls.flatMap PoolLabel.records := by
  have hflow := Pool.flow_of_run hmax Pool.fits_init hrun
  have hinit : (Pool.init max : Pool Msg 1 1).flow = [] := rfl
  rw [hinit, List.nil_append] at hflow
  rw [← hflow, Pool.flow, List.append_assoc, List.append_assoc]
  exact List.prefix_append _ _

/-- **When all threads have finished, the asynchronous logger has done what a plain logger
does with the same records on the thread of the worker.** -/
theorem asynchronous_of_finished (hmax : 2 ≤ max)
    (hrun : run (Pool.step g.shouldFlushOn) (.init max) ls = .ok s)
    (hstuck : s.Stuck g.shouldFlushOn) (hfin : s.Finished) :
    asynchronous g ths s = (g.sinkAll ths.worker (ls.flatMap PoolLabel.records)).1 := by
  have hpos : 0 < max := by omega
  have hledger := (Pool.sound_of_run hpos hrun).ledger
  have hflow := Pool.flow_of_run hpos Pool.fits_init hrun
  have hinit : (Pool.init max : Pool Msg 1 1).flow = [] := rfl
  have hclient := hledger.closed hstuck.1 0
  rw [hinit, List.nil_append, Pool.flow, hfin.stopped 0, hclient, hfin.records_eq_nil] at hflow
  simp only [ThreadState.carried, ThreadState.offered, List.append_nil] at hflow
  rw [asynchronous, hflow]

/-- The records of the calls reach no level the calls do not reach. -/
theorem record_levels {b : Backend} {self : ThreadData} :
    (∀ msg ∈ calls.filterMap (g.record self), b.check msg.level = false) ↔
      ∀ call ∈ calls, g.check call.level = true → b.check call.level = false := by
  simp only [List.mem_filterMap, Logger.record]
  constructor
  · intro h call hcall hcheck
    exact h _ ⟨call, hcall, if_pos hcheck⟩
  · rintro h msg ⟨call, hcall, hmsg⟩
    split at hmsg
    case isTrue hcheck =>
      cases hmsg
      exact h call hcall hcheck
    case isFalse => cases hmsg

theorem received_eq_iff : (asynchronous g ths s).received = (synchronous g ths calls).received ↔
    ∀ b ∈ g.backends, Logger.lines b g.timezone ths.worker (s.handled.map Prod.snd) =
      Logger.lines b g.timezone ths.caller (calls.filterMap (g.record ths.caller)) := by
  simp only [Logger.received, asynchronous, synchronous, Logger.logAll, Logger.sinkAll_backends,
    List.map_map, List.map_inj_left, Function.comp, List.append_cancel_left_eq]

/-- No line is given by both threads. -/
theorem lines_eq_nil_of_eq {b : Backend} {tz : Time.Timezone} {msgs msgs' : List Msg}
    (h : Logger.lines b tz ths.worker msgs = Logger.lines b tz ths.caller msgs') :
    Logger.lines b tz ths.caller msgs' = [] := by
  by_contra hne
  obtain ⟨e, he⟩ := List.exists_mem_of_ne_nil _ hne
  obtain ⟨msg, self, htid, hline⟩ := Logger.exists_formatMsg_of_mem he
  rw [← h] at he
  obtain ⟨msg', self', htid', hline'⟩ := Logger.exists_formatMsg_of_mem he
  refine formatMsg_ne tz tz msg msg' ?_ (hline.symm.trans hline')
  rw [htid, htid']
  exact ths.distinct

/-- **When synchronous and asynchronous logging agree.**  For every logger, every sequence of
calls by one thread and every interleaving of that thread with the worker: the backends are
given the same by both loggers exactly when no call reaches any of them. -/
theorem agrees_iff_silent (hmax : 0 < max)
    (hcalls : ls.flatMap PoolLabel.records = calls.filterMap (g.record ths.caller))
    (hrun : run (Pool.step g.shouldFlushOn) (.init max) ls = .ok s) :
    (asynchronous g ths s).received = (synchronous g ths calls).received ↔ Silent g calls := by
  rw [received_eq_iff, Silent]
  constructor
  · intro h call hcall hcheck b hb
    have hnil := lines_eq_nil_of_eq (h b hb)
    exact record_levels.mp (Logger.lines_eq_nil.mp hnil) call hcall hcheck
  · intro h b hb
    have hnone : ∀ msg ∈ calls.filterMap (g.record ths.caller), b.check msg.level = false :=
      record_levels.mpr fun call hcall hcheck => h call hcall hcheck b hb
    rw [Logger.lines_eq_nil.mpr hnone, Logger.lines_eq_nil]
    intro msg hmsg
    exact hnone msg (hcalls ▸ (handled_isPrefix hmax hrun).subset hmsg)

/-! ## One record -/

/-- A logger with one backend, as constructed. -/
def oneBackend : Logger := { backends := [{}] }

def twoThreads : LogThreads := ⟨{ tid := 1 }, { tid := 2 }, by decide⟩

def oneCall : Call := ⟨.info, 1700000000000000, ['h', 'i'], ⟨['a', '.', 'c'], 3, ['f']⟩⟩

/-- The record is posted, handled and the logger destroyed. -/
def oneRecordRun : List (PoolLabel Msg 1 1) :=
  [.post 0 (.log ⟨.info, 1, 1700000000000000, ['h', 'i'], ⟨['a', '.', 'c'], 3, ['f']⟩⟩),
   .enqueue (.client 0), .notifyPush (.client 0) none,
   .dequeue (.worker 0), .notifyPop (.worker 0) none, .handle (.worker 0),
   .destroy, .terminate, .enqueue .destructor, .notifyPush .destructor none,
   .dequeue (.worker 0), .notifyPop (.worker 0) none, .handle (.worker 0)]

theorem oneRecordRun_agrees_iff : ∃ s, run (Pool.step oneBackend.shouldFlushOn) (.init 2)
    oneRecordRun = .ok s ∧
      ((asynchronous oneBackend twoThreads s).received =
        (synchronous oneBackend twoThreads [oneCall]).received ↔ Silent oneBackend [oneCall]) := by
  obtain ⟨s, hrun, -⟩ := map_eq_ok (f := fun _ : Pool Msg 1 1 => true)
    (r := run (Pool.step oneBackend.shouldFlushOn) (.init 2) oneRecordRun) (b := true)
    (by decide +kernel)
  exact ⟨s, hrun, agrees_iff_silent (by decide) (by decide) hrun⟩

/-- The two loggers give the backend one line each, with different thread ids. -/
theorem oneRecord_differs : ∃ s, run (Pool.step oneBackend.shouldFlushOn) (.init 2)
    oneRecordRun = .ok s ∧ s.threads (.worker 0) = .stopped ∧
      (asynchronous oneBackend twoThreads s).received =
        [[("(2023-11-14 22:13:20.000000) [info    ] <0x2> hi [a.c:3||f]\n".toList, .info)]] ∧
      (synchronous oneBackend twoThreads [oneCall]).received =
        [[("(2023-11-14 22:13:20.000000) [info    ] <0x1> hi [a.c:3||f]\n".toList, .info)]] := by
  obtain ⟨s, hrun, hs⟩ := map_eq_ok
    (f := fun s : Pool Msg 1 1 => decide (s.threads (.worker 0) = .stopped ∧
      (asynchronous oneBackend twoThreads s).received =
        [[("(2023-11-14 22:13:20.000000) [info    ] <0x2> hi [a.c:3||f]\n".toList, .info)]]))
    (r := run (Pool.step oneBackend.shouldFlushOn) (.init 2) oneRecordRun) (b := true)
    (by decide +kernel)
  obtain ⟨hstopped, hasync⟩ := of_decide_eq_true hs
  exact ⟨s, hrun, hstopped, hasync, by decide +kernel⟩

end Hare.Log
