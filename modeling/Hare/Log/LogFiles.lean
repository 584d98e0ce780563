import Hare.Log.Agree
import Hare.Log.FileBuffer

/-!
# From the calls to the files

An asynchronous logger with a file backend, from the threads that log to the files on disk: the
records go through the queue to the workers, a worker makes a line of text of each with its own
cache of the time, and the backend writes the lines one after the other, under its mutex.  A message
of type `FLUSH` takes the same way and has the backend write out its buffer.

Whatever the threads do, the files are an archive of the lines written so far, in their order, and
the disk lacks of it what is in the buffer of the open file.  When the threads have come to rest,
the lines are those of the records that were posted, each once: in the order of the posts if there
is one worker, in some order if there are several (`log_archive`).  The exception is a logger whose
workers wait for each other.
-/

namespace Hare.Log

open LabelledRun Util Threads

namespace Pool

variable {μ : Type*} {n c : ℕ}

/-- Of the records given to the backends, those of a thread. -/
def handledBy (t : Thread n c) (handled : List (Thread n c × μ)) : List μ :=
  (handled.filter fun e => e.1 = t).map Prod.snd

/-- Of the records taken from the queue, those of a thread. -/
def takenBy (t : Thread n c) (taken : List (Thread n c × AsyncMsg μ)) : List μ :=
  (taken.filter fun e => e.1 = t).flatMap fun e => e.2.records

theorem handledBy_concat (t u : Thread n c) (handled : List (Thread n c × μ)) (record : μ) :
    handledBy t (handled ++ [(u, record)]) =
      handledBy t handled ++ if u = t then [record] else [] := by
  by_cases hut : u = t <;> simp [handledBy, hut]

theorem takenBy_concat (t u : Thread n c) (taken : List (Thread n c × AsyncMsg μ))
    (msg : AsyncMsg μ) :
    takenBy t (taken ++ [(u, msg)]) = takenBy t taken ++ if u = t then msg.records else [] := by
  by_cases hut : u = t <;> simp [takenBy, hut]

/-- What a thread has taken it has handled, in order, but for the record in its hands. -/
structure Carries (s : Pool μ n c) : Prop where
  carried : ∀ t, handledBy t s.handled ++ (s.threads t).carried = takenBy t s.taken
  handlers : ∀ e ∈ s.handled, ∃ i, e.1 = .worker i

variable {flushOn : μ → Bool} {s s' : Pool μ n c} {l : PoolLabel μ n c} {max : ℕ}
variable {t u : Thread n c} {state : ThreadState μ}

theorem carries_init [Inhabited μ] : (init max : Pool μ n c).Carries where
  carried t := by cases t <;> rfl
  handlers := by simp [init]

/-- A thread moves with its record. -/
theorem Carries.set (h : s.Carries) (hcarried : state.carried = (s.threads t).carried) :
    (s.set t state).Carries where
  carried u := by
    by_cases hu : u = t
    · rw [hu, set_self, hcarried]
      exact h.carried t
    · rw [set_other hu]
      exact h.carried u
  handlers := h.handlers

theorem Carries.pop {msg : AsyncMsg μ} {queue : CircularQueue (AsyncMsg μ)} (h : s.Carries)
    (ht : s.threads t = .dequeue) :
    { s.set t (.popped msg) with queue, taken := s.taken ++ [(t, msg)] }.Carries where
  carried u := by
    have hu := h.carried u
    rw [takenBy_concat, ← hu]
    by_cases hut : u = t
    · subst hut
      rw [set_self, ht, if_pos rfl]
      simp only [ThreadState.carried, List.append_nil]
      rfl
    · rw [set_other hut, if_neg (Ne.symm hut), List.append_nil]
      rfl
  handlers := h.handlers

theorem carried_handleMsg (msg : AsyncMsg μ) :
    (ThreadState.handleMsg flushOn msg).carried = [] := by
  cases msg with
  | log record =>
      simp only [ThreadState.handleMsg]
      split <;> rfl
  | flush => rfl
  | terminate => rfl

theorem Carries.handle {msg : AsyncMsg μ} {handled : List (Thread n c × μ)} {i : Fin n}
    (h : s.Carries) (ht : s.threads (.worker i) = .handling msg)
    (hrec : handled = s.handled ++ msg.records.map fun record => (.worker i, record)) :
    { s.set (.worker i) (ThreadState.handleMsg flushOn msg) with handled }.Carries where
  carried u := by
    have hu := h.carried u
    have hhandled : handledBy u handled = handledBy u s.handled ++
        if .worker i = u then msg.records else [] := by
      rw [hrec]
      cases msg with
      | log record => exact handledBy_concat u (.worker i) s.handled record
      | flush => simp [AsyncMsg.records]
      | terminate => simp [AsyncMsg.records]
    by_cases hut : u = .worker i
    · subst hut
      rw [ht] at hu
      rw [hhandled, set_self, carried_handleMsg, if_pos rfl, List.append_nil]
      exact hu
    · rw [hhandled, set_other hut, if_neg (Ne.symm hut), List.append_nil]
      exact hu
  handlers e he := by
    subst hrec
    rcases List.mem_append.mp he with hold | hnew
    · exact h.handlers e hold
    · obtain ⟨record, -, rfl⟩ := List.mem_map.mp hnew
      exact ⟨i, rfl⟩

theorem carries_step (hfits : s.Fits max) (h : s.Carries) (hs : s.step flushOn l = .ok s') :
    s'.Carries := by
  cases step_eq_ok hs with
  | post hopen ht hmsg => exact h.set (by rw [ht]; rfl)
  | destroy hopen hidle => exact ⟨h.carried, h.handlers⟩
  | terminate hleft ht =>
      have hset : (s.set .destructor (.enqueue .terminate)).Carries := h.set (by rw [ht]; rfl)
      exact ⟨hset.carried, hset.handlers⟩
  | @push t msg queue ht hq =>
      have hset : (s.set t .pushed).Carries := h.set (by rw [ht]; rfl)
      exact ⟨hset.carried, hset.handlers⟩
  | pop ht hq => exact h.pop ht
  | @handle t msg handled ht hrec =>
      obtain ⟨i, rfl⟩ := hfits.exists_worker (t := t) (by rw [ht]; rfl)
      refine h.handle ht ?_
      rw [hrec]
      cases msg <;> rfl
  | @notifyPush t u ht hu =>
      have hne : t ≠ u := fun heq => by rw [heq, hu] at ht; cases ht
      refine (h.set (by rw [hu]; rfl)).set ?_
      rw [set_other hne, ht]
      cases t <;> rfl
  | @endPush t ht hnone => exact h.set (by rw [ht]; cases t <;> rfl)
  | @notifyPop t u msg next ht hu =>
      have hne : t ≠ u := fun heq => by rw [heq, hu] at ht; cases ht
      refine (h.set (by rw [hu]; rfl)).set ?_
      rw [set_other hne, ht]
      rfl
  | block ht _ | wait ht _ | endPop ht _ | wakePush ht | wakePop ht =>
      exact h.set (by rw [ht]; rfl)

/-- Only workers have records in their hands. -/
theorem Fits.carried_eq_nil (h : s.Fits max) (ht : ∀ i, t ≠ .worker i) :
    (s.threads t).carried = [] := by
  have hfits := h.threads t
  cases t with
  | worker i => exact absurd rfl (ht i)
  | client p => cases hs : s.threads (.client p) <;> simp_all [Thread.fits, ThreadState.carried]
  | destructor => cases hs : s.threads .destructor <;> simp_all [Thread.fits, ThreadState.carried]

theorem Finished.carried_eq_nil (hfin : s.Finished) (hfits : s.Fits max) (t : Thread n c) :
    (s.threads t).carried = [] := by
  by_cases ht : ∃ i, t = .worker i
  · obtain ⟨i, rfl⟩ := ht
    rw [hfin.stopped i]
    rfl
  · exact hfits.carried_eq_nil fun i hi => ht ⟨i, hi⟩

section Counting

variable [DecidableEq μ]

theorem count_handledBy (t : Thread n c) (handled : List (Thread n c × μ)) (record : μ) :
    (handledBy t handled).count record =
      handled.countP fun e => decide (e.1 = t) && (e.2 == record) := by
  induction handled with
  | nil => rfl
  | cons e handled ih =>
      by_cases he : e.1 = t <;> simp_all [handledBy, List.count_cons, List.countP_cons]

theorem count_takenBy (t : Thread n c) (taken : List (Thread n c × AsyncMsg μ)) (record : μ) :
    (takenBy t taken).count record =
      taken.countP fun e => decide (e.1 = t) && (e.2 == .log record) := by
  induction taken with
  | nil => rfl
  | cons e taken ih =>
      obtain ⟨u, msg⟩ := e
      by_cases he : u = t
      · cases msg <;>
          simp_all [takenBy, AsyncMsg.records, List.count_cons, List.countP_cons, Nat.add_comm]
      · simp_all [takenBy]

theorem count_flatMap_records (msgs : List (AsyncMsg μ)) (record : μ) :
    (msgs.flatMap AsyncMsg.records).count record = msgs.countP (· == .log record) := by
  induction msgs with
  | nil => rfl
  | cons msg msgs ih =>
      cases msg <;> simp_all [AsyncMsg.records, List.count_cons, List.countP_cons, Nat.add_comm]

end Counting

theorem Finished.handledBy_eq (hfin : s.Finished) (hfits : s.Fits max) (h : s.Carries)
    (t : Thread n c) : handledBy t s.handled = takenBy t s.taken := by
  have ht := h.carried t
  rwa [hfin.carried_eq_nil hfits t, List.append_nil] at ht

theorem Finished.records_posted (hfin : s.Finished) (hledger : s.Ledger) :
    s.posted.flatMap AsyncMsg.records = (s.taken.map Prod.snd).flatMap AsyncMsg.records := by
  rw [← hledger.inOrder, List.flatMap_append, hfin.records_eq_nil, List.append_nil]

/-- When all workers have stopped, the records handled are those that were posted. -/
theorem Finished.perm [DecidableEq μ] (hfin : s.Finished) (hfits : s.Fits max)
    (hledger : s.Ledger) (h : s.Carries) :
    (s.handled.map Prod.snd).Perm (s.posted.flatMap AsyncMsg.records) := by
  rw [hfin.records_posted hledger, List.perm_iff_count]
  intro record
  calc (s.handled.map Prod.snd).count record
      = s.handled.countP fun e => e.2 == record := by
        rw [List.count, List.countP_map]
        rfl
    _ = ∑ t, (handledBy t s.handled).count record := by
        simp only [count_handledBy]
        exact (sum_countP_fst (· == record) s.handled).symm
    _ = ∑ t, (takenBy t s.taken).count record := by
        simp only [hfin.handledBy_eq hfits h]
    _ = s.taken.countP fun e => e.2 == .log record := by
        simp only [count_takenBy]
        exact sum_countP_fst (· == .log record) s.taken
    _ = ((s.taken.map Prod.snd).flatMap AsyncMsg.records).count record := by
        rw [count_flatMap_records, List.countP_map]
        rfl

/-- With one worker they are handled in the order of the posts. -/
theorem Finished.inOrder {s : Pool μ 1 c} (hfin : s.Finished) (hfits : s.Fits max)
    (hledger : s.Ledger) (h : s.Carries) :
    s.handled.map Prod.snd = s.posted.flatMap AsyncMsg.records := by
  have hworker : ∀ i : Fin 1, (.worker i : Thread 1 c) = .worker 0 := fun i => by
    rw [Subsingleton.elim i 0]
  have hhandled : handledBy (.worker 0) s.handled = s.handled.map Prod.snd := by
    rw [handledBy, List.filter_eq_self.mpr fun e he => ?_]
    obtain ⟨i, hi⟩ := h.handlers e he
    simp [hi, hworker i]
  have htaken : takenBy (.worker 0) s.taken =
      (s.taken.map Prod.snd).flatMap AsyncMsg.records := by
    rw [takenBy, List.filter_eq_self.mpr fun e he => ?_, List.flatMap_map]
    obtain ⟨i, hi⟩ := hledger.takers e he
    simp [hi, hworker i]
  rw [← hhandled, hfin.handledBy_eq hfits h, htaken, hfin.records_posted hledger]

end Pool

/-! ## The system -/

/-- A logger with its workers and the files of its backend. -/
structure LogSystem (n c : ℕ) where
  pool : Pool Msg n c
  /-- What each worker keeps for itself. -/
  workers : Fin n → ThreadData
  files : OpenFiles

/-- The logger, its file backend, and how text is stored. -/
structure LogSetup where
  logger : Logger
  backend : Backend
  maxSize : ℕ
  stdio : Stdio
  encode : List Char → Bytes

namespace LogSystem

variable {n c : ℕ}

def init (max : ℕ) (workers : Fin n → ThreadData) (files : OpenFiles) : LogSystem n c where
  pool := .init max
  workers
  files

/-- `HandleMsg`, by a worker. -/
def handleMsg (setup : LogSetup) (s : LogSystem n c) (i : Fin n) : AsyncMsg Msg → LogSystem n c
  | .log msg =>
    let (line, self) := formatMsg setup.logger.timezone msg (s.workers i)
    { s with
      workers := Function.update s.workers i self
      files := if setup.backend.check msg.level
        then s.files.innerSinkIt setup.stdio setup.maxSize (setup.encode line) else s.files }
  | .flush => { s with files := s.files.flush }
  | .terminate => s

/-- The message that a step handles. -/
def handles (s : LogSystem n c) : PoolLabel Msg n c → Option (Fin n × AsyncMsg Msg)
  | .handle (.worker i) =>
    match s.pool.threads (.worker i) with
    | .handling msg => some (i, msg)
    | _ => none
  | _ => none

def step (setup : LogSetup) (s : LogSystem n c) (l : PoolLabel Msg n c) :
    Except Stop (LogSystem n c) := do
  let pool ← s.pool.step setup.logger.shouldFlushOn l
  match s.handles l with
  | some (i, msg) => pure ({ s with pool }.handleMsg setup i msg)
  | none => pure { s with pool }

/-! ## The lines -/

/-- The caches of the workers and the lines written, when one more record is handled. -/
def emit (setup : LogSetup) (out : (Fin n → ThreadData) × List Bytes) (e : Thread n c × Msg) :
    (Fin n → ThreadData) × List Bytes :=
  match e.1 with
  | .worker i =>
    let (line, self) := formatMsg setup.logger.timezone e.2 (out.1 i)
    (Function.update out.1 i self,
      if setup.backend.check e.2.level then out.2 ++ [setup.encode line] else out.2)
  | _ => out

/-- The lines of the records handled. -/
def emitted (setup : LogSetup) (workers : Fin n → ThreadData) (handled : List (Thread n c × Msg)) :
    List Bytes :=
  (handled.foldl (emit setup) (workers, [])).2

variable {setup : LogSetup} {s s' : LogSystem n c} {l : PoolLabel Msg n c} {max : ℕ}
variable {workers : Fin n → ThreadData} {files : Files}

/-- What holds in every state: the pool is sound, and the lines of the records handled have been
written, be it to the buffer. -/
structure Inv (setup : LogSetup) (max : ℕ) (workers : Fin n → ThreadData) (files : Files)
    (s : LogSystem n c) : Prop where
  sound : s.pool.Sound max
  carries : s.pool.Carries
  workers_eq : s.workers = (s.pool.handled.foldl (emit setup) (workers, [])).1
  buffers : Buffers (files.sinkAll setup.maxSize (emitted setup workers s.pool.handled)) s.files

theorem inv_init :
    Inv setup max workers files (init max workers (.ofFiles files) : LogSystem n c) where
  sound := ⟨Pool.fits_init, Pool.ledger_init, Pool.awake_init⟩
  carries := Pool.carries_init
  workers_eq := rfl
  buffers := .ofFiles files

theorem handled_step {pool : Pool Msg n c} (hfits : s.pool.Fits max)
    (hs : s.pool.step setup.logger.shouldFlushOn l = .ok pool) :
    pool.handled = s.pool.handled ++
      (s.handles l).toList.flatMap fun e => e.2.records.map fun msg => (.worker e.1, msg) := by
  have hnil := (List.append_nil s.pool.handled).symm
  cases Pool.step_eq_ok hs with
  | @handle t msg handled ht hrec =>
      obtain ⟨i, rfl⟩ := hfits.exists_worker (t := t) (by rw [ht]; rfl)
      cases msg <;> simp [handles, ht, hrec, AsyncMsg.records]
  | _ => exact hnil

theorem sinkAll_concat (files : Files) (maxSize : ℕ) (lines : List Bytes) (line : Bytes) :
    files.sinkAll maxSize (lines ++ [line]) =
      (files.sinkAll maxSize lines).innerSinkIt maxSize line := by
  simp [Files.sinkAll]

theorem Inv.step (hmax : 0 < max) (h : Inv setup max workers files s)
    (hs : s.step setup l = .ok s') : Inv setup max workers files s' := by
  rw [LogSystem.step] at hs
  obtain ⟨pool, hpool, hs⟩ := bind_eq_ok hs
  have hsound : pool.Sound max := ⟨Pool.fits_step hmax h.sound.fits hpool,
    Pool.ledger_step hmax h.sound.fits h.sound.ledger hpool,
    Pool.awake_step hmax h.sound.fits h.sound.awake hpool⟩
  have hcarries := Pool.carries_step h.sound.fits h.carries hpool
  have hhandled := handled_step h.sound.fits hpool
  cases hrec : s.handles l with
  | none =>
      rw [hrec] at hs hhandled
      cases hs
      have hsame : pool.handled = s.pool.handled := by simpa using hhandled
      exact ⟨hsound, hcarries, by rw [hsame]; exact h.workers_eq, by rw [hsame]; exact h.buffers⟩
  | some e =>
      obtain ⟨i, msg⟩ := e
      rw [hrec] at hs hhandled
      cases hs
      have hnew : pool.handled = s.pool.handled ++ msg.records.map fun msg => (.worker i, msg) := by
        simpa using hhandled
      have hdata := h.workers_eq
      cases msg with
      | log msg =>
          have hone : pool.handled = s.pool.handled ++ [(.worker i, msg)] := hnew
          refine ⟨hsound, hcarries, ?_, ?_⟩
          · simp only [handleMsg, hone, List.foldl_append, List.foldl_cons, List.foldl_nil, emit,
              ← hdata]
          · simp only [handleMsg, emitted, hone, List.foldl_append, List.foldl_cons,
              List.foldl_nil, emit, ← hdata]
            split
            · rw [sinkAll_concat]
              exact h.buffers.innerSinkIt setup.stdio setup.maxSize _
            · exact h.buffers
      | flush =>
          have hsame : pool.handled = s.pool.handled := hnew.trans (List.append_nil _)
          exact ⟨hsound, hcarries, hsame ▸ hdata, hsame ▸ h.buffers.flush⟩
      | terminate =>
          have hsame : pool.handled = s.pool.handled := hnew.trans (List.append_nil _)
          exact ⟨hsound, hcarries, hsame ▸ hdata, hsame ▸ h.buffers⟩

theorem inv_of_run (hmax : 0 < max) {ls : List (PoolLabel Msg n c)}
    (hrun : run (LogSystem.step setup) (init max workers (.ofFiles files)) ls = .ok s) :
    Inv setup max workers files s :=
  invariant_of_step (Inv setup max workers files) (fun _ _ _ h hs => h.step hmax hs) inv_init hrun

end LogSystem

/-- **From the calls to the files.**  Whatever the threads do, the files are an archive of the lines
written, in their order; on disk are its files that are kept, the open one but for what is in the
buffer.  When the threads have come to rest after the destructor has begun, either the workers wait
for each other, or every record that was posted has been written as a line: once, and in the order
of the posts if there is one worker. -/
theorem log_archive {n c max : ℕ} {maxFiles : ℤ} (hmax : 2 ≤ max) (hn : 0 < n)
    (hone : maxFiles ≠ 1) (setup : LogSetup) (workers : Fin n → ThreadData) (basename : Filename)
    (dir₀ : Directory) {ls : List (PoolLabel Msg n c)} {s : LogSystem n c}
    (hrun : run (LogSystem.step setup)
      (.init max workers (OpenFiles.new basename maxFiles dir₀)) ls = .ok s) :
    let before := heldBefore basename maxFiles dir₀
    let lines := LogSystem.emitted setup workers s.pool.handled
    let archive := Archive.empty.sinkAll setup.maxSize (fun k => (before k).length) lines
    archive.files.flatten = lines ∧
    s.files.buffered.length ≤ bufferSize ∧
    (Numbered maxFiles archive.closed.length →
      OnDisk basename maxFiles dir₀ archive s.files.buffered s.files.disk ∧
      OnDisk basename maxFiles dir₀ archive [] s.files.flush.disk) ∧
    (s.pool.Stuck setup.logger.shouldFlushOn → s.pool.Wedged ∨
      (s.pool.handled.map Prod.snd).Perm (s.pool.posted.flatMap AsyncMsg.records) ∧
      (n = 1 → s.pool.handled.map Prod.snd = s.pool.posted.flatMap AsyncMsg.records)) := by
  have I := LogSystem.inv_of_run (by omega) hrun
  refine ⟨?_, I.buffers.buffered_le, fun hnum => ?_, fun hstuck => ?_⟩
  · rw [Archive.flatten_files]
    rfl
  · exact I.buffers.onDisk ((Mirrors.new hone basename dir₀).sinkAll hone _ _ hnum) hone
  · refine (Pool.rest_cases hmax hn I.sound.fits I.sound.ledger I.sound.awake hstuck).imp_right ?_
    intro hfin
    refine ⟨hfin.perm I.sound.fits I.sound.ledger I.carries, ?_⟩
    rintro rfl
    exact hfin.inOrder I.sound.fits I.sound.ledger I.carries

/-- A byte for each character. -/
def asBytes (line : List Char) : Bytes := line.map fun ch => ch.toNat.toUInt8

/-- One record, posted and handled, with a file of its own. -/
theorem log_archive_one : ∃ s : LogSystem 1 1, 2 ≤ 2 ∧ 0 < 1 ∧ (0 : ℤ) ≠ 1 ∧
    run (LogSystem.step ⟨oneBackend, {}, 0, fun _ _ => 0, asBytes⟩)
      (.init 2 (fun _ => { tid := 2 }) (OpenFiles.new [] 0 fun _ => none)) oneRecordRun = .ok s ∧
    s.pool.handled.map Prod.snd = s.pool.posted.flatMap AsyncMsg.records := by
  obtain ⟨s, hrun, hs⟩ := map_eq_ok
    (f := fun s : LogSystem 1 1 => decide ((s.pool.remaining ≠ none ∧
      (∀ t, (s.pool.threads t).atRest = true) ∧
      (s.pool.threads .destructor = .idle → s.pool.remaining = some 0)) ∧
      s.pool.threads (.worker 0) = .stopped))
    (r := run (LogSystem.step ⟨oneBackend, {}, 0, fun _ _ => 0, asBytes⟩)
      (.init 2 (fun _ => { tid := 2 }) (OpenFiles.new [] 0 fun _ => none)) oneRecordRun) (b := true)
    (by decide +kernel)
  obtain ⟨hstuck, hstopped⟩ := of_decide_eq_true hs
  obtain ⟨-, -, -, hrest⟩ := log_archive (by decide) (by decide) (by decide) _ _ _ _ hrun
  rcases hrest (Pool.stuck_iff.mpr hstuck) with ⟨-, ⟨i, hlive⟩, -⟩ | ⟨-, horder⟩
  · rw [Subsingleton.elim i 0, hstopped] at hlive
    cases hlive
  · exact ⟨s, by decide, by decide, by decide, hrun, horder rfl⟩

end Hare.Log
