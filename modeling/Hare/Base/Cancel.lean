import Hare.Base.Batch

/-!
# Cancelling timers

`RunAfter` returns an id before the task that registers the timer has run, when it is called
on another thread, and `Cancel` looks the id up among the registered events.  A `Cancel` that
comes before the task finds nothing and returns; the task then registers the timer all the
same, and `NotifyTimer` dispatches it.  The same happens to a `Cancel` while the cycle does not
run, which returns at once.
-/

namespace Hare.Io

open LabelledRun PriorityQueue

/-- `Cancel` takes a registered timer out. -/
theorem Registry.not_armed_cancel {r : Registry} (h : r.Registered) (id : ℕ) :
    ¬ (r.cancel id).Armed id := by
  rcases r.cancel_cases id with ⟨heq, hpos⟩ | ⟨p, -, -, heq⟩
  · rw [heq]
    intro ha
    have hfd := hpos _ ha
    rw [h.timer] at hfd
    cases hfd
  · rw [heq, Armed, events_erase, if_pos rfl]
    exact fun ha => by cases ha

/-- The loop ends only at the test of `quit`. -/
theorem Loop.Step.ne_idle {τ : Type*} {s s' : Loop τ} {l : LoopLabel τ} (hs : s.Step l s')
    (hl : l ≠ .loop) (hp : s.phase ≠ .idle) : s'.phase ≠ .idle := by
  cases hs with
  | exec | pollReturn | readNotify | swap | start => exact fun h => by cases h
  | loop => exact absurd rfl hl
  | _ => exact hp

namespace Cycle

variable {P : Top TimerPriority} {c c' : Cycle} {l : CycleLabel} {s : Setup} {ls : List CycleLabel}
  {i : ℕ}

/-- **Where registered timers come from**: a call on the cycle thread, or a task. -/
theorem armed_step (h : c.Sound) (hs : c.step P l = .ok c') (ha : c'.registry.Armed i) :
    c.registry.Armed i ∨ (c.isRunning = true ∧ i = c.registry.eventId) ∨
      c.registration l = some i := by
  rcases registry_step h hs with ⟨-, r₁, -, heq, -⟩ | ⟨-, hm⟩
  · rw [heq] at ha
    cases ha
  · exact hm.armed ha

/-! ## Ids that have been drawn -/

/-- The timers are registered only while the cycle runs, and the ids that are known have been
drawn. -/
structure Drawn (c : Cycle) : Prop where
  idle : c.isRunning = false → ∀ i, ¬ c.registry.Armed i
  callers : ∀ i ∈ c.callers, i < c.registry.eventId
  returned : ∀ i ∈ c.history.returned, i < c.registry.eventId
  cancels : ∀ i, .cancel i true ∈ c.jobs → i < c.registry.eventId
  cancelled : ∀ i ∈ c.history.cancelled, i < c.registry.eventId

/-- **What a `Cancel` that returns leaves**: its timer is not registered. -/
theorem cancelled_step (h : c.Sound) (hd : c.Drawn) (hs : c.step P l = .ok c')
    (hi : i ∈ c'.history.cancelled) :
    i ∈ c.history.cancelled ∨
      ((i ∈ c.history.returned ∨ .cancel i true ∈ c.jobs) ∧ ¬ c'.registry.Armed i) := by
  cases records_step hs with
  | nothing hh | dispatched hh | ran _ hh | returned _ hh | every _ hh =>
      rw [hh] at hi
      exact .inl hi
  | cancelled hid hr hh =>
      rw [hh] at hi
      rcases List.mem_cons.mp hi with rfl | hi
      · refine .inr ⟨hid, ?_⟩
        rcases hr with heq | ⟨hrun, heq⟩
        · rw [heq]
          exact Registry.not_armed_cancel h.registered i
        · rw [heq]
          exact hd.idle hrun i
      · exact .inl hi

theorem isRunning_iff : c.isRunning = true ↔ c.loop.phase ≠ .idle := by
  simp [isRunning]

/-- The cycle runs until `Exec` returns. -/
theorem isRunning_step (hs : c.step P l = .ok c') (hrun : c.isRunning = true) (hne : l ≠ .leave) :
    c'.isRunning = true := by
  rw [isRunning_iff] at hrun ⊢
  have ho := c.step_outcome P l
  generalize c.step P l = x at ho hs
  cases ho with
  | stopped | fill | dangling => cases hs
  | leave => exact absurd rfl hne
  | exec hl | readNotify _ _ hl | startJob _ _ _ hl =>
      obtain ⟨r, -, rfl⟩ := work_eq_ok hs
      exact hl.ne_idle (by simp) hrun
  | poll _ _ _ hl | swap _ _ hl | startUser _ _ _ hl | push _ hl | returns _ hl =>
      cases hs
      exact hl.ne_idle (by simp) hrun
  | @quiet l move loop hq hl =>
      cases hs
      refine hl.ne_idle ?_ hrun
      rintro rfl
      cases (moves_quiet hq)
  | again hf hq hl =>
      cases hs
      simp [hl.loop_phase.2, hq]
  | handled | finishEvent | finishTimer | fired | call =>
      obtain ⟨r, -, rfl⟩ := work_eq_ok hs
      exact hrun
  | _ => cases hs; exact hrun

/-- Tasks are run while the cycle runs. -/
theorem isRunning_of_registration (hs : c.step P l = .ok c')
    (hi : c.registration l = some i) : c.isRunning = true := by
  have hphase {loop : Loop Job} (hl : c.loop.Step .start loop) : c.isRunning = true := by
    obtain ⟨⟨running, hp⟩, -⟩ := hl.start_phase
    exact isRunning_iff.mpr (by simp [hp])
  have ho := c.step_outcome P l
  generalize c.step P l = x at ho hs
  cases ho with
  | stopped => cases hs
  | startUser hf hq hj hl => exact hphase hl
  | startJob hf hq hj hl => exact hphase hl
  | @quiet l move loop hq hl => cases l <;> first | cases hi | cases hq
  | _ => cases hi

theorem drawn_idle (h : c.Sound) (hd : c.Drawn) (hs : c.step P l = .ok c')
    (hrun : c'.isRunning = false) (i : ℕ) : ¬ c'.registry.Armed i := by
  intro ha
  by_cases hl : l = .leave
  · subst hl
    have hnone := events_of_leaves (leaves_of_step h hs) i
    rw [ha] at hnone
    cases hnone
  · have hidle : c.isRunning = false := by
      by_contra hne
      rw [isRunning_step hs (Bool.not_eq_false _ ▸ hne) hl] at hrun
      cases hrun
    rcases armed_step h hs ha with hold | ⟨hnew, -⟩ | hreg
    · exact hd.idle hidle i hold
    · rw [hidle] at hnew
      cases hnew
    · rw [isRunning_of_registration hs hreg] at hidle
      cases hidle

theorem callers_step (hs : c.step P l = .ok c') (hi : i ∈ c'.callers) :
    i ∈ c.callers ∨ .register i false ∈ c.jobs := by
  have ho := c.step_outcome P l
  generalize c.step P l = x at ho hs
  cases ho with
  | stopped | fill | dangling => cases hs
  | @push job loop hj hl =>
      cases hs
      rcases List.mem_append.mp hi with hnew | hold
      · have hjobs : job ∈ c.jobs := List.mem_append_left _ hj
        cases job with
        | register id isPersist =>
            cases isPersist with
            | false =>
                rw [List.mem_singleton.mp hnew]
                exact .inr hjobs
            | true => cases hnew
        | _ => cases hnew
      · exact .inl hold
  | returns hid hl =>
      cases hs
      exact .inl (List.mem_of_mem_erase hi)
  | exec | handled | readNotify | finishEvent | finishTimer | fired | startJob | leave | call =>
      obtain ⟨r, -, rfl⟩ := work_eq_ok hs
      exact .inl hi
  | _ => cases hs; exact .inl hi

/-- A new timer has a new id. -/
theorem lt_of_newTimer {r r' : Registry} {delay now : ℤ} {isPersist : Bool}
    (hx : (r.createTimer delay isPersist).registerTimer r.eventId now = .ok r') :
    r.eventId < r'.eventId := by
  have hcase := (r.createTimer delay isPersist).registerTimer_cases r.eventId now
  rw [hx] at hcase
  cases hcase with
  | enrolled => exact Nat.lt_succ_self _

theorem returned_step (hs : c.step P l = .ok c') (hi : i ∈ c'.history.returned) :
    i ∈ c.history.returned ∨ i ∈ c.callers ∨ i < c'.registry.eventId := by
  cases records_step hs with
  | nothing hh | dispatched hh | every _ hh | cancelled _ _ hh =>
      rw [hh] at hi
      exact .inl hi
  | ran hr hh =>
      rw [hh] at hi
      rcases List.mem_cons.mp hi with rfl | hi
      · exact .inr (.inr (lt_of_newTimer hr))
      · exact .inl hi
  | returned hid hh =>
      rw [hh] at hi
      rcases List.mem_cons.mp hi with rfl | hi
      · exact .inr (.inl hid)
      · exact .inl hi

/-- Every step keeps that the known ids have been drawn. -/
theorem drawn_step (h : c.Sound) (hd : c.Drawn) (hs : c.step P l = .ok c') : c'.Drawn := by
  have hle := eventId_step h hs
  have hcancels : ∀ i, .cancel i true ∈ c'.jobs → i < c'.registry.eventId := by
    intro i hi
    rcases List.mem_append.mp ((jobs_step hs).subset hi) with hnew | hold
    · cases l with
      | ask k =>
          have hk : c.asks k = some (.cancel i true) := Option.mem_toList.mp hnew
          cases k with
          | cancel id =>
              simp only [asks, Option.ite_none_right_eq_some, Option.some.injEq,
                Job.cancel.injEq] at hk
              obtain ⟨-, rfl, hafter⟩ := hk
              exact (hd.returned _ (List.contains_iff_mem.mp hafter)).trans_le hle
          | _ =>
              simp only [asks] at hk
              split at hk <;> cases hk
      | queue inThread => cases List.mem_singleton.mp hnew
      | _ => cases hnew
    · exact (hd.cancels i hold).trans_le hle
  refine ⟨drawn_idle h hd hs, fun i hi => ?_, fun i hi => ?_, hcancels, fun i hi => ?_⟩
  · rcases callers_step hs hi with hold | hjob
    · exact (hd.callers i hold).trans_le hle
    · have hadm := h.jobs _ hjob
      exact Nat.lt_of_lt_of_le hadm hle
  · rcases returned_step hs hi with hold | hcaller | hnew
    · exact (hd.returned i hold).trans_le hle
    · exact (hd.callers i hcaller).trans_le hle
    · exact hnew
  · rcases cancelled_step h hd hs hi with hold | ⟨hret | hjob, -⟩
    · exact (hd.cancelled i hold).trans_le hle
    · exact (hd.returned i hret).trans_le hle
    · exact (hd.cancels i hjob).trans_le hle

/-! ## Timers that come back -/

/-- The event whose `HandleEvent` a step calls. -/
def calls (P : Top TimerPriority) (c : Cycle) : CycleLabel → Option EventPtr
  | .dispatch => c.handles
  | .notifyTimer => (c.due P).bind fun top => c.registry.events top.id
  | _ => none

/-- A timer that has been cancelled is not dispatched any more. -/
structure CancelWins (P : Top TimerPriority) (s : Setup) (ls : List CycleLabel) : Prop where
  /-- `HandleEvent` of the timer is not called. -/
  silent : ∀ ks l c i, ks ++ [l] <+: ls → run (step P) (init s) ks = .ok c →
    c.calls P l = some (.timer i) → i ∉ c.history.cancelled
  /-- The timer is not registered, so that its time does not come. -/
  unarmed : ∀ ks c i, ks <+: ls → run (step P) (init s) ks = .ok c →
    i ∈ c.history.cancelled → ¬ c.registry.Armed i

/-- No task registers a timer that has been cancelled. -/
def InTime (P : Top TimerPriority) (c : Cycle) (l : CycleLabel) : Prop :=
  ∀ c' i, c.step P l = .ok c' → c.registration l = some i → i ∉ c.history.cancelled

/-- What holds along runs whose registrations come in time. -/
structure Unarmed (c : Cycle) : Prop where
  sound : c.Sound
  watched : c.Watched
  drawn : c.Drawn
  unarmed : ∀ i ∈ c.history.cancelled, ¬ c.registry.Armed i

theorem unarmed_step (h : c.Unarmed) (ht : InTime P c l) (hs : c.step P l = .ok c') :
    c'.Unarmed where
  sound := sound_step h.sound hs
  watched := watched_step h.sound h.watched hs
  drawn := drawn_step h.sound h.drawn hs
  unarmed i hi ha := by
    rcases cancelled_step h.sound h.drawn hs hi with hold | ⟨-, hnot⟩
    · rcases armed_step h.sound hs ha with harmed | ⟨-, hnew⟩ | hreg
      · exact h.unarmed i hold harmed
      · exact absurd (h.drawn.cancelled i hold) (by rw [hnew]; exact Nat.lt_irrefl _)
      · exact ht c' i hs hreg hold
    · exact hnot ha

theorem unarmed_init (s : Setup) : (init s).Unarmed where
  sound := sound_init s
  watched _ hp := by cases hp
  drawn :=
    { idle := fun _ i ha => (by cases ha)
      callers := fun i hi => (by cases hi)
      returned := fun i hi => (by cases hi)
      cancels := fun i hi => (by cases hi)
      cancelled := fun i hi => (by cases hi) }
  unarmed i hi := by cases hi

/-- A timer whose `HandleEvent` is called is registered. -/
theorem armed_of_calls (h : c.Sound) (hw : c.Watched)
    (hc : c.calls P l = some (.timer i)) : c.registry.Armed i := by
  cases l with
  | dispatch =>
      have htimer := (hw _ (mem_handles hc)).2
      cases htimer
  | notifyTimer =>
      obtain ⟨top, -, he⟩ := Option.bind_eq_some_iff.mp hc
      have hi := h.registered.label he
      subst hi
      exact he
  | _ => cases hc

/-- A step that registers a timer calls the next task. -/
theorem job_of_registration (hs : c.step P l = .ok c')
    (hi : c.registration l = some i) :
    ∃ accepted now q functions loop, c.loop.functions = q :: functions ∧
      q.task.timer = some i ∧ c.loop.Step .start loop ∧
      { c with loop, history := c.history.job q.task }.work
        (q.task.effect accepted now c.registry) = .ok c' := by
  have ho := c.step_outcome P l
  generalize c.step P l = x at ho hs
  cases ho with
  | stopped => cases hs
  | startUser hf hq hj hl => simp [registration, hq, hj, Job.timer] at hi
  | @startJob accepted now q functions loop hf hq hj hl =>
      simp only [registration, hq, List.head?_cons, Option.bind_some] at hi
      exact ⟨accepted, now, q, functions, loop, hq, hi, hl, hs⟩
  | @quiet l move loop hq hl => cases l <;> first | cases hi | cases hq
  | _ => cases hi

/-- A task that registers a timer leaves the record of the `Cancel` calls alone. -/
theorem armed_of_registration (hs : c.step P l = .ok c')
    (hi : c.registration l = some i) :
    c'.registry.Armed i ∧ c'.history.cancelled = c.history.cancelled := by
  obtain ⟨accepted, now, q, functions, loop, -, hi, -, hwork⟩ := job_of_registration hs hi
  obtain ⟨r, hx, rfl⟩ := work_eq_ok hwork
  change r.Armed i ∧ (c.history.job q.task).cancelled = _
  generalize q.task = job at hi hx
  cases job with
  | register id isPersist =>
      cases hi
      refine ⟨?_, rfl⟩
      have hcase := c.registry.registerTimer_cases i now
      change c.registry.registerTimer i now = .ok r at hx
      rw [hx] at hcase
      cases hcase with
      | enrolled =>
          change (c.registry.enroll i).events i = some (.timer i)
          rw [Registry.events_enroll, if_pos rfl]
  | _ => cases hi

/-- **Cancelled timers come back exactly by tasks that register them late.** -/
theorem cancelWins_iff_inTime (P : Top TimerPriority) (s : Setup) (ls : List CycleLabel) :
    CancelWins P s ls ↔ Meets (step P) (InTime P) (init s) ls := by
  constructor
  · intro hwins
    by_contra hm
    obtain ⟨ks, l, c, hpre, hks, hbad⟩ := exists_of_not_meets hm
    simp only [InTime, not_forall, not_not] at hbad
    obtain ⟨c', i, hs, hreg, hi⟩ := hbad
    obtain ⟨harmed, heq⟩ := armed_of_registration hs hreg
    refine hwins.unarmed (ks ++ [l]) c' i hpre ?_ (heq ▸ hi) harmed
    rw [run_append hks, run_cons_ok hs, run_nil]
  · intro hm
    have hinv (ks : List CycleLabel) (c : Cycle) (hks : ks <+: ls)
        (hrun : run (step P) (init s) ks = .ok c) : c.Unarmed :=
      invariant Unarmed (fun _ _ _ h ht hs => unarmed_step h ht hs) (unarmed_init s)
        (hm.of_isPrefix hks) hrun
    constructor
    · intro ks l c i hpre hks hc hi
      have h := hinv ks c ((List.prefix_append ks [l]).trans hpre) hks
      exact h.unarmed i hi (armed_of_calls h.sound h.watched hc)
    · intro ks c i hks hrun hi
      exact (hinv ks c hks hrun).unarmed i hi

/-- While the callback of an event runs, another thread calls `RunAfter`, which returns the id
2; the callback then calls `Cancel`.  The task that registers the timer runs afterwards. -/
def lateRun : List CycleLabel :=
  [.call (.tie 0 true), .call (.update 0 true 0), .exec true 1, .again, .poll 2 [.user 0],
    .dispatch, .ask (.runAfter 5), .push (.register 2 false), .notify (some 2), .call (.cancel 2),
    .finish, .swap, .start true 3, .again, .poll 9 [.notify], .dispatch]

/-- The timer has been cancelled, and `NotifyTimer` calls its `HandleEvent`. -/
theorem lateRun_dispatches_cancelled :
    ¬ CancelWins (Top.ofKey TimerElem.stamp) .readers (lateRun ++ [.notifyTimer]) ∧
      ∃ c, run (step (Top.ofKey TimerElem.stamp)) (init .readers) lateRun = .ok c ∧
        2 ∈ c.history.cancelled ∧ 2 ∉ c.history.dispatched ∧
        c.calls (Top.ofKey TimerElem.stamp) .notifyTimer = some (.timer 2) ∧
        ∃ c', c.step (Top.ofKey TimerElem.stamp) .notifyTimer = .ok c' ∧
          c'.history.dispatched = [2] := by
  have hbefore := map_eq_ok
    (f := fun c => (c.history.cancelled, c.history.dispatched,
      c.calls (Top.ofKey TimerElem.stamp) .notifyTimer))
    (r := run (step (Top.ofKey TimerElem.stamp)) (init .readers) lateRun)
    (b := ([2], [], some (.timer 2))) (by decide +kernel)
  have hafter := map_eq_ok (f := fun c => c.history.dispatched)
    (r := run (step (Top.ofKey TimerElem.stamp)) (init .readers) (lateRun ++ [.notifyTimer]))
    (b := [2]) (by decide +kernel)
  obtain ⟨c, hrun, hc⟩ := hbefore
  obtain ⟨c', hrun', hc'⟩ := hafter
  simp only [Prod.mk.injEq] at hc
  obtain ⟨hcancelled, hdispatched, hcalls⟩ := hc
  rw [run_append hrun] at hrun'
  obtain ⟨m, hs, hm⟩ := run_cons_eq_ok hrun'
  cases hm
  refine ⟨fun hwins => ?_, c, hrun, by simp [hcancelled], by simp [hdispatched], hcalls, c', hs,
    hc'⟩
  exact hwins.silent lateRun .notifyTimer c 2 (List.prefix_refl _) hrun hcalls
    (by simp [hcancelled])

end Cycle

end Hare.Io
