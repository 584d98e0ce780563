import Hare.Base.Cancel

/-!
# Periodic timers

`RunEvery` makes a timer that is persistent and has a timeout.  The constructor of the event
takes such a mask for an error and clears the timeout, with the time of it; the task that
registers the timer then asserts that it has a timeout.  So the assertion fails whenever that
task runs, and no timer of `RunEvery` is ever registered.
-/

namespace Hare.Io

open LabelledRun PriorityQueue

/-- A persistent timer has no timeout. -/
theorem Timer.timeout_new (delay : ℤ) : (Timer.new delay true).events.timeout = false := rfl

namespace Registry

variable {r r' : Registry} {id : ℕ} {S : Scope}

/-- The id has been drawn for a timer without a timeout, and is not registered. -/
structure Barred (r : Registry) (id : ℕ) : Prop where
  lt : id < r.eventId
  timeout : (r.object (.timer id)).event.events.timeout = false
  free : r.events id = none

theorem Barred.move (hb : r.Barred id) (hm : Move S r r') : r'.Barred id := by
  obtain ⟨hlt, htimeout, hfree⟩ := hb
  cases hm with
  | queue ptimer => exact ⟨hlt, htimeout, hfree⟩
  | @event e he event hfd =>
      have hne : .timer id ≠ e := by
        rintro rfl
        cases he
      refine ⟨hlt, ?_, hfree⟩
      rw [object_modify, if_neg hne]
      exact htimeout
  | @insert e he hnull hmap =>
      have hne : .timer id ≠ e := by
        rintro rfl
        cases he
      refine ⟨Nat.lt_succ_of_lt hlt, ?_, ?_⟩
      · rw [object_insert, if_neg hne]
        exact htimeout
      · rw [events_insert, if_neg hlt.ne]
        exact hfree
  | @erase e i he ht =>
      refine ⟨hlt, ?_, ?_⟩
      · rw [object_erase]
        split
        · next heq => rw [← heq]; exact htimeout
        · exact htimeout
      · rw [events_erase, hfree, ite_self]
  | create delay isPersist =>
      have hne : EventPtr.timer id ≠ .timer r.eventId := fun heq => by
        cases heq
        exact Nat.lt_irrefl _ hlt
      refine ⟨Nat.lt_succ_of_lt hlt, ?_, hfree⟩
      rw [object_createTimer, if_neg hne]
      exact htimeout
  | @enroll i hid hfree' hlt' htimeout' ha =>
      have hne : id ≠ i := by
        rintro rfl
        rw [htimeout] at htimeout'
        cases htimeout'
      refine ⟨hlt, ?_, ?_⟩
      · rw [object_enroll, if_neg fun heq => hne (EventPtr.timer.inj heq)]
        exact htimeout
      · rw [events_enroll, if_neg hne]
        exact hfree

theorem Barred.moves (hb : r.Barred id) (hm : Moves S r r') : r'.Barred id := by
  induction hm with
  | refl => exact hb
  | tail _ hstep ih => exact ih.move hstep

theorem Barred.resetAll (hb : r.Barred id) : r.resetAll.Barred id := by
  refine ⟨hb.lt, ?_, rfl⟩
  rw [object_resetAll]
  split <;> exact hb.timeout

/-- `RunEvery` draws an id for such a timer. -/
theorem barred_create (h : r.Registered) (delay : ℤ) :
    (r.createTimer delay true).Barred r.eventId := by
  refine ⟨Nat.lt_succ_self _, ?_, h.fresh⟩
  rw [object_createTimer, if_pos rfl]
  exact Timer.timeout_new delay

/-- The task that registers such a timer fails. -/
theorem Barred.not_register (hb : r.Barred id) (now : ℤ) : r.registerTimer id now ≠ .ok r' := by
  intro hx
  have hcase := r.registerTimer_cases id now
  rw [hx] at hcase
  cases hcase with
  | enrolled hid hfree htimeout =>
      rw [hb.timeout] at htimeout
      cases htimeout

end Registry

namespace Cycle

variable {P : Top TimerPriority} {c c' : Cycle} {l : CycleLabel} {s : Setup}
  {ls : List CycleLabel} {i : ℕ}

/-- The timers of `RunEvery` cannot be registered. -/
structure Bars (c : Cycle) : Prop where
  sound : c.Sound
  every : ∀ i delay, c.history.every i = some delay → c.registry.Barred i
  jobs : ∀ i, .register i true ∈ c.jobs → c.registry.Barred i

theorem barred_step (h : c.Sound) (hs : c.step P l = .ok c') (hb : c.registry.Barred i) :
    c'.registry.Barred i := by
  rcases registry_step h hs with ⟨-, r₁, hm, heq, -⟩ | ⟨-, hm⟩
  · rw [heq]
    exact (hb.moves hm).resetAll
  · exact hb.moves hm

theorem every_step (h : c.Sound) (hs : c.step P l = .ok c') {delay : ℤ}
    (hi : c'.history.every i = some delay) :
    c.history.every i = some delay ∨ c'.registry.Barred i := by
  cases records_step hs with
  | nothing hh | dispatched hh | ran _ hh | returned _ hh | cancelled _ _ hh =>
      rw [hh] at hi
      exact .inl hi
  | @every new hr hh =>
      rw [hh] at hi
      change Function.update c.history.every c.registry.eventId (some new) i = some delay at hi
      have hnew := Registry.barred_create h.registered new
      by_cases heq : i = c.registry.eventId
      · subst heq
        rcases hr with hr | ⟨now, hr⟩
        · rw [hr]
          exact .inr hnew
        · exact absurd hr (hnew.not_register now)
      · rw [Function.update_of_ne heq] at hi
        exact .inl hi

theorem barred_asks (h : c.registry.Registered) {k : Ask}
    (hk : c.asks k = some (.register i true)) : (c.ask k).registry.Barred i := by
  cases k with
  | runEvery delay =>
      simp only [asks, Option.ite_none_right_eq_some, Option.some.injEq, Job.register.injEq,
        and_true] at hk
      obtain ⟨hrun, rfl⟩ := hk
      change ((Ask.runEvery delay).effect c.isRunning c.registry).Barred _
      rw [Ask.effect, if_pos hrun]
      exact Registry.barred_create h delay
  | _ =>
      simp only [asks] at hk
      split at hk <;> cases hk

theorem bars_step (h : c.Bars) (hs : c.step P l = .ok c') : c'.Bars where
  sound := sound_step h.sound hs
  every i delay hi := by
    rcases every_step h.sound hs hi with hold | hnew
    · exact barred_step h.sound hs (h.every i delay hold)
    · exact hnew
  jobs i hi := by
    rcases List.mem_append.mp ((jobs_step hs).subset hi) with hnew | hold
    · cases l with
      | ask k =>
          cases hs
          exact barred_asks h.sound.registered (Option.mem_toList.mp hnew)
      | queue inThread => cases List.mem_singleton.mp hnew
      | _ => cases hnew
    · exact barred_step h.sound hs (h.jobs i hold)

theorem bars_of_run (hrun : run (step P) (init s) ls = .ok c) : c.Bars :=
  invariant_of_step Bars (fun _ _ _ h hs => bars_step h hs)
    ⟨sound_init s, fun _ _ hi => (by cases hi), fun _ hi => (by cases hi)⟩ hrun

/-! ## What should hold -/

/-- The delay of the timer of `RunEvery` a task registers. -/
def every (c : Cycle) : Job → Option ℤ
  | .register id true => c.history.every id
  | _ => none

/-- The delay of the timer of `RunEvery` whose registration a step runs: in the call itself on
the cycle thread, as a task otherwise. -/
def runsEvery (c : Cycle) : CycleLabel → Option ℤ
  | .call (.runEvery delay _) => if c.inUserCode && c.isRunning then some delay else none
  | .start _ _ =>
    match c.frame, c.loop.phase, c.loop.functions with
    | none, .calling _, q :: _ => c.every q.task
    | _, _, _ => none
  | _ => none

/-- Whether `HandleEvent` of the event of an id leads to a callback of the user. -/
def hasCallback (c : Cycle) (id : ℕ) : Bool :=
  (c.registry.events id).any fun p => (c.registry.object p).event.handleEvent

/-- The id whose turn in `NotifyTimer` ends with a step. -/
def turns (P : Top TimerPriority) (c : Cycle) : CycleLabel → Option ℕ
  | .notifyTimer => ((c.due P).map TimerElem.id).filter fun id => !c.hasCallback id
  | .finish =>
    match c.frame with
    | some (.timer id) => some id
    | _ => none
  | _ => none

/-- The entries of an id in the timeout queue. -/
def entries (c : Cycle) (id : ℕ) : List TimerElem := c.registry.ptimer.filter (·.id = id)

/-- What should hold of every timer of `RunEvery` with a positive delay. -/
structure Periodic (P : Top TimerPriority) (s : Setup) (ls : List CycleLabel) : Prop where
  /-- It is registered without a failed assertion. -/
  registers : ∀ ks l c delay, ks ++ [l] <+: ls → run (step P) (init s) ks = .ok c →
    c.runsEvery l = some delay → 0 < delay → ∃ c', c.step P l = .ok c'
  /-- The registered timer has a timeout, after the delay. -/
  keeps : ∀ ks c i delay p, ks <+: ls → run (step P) (init s) ks = .ok c →
    c.history.every i = some delay → 0 < delay → c.registry.events i = some p →
    (c.registry.object p).event.events.timeout = true ∧
      (c.registry.object p).event.timeval = delay
  /-- When it has been dispatched, and until it is dispatched again or taken out, it has
  exactly one entry in the queue, a delay later. -/
  rearms : ∀ ks l ms c c' m i delay, ks ++ l :: ms <+: ls → run (step P) (init s) ks = .ok c →
    c.step P l = .ok c' → run (step P) c' ms = .ok m → c.turns P l = some i →
    (c.registry.events i).isSome → c.history.every i = some delay → 0 < delay →
    (m.registry.events i).isSome ∨ ms = [] →
    m.history.dispatched.count i = c'.history.dispatched.count i →
    m.entries i = [⟨i, c.reactorTime + delay⟩]

/-- No registration of a timer of `RunEvery` with a positive delay is run. -/
def NoneEvery (c : Cycle) (l : CycleLabel) : Prop :=
  ∀ delay, c.runsEvery l = some delay → ¬ 0 < delay

theorem every_of_runsEvery {q : Queued Job} {functions : List (Queued Job)} {accepted : Bool}
    {now delay : ℤ} (hq : c.loop.functions = q :: functions)
    (hr : c.runsEvery (.start accepted now) = some delay) : c.every q.task = some delay := by
  rw [runsEvery] at hr
  split at hr
  · next _ hq' =>
      rw [hq] at hq'
      cases hq'
      exact hr
  · cases hr

/-- The registration of a timer of `RunEvery` fails. -/
theorem not_step_of_runsEvery (h : c.Bars) {delay : ℤ} (hr : c.runsEvery l = some delay) :
    c.step P l ≠ .ok c' := by
  intro hs
  have ho := c.step_outcome P l
  generalize c.step P l = x at ho hs
  cases ho with
  | stopped => cases hs
  | @startJob accepted now q functions loop hf hq hj hl =>
      obtain ⟨r, hx, rfl⟩ := work_eq_ok hs
      have hmem := mem_jobs_of_functions hq
      have he := every_of_runsEvery hq hr
      generalize q.task = job at he hx hmem
      cases job with
      | register id isPersist =>
          cases isPersist with
          | true => exact (h.jobs id hmem).not_register now hx
          | false => cases he
      | _ => cases he
  | startUser hf hq hj hl =>
      have he := every_of_runsEvery hq hr
      rw [hj] at he
      cases he
  | @call k hu =>
      obtain ⟨r, hx, rfl⟩ := work_eq_ok hs
      cases k with
      | runEvery delay now =>
          simp only [runsEvery, Option.ite_none_right_eq_some, Bool.and_eq_true] at hr
          rw [Call.effect, if_pos hr.1.2] at hx
          exact absurd hx ((Registry.barred_create h.sound.registered delay).not_register now)
      | _ => cases hr
  | @quiet l move loop hq hl => cases l <;> first | cases hr | cases hq
  | _ => cases hr

/-- **Periodic timers work in exactly the runs that register none.** -/
theorem periodic_iff_noneEvery (P : Top TimerPriority) (s : Setup) (ls : List CycleLabel) :
    Periodic P s ls ↔ Meets (step P) NoneEvery (init s) ls := by
  constructor
  · intro hper
    by_contra hm
    obtain ⟨ks, l, c, hpre, hks, hbad⟩ := exists_of_not_meets hm
    simp only [NoneEvery, not_forall, not_not] at hbad
    obtain ⟨delay, hr, hpos⟩ := hbad
    obtain ⟨c', hs⟩ := hper.registers ks l c delay hpre hks hr hpos
    exact not_step_of_runsEvery (bars_of_run hks) hr hs
  · intro hm
    constructor
    · intro ks l c delay hpre hks hr hpos
      exact absurd hpos (hm.cond_of_run hpre hks delay hr)
    · intro ks c i delay p hks hrun hi hpos he
      rw [((bars_of_run hrun).every i delay hi).free] at he
      cases he
    · intro ks l ms c c' m i delay hpre hks hs hms hturn hsome hi
      rw [((bars_of_run hks).every i delay hi).free] at hsome
      cases hsome

/-- A task calls `RunEvery` with a delay of 10 on the running cycle. -/
def everyRun : List CycleLabel :=
  [.queue true, .exec true 0, .again, .poll 1 [], .swap, .start true 1, .call (.runEvery 10 2)]

/-- The assertion of the registration fails. -/
theorem everyRun_fails :
    ¬ Periodic (Top.ofKey TimerElem.stamp) .readers everyRun ∧
      run (step (Top.ofKey TimerElem.stamp)) (init .readers) everyRun =
        .error (.assertion .timerTimeout) := by
  have herror : run (step (Top.ofKey TimerElem.stamp)) (init .readers) everyRun =
      .error (.assertion .timerTimeout) := stopped_eq_some.mp (by decide +kernel)
  refine ⟨fun hper => ?_, herror⟩
  have hbefore := map_eq_ok (f := fun c => c.runsEvery (.call (.runEvery 10 2)))
    (r := run (step (Top.ofKey TimerElem.stamp)) (init .readers) everyRun.dropLast)
    (b := some 10) (by decide +kernel)
  obtain ⟨c, hks, hr⟩ := hbefore
  obtain ⟨c', hs⟩ := hper.registers everyRun.dropLast (.call (.runEvery 10 2)) c 10
    (List.prefix_refl _) hks hr (by decide)
  exact not_step_of_runsEvery (bars_of_run hks) hr hs

end Cycle

end Hare.Io
