import Hare.Base.Cancel

/-!
# Entries of events that are gone

`Cancel` and `EventRemove` leave the entries of an event in the timeout queue, and an event that
is registered again gets a new id.  `NotifyTimer` finds the event of an entry by its id alone, so
what keeps an old entry from calling a new event is that an id is registered once: it is drawn
from a counter, and the only registration that comes after the draw is the one of the task that
`RunAfter` or `RunEvery` has queued, before which the id has no entry.
-/

namespace Hare.Io

open LabelledRun PriorityQueue

namespace Cycle

variable {P : Top TimerPriority} {c c' : Cycle} {l : CycleLabel} {s : Setup} {ls : List CycleLabel}
  {i : ℕ}

theorem ptimer_ask (r : Registry) (running : Bool) (k : Ask) :
    (k.effect running r).ptimer = r.ptimer := by
  cases k <;> simp only [Ask.effect] <;> split <;> rfl

/-- **Where entries come from**: the event of a new entry has been registered. -/
theorem entries_step (h : c.Sound) (hs : c.step P l = .ok c') {y : TimerElem}
    (hy : y ∈ c'.registry.ptimer) :
    y ∈ c.registry.ptimer ∨ ∃ r e, c.registry.Moves (c.scope l) r ∧
      r.eventId ≤ c'.registry.eventId ∧ r.events y.id = some e := by
  rcases registry_step h hs with ⟨-, r₁, -, heq, -⟩ | ⟨-, hm⟩
  · rw [heq] at hy
    cases hy
  · exact hm.entry hy

/-- Under an id that has been drawn, only a task registers. -/
theorem events_of_moves {r : Registry} (hm : c.registry.Moves (c.scope l) r)
    (hi : i < c.registry.eventId) :
    r.events i = c.registry.events i ∨ r.events i = none ∨ c.registration l = some i :=
  (hm.events_cases hi).imp_right (Or.imp_right (Or.resolve_left · fun h => hi.ne h.2))

/-- **Where registrations come from.** -/
theorem events_step (h : c.Sound) (hs : c.step P l = .ok c')
    (hi : i < c.registry.eventId) :
    c'.registry.events i = c.registry.events i ∨ c'.registry.events i = none ∨
      c.registration l = some i := by
  rcases registry_step h hs with ⟨-, r₁, -, heq, -⟩ | ⟨-, hm⟩
  · rw [heq]
    exact .inr (.inl rfl)
  · exact events_of_moves hm hi

/-! ## Registrations that are still to come -/

/-- The ids whose timer a task will register. -/
def awaited (c : Cycle) : List ℕ := c.jobs.filterMap Job.timer

/-- The task that registers a timer is not queued any more. -/
theorem awaited_of_registration (hs : c.step P l = .ok c')
    (hi : c.registration l = some i) : c.awaited.Perm (i :: c'.awaited) := by
  obtain ⟨accepted, now, q, functions, loop, hq, hi, hl, hwork⟩ := job_of_registration hs hi
  have hjobs : c'.jobs = c.asked ++ loop.waiting := by
    rw [jobs_of_work hwork]
    rfl
  have htasks : c.loop.waiting = q.task :: loop.waiting := hl.waiting_start hq
  have hperm : c.jobs.Perm (q.task :: c'.jobs) := by
    rw [hjobs, jobs, htasks]
    exact List.perm_middle
  have hmap := hperm.filterMap Job.timer
  rwa [List.filterMap_cons_some hi] at hmap

/-- The only registration a step brings about is that of the id a call on another thread draws. -/
theorem awaited_news (c : Cycle) (l : CycleLabel) :
    (c.news l).filterMap Job.timer = [] ∨
      (∃ k, l = .ask k) ∧ (c.news l).filterMap Job.timer = [c.registry.eventId] := by
  cases l with
  | ask k =>
      cases k with
      | runAfter delay | runEvery delay =>
          simp only [news, asks]
          split
          · exact .inr ⟨⟨_, rfl⟩, rfl⟩
          · exact .inl rfl
      | update n | remove n | cancel id =>
          simp only [news, asks]
          split <;> exact .inl rfl
  | _ => exact .inl rfl

theorem awaited_step (hs : c.step P l = .ok c') :
    c'.awaited.Subperm ((c.news l).filterMap Job.timer ++ c.awaited) := by
  obtain ⟨jobs, hperm, hsub⟩ := jobs_step hs
  have hsub := hsub.filterMap Job.timer
  rw [List.filterMap_append] at hsub
  exact ⟨jobs.filterMap Job.timer, hperm.filterMap Job.timer, hsub⟩

/-- How ids, entries and queued tasks are related. -/
structure Ordered (c : Cycle) : Prop where
  sound : c.Sound
  nodup : c.awaited.Nodup
  /-- A timer that is still to be registered has no event and no entry. -/
  unused : ∀ i ∈ c.awaited, c.registry.events i = none ∧ ∀ y ∈ c.registry.ptimer, y.id ≠ i
  entry_lt : ∀ y ∈ c.registry.ptimer, y.id < c.registry.eventId

theorem Ordered.awaited_lt (h : c.Ordered) (hi : i ∈ c.awaited) :
    i < c.registry.eventId := by
  obtain ⟨job, hjob, htimer⟩ := List.mem_filterMap.mp hi
  have hadm := h.sound.jobs job hjob
  cases job with
  | register id isPersist =>
      cases htimer
      exact hadm
  | _ => cases htimer

theorem ordered_init (s : Setup) : (init s).Ordered where
  sound := sound_init s
  nodup := List.nodup_nil
  unused i hi := by cases hi
  entry_lt y hy := by cases hy

/-- A step leaves an awaited id alone unless it is its registration. -/
theorem Ordered.mem_awaited (h : c.Ordered) (hs : c.step P l = .ok c')
    (hi : i ∈ c'.awaited) :
    (i ∈ c.awaited ∧ c.registration l ≠ some i) ∨ (i = c.registry.eventId ∧ ∃ k, l = .ask k) := by
  have hmem := (awaited_step hs).subset hi
  rcases awaited_news c l with hnil | ⟨hk, hnew⟩
  · rw [hnil, List.nil_append] at hmem
    refine .inl ⟨hmem, fun hreg => ?_⟩
    have hnodup := (awaited_of_registration hs hreg).nodup_iff.mp h.nodup
    exact (List.nodup_cons.mp hnodup).1 hi
  · rw [hnew, List.singleton_append] at hmem
    rcases List.mem_cons.mp hmem with heq | hold
    · exact .inr ⟨heq, hk⟩
    · obtain ⟨k, rfl⟩ := hk
      exact .inl ⟨hold, by simp [registration]⟩

/-- An id that is awaited after a step has no event. -/
theorem Ordered.events_awaited (h : c.Ordered) (hs : c.step P l = .ok c')
    (hi : i ∈ c'.awaited) : c'.registry.events i = none := by
  rcases h.mem_awaited hs hi with ⟨hold, hreg⟩ | ⟨rfl, k, rfl⟩
  · rcases events_step h.sound hs (h.awaited_lt hold) with hsame | hnone | hreg'
    · rw [hsame, (h.unused i hold).1]
    · exact hnone
    · exact absurd hreg' hreg
  · cases hs
    change (k.effect c.isRunning c.registry).events c.registry.eventId = none
    rw [events_ask, h.sound.registered.fresh]

theorem ordered_step (h : c.Ordered) (hs : c.step P l = .ok c') : c'.Ordered := by
  have hsound := sound_step h.sound hs
  refine ⟨hsound, ?_, fun i hi => ⟨h.events_awaited hs hi, fun y hy heq => ?_⟩, fun y hy => ?_⟩
  · -- the id that a call draws is not awaited yet
    obtain ⟨xs, hperm, hsub⟩ := awaited_step hs
    refine hperm.nodup_iff.mp (hsub.nodup ?_)
    rcases awaited_news c l with hnil | ⟨-, hnew⟩
    · rw [hnil]
      exact h.nodup
    · rw [hnew]
      exact List.nodup_cons.mpr ⟨fun hmem => (h.awaited_lt hmem).false, h.nodup⟩
  · rcases h.mem_awaited hs hi with ⟨hwait, hreg⟩ | ⟨hnew, k, rfl⟩
    · rcases entries_step h.sound hs hy with hold | ⟨r, e, hm, -, he⟩
      · exact (h.unused i hwait).2 y hold heq
      · rw [heq] at he
        rcases events_of_moves hm (h.awaited_lt hwait) with hsame | hnone | hreg'
        · rw [hsame, (h.unused i hwait).1] at he
          cases he
        · rw [hnone] at he
          cases he
        · exact hreg hreg'
    · cases hs
      change y ∈ (k.effect c.isRunning c.registry).ptimer at hy
      rw [ptimer_ask] at hy
      exact (h.entry_lt y hy).ne (heq.trans hnew)
  · rcases entries_step h.sound hs hy with hold | ⟨r, e, hm, hle, he⟩
    · exact (h.entry_lt y hold).trans_le (eventId_step h.sound hs)
    · exact ((h.sound.registered.moves hm).lt he).trans_le hle

theorem ordered_of_run (hrun : run (step P) (init s) ls = .ok c) : c.Ordered :=
  invariant_of_step Ordered (fun _ _ _ h hs => ordered_step h hs) (ordered_init s) hrun

/-! ## Ids that will not be registered again -/

/-- The id has been drawn, and no task is going to register a timer under it. -/
def Closed (c : Cycle) (i : ℕ) : Prop := i < c.registry.eventId ∧ i ∉ c.awaited

theorem Ordered.closed_of_entry (h : c.Ordered) {y : TimerElem} (hy : y ∈ c.registry.ptimer) :
    c.Closed y.id :=
  ⟨h.entry_lt y hy, fun hmem => (h.unused y.id hmem).2 y hy rfl⟩

theorem Closed.step (hc : c.Closed i) (h : c.Ordered) (hs : c.step P l = .ok c') :
    c'.Closed i := by
  refine ⟨hc.1.trans_le (eventId_step h.sound hs), fun hmem => ?_⟩
  rcases h.mem_awaited hs hmem with ⟨hold, -⟩ | ⟨hnew, -⟩
  · exact hc.2 hold
  · exact hc.1.ne hnew

/-- What is registered under a closed id after a step was registered before it. -/
theorem Closed.events_of_step (hc : c.Closed i) (h : c.Ordered) (hs : c.step P l = .ok c')
    {p : EventPtr} (he : c'.registry.events i = some p) : c.registry.events i = some p := by
  rcases events_step h.sound hs hc.1 with hsame | hnone | hreg
  · rwa [hsame] at he
  · rw [hnone] at he
    cases he
  · have hmem := (awaited_of_registration hs hreg).mem_iff.mpr List.mem_cons_self
    exact absurd hmem hc.2

theorem Closed.events_of_run (hc : c.Closed i) (h : c.Ordered)
    (hrun : run (Cycle.step P) c ls = .ok c') {p : EventPtr}
    (he : c'.registry.events i = some p) : c.registry.events i = some p := by
  induction ls generalizing c with
  | nil =>
      cases hrun
      exact he
  | cons l ls ih =>
      obtain ⟨m, hs, hrest⟩ := run_cons_eq_ok hrun
      exact hc.events_of_step h hs (ih (hc.step h hs) (ordered_step h hs) hrest)

theorem Closed.of_run (hc : c.Closed i) (h : c.Ordered)
    (hrun : run (Cycle.step P) c ls = .ok c') : c'.Closed i :=
  (invariant_of_step (fun c => c.Ordered ∧ c.Closed i)
    (fun _ _ _ h hs => ⟨ordered_step h.1 hs, h.2.step h.1 hs⟩) ⟨h, hc⟩ hrun).2

/-- **The event an entry calls is the one it was made for.**  Take any run, and let `NotifyTimer`
call `HandleEvent` of an event for the entry on top.  The event is registered under the id of the
entry and knows it; and from any earlier state on in which the queue held an entry with this id,
in particular from the one in which this entry was made, the event has been registered under it
all the time.  An entry whose id was free at some time is not the one that calls. -/
theorem same_registration (P : Top TimerPriority) (s : Setup) (before : List CycleLabel)
    (c : Cycle) (hbefore : run (step P) (init s) before = .ok c) (between : List CycleLabel)
    (c₁ : Cycle) (hbetween : run (step P) c between = .ok c₁) (after : List CycleLabel)
    (c' : Cycle) (hafter : run (step P) c₁ after = .ok c') (top : TimerElem)
    (hdue : c'.due P = some top) (p : EventPtr) (hcall : c'.calls P .notifyTimer = some p) :
    c'.registry.events top.id = some p ∧ (c'.registry.object p).id = some top.id ∧
      (c'.registry.object p).cycle = .this ∧
      ∀ y ∈ c.registry.ptimer,
        (y.id = top.id → c₁.registry.events top.id = some p) ∧
        (c₁.registry.events y.id = none → y.id ≠ top.id) := by
  have he : c'.registry.events top.id = some p := by
    simpa [calls, hdue] using hcall
  have h := ordered_of_run hbefore
  have h₁ : c₁.Ordered :=
    invariant_of_step Ordered (fun _ _ _ h hs => ordered_step h hs) h hbetween
  have h' : c'.Ordered :=
    invariant_of_step Ordered (fun _ _ _ h hs => ordered_step h hs) h₁ hafter
  obtain ⟨hid, hcycle⟩ := h'.sound.registered.own he
  refine ⟨he, hid, hcycle, fun y hy => ?_⟩
  have hsame : y.id = top.id → c₁.registry.events top.id = some p := by
    intro heq
    have hclosed : c₁.Closed top.id := heq ▸ (h.closed_of_entry hy).of_run h hbetween
    exact hclosed.events_of_run h₁ hafter he
  refine ⟨hsame, fun hnone heq => ?_⟩
  rw [heq, hsame heq] at hnone
  cases hnone

/-- The callback of an event registers two timers. -/
def twoTimers : List CycleLabel :=
  [.call (.tie 0 true), .call (.update 0 true 0), .exec true 1, .again, .poll 2 [.user 0],
    .dispatch, .call (.runAfter 5 3), .call (.runAfter 4 3)]

/-- The first timer is cancelled, and its entry is passed over.  The second one is called for the
entry that was made for it. -/
theorem same_registration_cancelled :
    ∃ c c₁ c', run (step (Top.ofKey TimerElem.stamp)) (init .readers) twoTimers = .ok c ∧
      run (step (Top.ofKey TimerElem.stamp)) c [.call (.cancel 2)] = .ok c₁ ∧
      run (step (Top.ofKey TimerElem.stamp)) c₁
        [.finish, .swap, .again, .poll 9 [], .notifyTimer] = .ok c' ∧
      c.registry.ptimer = [⟨2, 8⟩, ⟨3, 7⟩] ∧ c₁.registry.events 2 = none ∧
      c'.calls (Top.ofKey TimerElem.stamp) .notifyTimer = some (.timer 3) ∧
      c₁.registry.events 3 = some (.timer 3) := by
  obtain ⟨c, hc, hptimer⟩ := map_eq_ok (f := fun c => c.registry.ptimer)
    (r := run (step (Top.ofKey TimerElem.stamp)) (init .readers) twoTimers)
    (b := [⟨2, 8⟩, ⟨3, 7⟩]) (by decide +kernel)
  obtain ⟨c₁, hrun₁, hnone⟩ := map_eq_ok (f := fun c => c.registry.events 2)
    (r := run (step (Top.ofKey TimerElem.stamp)) (init .readers) (twoTimers ++ [.call (.cancel 2)]))
    (b := none) (by decide +kernel)
  obtain ⟨c', hrun', hlast⟩ := map_eq_ok
    (f := fun c => (c.due (Top.ofKey TimerElem.stamp),
      c.calls (Top.ofKey TimerElem.stamp) .notifyTimer))
    (r := run (step (Top.ofKey TimerElem.stamp)) (init .readers)
      (twoTimers ++ [.call (.cancel 2)] ++ [.finish, .swap, .again, .poll 9 [], .notifyTimer]))
    (b := (some ⟨3, 7⟩, some (.timer 3))) (by decide +kernel)
  obtain ⟨hdue, hcalls⟩ := Prod.mk.injEq .. ▸ hlast
  rw [run_append hrun₁] at hrun'
  rw [run_append hc] at hrun₁
  obtain ⟨-, -, -, hsame⟩ := same_registration _ _ _ c hc _ c₁ hrun₁ _ c' hrun' _ hdue _ hcalls
  exact ⟨c, c₁, c', hc, hrun₁, hrun', hptimer, hnone, hcalls,
    (hsame ⟨3, 7⟩ (by simp [hptimer])).1 rfl⟩

end Cycle

end Hare.Io
