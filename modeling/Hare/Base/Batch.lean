import Hare.Base.Consistent

/-!
# The walk over the active events

`Exec` walks over the list `Poll` has left in `active_events_`.  The list is a snapshot: it is
made when `Poll` returns, and the walk asks no more whether an event is still registered.
Whether it calls `HandleEvent` of an event that has been taken out since therefore depends on
what the callbacks do, and on nothing else.
-/

namespace Hare.Io

open LabelledRun PriorityQueue

/-- The steps of the loop by which the cycle thread gets somewhere else. -/
def LoopLabel.moves {τ : Type*} : LoopLabel τ → Bool
  | .exec | .pollReturn _ | .readNotify | .swap | .start | .loop => true
  | _ => false

theorem Loop.Step.phase_eq {τ : Type*} {s s' : Loop τ} {l : LoopLabel τ} (hs : s.Step l s')
    (hl : l.moves = false) : s'.phase = s.phase := by
  cases hs with
  | exec | pollReturn | readNotify | swap | start | loop => cases hl
  | _ => rfl

/-! ## Events that are taken out -/

namespace Registry

variable {r r' : Registry} {p q : EventPtr}

theorem mem_lost (h : r.Registered) :
    q ∈ r.lost r' ↔ ∃ id, r.events id = some q ∧ r'.events id ≠ some q := by
  simp only [lost, List.mem_filterMap, List.mem_range, Option.ite_none_left_eq_some]
  constructor
  · rintro ⟨id, -, hne, he⟩
    exact ⟨id, he, fun he' => hne (he'.trans he.symm)⟩
  · rintro ⟨id, he, hne⟩
    exact ⟨id, h.lt he, fun heq => hne (heq.trans he), he⟩

section Taken
variable {id : ℕ} {S : Scope} {x : Except Assertion Registry} (h : r.Registered)
  (he : r.events id = some q) (hne : r'.events id ≠ some q)
include h he hne

/-- An event that is gone may be taken out. -/
theorem taken_of_works (hx : Works S r x) (hok : x = .ok r') : S.takes q := by
  subst hok
  exact (Moves.kept hx h he).resolve_left hne

theorem taken_of_afterEvent (hok : r.afterEvent p = .ok r') : q = p :=
  taken_of_works h he hne (works_afterEvent (S := ⟨(· = p), fun _ => True⟩) h p rfl) hok

/-- A call takes out the event it removes, or an event without a descriptor. -/
theorem taken_of_call {running : Bool} {k : Call} (hok : k.effect running r = .ok r') :
    (∃ n, k = .remove n ∧ q = .user n) ∨ r.fd q < 0 :=
  taken_of_works h he hne
    (works_call (S := ⟨fun e => (∃ n, k = .remove n ∧ e = .user n) ∨ r.fd e < 0, fun _ => True⟩)
      h running k (fun n hk => .inl ⟨n, hk, rfl⟩) (fun _ => .inr) fun _ => trivial) hok

end Taken

/-- What follows a callback does not fail. -/
theorem exists_afterEvent (h : r.Registered) (p : EventPtr) : ∃ r', r.afterEvent p = .ok r' := by
  rw [afterEvent]
  split
  · exact ⟨r, rfl⟩
  · have hcase := callRemove_cases (p := p) h
    generalize r.callRemove p = x at hcase ⊢
    cases hcase with
    | absent hnot => exact ⟨r, rfl⟩
    | erased he => exact ⟨_, rfl⟩

end Registry

namespace Cycle

variable {P : Top TimerPriority} {c c' : Cycle} {l : CycleLabel} {s : Setup}
  {ls : List CycleLabel} {active : List EventPtr} {frame : Option Frame} {phase : Phase}

/-! ## The walk -/

/-- What holds of the events that wait, the code of the user that runs and the place of the
cycle thread. -/
structure Walk (active : List EventPtr) (frame : Option Frame) (phase : Phase) : Prop where
  nodup : active.Nodup
  /-- The event whose callback runs does not wait. -/
  current : ∀ p, frame = some (.event p) → p ∉ active
  /-- Events wait only between `Poll` and `NotifyTimer`. -/
  walking : active ≠ [] → ∃ unread, phase = .handling unread
  unread : .notify ∈ active → phase = .handling true
  handler : active ≠ [] → ∀ id, frame ≠ some (.timer id)
  framed : phase = .idle ∨ phase = .polling → frame = none

namespace Walk

theorem of_nil (hf : phase = .idle ∨ phase = .polling → frame = none) : Walk [] frame phase where
  nodup := List.nodup_nil
  current _ _ := List.not_mem_nil
  walking h := absurd rfl h
  unread h := by cases h
  handler h := absurd rfl h
  framed := hf

variable (h : Walk active frame phase)
include h

theorem eq_nil (hp : ∀ unread, phase ≠ .handling unread) : active = [] := by
  by_contra hne
  obtain ⟨unread, heq⟩ := h.walking hne
  exact hp unread heq

theorem finish : Walk active none phase where
  nodup := h.nodup
  current _ hf := by cases hf
  walking := h.walking
  unread := h.unread
  handler _ _ hf := by cases hf
  framed _ := rfl

end Walk

/-- The next event is handled. -/
theorem Walk.handle {p : EventPtr} (h : Walk (p :: active) none phase) :
    Walk active (some (.event p)) phase where
  nodup := h.nodup.of_cons
  current q hf := by
    cases hf
    exact (List.nodup_cons.mp h.nodup).1
  walking _ := h.walking (List.cons_ne_nil _ _)
  unread hn := h.unread (List.mem_cons_of_mem _ hn)
  handler _ _ hf := by cases hf
  framed hp := by
    obtain ⟨unread, rfl⟩ := h.walking (List.cons_ne_nil _ _)
    rcases hp with hp | hp <;> cases hp

/-- The notify event is handled. -/
theorem Walk.readNotify (h : Walk (.notify :: active) none phase) :
    Walk active none (.handling false) where
  nodup := h.nodup.of_cons
  current _ hf := by cases hf
  walking _ := ⟨false, rfl⟩
  unread hn := absurd hn (List.nodup_cons.mp h.nodup).1
  handler _ _ hf := by cases hf
  framed _ := rfl

/-- What holds of the walk of a cycle. -/
def Walks (c : Cycle) : Prop := Walk c.active c.frame c.loop.phase

theorem walks_of_work {x : Except Assertion Registry} (h : c.Walks) (hs : c.work x = .ok c') :
    c'.Walks := by
  obtain ⟨r, -, rfl⟩ := work_eq_ok hs
  exact h

theorem walks_init (s : Setup) : (init s).Walks := .of_nil fun _ => rfl

/-- A move of the loop away from the walk. -/
theorem Walks.move {move : LoopLabel Job} {loop : Loop Job} (h : c.Walks)
    (hl : c.loop.Step move loop) (hm : move.moves = false) : { c with loop }.Walks := by
  have hp := hl.phase_eq hm
  rw [Walks]
  dsimp only
  rw [hp]
  exact h

theorem moves_quiet {move : LoopLabel Job} (hq : l.quiet = some move) : move.moves = false := by
  cases l with
  | queue inThread => cases hq; rfl
  | notify id =>
      cases id with
      | none => cases hq; rfl
      | some id => cases hq
  | exit inThread => cases hq; rfl
  | notifyExit => cases hq; rfl
  | _ => cases hq

/-- No event waits outside the walk. -/
theorem Walks.active_of_idle (h : c.Walks) (hp : c.loop.phase = .idle) : c.active = [] :=
  h.eq_nil fun b hb => by rw [hp] at hb; cases hb

theorem Walks.active_of_calling (h : c.Walks) (hp : ∃ running, c.loop.phase = .calling running) :
    c.active = [] := by
  obtain ⟨running, hp⟩ := hp
  exact h.eq_nil fun b hb => by rw [hp] at hb; cases hb

/-- Every step keeps what holds of the walk. -/
theorem walks_step (h : c.Walks) (hs : c.step P l = .ok c') : c'.Walks := by
  have ho := c.step_outcome P l
  generalize c.step P l = x at ho hs
  cases ho with
  | stopped | fill | dangling => cases hs
  | exec hl =>
      obtain ⟨hp, -⟩ := hl.exec_phase
      refine walks_of_work ?_ hs
      rw [Walks, h.active_of_idle hp, h.framed (.inl hp)]
      exact .of_nil fun _ => rfl
  | poll hnd hk hfind hl =>
      cases hs
      obtain ⟨hp, hp'⟩ := hl.pollReturn_phase
      rw [Walks, h.framed (.inr hp)]
      exact
        { nodup := hnd
          current := fun _ hf => by cases hf
          walking := fun _ => ⟨_, hp'⟩
          unread := fun hn => by rw [hp', List.contains_iff_mem.mpr hn]
          handler := fun _ _ hf => by cases hf
          framed := fun _ => rfl }
  | handle ha hf hp =>
      cases hs
      rw [Walks, ha, hf] at h
      exact h.handle
  | handled ha hf hp =>
      rw [Walks, ha, hf] at h
      refine walks_of_work ?_ hs
      rw [Walks, hf]
      exact h.handle.finish
  | readNotify ha hf hl =>
      rw [Walks, ha, hf] at h
      refine walks_of_work ?_ hs
      rw [Walks, hf, hl.readNotify_phase]
      exact h.readNotify
  | finishEvent | finishTimer =>
      refine walks_of_work ?_ hs
      exact h.finish
  | finishTask => cases hs; exact h.finish
  | fire hp ha hf hd he =>
      cases hs
      rw [Walks, ha, hp]
      exact .of_nil fun hp => by rcases hp with hp | hp <;> cases hp
  | fired | call =>
      refine walks_of_work ?_ hs
      exact h
  | swap ha hf hl =>
      cases hs
      rw [Walks, ha, hf]
      exact .of_nil fun _ => rfl
  | startUser hf hq hj hl =>
      cases hs
      obtain ⟨hp, hp'⟩ := hl.start_phase
      rw [Walks, h.active_of_calling hp, hp']
      exact .of_nil fun hp => by rcases hp with hp | hp <;> cases hp
  | startJob hf hq hj hl =>
      refine walks_of_work ?_ hs
      rw [Walks, h.active_of_calling hl.start_phase.1, hf]
      exact .of_nil fun _ => rfl
  | again hf hq hl =>
      cases hs
      rw [Walks, h.active_of_calling hl.loop_phase.1, hf]
      exact .of_nil fun _ => rfl
  | leave hf hl =>
      refine walks_of_work ?_ hs
      rw [Walks, hf]
      exact .of_nil fun _ => rfl
  | push hj hl => cases hs; exact h.move hl rfl
  | returns hid hl => cases hs; exact h.move hl rfl
  | quiet hq hl => cases hs; exact h.move hl (moves_quiet hq)
  | skip | ask => cases hs; exact h

/-- Events wait when the kernel has reported them. -/
theorem active_step (hs : c.step P l = .ok c') :
    (∀ p ∈ c'.active, p ∈ c.active) ∨ ∃ time, l = .poll time c'.active ∧ c'.removed = [] ∧
      ∀ p ∈ c'.active, c.registry.epoll (c.registry.fd p) = some p := by
  have ho := c.step_outcome P l
  generalize c.step P l = x at ho hs
  cases ho with
  | stopped | fill | dangling => cases hs
  | poll hnd hk hfind hl => cases hs; exact .inr ⟨_, rfl, rfl, hk⟩
  | handle ha =>
      cases hs
      exact .inl fun _ hp => ha ▸ List.mem_cons_of_mem _ hp
  | handled ha | readNotify ha =>
      obtain ⟨r, -, rfl⟩ := work_eq_ok hs
      exact .inl fun _ hp => ha ▸ List.mem_cons_of_mem _ hp
  | leave =>
      obtain ⟨r, -, rfl⟩ := work_eq_ok hs
      exact .inl fun _ hp => by cases hp
  | exec | finishEvent | finishTimer | fired | startJob | call =>
      obtain ⟨r, -, rfl⟩ := work_eq_ok hs
      exact .inl fun _ hp => hp
  | _ => cases hs; exact .inl fun _ hp => hp

/-- The events that wait have descriptors and are no timers. -/
def Watched (c : Cycle) : Prop :=
  ∀ p ∈ c.active, 0 ≤ c.registry.fd p ∧ p.isTimer = false

theorem watched_step (h : c.Sound) (hw : c.Watched) (hs : c.step P l = .ok c') : c'.Watched := by
  intro p hp
  rw [fd_step h hs]
  rcases active_step hs with hsub | ⟨time, -, -, hk⟩
  · exact hw p (hsub p hp)
  · exact h.registered.watched (hk p hp)

theorem lost_self (r : Registry) : r.lost r = [] := by
  simp [Registry.lost]

/-- The events taken out since `Poll` returned are recorded. -/
theorem removed_step (hs : c.step P l = .ok c') :
    (∃ time, l = .poll time c'.active ∧ c'.removed = []) ∨
      c'.removed = c.removed ++ c.registry.lost c'.registry := by
  have ho := c.step_outcome P l
  generalize c.step P l = x at ho hs
  cases ho with
  | stopped | fill | dangling => cases hs
  | poll => cases hs; exact .inl ⟨_, rfl, rfl⟩
  | exec | handled | readNotify | finishEvent | finishTimer | fired | startJob | leave | call =>
      obtain ⟨r, -, rfl⟩ := work_eq_ok hs
      exact .inr rfl
  | skip | ask => cases hs; exact .inr rfl
  | _ => cases hs; exact .inr (by simp [lost_self])

/-- A step that takes out an event that waits is a call that removes it. -/
theorem remove_of_lost (h : c.Sound) (hw : c.Walks) (hd : c.Watched) (hs : c.step P l = .ok c')
    {id : ℕ} {q : EventPtr} (he : c.registry.events id = some q)
    (hne : c'.registry.events id ≠ some q) (hq : q ∈ c'.active) :
    ∃ n, l = .call (.remove n) ∧ q = .user n := by
  have hr := h.registered
  have ho := c.step_outcome P l
  generalize c.step P l = x at ho hs
  cases ho with
  | stopped | fill | dangling => cases hs
  | exec hl =>
      obtain ⟨r, -, rfl⟩ := work_eq_ok hs
      change q ∈ c.active at hq
      rw [hw.active_of_idle hl.exec_phase.1] at hq
      cases hq
  | handled ha | readNotify ha =>
      obtain ⟨r, hx, rfl⟩ := work_eq_ok hs
      rw [Registry.taken_of_afterEvent hr he hne hx] at hq
      rw [Walks, ha] at hw
      exact absurd hq (List.nodup_cons.mp hw.nodup).1
  | finishEvent hf =>
      obtain ⟨r, hx, rfl⟩ := work_eq_ok hs
      rw [Registry.taken_of_afterEvent hr he hne hx] at hq
      exact absurd hq (hw.current _ hf)
  | finishTimer hf =>
      obtain ⟨r, -, rfl⟩ := work_eq_ok hs
      exact absurd hf (hw.handler (List.ne_nil_of_mem hq) _)
  | fired hp ha =>
      obtain ⟨r, -, rfl⟩ := work_eq_ok hs
      change q ∈ c.active at hq
      rw [ha] at hq
      cases hq
  | startJob hf hfun hj hl =>
      obtain ⟨r, -, rfl⟩ := work_eq_ok hs
      change q ∈ c.active at hq
      rw [hw.active_of_calling hl.start_phase.1] at hq
      cases hq
  | leave =>
      obtain ⟨r, -, rfl⟩ := work_eq_ok hs
      cases hq
  | @call k hu =>
      obtain ⟨r, hx, rfl⟩ := work_eq_ok hs
      rcases Registry.taken_of_call hr he hne hx with ⟨n, rfl, rfl⟩ | hneg
      · exact ⟨n, rfl, rfl⟩
      · exact absurd (hd q hq).1 (not_le.mpr hneg)
  | @ask k =>
      cases hs
      change (k.effect c.isRunning c.registry).events id ≠ some q at hne
      rw [events_ask] at hne
      exact absurd he hne
  | _ => cases hs; exact absurd he hne

/-! ## Events that are removed while they wait -/

/-- The event whose `HandleEvent` the walk calls next. -/
def handles (c : Cycle) : Option EventPtr :=
  if c.frame = none then c.active.head? else none

/-- A step of the walk in which the code of the user does nothing. -/
def walkOnly (l : CycleLabel) : Bool := l = .dispatch || l = .finish

/-- The walk handles no event that has been removed since `Poll` returned: whatever has
happened up to some point, and if the callbacks do nothing from there on. -/
def SparesRemoved (P : Top TimerPriority) (s : Setup) (ls : List CycleLabel) : Prop :=
  ∀ ks own c p, ks <+: ls → own.all walkOnly = true →
    run (step P) (init s) (ks ++ own) = .ok c → c.handles = some p → p ∉ c.removed

/-- No callback removes an event that waits. -/
def Considerate (c : Cycle) (l : CycleLabel) : Prop :=
  ∀ n, l = .call (.remove n) → c.inUserCode = true → c.registry.mayRemove (.user n) = true →
    .user n ∉ c.active

/-- What holds along considerate runs. -/
structure Spared (c : Cycle) : Prop where
  sound : c.Sound
  walks : c.Walks
  watched : c.Watched
  apart : ∀ p ∈ c.active, p ∉ c.removed

theorem mem_handles {p : EventPtr} (hp : c.handles = some p) : p ∈ c.active := by
  rw [handles] at hp
  split at hp
  · exact List.mem_of_head? hp
  · cases hp

theorem inUserCode_of_call {k : Call} (hs : c.step P (.call k) = .ok c') :
    c.inUserCode = true := by
  rw [step] at hs
  split at hs
  · assumption
  · cases hs

theorem spared_step (h : c.Spared) (hc : Considerate c l) (hs : c.step P l = .ok c') :
    c'.Spared where
  sound := sound_step h.sound hs
  walks := walks_step h.walks hs
  watched := watched_step h.sound h.watched hs
  apart p hp := by
    rcases removed_step hs with ⟨time, -, hnil⟩ | hrem
    · rw [hnil]
      exact List.not_mem_nil
    · rw [hrem, List.mem_append, not_or]
      rcases active_step hs with hsub | ⟨time, -, hnil, -⟩
      · refine ⟨h.apart p (hsub p hp), fun hlost => ?_⟩
        obtain ⟨id, he, hne⟩ := (Registry.mem_lost h.sound.registered).mp hlost
        obtain ⟨n, rfl, rfl⟩ := remove_of_lost h.sound h.walks h.watched hs he hne hp
        refine hc n rfl (inUserCode_of_call hs) ?_ (hsub _ hp)
        obtain ⟨hid, hcycle⟩ := h.sound.registered.own he
        rw [Registry.mayRemove, hid, hcycle]
        rfl
      · rw [hrem] at hnil
        obtain ⟨hl, hr⟩ := List.append_eq_nil_iff.mp hnil
        rw [hl, hr]
        exact ⟨List.not_mem_nil, List.not_mem_nil⟩

theorem spared_init (s : Setup) : (init s).Spared :=
  ⟨sound_init s, walks_init s, fun _ hp => (by cases hp), fun _ hp => (by cases hp)⟩

theorem considerate_of_walkOnly (hl : walkOnly l = true) : Considerate c l := by
  rintro n rfl
  cases hl

theorem exists_work {x : Except Assertion Registry} (hx : ∃ r, x = .ok r) (c : Cycle) :
    ∃ c', c.work x = .ok c' ∧ c'.frame = c.frame ∧ c'.active = c.active ∧
      c.removed ⊆ c'.removed := by
  obtain ⟨r, rfl⟩ := hx
  exact ⟨c.setRegistry r, rfl, rfl, rfl, List.subset_append_left _ _⟩

/-- The code of the user returns, if any runs. -/
theorem exists_finish (h : c.Sound) (hw : c.Walks) (hne : c.active ≠ []) :
    ∃ own c', own.all walkOnly = true ∧ run (step P) c own = .ok c' ∧ c'.frame = none ∧
      c'.active = c.active ∧ c.removed ⊆ c'.removed := by
  cases hf : c.frame with
  | none => exact ⟨[], c, rfl, rfl, hf, rfl, fun _ hp => hp⟩
  | some f =>
      have hstep : ∃ c', c.step P .finish = .ok c' ∧ c'.frame = none ∧ c'.active = c.active ∧
          c.removed ⊆ c'.removed := by
        rw [step, finish, hf]
        cases f with
        | event p => exact exists_work (Registry.exists_afterEvent h.registered p) _
        | timer id => exact absurd hf (hw.handler hne id)
        | task => exact ⟨_, rfl, rfl, rfl, fun _ hp => hp⟩
      obtain ⟨c', hs, hrest⟩ := hstep
      exact ⟨[.finish], c', rfl, run_cons_ok hs, hrest⟩

/-- The walk takes its next turn. -/
theorem exists_dispatch (h : c.Sound) (hw : c.Walks) (hf : c.frame = none) {p : EventPtr}
    (ha : c.active = p :: active) :
    ∃ c', c.step P .dispatch = .ok c' ∧ c'.active = active ∧ c.removed ⊆ c'.removed := by
  obtain hafter := Registry.exists_afterEvent h.registered p
  simp only [step, dispatch, ha, hf]
  split
  · next hp =>
      subst hp
      have hread : c.loop.step .readNotify =
          .ok { c.loop with phase := .handling false, counter := 0 } := by
        have hunread := hw.unread (by rw [ha]; exact List.mem_cons_self)
        simp only [Loop.step, hunread]
      simp only [advance, hread, ok_bind]
      obtain ⟨c', hs, -, hactive, hremoved⟩ := exists_work hafter _
      exact ⟨c', hs, hactive, hremoved⟩
  · split
    · exact ⟨_, rfl, rfl, fun _ hp => hp⟩
    · obtain ⟨c', hs, -, hactive, hremoved⟩ := exists_work hafter _
      exact ⟨c', hs, hactive, hremoved⟩

/-- The walk comes to every event that waits, when the callbacks do nothing. -/
theorem exists_handles (h : c.Sound) (hw : c.Walks) {as bs : List EventPtr} {p : EventPtr}
    (ha : c.active = as ++ p :: bs) :
    ∃ own c', own.all walkOnly = true ∧ run (step P) c own = .ok c' ∧ c'.handles = some p ∧
      c.removed ⊆ c'.removed := by
  induction as generalizing c with
  | nil =>
      obtain ⟨own, c', hown, hrun, hf, hactive, hremoved⟩ :=
        exists_finish h hw (by rw [ha]; exact List.cons_ne_nil _ _)
      refine ⟨own, c', hown, hrun, ?_, hremoved⟩
      rw [handles, if_pos hf, hactive, ha]
      rfl
  | cons a as ih =>
      obtain ⟨own, c₁, hown, hrun, hf, hactive, hremoved⟩ :=
        exists_finish (P := P) h hw (by rw [ha]; exact List.cons_ne_nil _ _)
      have h₁ : c₁.Sound := invariant_of_step Sound (fun _ _ _ h hs => sound_step h hs) h hrun
      have hw₁ : c₁.Walks := invariant_of_step Walks (fun _ _ _ h hs => walks_step h hs) hw hrun
      obtain ⟨c₂, hs, hactive₂, hremoved₂⟩ := exists_dispatch h₁ hw₁ hf (hactive.trans ha)
      obtain ⟨own₂, c', hown₂, hrun₂, hp, hremoved'⟩ :=
        ih (sound_step h₁ hs) (walks_step hw₁ hs) hactive₂
      refine ⟨own ++ .dispatch :: own₂, c', ?_, ?_, hp,
        fun q hq => hremoved' (hremoved₂ (hremoved hq))⟩
      · rw [List.all_append, List.all_cons, hown, hown₂]
        rfl
      · rw [run_append hrun, run_cons_ok hs, hrun₂]

/-- A call that removes an event that waits. -/
theorem exists_remove (h : c.Sound) {n : ℕ} (hu : c.inUserCode = true)
    (hmay : c.registry.mayRemove (.user n) = true) :
    ∃ c', c.step P (.call (.remove n)) = .ok c' ∧ c'.active = c.active ∧ .user n ∈ c'.removed := by
  obtain ⟨hcycle, -⟩ := Bool.and_eq_true_iff.mp hmay
  obtain ⟨i, hi⟩ := h.registered.mem (beq_iff_eq.mp hcycle)
  have hcase := Registry.callRemove_cases (p := .user n) h.registered
  simp only [step, if_pos hu, Call.effect]
  generalize c.registry.callRemove (.user n) = x at hcase ⊢
  cases hcase with
  | absent hnot => exact absurd hi (hnot i)
  | @erased j hj =>
      refine ⟨_, rfl, rfl, List.mem_append_right _ ?_⟩
      refine (Registry.mem_lost h.registered).mpr ⟨j, hj, ?_⟩
      rw [Registry.events_erase, if_pos rfl]
      exact fun hn => by cases hn

/-- **The walk handles a removed event exactly when a callback removes one that waits.** -/
theorem sparesRemoved_iff_considerate (P : Top TimerPriority) (s : Setup)
    (ls : List CycleLabel) :
    SparesRemoved P s ls ↔ Meets (step P) Considerate (init s) ls := by
  constructor
  · intro hspares
    by_contra hm
    obtain ⟨ks, l, c, hpre, hks, hbad⟩ := exists_of_not_meets hm
    simp only [Considerate, not_forall, not_not] at hbad
    obtain ⟨n, rfl, hu, hmay, hn⟩ := hbad
    have h : c.Sound := sound_of_run hks
    have hw : c.Walks :=
      invariant_of_step Walks (fun _ _ _ h hs => walks_step h hs) (walks_init s) hks
    obtain ⟨c', hs, hactive, hremoved⟩ := exists_remove (P := P) h hu hmay
    obtain ⟨as, bs, has⟩ := List.append_of_mem hn
    obtain ⟨own, m, hown, hrun, hp, hsub⟩ :=
      exists_handles (sound_step h hs) (walks_step hw hs) (hactive.trans has)
    refine hspares _ own m (.user n) hpre hown ?_ hp (hsub hremoved)
    rw [List.append_assoc, run_append hks, List.singleton_append, run_cons_ok hs, hrun]
  · intro hm ks own c p hks hown hrun hp
    obtain ⟨m, hrun₁, hrun₂⟩ := run_append_eq_ok hrun
    have hspared : m.Spared := invariant Spared (fun _ _ _ h hc hs => spared_step h hc hs)
      (spared_init s) (hm.of_isPrefix hks) hrun₁
    have hmeets : Meets (step P) Considerate m own :=
      meets_of_labels fun l hl _ => considerate_of_walkOnly (List.all_eq_true.mp hown l hl)
    have hlast : c.Spared := invariant Spared (fun _ _ _ h hc hs => spared_step h hc hs)
      hspared hmeets hrun₂
    exact hlast.apart p (mem_handles hp)

/-- Two events become readable at once, and the callback of the first removes the second. -/
def removingRun : List CycleLabel :=
  [.call (.tie 0 true), .call (.tie 1 true), .call (.update 0 true 0), .call (.update 1 true 0),
    .exec true 1, .again, .poll 2 [.user 0, .user 1], .dispatch, .call (.remove 1), .finish]

/-- The second event has been taken out, and the walk calls its `HandleEvent` and with it the
callback of the user. -/
theorem removingRun_handles_removed :
    ¬ SparesRemoved (Top.ofKey TimerElem.stamp) .readers removingRun ∧
      (∃ c, run (step (Top.ofKey TimerElem.stamp)) (init .readers) removingRun = .ok c ∧
        (c.registry.object (.user 1)).id = none ∧ .user 1 ∈ c.removed ∧
        c.handles = some (.user 1)) ∧
      ∃ c, run (step (Top.ofKey TimerElem.stamp)) (init .readers) (removingRun ++ [.dispatch]) =
        .ok c ∧ c.frame = some (.event (.user 1)) := by
  have hafter := map_eq_ok (f := fun c => ((c.registry.object (.user 1)).id, c.removed, c.handles))
    (r := run (step (Top.ofKey TimerElem.stamp)) (init .readers) removingRun)
    (b := (none, [.user 1], some (.user 1))) (by decide +kernel)
  have hcallback := map_eq_ok (f := fun c => c.frame)
    (r := run (step (Top.ofKey TimerElem.stamp)) (init .readers) (removingRun ++ [.dispatch]))
    (b := some (.event (.user 1))) (by decide +kernel)
  obtain ⟨c, hrun, hc⟩ := hafter
  simp only [Prod.mk.injEq] at hc
  obtain ⟨hid, hremoved, hp⟩ := hc
  have hmem : .user 1 ∈ c.removed := by rw [hremoved]; exact List.mem_singleton_self _
  refine ⟨fun hspares => ?_, ⟨c, hrun, hid, hmem, hp⟩, hcallback⟩
  exact hspares removingRun [] c (.user 1) (List.prefix_refl _) rfl (by rwa [List.append_nil]) hp
    hmem

end Cycle

end Hare.Io
