import Hare.Base.Exec
import Mathlib.Data.List.Perm.Subperm

/-!
# What the steps of a cycle do to its registry

Every step short of the end of `Exec` makes moves on the registry, and the end of `Exec` takes
the notify event out and resets the others.  The tasks that are queued, or on their way to the
queue, stay admissible: their checks have been made when they were asked for, and what the
checks found does not change any more.
-/

namespace Hare.Io

open LabelledRun PriorityQueue

/-! ## The tasks that will run -/

section Tasks

variable {τ : Type*} {s s' : Loop τ} {l : LoopLabel τ}

/-- A step that queues a task adds it at the end. -/
theorem Loop.Step.waiting_pushes {task : τ} (hs : s.Step l s') (hl : l.pushes = some task) :
    s'.waiting = s.waiting ++ [task] := by
  cases hs with
  | @queueOther _ t ht hne =>
      rw [ht] at hl
      cases hl
      exact s.waiting_push _
  | queueOwn hu =>
      cases hl
      exact s.waiting_push _
  | _ => cases hl

/-- A step that queues none leaves the tasks or takes some away. -/
theorem Loop.Step.waiting_sublist (hs : s.Step l s') (hl : l.pushes = none) :
    s'.waiting.Sublist s.waiting := by
  cases hs with
  | swap hp => simp [Loop.waiting]
  | start hp hq =>
      refine List.Sublist.map _ ?_
      rw [hq]
      exact List.sublist_cons_self _ _
  | queueOther ht hne =>
      rw [ht] at hl
      cases hl
  | queueOwn hu => cases hl
  | _ => exact List.Sublist.refl _

theorem Loop.Step.exec_phase (hs : s.Step .exec s') :
    s.phase = .idle ∧ s'.phase = .calling false := by
  cases hs with
  | exec hp => exact ⟨hp, rfl⟩
  | queueOther ht hne => cases ht

theorem Loop.Step.pollReturn_phase {ready : Bool} (hs : s.Step (.pollReturn ready) s') :
    s.phase = .polling ∧ s'.phase = .handling ready := by
  cases hs with
  | pollReturn hp => exact ⟨hp, rfl⟩
  | queueOther ht hne => cases ht

theorem Loop.Step.readNotify_phase (hs : s.Step .readNotify s') : s'.phase = .handling false := by
  cases hs with
  | readNotify hp => rfl
  | queueOther ht hne => cases ht

theorem Loop.Step.start_phase (hs : s.Step .start s') :
    (∃ running, s.phase = .calling running) ∧ s'.phase = .calling true := by
  cases hs with
  | start hp hq => exact ⟨⟨_, hp⟩, rfl⟩
  | queueOther ht hne => cases ht

theorem Loop.Step.loop_phase (hs : s.Step .loop s') :
    (∃ running, s.phase = .calling running) ∧
      s'.phase = if s.quit then .idle else .polling := by
  cases hs with
  | loop hp hq => exact ⟨⟨_, hp⟩, rfl⟩
  | queueOther ht hne => cases ht

end Tasks

namespace Registry

variable {r r' : Registry} {p : EventPtr} {x : Except Assertion Registry} {S : Scope}

/-! ## Moves of the parts of `Exec` -/

/-- What work on a registry may do: move, or fail because a descriptor is taken. -/
def Works (S : Scope) (r : Registry) : Except Assertion Registry → Prop
  | .ok r' => Moves S r r'
  | .error a => a.ofReactor = true → ∃ r₁ p, Moves S r r₁ ∧ r₁.Clash p

theorem Works.of_moves {r₁ : Registry} (hx : Works S r₁ x) (hm : Moves S r r₁) : Works S r x := by
  cases x with
  | ok r' => exact Relation.ReflTransGen.trans hm hx
  | error a =>
      intro ha
      obtain ⟨r₂, p, hm₂, hc⟩ := hx ha
      exact ⟨r₂, p, Relation.ReflTransGen.trans hm hm₂, hc⟩

theorem Works.map (hx : Works S r x) {f : Registry → Registry} (hf : ∀ r₁, Moves S r₁ (f r₁)) :
    Works S r (x >>= fun r₁ => .ok (f r₁)) := by
  cases x with
  | ok r' => exact Relation.ReflTransGen.trans hx (hf r')
  | error a => exact hx

theorem works_update {now : ℤ} (h : r.Registered) (hx : UpdateCase r p now x)
    (hp : p.isTimer = false) : Works S r x := by
  cases hx with
  | clash hc => exact fun _ => ⟨r, p, .refl, hc⟩
  | refused => exact .refl
  | known hother => exact .arm h hother now
  | added hnull hmap =>
      have hother : ((r.insert p).object p).cycle ≠ .other := by
        rw [object_insert, if_pos rfl]
        exact nofun
      exact (Relation.ReflTransGen.single (Move.insert hp hnull hmap)).trans
        (Moves.arm (h.insert hp hnull hmap) hother now)

theorem works_remove (hx : RemoveCase r p x) (ht : S.takes p) : Works S r x := by
  cases hx with
  | absent h => exact .refl
  | erased he => exact .single (.erase he ht)

theorem works_register {id : ℕ} {now : ℤ} (hx : RegisterCase r id now x)
    (hlt : id < r.eventId) (ha : S.arms id) : Works S r x := by
  cases hx with
  | failed ha =>
      intro hr
      rw [ha] at hr
      cases hr
  | enrolled hid hfree htimeout =>
      have he : (r.enroll id).events id = some (.timer id) := by rw [events_enroll, if_pos rfl]
      exact (Relation.ReflTransGen.single (Move.enroll hid hfree hlt htimeout ha)).trans
        (Moves.emplace he _)

/-- `Cancel` takes out events without a descriptor. -/
theorem moves_cancel (id : ℕ) (ht : ∀ e, r.fd e < 0 → S.takes e) : Moves S r (r.cancel id) := by
  rcases r.cancel_cases id with ⟨heq, -⟩ | ⟨p, he, hneg, heq⟩
  · rw [heq]
    exact .refl
  · rw [heq]
    exact .single (.erase he (ht p hneg))

theorem Moves.pop (P : Top TimerPriority) (r : Registry) : Moves S r (r.pop P) :=
  .single (.queue fun _ hy => .inl (P.mem_of_mem_pop hy))

/-- A timer whose id has just been drawn can be registered. -/
theorem works_newTimer (delay now : ℤ) (isPersist : Bool) (ha : S.arms r.eventId) :
    Works S r ((r.createTimer delay isPersist).registerTimer r.eventId now) :=
  (works_register (registerTimer_cases _ _ now) (Nat.lt_succ_self _) ha).of_moves
    (.single (.create delay isPersist))

variable (h : r.Registered)
include h

theorem works_enter (accepted : Bool) (now : ℤ) : Works S r (r.enter accepted now) :=
  (works_update h (callUpdate_cases h accepted now) rfl).map fun r₁ =>
    Moves.retouch r₁ rfl (Event.tie · true) fun _ => rfl

theorem works_afterEvent (p : EventPtr) (ht : S.takes p) : Works S r (r.afterEvent p) := by
  rw [afterEvent]
  split
  · exact .refl
  · exact works_remove (callRemove_cases h) ht

theorem works_afterTimer (P : Top TimerPriority) {id : ℕ} (he : r.events id = some p)
    (reactorTime : ℤ) (ht : S.takes p) : Works S r (r.afterTimer P id p reactorTime) := by
  rw [afterTimer]
  split
  · exact Relation.ReflTransGen.trans (Moves.emplace he _) (Moves.pop P _)
  · exact (works_remove (callRemove_cases h) ht).map fun r₁ => Moves.pop P r₁

/-- A call takes out the event it removes, or an event without a descriptor; while the cycle runs
it puts in the timer it makes. -/
theorem works_call (running : Bool) (k : Call) (hremove : ∀ n, k = .remove n → S.takes (.user n))
    (hcancel : ∀ e, r.fd e < 0 → S.takes e) (ha : running = true → S.arms r.eventId) :
    Works S r (k.effect running r) := by
  cases k with
  | update n accepted now => exact works_update h (callUpdate_cases h accepted now) rfl
  | setInterest n read write accepted now =>
      have hm : Moves S r _ := .setInterest r n read write
      simp only [Call.effect]
      split
      · exact (works_update (h.moves hm) (callUpdate_cases (h.moves hm) accepted now) rfl).of_moves
          hm
      · exact hm
  | remove n => exact works_remove (callRemove_cases h) (hremove n rfl)
  | tie n alive => exact Moves.retouch r rfl (Event.tie · alive) fun _ => rfl
  | runAfter delay now | runEvery delay now =>
      rw [Call.effect]
      split
      · next hrun => exact works_newTimer delay now _ (ha hrun)
      · exact .refl
  | cancel id =>
      rw [Call.effect]
      split
      · exact moves_cancel id hcancel
      · exact .refl

end Registry

/-- The timer a task registers. -/
def Job.timer : Job → Option ℕ
  | .register id _ => some id
  | _ => none

/-- What a queued task rests on: the checks its caller has made. -/
def Job.Admissible (r : Registry) : Job → Prop
  | .register id _ => id < r.eventId
  | .update n | .remove n => (r.object (.user n)).cycle ≠ .other
  | .user | .cancel _ _ => True

theorem Registry.works_job {r : Registry} {S : Scope} (h : r.Registered) {job : Job}
    (hj : job.Admissible r) (accepted : Bool) (now : ℤ) (ht : ∀ e, S.takes e)
    (ha : ∀ id, job.timer = some id → S.arms id) : r.Works S (job.effect accepted now r) := by
  cases job with
  | user => exact .refl
  | register id isPersist => exact works_register (registerTimer_cases r id now) hj (ha id rfl)
  | cancel id after => exact moves_cancel id fun e _ => ht e
  | update n => exact works_update h (eventUpdate_cases h hj accepted now) rfl
  | remove n => exact works_remove (eventRemove_cases h hj) (ht _)

theorem Job.Admissible.moves {r r' : Registry} {job : Job} (hj : job.Admissible r)
    {S : Registry.Scope} (h : r.Registered) (hm : Registry.Moves S r r') : job.Admissible r' := by
  cases job with
  | register id isPersist => exact Nat.lt_of_lt_of_le hj hm.eventId_le
  | update n | remove n => exact fun hc => hj ((hm.other_iff h _).mp hc)
  | user | cancel id after => trivial

theorem Job.Admissible.resetAll {r : Registry} {job : Job} (hj : job.Admissible r) :
    job.Admissible r.resetAll := by
  have hother (n : ℕ) (hn : (r.object (.user n)).cycle ≠ .other) :
      (r.resetAll.object (.user n)).cycle ≠ .other := by
    rw [Registry.object_resetAll]
    split
    · exact fun hc => by cases hc
    · exact hn
  cases job with
  | register id isPersist => exact hj
  | update n => exact hother n hj
  | remove n => exact hother n hj
  | user => trivial
  | cancel id after => trivial

namespace Cycle

variable {P : Top TimerPriority} {c c' : Cycle} {l : CycleLabel}

/-- The tasks that will run on the cycle thread. -/
def jobs (c : Cycle) : List Job := c.asked ++ c.loop.waiting

/-- What holds in every state. -/
structure Sound (c : Cycle) : Prop where
  registered : c.registry.Registered
  jobs : ∀ job ∈ c.jobs, job.Admissible c.registry

/-- The task that is called next will run. -/
theorem mem_jobs_of_functions {q : Queued Job} {functions : List (Queued Job)}
    (hq : c.loop.functions = q :: functions) : q.task ∈ c.jobs := by
  simp [jobs, Loop.waiting, hq]

theorem work_eq_ok {x : Except Assertion Registry} (hs : c.work x = .ok c') :
    ∃ r, x = .ok r ∧ c' = c.setRegistry r := by
  cases x with
  | ok r =>
      cases hs
      exact ⟨r, rfl, rfl⟩
  | error a => cases hs

/-- A call on another thread registers nothing. -/
theorem events_ask (r : Registry) (running : Bool) (k : Ask) :
    (k.effect running r).events = r.events := by
  cases k <;> simp only [Ask.effect] <;> split <;> rfl

theorem moves_ask {S : Registry.Scope} (r : Registry) (running : Bool) (k : Ask) :
    r.Moves S (k.effect running r) := by
  cases k with
  | runAfter delay | runEvery delay =>
      rw [Ask.effect]
      split
      · exact .single (.create delay _)
      · exact .refl
  | _ => exact .refl

/-- What the end of `Exec` does to the registry: the notify event is taken out, and all others
are reset. -/
def Leaves (r r' : Registry) : Prop :=
  ∃ r₁, r.Moves .all r₁ ∧ r' = r₁.resetAll ∧
    ∀ id p, r₁.events id = some p ↔ r.events id = some p ∧ p ≠ .notify

/-- The timer whose registration is the next task. -/
def registration (c : Cycle) : CycleLabel → Option ℕ
  | .start _ _ => c.loop.functions.head?.bind fun q => q.task.timer
  | _ => none

/-- Any event may be taken out.  A call on the cycle thread puts in the timer it makes, and a task
the timer it registers. -/
def scope (c : Cycle) (l : CycleLabel) : Registry.Scope where
  takes _ := True
  arms i := (c.isRunning = true ∧ i = c.registry.eventId) ∨ c.registration l = some i

/-- What a step does to the registry.  An assertion of the poller fails when a new event comes with
a descriptor that is taken, or when the kernel reports an event the maps do not lead to. -/
def Touches (c : Cycle) (l : CycleLabel) : Except Halt Cycle → Prop
  | .ok c' => (l = .leave ∧ Leaves c.registry c'.registry) ∨
      (l ≠ .leave ∧ c.registry.Moves (c.scope l) c'.registry)
  | .error (.assertion a) => a.ofReactor = true →
      (∃ r p, c.registry.Moves (c.scope l) r ∧ r.Clash p) ∨
        ∃ p, c.registry.epoll (c.registry.fd p) = some p ∧ c.registry.finds p = false
  | .error _ => True

theorem touches_of_work {d : Cycle} {x : Except Assertion Registry} (hl : l ≠ .leave)
    (hx : c.registry.Works (c.scope l) x) : c.Touches l (d.work x) := by
  cases x with
  | ok r => exact .inr ⟨hl, hx⟩
  | error a => exact fun ha => .inl (hx ha)

theorem step_touches (h : c.Sound) : c.Touches l (c.step P l) := by
  have hr := h.registered
  have ho := c.step_outcome P l
  generalize c.step P l = x at ho ⊢
  cases ho with
  | stopped | dangling => trivial
  | exec => exact touches_of_work (by simp) (Registry.works_enter hr _ _)
  | fill hk hfind => exact fun _ => .inr ⟨_, hk, hfind⟩
  | handled | readNotify | finishEvent =>
      exact touches_of_work (by simp) (Registry.works_afterEvent hr _ trivial)
  | finishTimer hf he =>
      exact touches_of_work (by simp) (Registry.works_afterTimer hr P he _ trivial)
  | fired hp ha hf hd he =>
      exact touches_of_work (by simp) (Registry.works_afterTimer hr P he _ trivial)
  | skip => exact .inr ⟨by simp, .pop P c.registry⟩
  | @startJob _ _ q functions loop hf hq hj hl =>
      refine touches_of_work (by simp) (Registry.works_job hr (h.jobs _ (mem_jobs_of_functions hq))
        _ _ (fun _ => trivial) fun id hid => .inr ?_)
      simp [registration, hq, hid]
  | leave =>
      obtain ⟨r₁, hm, heq, hiff⟩ := Registry.leave_eq hr
      rw [heq]
      exact .inl ⟨rfl, r₁, hm, rfl, hiff⟩
  | call =>
      exact touches_of_work (by simp) (Registry.works_call hr _ _ (fun _ _ => trivial)
        (fun _ _ => trivial) fun hrun => .inl ⟨hrun, rfl⟩)
  | ask => exact .inr ⟨by simp, moves_ask _ _ _⟩
  | quiet hq =>
      refine .inr ⟨?_, .refl⟩
      rintro rfl
      cases hq
  | _ => exact .inr ⟨by simp, .refl⟩

/-- **What a step does to the registry.** -/
theorem registry_step (h : c.Sound) (hs : c.step P l = .ok c') :
    (l = .leave ∧ Leaves c.registry c'.registry) ∨
      (l ≠ .leave ∧ c.registry.Moves (c.scope l) c'.registry) := by
  have ht := step_touches (P := P) (l := l) h
  rwa [hs] at ht

/-- **Which assertions of the poller can fail.** -/
theorem assertion_step (h : c.Sound) {a : Assertion} (ha : a.ofReactor = true)
    (hs : c.step P l = .error (.assertion a)) :
    (∃ r p, c.registry.Moves (c.scope l) r ∧ r.Clash p) ∨
      ∃ p, c.registry.epoll (c.registry.fd p) = some p ∧ c.registry.finds p = false := by
  have ht := step_touches (P := P) (l := l) h
  rw [hs] at ht
  exact ht ha

/-! ## What a step does to the tasks -/

/-- The tasks a step brings about. -/
def news (c : Cycle) : CycleLabel → List Job
  | .ask k => (c.asks k).toList
  | .queue _ => [.user]
  | _ => []

theorem jobs_of_work {x : Except Assertion Registry} (hs : c.work x = .ok c') :
    c'.jobs = c.jobs := by
  obtain ⟨r, -, rfl⟩ := work_eq_ok hs
  rfl

theorem jobs_ask (c : Cycle) (k : Ask) : (c.ask k).jobs = (c.asks k).toList ++ c.jobs :=
  List.append_assoc _ _ _

/-- A move of the loop that queues nothing leaves the tasks or takes some away. -/
theorem jobs_move {move : LoopLabel Job} {loop : Loop Job} (hl : c.loop.Step move loop)
    (hm : move.pushes = none) : { c with loop }.jobs.Subperm c.jobs :=
  ((List.Sublist.refl _).append (hl.waiting_sublist hm)).subperm

theorem pushes_quiet (c : Cycle) {move : LoopLabel Job} (hq : l.quiet = some move) :
    (move.pushes = none ∧ c.news l = []) ∨ (move.pushes = some .user ∧ c.news l = [.user]) := by
  cases l with
  | queue inThread =>
      cases hq
      exact .inr ⟨rfl, rfl⟩
  | notify id =>
      cases id with
      | none =>
          cases hq
          exact .inl ⟨rfl, rfl⟩
      | some id => cases hq
  | exit inThread =>
      cases hq
      exact .inl ⟨rfl, rfl⟩
  | notifyExit =>
      cases hq
      exact .inl ⟨rfl, rfl⟩
  | _ => cases hq

/-- **What a step does to the tasks.**  They come from where the step brings them about and
do not multiply. -/
theorem jobs_step (hs : c.step P l = .ok c') : c'.jobs.Subperm (c.news l ++ c.jobs) := by
  have ho := c.step_outcome P l
  generalize c.step P l = x at ho hs
  cases ho with
  | stopped | fill | dangling => cases hs
  | exec hl | readNotify ha hf hl | startJob hf hq hj hl | leave hf hl =>
      rw [jobs_of_work hs]
      exact jobs_move hl rfl
  | poll hnd hk hfind hl | swap ha hf hl | startUser hf hq hj hl | again hf hq hl
  | returns hid hl =>
      cases hs
      exact jobs_move hl rfl
  | handle | finishTask | skip | fire => cases hs; exact .refl _
  | handled | finishEvent | finishTimer | fired | call => rw [jobs_of_work hs]; exact .refl _
  | ask =>
      cases hs
      rw [jobs_ask]
      exact .refl _
  | @push job loop hj hl =>
      cases hs
      rw [jobs, hl.waiting_pushes rfl]
      have hend : (c.asked.erase job ++ (c.loop.waiting ++ [job])).Perm
          (job :: (c.asked.erase job ++ c.loop.waiting)) := by
        rw [← List.append_assoc]
        exact List.perm_append_singleton _ _
      exact (hend.trans ((List.perm_cons_erase hj).symm.append_right _)).subperm
  | @quiet l move loop hq hl =>
      cases hs
      rcases c.pushes_quiet hq with ⟨hp, hn⟩ | ⟨hp, hn⟩
      · rw [hn]
        exact jobs_move hl hp
      · rw [hn, jobs, hl.waiting_pushes hp, ← List.append_assoc]
        exact (List.perm_append_singleton _ _).subperm

/-! ## What holds in every state -/

/-- A call on another thread queues a task whose check has been made. -/
theorem admissible_asks (h : c.registry.Registered) {k : Ask} {job : Job}
    (hk : c.asks k = some job) : job.Admissible (c.ask k).registry := by
  cases k with
  | update n =>
      simp only [asks, Option.ite_none_right_eq_some] at hk
      obtain ⟨hmay, hk⟩ := hk
      cases hk
      exact Job.Admissible.moves (h.other_of_mayUpdate hmay) h
        (moves_ask (S := .all) _ c.isRunning (.update n))
  | remove n =>
      simp only [asks, Option.ite_none_right_eq_some] at hk
      obtain ⟨hmay, hk⟩ := hk
      cases hk
      exact Job.Admissible.moves (Registry.other_of_mayRemove hmay) h
        (moves_ask (S := .all) _ c.isRunning (.remove n))
  | runAfter delay | runEvery delay =>
      simp only [asks, Option.ite_none_right_eq_some] at hk
      obtain ⟨hrun, hk⟩ := hk
      cases hk
      change c.registry.eventId < (Ask.effect c.isRunning c.registry _).eventId
      rw [Ask.effect, if_pos hrun]
      exact Nat.lt_succ_self _
  | cancel id =>
      simp only [asks, Option.ite_none_right_eq_some] at hk
      obtain ⟨hrun, hk⟩ := hk
      cases hk
      trivial

theorem sound_init (s : Setup) : (init s).Sound where
  registered :=
    { own := fun he => by cases he
      mem := fun {p} hc => by
        cases p with
        | user n => exact absurd hc (s.apart n)
        | _ => cases hc
      null := fun {p} hc => by
        cases p with
        | user n => exact s.null n hc
        | _ => rfl
      other := fun {p} hc => by
        cases p with
        | user n => exact ⟨⟨n, rfl⟩, s.other n hc⟩
        | _ => cases hc
      lt := fun he => by cases he
      inverse := fun he => by cases he
      kernel := fun he => by cases he
      watched := fun hk => by cases hk
      timer := fun id => rfl
      label := fun he => by cases he }
  jobs job hj := by cases hj

/-- What a step keeps of the objects: descriptors, and which events are of other cycles. -/
theorem registered_step (h : c.Sound) (hs : c.step P l = .ok c') : c'.registry.Registered := by
  rcases registry_step h hs with ⟨-, r₁, hm, heq, -⟩ | ⟨-, hm⟩
  · rw [heq]
    exact (h.registered.moves hm).resetAll
  · exact h.registered.moves hm

theorem admissible_step (h : c.Sound) (hs : c.step P l = .ok c') {job : Job}
    (hj : job.Admissible c.registry) : job.Admissible c'.registry := by
  rcases registry_step h hs with ⟨-, r₁, hm, heq, -⟩ | ⟨-, hm⟩
  · rw [heq]
    exact (hj.moves h.registered hm).resetAll
  · exact hj.moves h.registered hm

/-- No step takes back an id. -/
theorem eventId_step (h : c.Sound) (hs : c.step P l = .ok c') :
    c.registry.eventId ≤ c'.registry.eventId := by
  rcases registry_step h hs with ⟨-, r₁, hm, heq, -⟩ | ⟨-, hm⟩
  · rw [heq]
    exact hm.eventId_le
  · exact hm.eventId_le

/-- Every step keeps what holds in every state. -/
theorem sound_step (h : c.Sound) (hs : c.step P l = .ok c') : c'.Sound where
  registered := registered_step h hs
  jobs job hj := by
    rcases List.mem_append.mp ((jobs_step hs).subset hj) with hnew | hold
    · cases l with
      | ask k =>
          cases hs
          exact admissible_asks h.registered (Option.mem_toList.mp hnew)
      | queue inThread =>
          rw [List.mem_singleton.mp hnew]
          trivial
      | _ => cases hnew
    · exact admissible_step h hs (h.jobs job hold)

theorem sound_of_run {s : Setup} {ls : List CycleLabel} (hrun : run (step P) (init s) ls = .ok c) :
    c.Sound :=
  invariant_of_step Sound (fun _ _ _ h hs => sound_step h hs) (sound_init s) hrun

/-- No step changes a descriptor. -/
theorem fd_step (h : c.Sound) (hs : c.step P l = .ok c') (p : EventPtr) :
    c'.registry.fd p = c.registry.fd p := by
  rcases registry_step h hs with ⟨-, r₁, hm, heq, -⟩ | ⟨-, hm⟩
  · rw [heq, Registry.fd_resetAll, hm.fd_eq h.registered]
  · exact hm.fd_eq h.registered p

theorem fd_of_run {s : Setup} {ls : List CycleLabel} (hrun : run (step P) (init s) ls = .ok c)
    (p : EventPtr) : c.registry.fd p = (s.object p).event.fd := by
  refine (invariant_of_step (fun c => c.Sound ∧ c.registry.fd p = (s.object p).event.fd)
    (fun _ _ _ h hs => ⟨sound_step h.1 hs, ?_⟩) ⟨sound_init s, rfl⟩ hrun).2
  rw [fd_step h.1 hs, h.2]

end Cycle

/-! ## What a step writes into the history -/

theorem History.cancel_cases (h : History) (id : ℕ) (after : Bool) :
    h.cancel id after = h ∨
      (after = true ∧ h.cancel id after = { h with cancelled := id :: h.cancelled }) := by
  rw [History.cancel]
  split
  · next hafter => exact .inr ⟨(Bool.and_eq_true_iff.mp hafter).1, rfl⟩
  · exact .inl rfl

namespace Cycle

variable {P : Top TimerPriority} {c c' : Cycle} {l : CycleLabel}

/-- What a step writes into the history, one case for each kind of entry, and what it has done
by then. -/
inductive Records (c c' : Cycle) : Prop
  | nothing (hh : c'.history = c.history)
  | dispatched {id : ℕ}
      (hh : c'.history = { c.history with dispatched := id :: c.history.dispatched })
  /-- `RunAfter` on the cycle thread registers its timer. -/
  | ran {delay now : ℤ}
      (hr : (c.registry.createTimer delay false).registerTimer c.registry.eventId now =
        .ok c'.registry)
      (hh : c'.history =
        { c.history with returned := c.registry.eventId :: c.history.returned })
  | returned {id : ℕ} (hid : id ∈ c.callers)
      (hh : c'.history = { c.history with returned := id :: c.history.returned })
  /-- `RunEvery` makes its timer, and registers it on the cycle thread. -/
  | every {delay : ℤ}
      (hr : c'.registry = c.registry.createTimer delay true ∨
        ∃ now, (c.registry.createTimer delay true).registerTimer c.registry.eventId now =
          .ok c'.registry)
      (hh : c'.history = { c.history with
        every := Function.update c.history.every c.registry.eventId (some delay) })
  /-- `Cancel` returns at once when the cycle does not run. -/
  | cancelled {id : ℕ} (hid : id ∈ c.history.returned ∨ .cancel id true ∈ c.jobs)
      (hr : c'.registry = c.registry.cancel id ∨
        (c.isRunning = false ∧ c'.registry = c.registry))
      (hh : c'.history = { c.history with cancelled := id :: c.history.cancelled })

theorem Records.of_cancel {id : ℕ} {after : Bool} (hh : c'.history = c.history.cancel id after)
    (hid : after = true → id ∈ c.history.returned ∨ .cancel id true ∈ c.jobs)
    (hr : c'.registry = c.registry.cancel id ∨
      (c.isRunning = false ∧ c'.registry = c.registry)) : c.Records c' := by
  rcases c.history.cancel_cases id after with heq | ⟨hafter, heq⟩
  · exact .nothing (hh.trans heq)
  · exact .cancelled (hid hafter) hr (hh.trans heq)

theorem Records.of_dispatch {p : EventPtr} (hh : c'.history = c.history.dispatch p) :
    c.Records c' := by
  cases p with
  | timer id => exact .dispatched hh
  | _ => exact .nothing hh

theorem records_call {k : Call} (hx : k.effect c.isRunning c.registry = .ok c'.registry)
    (hh : c'.history = c.history.call c.isRunning c.registry.eventId k) : c.Records c' := by
  cases k with
  | runAfter delay now =>
      rw [Call.effect] at hx
      rw [History.call] at hh
      split at hh
      · next hrun =>
          rw [if_pos hrun] at hx
          exact .ran hx hh
      · exact .nothing hh
  | runEvery delay now =>
      rw [Call.effect] at hx
      rw [History.call] at hh
      split at hh
      · next hrun =>
          rw [if_pos hrun] at hx
          exact .every (.inr ⟨now, hx⟩) hh
      · exact .nothing hh
  | cancel id =>
      refine .of_cancel hh (fun hafter => .inl (List.contains_iff_mem.mp hafter)) ?_
      rw [Call.effect, Except.ok.injEq] at hx
      split at hx
      · exact .inl hx.symm
      · next hrun => exact .inr ⟨Bool.not_eq_true _ ▸ hrun, hx.symm⟩
  | _ => exact .nothing hh

theorem records_ask (c : Cycle) (k : Ask) : c.Records (c.ask k) := by
  have hh : (c.ask k).history = c.history.ask c.isRunning c.registry.eventId k := rfl
  have hr : (c.ask k).registry = k.effect c.isRunning c.registry := rfl
  cases k with
  | runEvery delay =>
      rw [Ask.effect] at hr
      rw [History.ask] at hh
      split at hh
      · next hrun =>
          rw [if_pos hrun] at hr
          exact .every (.inl hr) hh
      · exact .nothing hh
  | cancel id =>
      rw [History.ask] at hh
      split at hh
      · exact .nothing hh
      · next hrun =>
          exact .of_cancel hh (fun hafter => .inl (List.contains_iff_mem.mp hafter))
            (.inr ⟨Bool.not_eq_true _ ▸ hrun, hr⟩)
  | _ => exact .nothing hh

theorem records_step (hs : c.step P l = .ok c') : c.Records c' := by
  have ho := c.step_outcome P l
  generalize c.step P l = x at ho hs
  cases ho with
  | stopped | fill | dangling => cases hs
  | exec | handled | readNotify | finishEvent | finishTimer | leave =>
      obtain ⟨r, -, rfl⟩ := work_eq_ok hs
      exact .nothing rfl
  | fire =>
      cases hs
      exact .of_dispatch rfl
  | fired =>
      obtain ⟨r, -, rfl⟩ := work_eq_ok hs
      exact .of_dispatch rfl
  | @startJob _ _ q functions loop hf hq hj hl =>
      obtain ⟨r, hx, rfl⟩ := work_eq_ok hs
      have hmem := mem_jobs_of_functions hq
      cases hjob : q.task with
      | cancel id after =>
          rw [hjob] at hx hmem
          cases hx
          exact .of_cancel rfl (fun hafter => .inr (hafter ▸ hmem)) (.inl rfl)
      | _ => exact .nothing rfl
  | call =>
      obtain ⟨r, hx, rfl⟩ := work_eq_ok hs
      exact records_call hx rfl
  | ask =>
      cases hs
      exact records_ask c _
  | returns hid hl =>
      cases hs
      exact .returned hid rfl
  | _ => cases hs; exact .nothing rfl

end Cycle

end Hare.Io
