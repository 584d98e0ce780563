import Hare.Net.PoolLife

/-!
# The end of a pool

What can go wrong with a pool between `Start` and the end of `Stop`, and that it ends well
otherwise.  The cycle of an item is behind a plain pointer that its thread sets and clears.  So
the main thread can come too early, when the thread has not made the cycle yet.  And it can come too
late: once the closure of `Stop` is in the queue, the thread may call it, leave `Exec` and delete
the cycle before the main thread has got to the `Notify` of the same call.  The closure itself goes
wrong when the item still has sessions: closing the first one erases the entry its loop is at.
-/

namespace Hare.Net

open LabelledRun Io

/-! ### An item -/

namespace Item

variable {τ : Type*} {l : LoopLabel (ItemTask τ)} {loop : Loop (ItemTask τ)}
  {asked notifying : Bool} {item item' : Item τ}

/-- A call of the main thread fails only if there is no cycle. -/
theorem push_eq_error {task : ItemTask τ} {e : Stop} (hs : item.push task = .error e) :
    item.hasCycle = false ∧ e = .fault .nullPointer := by
  unfold push at hs
  split at hs
  · cases hs
  · rename_i hcycle
    cases hs
    exact ⟨Bool.eq_false_iff.mpr hcycle, rfl⟩

theorem Inv.notify_eq_error (h : Inv asked true item) {e : Stop} (hs : item.notify = .error e) :
    item.hasCycle = false ∧ e = .fault .useAfterFree := by
  unfold Item.notify at hs
  split at hs
  · have hsenders : item.loop.senders ≠ 0 := by simp [h.served.senders]
    simp [Loop.step, hsenders] at hs
  · rename_i hcycle
    cases hs
    exact ⟨Bool.eq_false_iff.mpr hcycle, rfl⟩

/-- The only assertion of a loop is that of `Exec`. -/
theorem eq_exec_of_fault {f : Fault} (hs : loop.step l = .error (.fault f)) : l = .exec := by
  cases l <;> simp only [Loop.step, Loop.queueInCycle] at hs <;> grind

/-- The thread is about to call the closure of `Stop`, and there are sessions. -/
structure Occupied (item : Item τ) : Prop where
  thread : item.thread = .executing
  phase : ∃ running, item.loop.phase = .calling running
  next : ∃ ticket functions, item.loop.functions = ⟨ticket, .stop⟩ :: functions
  sessions : item.sessions.1.entries ≠ []

theorem exec_eq_fault {f : Fault} (ht : item.thread = .executing) (hown : own l = true)
    (hs : item.exec l = .error (.fault f)) :
    f = .useAfterFree ∧ l = .start ∧ item.Occupied := by
  unfold exec at hs
  cases hstep : item.loop.step l with
  | error e =>
      rw [hstep] at hs
      cases hs
      rw [eq_exec_of_fault hstep] at hown
      cases hown
  | ok next =>
      rw [hstep, ok_bind] at hs
      split at hs
      case h_1 ticket functions hfun =>
        rw [OpenSessions.stop_eq] at hs
        by_cases hnil : item.sessions.1.entries = []
        · rw [if_pos hnil] at hs
          cases hexit : next.step (.exit true) with
          | error e =>
              simp only [hexit] at hs
              cases hs
              cases eq_exec_of_fault hexit
          | ok loop =>
              simp only [hexit] at hs
              cases hs
        · rw [if_neg hnil] at hs
          cases hs
          refine ⟨rfl, rfl, ht, ?_, ⟨ticket, functions, hfun⟩, hnil⟩
          cases Loop.step_of_ok hstep with
          | start hp hq => exact ⟨_, hp⟩
          | queueOther hl => cases hl
      case h_2 => cases hs

theorem Inv.work_eq_fault (h : Inv asked notifying item) {f : Fault}
    (hs : item.work l = .error (.fault f)) : f = .useAfterFree ∧ l = .start ∧ item.Occupied := by
  unfold Item.work at hs
  split at hs
  case h_1 ht =>
    have hreached := h.reached
    simp only [Reached, ht] at hreached
    split at hs
    · simp [Loop.step, hreached.1] at hs
    · cases hs
  case h_2 ht =>
    split at hs
    · rename_i hown
      exact exec_eq_fault ht hown.1 hs
    · cases hs
  case h_3 => cases hs

theorem Occupied.work (h : item.Occupied) : item.work .start = .error (.fault .useAfterFree) := by
  obtain ⟨running, hp⟩ := h.phase
  obtain ⟨ticket, functions, hfun⟩ := h.next
  simp [Item.work, h.thread, hp, own, exec, Loop.step, hfun, OpenSessions.stop_eq, h.sessions]

/-- A thread in `Exec` is never blocked. -/
theorem exists_work (ht : item.thread = .executing) (hphase : item.loop.phase ≠ .idle) :
    ∃ l, item.work l ≠ .error .disabled := by
  cases hp : item.loop.phase with
  | idle => exact absurd hp hphase
  | polling => exact ⟨.pollReturn false, by simp [work, ht, hp, own, exec, Loop.step]⟩
  | handling unread =>
      cases unread with
      | true => exact ⟨.readNotify, by simp [work, ht, hp, own, exec, Loop.step]⟩
      | false => exact ⟨.swap, by simp [work, ht, hp, own, exec, Loop.step]⟩
  | calling running =>
      refine ⟨if item.loop.functions = [] then .loop else .start, ?_⟩
      cases hq : item.loop.functions with
      | nil => simp [work, ht, hp, own, exec, Loop.step, hq]
      | cons q functions =>
          obtain ⟨ticket, task⟩ := q
          cases task with
          | work task => simp [work, ht, hp, own, exec, Loop.step, hq]
          | stop =>
              by_cases hnil : item.sessions.1.entries = []
              · simp [work, ht, hp, own, exec, Loop.step, hq, Loop.inUserCode,
                  OpenSessions.stop_eq, hnil]
              · simp [Occupied.work ⟨ht, ⟨running, hp⟩, ⟨ticket, functions, hq⟩, hnil⟩]

/-- The closure is pending until the swap that takes it. -/
theorem Served.stop_pending (h : Served true notifying loop) (hq : loop.functions = [])
    (hhalted : halted loop = false) : loop.pending.any (·.task.isStop) = true := by
  have hcount := h.stops
  rw [← h.order.order, hq, List.append_nil, List.countP_append] at hcount
  have hnone : loop.started.countP (·.task.isStop) = 0 :=
    List.countP_eq_zero.mpr fun q hmem hstop =>
      Bool.eq_false_iff.mp hhalted (List.any_eq_true.mpr ⟨q, hmem, hstop⟩)
  rw [hnone, Nat.zero_add] at hcount
  have hpos : 0 < loop.pending.countP (·.task.isStop) := by
    rw [hcount]
    exact Nat.one_pos
  exact List.any_eq_true.mpr (List.countP_pos_iff.mp hpos)

end Item

namespace PoolLife

variable {τ : Type*} {n : ℕ} {s s' : PoolLife τ} {l : LifeLabel τ} {k : ℕ} {e : Stop} {f : Fault}

/-! ### What goes wrong -/

/-- The cycle of an item is used before its thread has made it. -/
def Early (n : ℕ) (s : PoolLife τ) (l : LifeLabel τ) : Prop :=
  ∃ k, k < n ∧ (s.item k).thread = .spawned ∧
    (l = .main ∧ s.main = .stopping k ∨ (∃ task, l = .post k task) ∧ s.main = .running)

/-- The cycle of an item is used after its thread has deleted it. -/
def Late (s : PoolLife τ) (l : LifeLabel τ) : Prop :=
  ∃ k, (s.item k).thread = .ended ∧ l = .main ∧ s.main = .queued k

/-- The closure of `Stop` is called on an item that has sessions. -/
def Busy (s : PoolLife τ) (l : LifeLabel τ) : Prop :=
  ∃ k, (s.item k).Occupied ∧ l = .worker k .start

/-- A thread ends behind the closure of `Stop`. -/
theorem Inv.asked_of_ended (h : Inv n s) (ht : (s.item k).thread = .ended) :
    s.main.asked n k = true := by
  obtain ⟨hserved, hreached, -⟩ := h.item k
  simp only [Item.Reached, ht] at hreached
  obtain ⟨q, hq, hstop⟩ := List.any_eq_true.mp hreached.1
  have hmem : q ∈ (s.item k).loop.pushed := by
    rw [← hserved.order.order]
    simp [hq]
  by_contra hnot
  have hzero := hserved.stops
  rw [Bool.eq_false_iff.mpr hnot] at hzero
  exact List.countP_eq_zero.mp hzero q hmem hstop

theorem thread_of_not_hasCycle {item : Item τ} (hcycle : item.hasCycle = false)
    (hborn : item.thread ≠ .unborn) : item.thread = .spawned ∨ item.thread = .ended := by
  cases ht : item.thread <;> simp_all [Item.hasCycle]

theorem Inv.thread_ne_unborn (h : Inv n s) (hk : k < n)
    (hm : ∀ j, s.main ≠ .starting j) : (s.item k).thread ≠ .unborn := by
  rw [ne_eq, h.born k]
  cases hmain : s.main with
  | starting j => exact absurd hmain (hm j)
  | _ => simp [MainPoint.born, hk]

/-- The main thread is about to notify a cycle that has been made. -/
theorem Inv.thread_ne_spawned (h : Inv n s) (hn : s.main.notifies k = true) :
    (s.item k).thread ≠ .spawned := by
  intro ht
  obtain ⟨hserved, hreached, -⟩ := h.item k
  simp only [Item.Reached, ht] at hreached
  have hsenders := hserved.senders
  rw [hreached, hn] at hsenders
  cases hsenders

/-- The `push_back` of the main thread finds no cycle. -/
theorem Inv.push_error (h : Inv n s) {task : ItemTask τ} (hk : k < n)
    (hm : ∀ j, s.main ≠ .starting j) (hasked : s.main.asked n k = false)
    (hs : (s.item k).push task = .error e) :
    e = .fault .nullPointer ∧ (s.item k).thread = .spawned := by
  obtain ⟨hcycle, he⟩ := Item.push_eq_error hs
  refine ⟨he, (thread_of_not_hasCycle hcycle (h.thread_ne_unborn hk hm)).resolve_right ?_⟩
  intro ht
  rw [h.asked_of_ended ht] at hasked
  cases hasked

/-- The `Notify` of the main thread finds no cycle. -/
theorem Inv.notify_error (h : Inv n s) (hk : k < n)
    (hm : ∀ j, s.main ≠ .starting j) (hnotifies : s.main.notifies k = true)
    (hs : (s.item k).notify = .error e) :
    e = .fault .useAfterFree ∧ (s.item k).thread = .ended := by
  have hitem := h.item k
  rw [hnotifies] at hitem
  obtain ⟨hcycle, he⟩ := hitem.notify_eq_error hs
  exact ⟨he, (thread_of_not_hasCycle hcycle (h.thread_ne_unborn hk hm)).resolve_left
    (h.thread_ne_spawned hnotifies)⟩

/-- How the main thread fails. -/
theorem Inv.mainStep_error (h : Inv n s) (hs : s.mainStep n = .error e) :
    e = .disabled ∧ (s.main = .running ∨ s.main = .finished ∨
        ∃ k, k < n ∧ s.main = .joining k ∧ (s.item k).thread ≠ .ended) ∨
      e = .fault .nullPointer ∧ s.Early n .main ∨ e = .fault .useAfterFree ∧ s.Late .main := by
  have hr := h.range
  unfold mainStep at hs
  split at hs
  case h_1 k hm => split at hs <;> cases hs
  case h_2 k hm =>
    rw [hm] at hr
    cases hnotify : (s.item k).notify with
    | ok item =>
        rw [hnotify] at hs
        cases hs
    | error e =>
        obtain ⟨-, ht⟩ :=
          h.notify_error hr (by simp [hm]) (by simp [hm, MainPoint.notifies]) hnotify
        have hasked := h.asked_of_ended ht
        rw [hm] at hasked
        cases hasked
  case h_3 k hm =>
    split at hs
    case isTrue hk =>
      cases hpush : (s.item k).push .stop with
      | ok item =>
          rw [hpush] at hs
          cases hs
      | error e =>
          obtain ⟨rfl, ht⟩ := h.push_error hk (by simp [hm]) (by simp [hm, MainPoint.asked]) hpush
          rw [hpush] at hs
          cases hs
          exact .inr (.inl ⟨rfl, k, hk, ht, .inl ⟨rfl, hm⟩⟩)
    case isFalse hk => cases hs
  case h_4 k hm =>
    rw [hm] at hr
    cases hnotify : (s.item k).notify with
    | ok item =>
        rw [hnotify] at hs
        cases hs
    | error e =>
        obtain ⟨rfl, ht⟩ :=
          h.notify_error hr (by simp [hm]) (by simp [hm, MainPoint.notifies]) hnotify
        rw [hnotify] at hs
        cases hs
        exact .inr (.inr ⟨rfl, k, ht, rfl, hm⟩)
  case h_5 k hm =>
    split at hs
    case isTrue hk =>
      split at hs <;> cases hs
      exact .inl ⟨rfl, .inr (.inr ⟨k, hk, hm, ‹_›⟩)⟩
    case isFalse hk => cases hs
  case h_6 hm =>
    cases hs
    exact .inl ⟨rfl, .inl hm⟩
  case h_7 hm =>
    cases hs
    exact .inl ⟨rfl, .inr (.inl hm)⟩

theorem step_of_early (h : s.Early n l) : s.step n l = .error (.fault .nullPointer) := by
  obtain ⟨k, hk, ht, ⟨rfl, hm⟩ | ⟨⟨task, rfl⟩, hm⟩⟩ := h
  · simp [step, mainStep, hm, hk, Item.push, Item.hasCycle, ht]
  · simp [step, hm, hk, Item.push, Item.hasCycle, ht]

theorem step_of_busy (h : s.Busy l) : s.step n l = .error (.fault .useAfterFree) := by
  obtain ⟨k, hoccupied, rfl⟩ := h
  simp [step, hoccupied.work]

theorem step_of_late (h : s.Late l) : s.step n l = .error (.fault .useAfterFree) := by
  obtain ⟨k, ht, rfl, hm⟩ := h
  simp [step, mainStep, hm, Item.notify, Item.hasCycle, ht]

/-- The faults of the system. -/
theorem Inv.fault_iff (h : Inv n s) (l : LifeLabel τ) (f : Fault) :
    s.step n l = .error (.fault f) ↔
      f = .nullPointer ∧ s.Early n l ∨ f = .useAfterFree ∧ (s.Late l ∨ s.Busy l) := by
  constructor
  · intro hs
    cases l with
    | main =>
        rcases h.mainStep_error hs with ⟨he, -⟩ | ⟨he, hearly⟩ | ⟨he, hlate⟩ <;> cases he
        · exact .inl ⟨rfl, hearly⟩
        · exact .inr ⟨rfl, .inl hlate⟩
    | post k task =>
        simp only [PoolLife.step] at hs
        split at hs
        case isTrue hrunning =>
          obtain ⟨hm, hk⟩ := hrunning
          cases hpush : (s.item k).push (.work task) with
          | ok item =>
              rw [hpush] at hs
              cases hs
          | error e =>
              obtain ⟨rfl, ht⟩ :=
                h.push_error hk (by simp [hm]) (by simp [hm, MainPoint.asked]) hpush
              rw [hpush] at hs
              cases hs
              exact .inl ⟨rfl, k, hk, ht, .inr ⟨⟨task, rfl⟩, hm⟩⟩
        case isFalse => cases hs
    | worker k l =>
        simp only [PoolLife.step] at hs
        cases hwork : (s.item k).work l with
        | ok item =>
            rw [hwork] at hs
            cases hs
        | error e =>
            rw [hwork] at hs
            cases hs
            obtain ⟨hf, rfl, hoccupied⟩ := (h.item k).work_eq_fault hwork
            exact .inr ⟨hf, .inr ⟨k, hoccupied, rfl⟩⟩
    | stop | create k | serve k sessions | reset k =>
        simp only [PoolLife.step] at hs
        split at hs <;> cases hs
  · rintro (⟨rfl, hearly⟩ | ⟨rfl, hlate | hbusy⟩)
    · exact step_of_early hearly
    · exact step_of_late hlate
    · exact step_of_busy hbusy

/-! ### What ends well -/

/-- The threads come to rest only when `Stop` has returned. -/
theorem Inv.finished_of_rest (h : Inv n s) (hrest : ∀ l, s.step n l = .error .disabled) :
    s.main = .finished := by
  rcases h.mainStep_error (hrest .main) with ⟨-, hm | hm | ⟨k, hk, hm, ht⟩⟩ | ⟨he, -⟩ | ⟨he, -⟩
  · have hstop := hrest .stop
    simp [PoolLife.step, hm] at hstop
  · exact hm
  · -- The thread that is to be joined can take a step.
    exfalso
    cases hthread : (s.item k).thread with
    | unborn => exact h.thread_ne_unborn hk (by simp [hm]) hthread
    | spawned =>
        have hcreate := hrest (.create k)
        simp [PoolLife.step, hthread] at hcreate
    | created =>
        have hexec := hrest (.worker k .exec)
        have hreached := (h.item k).reached
        simp only [Item.Reached, hthread] at hreached
        simp [PoolLife.step, Item.work, hthread, Loop.step, hreached.1] at hexec
    | executing =>
        by_cases hphase : (s.item k).loop.phase = .idle
        · have hreset := hrest (.reset k)
          simp [PoolLife.step, hthread, hphase] at hreset
        · obtain ⟨l, hwork⟩ := Item.exists_work hthread hphase
          have hworker := hrest (.worker k l)
          simp only [PoolLife.step] at hworker
          cases hitem : (s.item k).work l with
          | ok item =>
              rw [hitem] at hworker
              cases hworker
          | error e =>
              rw [hitem] at hworker
              cases hworker
              exact hwork hitem
    | ended => exact ht hthread
  · cases he
  · cases he

/-- What the server has queued before `Stop` is called before the closure. -/
theorem Inv.posts_started (h : Inv n s) (ht : (s.item k).thread = .ended) :
    ((s.posts k).map .work).Sublist ((s.item k).loop.started.map Queued.task) := by
  obtain ⟨hserved, hreached, -⟩ := h.item k
  simp only [Item.Reached, ht] at hreached
  refine (h.posts k).trans ?_
  obtain ⟨q, hq, hstop⟩ := List.any_eq_true.mp hreached.1
  rw [earlier, ← hserved.order.order, List.append_assoc, List.map_append, List.takeWhile_append,
    if_neg]
  · exact (List.takeWhile_prefix _).sublist
  · intro hlen
    have hall := (List.takeWhile_prefix _).eq_of_length hlen
    have hfree := List.takeWhile_eq_self_iff.mp hall q.task (List.mem_map_of_mem hq)
    simp [hstop] at hfree

/-- No session is left when the items are destroyed. -/
theorem Inv.sessions_ended (h : Inv n s) (ht : (s.item k).thread = .ended) :
    (s.item k).sessions = .empty := by
  obtain ⟨-, hreached, hcleared⟩ := h.item k
  simp only [Item.Reached, ht] at hreached
  exact hcleared hreached.1

/-! ### How long it takes -/

/-- How often `Poll` still returns before the closure of `Stop`, which is queued, is called. -/
def pollsLeft (item : Item τ) : ℕ :=
  match item.thread, item.loop.phase with
  | .unborn, _ | .spawned, _ | .created, _ | .executing, .polling => 1
  | .executing, .calling _ => (item.loop.pending.any (·.task.isStop)).toNat
  | .executing, .idle | .executing, .handling _ | .ended, _ => 0

theorem pollsLeft_le_one (item : Item τ) : pollsLeft item ≤ 1 := by
  unfold pollsLeft
  split <;> simp [Bool.toNat_le]

theorem pollsLeft_work {item item' : Item τ} {l : LoopLabel (ItemTask τ)} {notifying : Bool}
    (h : Item.Inv true notifying item) (hs : item.work l = .ok item') (k : ℕ) :
    pollsLeft item' + ((LifeLabel.worker k l).polls k).toNat ≤ pollsLeft item := by
  obtain ⟨hserved, hreached, -⟩ := h
  rcases Item.work_cases hs with ⟨ht, rfl, rfl⟩ | ⟨ht, hown, hphase, hexec⟩
  · simp [pollsLeft, ht, LifeLabel.polls, Bool.toNat_le]
  · have hruns : Item.Runs item.loop := by simpa [Item.Reached, ht] using hreached
    rcases Item.exec_cases hexec with
      ⟨running, q, functions, rfl, hp, hq, -, rfl⟩ | ⟨loop, hstep, rfl, hnext⟩
    · simp [pollsLeft, ht, hp, LifeLabel.polls]
    · cases hstep with
      | exec | runOwn | notify | exit | notifyExit => cases hown
      | pollReturn hp | start hp hq => simp [pollsLeft, ht, hp, LifeLabel.polls]
      | readNotify hp | swap hp => simp [pollsLeft, ht, LifeLabel.polls]
      | loop hp hq =>
          cases hquit : item.loop.quit with
          | true => simp [pollsLeft, ht, LifeLabel.polls]
          | false =>
              -- The loop goes on, so the closure is still pending.
              have hpending := hserved.stop_pending hq (hruns.quit.symm.trans hquit)
              simp [pollsLeft, ht, hp, hpending, LifeLabel.polls]
      | @queueOwn task hu =>
          have htask : task.isStop = false := by simpa [Item.own] using hown
          simp [pollsLeft, ht, Loop.push, htask, LifeLabel.polls]
      | queueOther hl hne => exact absurd (Item.eq_of_own hown hl) hne

/-- The closure stays queued. -/
theorem Inv.asked_step (h : Inv n s) (hs : Move n s l s')
    (hasked : s.main.asked n k = true) : s'.main.asked n k = true := by
  have hr := h.range
  cases hs with
  | spawn hm | run hm | announce hm | post hm | stop hm =>
      rw [hm] at hasked
      cases hasked
  | ask hm =>
      rw [hm] at hasked
      exact decide_eq_true (Nat.le_of_lt (of_decide_eq_true hasked))
  | wait hm =>
      rw [hm] at hasked hr
      exact decide_eq_true (Nat.lt_of_lt_of_le (of_decide_eq_true hasked) hr)
  | tell hm =>
      rw [hm] at hasked
      exact decide_eq_true (Nat.lt_succ_of_le (of_decide_eq_true hasked))
  | join hm | finish hm =>
      rw [hm] at hasked
      exact hasked
  | create | worker | serve | reset => exact hasked

theorem Inv.pollsLeft_step (h : Inv n s) (hs : Move n s l s')
    (hasked : s.main.asked n k = true) :
    pollsLeft (s'.item k) + (l.polls k).toNat ≤ pollsLeft (s.item k) := by
  have hset {j : ℕ} {item : Item τ} (hj : pollsLeft item = pollsLeft (s.item j)) :
      pollsLeft ((s.set j item).item k) ≤ pollsLeft (s.item k) := by
    by_cases hkj : k = j
    · rw [hkj, set_item_self, hj]
    · rw [set_item_of_ne s hkj]
  cases hs with
  | spawn hm | run hm | announce hm | post hm | stop hm =>
      rw [hm] at hasked
      cases hasked
  | @ask j item hm hj hs =>
      rw [hm] at hasked
      have hne : k ≠ j := Nat.ne_of_lt (of_decide_eq_true hasked)
      simp only [set_item_of_ne s hne]
      exact Nat.le_refl _
  | tell hm hs =>
      obtain ⟨-, rfl⟩ := Item.notify_cases hs
      refine hset ?_
      rfl
  | wait | join | finish => exact Nat.le_refl _
  | create ht =>
      refine hset ?_
      simp [pollsLeft, ht]
  | @worker j l item hs =>
      by_cases hkj : k = j
      · subst hkj
        have hitem := h.item k
        rw [hasked] at hitem
        rw [set_item_self]
        exact pollsLeft_work hitem hs k
      · rw [set_item_of_ne s hkj]
        cases l <;> simp [LifeLabel.polls, Ne.symm hkj]
  | serve =>
      refine hset ?_
      rfl
  | reset ht hp =>
      refine hset ?_
      simp [pollsLeft, ht, hp]

theorem Inv.polls_le_one (h : Inv n s) (hasked : s.main.asked n k = true)
    {ks : List (LifeLabel τ)} (hrun : run (PoolLife.step n) s ks = .ok s') :
    ks.countP (·.polls k) ≤ 1 := by
  have hbound := countP_le_of_step (fun s => Inv n s ∧ s.main.asked n k = true)
    (fun s => pollsLeft (s.item k)) (·.polls k) (fun _ => false) 0
    (fun _ _ _ h hs => ⟨h.1.step hs, h.1.asked_step (step_move hs) h.2⟩)
    (fun _ _ _ h hs => h.1.pollsLeft_step (step_move hs) h.2) ⟨h, hasked⟩ hrun
  have hone := pollsLeft_le_one (s.item k)
  omega

/-- A cycle with the closure in its queue does not wait in `Poll`. -/
theorem Inv.awake (h : Inv n s) (hasked : s.main.asked n k = true)
    (hp : (s.item k).loop.phase = .polling) :
    0 < (s.item k).loop.counter ∨ s.main = .queued k := by
  obtain ⟨hserved, hreached, -⟩ := h.item k
  rw [hasked] at hserved
  have hruns : Item.Runs (s.item k).loop := by
    cases ht : (s.item k).thread <;> simp only [Item.Reached, ht] at hreached
    case executing => exact hreached
    all_goals simp [hreached, Loop.init] at hp
  have hhalted : Item.halted (s.item k).loop = false := by
    refine Bool.eq_false_iff.mpr fun hh => ?_
    rcases hruns.busy hh with hi | ⟨running, hr⟩
    · cases hp.symm.trans hi
    · cases hp.symm.trans hr
  have hpending := hserved.stop_pending (hserved.order.swapped (by simp [hp])) hhalted
  refine (hserved.announced (by simp [hp]) hpending).symm.imp_right fun hnotifies => ?_
  cases hm : s.main with
  | queued j =>
      rw [hm] at hnotifies
      rw [of_decide_eq_true hnotifies]
  | posted j =>
      rw [hm] at hasked
      cases hasked
  | _ =>
      rw [hm] at hnotifies
      cases hnotifies

end PoolLife

/-- **The life of a pool.**  However the threads take turns: the cycle of an item is used too early
if the main thread gets to it before the thread of the item has made it, and too late if the closure
of `Stop` is called and the cycle deleted before the main thread has notified it; the closure uses
an erased entry if it is called on an item that has sessions; nothing else goes wrong.  The threads
come to rest only when `Stop` has returned.  Then every thread has ended, what the server had queued
has been called, in that order, and no session is left.  From the time the closure is queued on a
cycle, `Poll` returns there once more at most, and it does not wait for its timeout. -/
theorem pool_stops {τ : Type*} {n : ℕ} {ls : List (LifeLabel τ)} {s : PoolLife τ}
    (hrun : run (PoolLife.step n) .init ls = .ok s) :
    (∀ l f, s.step n l = .error (.fault f) ↔
      f = .nullPointer ∧ s.Early n l ∨ f = .useAfterFree ∧ (s.Late l ∨ s.Busy l)) ∧
    ((∀ l, s.step n l = .error .disabled) → s.main = .finished) ∧
    (s.main = .finished → ∀ k, k < n → (s.item k).thread = .ended ∧
      ((s.posts k).map .work).Sublist ((s.item k).loop.started.map Queued.task) ∧
      (s.item k).sessions = .empty) ∧
    ∀ k, s.main.asked n k = true →
      ((s.item k).loop.phase = .polling → 0 < (s.item k).loop.counter ∨ s.main = .queued k) ∧
      ∀ ks s', run (PoolLife.step n) s ks = .ok s' → ks.countP (·.polls k) ≤ 1 := by
  have h := PoolLife.inv_of_run hrun
  refine ⟨h.fault_iff, h.finished_of_rest, ?_, ?_⟩
  · intro hm k hk
    have ht := h.joined k (by simp [hm, MainPoint.joined, hk])
    exact ⟨ht, h.posts_started ht, h.sessions_ended ht⟩
  · intro k hasked
    exact ⟨h.awake hasked, fun ks s' hks => h.polls_le_one hasked hks⟩

/-- A table with one session. -/
def oneSession : OpenSessions :=
  ⟨⟨[(5, { Session.new with state := .connected })], by simp⟩, fun fd session hfind => by
    obtain ⟨e, he, rfl⟩ := Option.map_eq_some_iff.mp hfind
    rw [List.mem_singleton.mp (List.mem_of_find?_eq_some he)]
    rfl⟩

/-- One worker gets a task from the server, which opens a session and closes it, and is stopped. -/
def oneWorker : List (LifeLabel ℕ) :=
  [.main, .create 0, .main, .worker 0 .exec, .worker 0 .loop, .post 0 7, .main, .stop, .main,
    .worker 0 (.pollReturn true), .worker 0 .readNotify, .main, .worker 0 .swap, .worker 0 .start,
    .serve 0 oneSession, .serve 0 .empty, .worker 0 .start, .worker 0 .loop, .reset 0, .main, .main,
    .main]

theorem pool_stops_one : ∃ s, run (PoolLife.step 1) .init oneWorker = .ok s ∧
    s.main = .finished ∧ (s.item 0).thread = .ended ∧
    ((s.posts 0).map .work).Sublist ((s.item 0).loop.started.map Queued.task) ∧
    (s.item 0).sessions = .empty := by
  obtain ⟨s, hrun, hs⟩ := map_eq_ok (f := fun s : PoolLife ℕ => s.main)
    (r := run (PoolLife.step 1) .init oneWorker) (b := .finished) (by decide +kernel)
  obtain ⟨-, -, hend, -⟩ := pool_stops hrun
  exact ⟨s, hrun, hs, hend hs 0 (by decide)⟩

/-- `Stop` comes before the thread has made its cycle. -/
example : stopped (run (PoolLife.step 1) .init
    [(.main : LifeLabel ℕ), .main, .stop, .main]) = some (.fault .nullPointer) := by
  decide +kernel

/-- The worker calls the closure and ends while the main thread is between the `push_back` and
the `Notify`. -/
example : stopped (run (PoolLife.step 1) .init
    [(.main : LifeLabel ℕ), .create 0, .main, .worker 0 .exec, .worker 0 .loop, .stop, .main,
      .worker 0 (.pollReturn false), .worker 0 .swap, .worker 0 .start, .worker 0 .loop, .reset 0,
      .main]) = some (.fault .useAfterFree) := by
  decide +kernel

/-- The closure is called while the worker has a session. -/
example : stopped (run (PoolLife.step 1) .init
    [(.main : LifeLabel ℕ), .create 0, .main, .worker 0 .exec, .worker 0 .loop, .post 0 7, .main,
      .stop, .main, .main, .worker 0 (.pollReturn true), .worker 0 .readNotify, .worker 0 .swap,
      .worker 0 .start, .serve 0 oneSession, .worker 0 .start]) = some (.fault .useAfterFree) := by
  decide +kernel

end Hare.Net
