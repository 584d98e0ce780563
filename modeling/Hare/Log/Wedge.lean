import Hare.Log.ThreadPool

/-!
# Workers that wait for each other

The workers are the only threads that make room in the queue, and they also post into it.
The logger is wedged when the queue is full and every worker that still runs is inside
`Enqueue`: no one will ever take a message again (`Pool.wedged_step`).

Three kinds of step can wedge a logger that was not wedged before: a worker turns to the post
of its `FLUSH` message, another thread fills the last slot, or a worker stops, each of them
when no other worker is left to make room.  `Pool.Roomy` excludes exactly these, and
`Pool.not_wedged_iff_roomy` says that they are the only ones.
-/

namespace Hare.Log

open LabelledRun Util

namespace ThreadState

variable {μ : Type*}

/-- The thread runs. -/
def live : ThreadState μ → Bool
  | .stopped => false
  | _ => true

/-- The thread is in `Enqueue` and has not pushed its message. -/
def inEnqueue : ThreadState μ → Bool
  | .enqueue _ | .blocked _ => true
  | _ => false

end ThreadState

namespace Pool

variable {μ : Type*} {n c : ℕ}

/-- The queue is full and every live worker is inside `Enqueue`, waiting for room. -/
def Wedged (s : Pool μ n c) : Prop :=
  s.queue.full = true ∧ (∃ i, (s.threads (.worker i)).live = true) ∧
    ∀ i, (s.threads (.worker i)).live = true → (s.threads (.worker i)).inEnqueue = true

/-- A worker other than `t` lives. -/
def OtherLives (s : Pool μ n c) (t : Thread n c) : Prop :=
  ∃ i, .worker i ≠ t ∧ (s.threads (.worker i)).live = true

/-- All live workers other than `t` are inside `Enqueue`. -/
def OthersInEnqueue (s : Pool μ n c) (t : Thread n c) : Prop :=
  ∀ i, .worker i ≠ t → (s.threads (.worker i)).live = true →
    (s.threads (.worker i)).inEnqueue = true

/-- The step leaves a worker that can make room.  A worker does not turn to the post of a
`FLUSH` message, nor stop, when the queue is full and all others are inside `Enqueue`; and no
other thread fills the last slot when all workers are. -/
def Roomy (flushOn : μ → Bool) (s : Pool μ n c) : PoolLabel μ n c → Prop
  | .handle t =>
    match s.threads t with
    | .handling (.log msg) =>
      ¬ (flushOn msg = true ∧ s.queue.full = true ∧ s.OthersInEnqueue t)
    | .handling .terminate =>
      ¬ (s.queue.full = true ∧ s.OtherLives t ∧ s.OthersInEnqueue t)
    | _ => True
  | .enqueue t =>
    match t, s.threads t with
    | .worker _, _ => True
    | t, .enqueue _ =>
      ¬ (s.queue.size + 2 = s.queue.maxCapacity ∧ s.OtherLives t ∧ s.OthersInEnqueue t)
    | _, _ => True
  | _ => True

instance (s : Pool μ n c) : Decidable s.Wedged := inferInstanceAs (Decidable (_ ∧ _ ∧ _))

variable {flushOn : μ → Bool} {s s' : Pool μ n c} {l : PoolLabel μ n c} {max : ℕ}
variable {t : Thread n c} {state : ThreadState μ}

/-- A live worker outside `Enqueue` makes room. -/
theorem not_wedged {i : Fin n} (hlive : (s.threads (.worker i)).live = true)
    (hout : (s.threads (.worker i)).inEnqueue = false) : ¬ s.Wedged := by
  rintro ⟨-, -, hall⟩
  rw [hall i hlive] at hout
  cases hout

theorem not_wedged_set {i : Fin n} (hlive : state.live = true)
    (hout : state.inEnqueue = false) : ¬ (s.set (.worker i) state).Wedged :=
  not_wedged (i := i) (by simpa using hlive) (by simpa using hout)

/-- A worker turns to `Enqueue`. -/
theorem wedged_set_inEnqueue {i : Fin n} (hlive : state.live = true)
    (hin : state.inEnqueue = true) :
    (s.set (.worker i) state).Wedged ↔ s.queue.full = true ∧ s.OthersInEnqueue (.worker i) := by
  constructor
  · rintro ⟨hfull, -, hall⟩
    refine ⟨hfull, fun j hj hl => ?_⟩
    have hj' := hall j
    rw [set_other hj] at hj'
    exact hj' hl
  · rintro ⟨hfull, hothers⟩
    refine ⟨hfull, ⟨i, by simpa using hlive⟩, fun j hl => ?_⟩
    by_cases hj : Thread.worker (c := c) j = .worker i
    · rw [hj, set_self]
      exact hin
    · rw [set_other hj] at hl ⊢
      exact hothers j hj hl

/-- A thread leaves the workers that live, or was none of them. -/
theorem wedged_set_of_out (hout : ∀ i, t = .worker i → state.live = false) :
    (s.set t state).Wedged ↔
      s.queue.full = true ∧ s.OtherLives t ∧ s.OthersInEnqueue t := by
  have hne : ∀ i, ((s.set t state).threads (.worker i)).live = true → .worker i ≠ t := by
    rintro i hl rfl
    rw [set_self, hout i rfl] at hl
    cases hl
  constructor
  · rintro ⟨hfull, ⟨i, hl⟩, hall⟩
    refine ⟨hfull, ⟨i, hne i hl, ?_⟩, fun j hj hlj => ?_⟩
    · rw [← set_other (hne i hl)]
      exact hl
    · have hj' := hall j
      rw [set_other hj] at hj'
      exact hj' hlj
  · rintro ⟨hfull, ⟨i, hi, hl⟩, hothers⟩
    refine ⟨hfull, ⟨i, by rw [set_other hi]; exact hl⟩, fun j hlj => ?_⟩
    have hj := hne j hlj
    rw [set_other hj] at hlj ⊢
    exact hothers j hj hlj

/-- Other threads than the workers do not matter. -/
theorem wedged_set_of_not_worker (ht : ∀ i, t ≠ .worker i) :
    (s.set t state).Wedged ↔ s.Wedged := by
  have hsame : ∀ i, (s.set t state).threads (.worker i) = s.threads (.worker i) :=
    fun i => set_other fun h => ht i h.symm
  simp only [Wedged, hsame, set_queue]

/-- A thread that stays inside `Enqueue`. -/
theorem wedged_set_of_inEnqueue (hin : (s.threads t).inEnqueue = true)
    (hin' : state.inEnqueue = true) : (s.set t state).Wedged ↔ s.Wedged := by
  have hlive : ∀ i, ((s.set t state).threads (.worker i)).live =
      (s.threads (.worker i)).live ∧ ((s.set t state).threads (.worker i)).inEnqueue =
        (s.threads (.worker i)).inEnqueue := by
    intro i
    by_cases hi : .worker i = t
    · rw [hi, set_self, hin, hin']
      cases state <;> cases hs : s.threads t <;> simp_all [ThreadState.live, ThreadState.inEnqueue]
    · rw [set_other hi]
      exact ⟨rfl, rfl⟩
  simp only [Wedged, hlive, set_queue]

/-- A thread in the loop of a worker makes room. -/
theorem Fits.not_wedged (h : s.Fits max) (hloop : (s.threads t).inLoop = true)
    (hlive : (s.threads t).live = true) : ¬ s.Wedged := by
  obtain ⟨i, rfl⟩ := h.exists_worker hloop
  refine Pool.not_wedged hlive ?_
  cases hs : s.threads (.worker i) <;> simp_all [ThreadState.inLoop, ThreadState.inEnqueue]

/-- **A wedge is for ever.** -/
theorem wedged_step (hmax : 0 < max) (h : s.Fits max) (hw : s.Wedged)
    (hs : s.step flushOn l = .ok s') : s'.Wedged := by
  have hcap : 0 < s.queue.maxCapacity := h.capacity ▸ hmax
  cases step_eq_ok hs with
  | post hopen ht hmsg => exact (wedged_set_of_not_worker (by simp)).mpr hw
  | destroy hopen hidle => exact hw
  | terminate hleft ht =>
      have hset : (s.set .destructor (.enqueue .terminate)).Wedged ↔ s.Wedged :=
        wedged_set_of_not_worker (by simp)
      exact hset.mpr hw
  | block ht hfull | wakePop ht => exact (wedged_set_of_inEnqueue (by rw [ht]; rfl) rfl).mpr hw
  | push ht hq =>
      obtain ⟨hfull, -⟩ := BlockingQueue.enqueue_eq_some hcap hq
      rw [hw.1] at hfull
      cases hfull
  | notifyPush ht hu => exact absurd hw (h.not_wedged (by rw [hu]; rfl) (by rw [hu]; rfl))
  | @endPush t ht hnone =>
      cases t with
      | worker i => exact absurd hw (Pool.not_wedged (i := i) (by rw [ht]; rfl) (by rw [ht]; rfl))
      | client p => exact (wedged_set_of_not_worker (by simp)).mpr hw
      | destructor => exact (wedged_set_of_not_worker (by simp)).mpr hw
  | wait ht hq | pop ht hq | notifyPop ht hu | endPop ht hnone | handle ht hrec | wakePush ht =>
      exact absurd hw (h.not_wedged (by rw [ht]; rfl) (by rw [ht]; rfl))

/-- What handling a message does to the workers. -/
theorem wedged_handle_iff {i : Fin n} {msg : AsyncMsg μ}
    (ht : s.threads (.worker i) = .handling msg) :
    (s.set (.worker i) (ThreadState.handleMsg flushOn msg)).Wedged ↔
      ¬ s.Roomy flushOn (.handle (.worker i)) := by
  cases msg with
  | log record =>
      cases hflush : flushOn record with
      | true =>
          simp only [ThreadState.handleMsg, hflush, if_true, Roomy, ht, true_and, not_not]
          exact wedged_set_inEnqueue rfl rfl
      | false =>
          simp only [ThreadState.handleMsg, hflush, Roomy, ht, Bool.false_eq_true, false_and,
            not_false_eq_true, not_true_eq_false, iff_false, if_false]
          exact not_wedged_set rfl rfl
  | flush =>
      simp only [ThreadState.handleMsg, Roomy, ht, not_true_eq_false, iff_false]
      exact not_wedged_set rfl rfl
  | terminate =>
      simp only [ThreadState.handleMsg, Roomy, ht, not_not]
      exact wedged_set_of_out fun _ _ => rfl

/-- What a push does to the workers. -/
theorem wedged_push_iff {msg : AsyncMsg μ} {queue : CircularQueue (AsyncMsg μ)}
    {posted : List (AsyncMsg μ)} (hcap : 0 < s.queue.maxCapacity)
    (ht : s.threads t = .enqueue msg) (hq : BlockingQueue.enqueue s.queue msg = some queue) :
    { s.set t .pushed with queue, posted }.Wedged ↔ ¬ s.Roomy flushOn (.enqueue t) := by
  obtain ⟨-, hcontent, hmaxq, -⟩ := BlockingQueue.enqueue_eq_some hcap hq
  have hfull : queue.full = true ↔ s.queue.size + 2 = s.queue.maxCapacity := by
    rw [CircularQueue.full_iff (hmaxq ▸ hcap), hcontent, List.length_append, List.length_singleton,
      CircularQueue.length_content, hmaxq]
  have hothers : (∀ i, t ≠ .worker i) → ({ s.set t .pushed with queue, posted }.Wedged ↔
      s.queue.size + 2 = s.queue.maxCapacity ∧ s.OtherLives t ∧ s.OthersInEnqueue t) := by
    intro hne
    rw [← hfull]
    have hset : ({ s with queue }.set t .pushed).Wedged ↔ queue.full = true ∧
        { s with queue }.OtherLives t ∧ { s with queue }.OthersInEnqueue t :=
      wedged_set_of_out fun i hi => absurd hi (hne i)
    exact hset
  cases t with
  | worker i =>
      simp only [Roomy, not_true_eq_false, iff_false]
      have hset : ¬ ({ s with queue }.set (.worker i) .pushed).Wedged := not_wedged_set rfl rfl
      exact hset
  | client p =>
      simp only [Roomy, ht, not_not]
      exact hothers (by simp)
  | destructor =>
      simp only [Roomy, ht, not_not]
      exact hothers (by simp)

/-- A step wedges the logger exactly when it is not roomy. -/
theorem wedged_step_iff (hmax : 0 < max) (h : s.Fits max) (hw : ¬ s.Wedged)
    (hs : s.step flushOn l = .ok s') : s'.Wedged ↔ ¬ s.Roomy flushOn l := by
  have hcap : 0 < s.queue.maxCapacity := h.capacity ▸ hmax
  have hfits' := fits_step hmax h hs
  cases step_eq_ok hs with
  | post hopen ht hmsg =>
      rw [wedged_set_of_not_worker (by simp)]
      exact iff_of_false hw (not_not_intro trivial)
  | destroy hopen hidle => exact iff_of_false hw (not_not_intro trivial)
  | terminate hleft ht =>
      have hset : (s.set .destructor (.enqueue .terminate)).Wedged ↔ s.Wedged :=
        wedged_set_of_not_worker (by simp)
      exact iff_of_false (fun hw' => hw (hset.mp hw')) (not_not_intro trivial)
  | @block t msg ht hfull =>
      rw [wedged_set_of_inEnqueue (by rw [ht]; rfl) rfl]
      have hroom : s.queue.size + 2 ≠ s.queue.maxCapacity := by
        have := (CircularQueue.full_iff hcap).mp hfull
        rw [CircularQueue.length_content] at this
        omega
      cases t <;> simp [Roomy, ht, hw, hroom]
  | push ht hq => exact wedged_push_iff hcap ht hq
  | @notifyPush t u ht hu =>
      have hne : u ≠ t := fun h => by rw [h, ht] at hu; cases hu
      refine iff_of_false (hfits'.not_wedged (t := u) ?_ ?_) (not_not_intro trivial) <;>
        rw [set_other hne, set_self] <;> rfl
  | @endPush t ht hnone =>
      refine iff_of_false ?_ (not_not_intro trivial)
      cases t with
      | worker i => exact not_wedged_set rfl rfl
      | client p => rwa [wedged_set_of_not_worker (by simp)]
      | destructor => rwa [wedged_set_of_not_worker (by simp)]
  | @pop t msg queue ht hq =>
      have hset : (s.set t (.popped msg)).threads t = .popped msg := set_self ..
      exact iff_of_false (hfits'.not_wedged (t := t) (by rw [hset]; rfl) (by rw [hset]; rfl))
        (not_not_intro trivial)
  | @wait t ht hq | @notifyPop t u msg next ht hu | @endPop t msg ht hnone | @wakePush t ht =>
      exact iff_of_false
        (hfits'.not_wedged (t := t) (by rw [set_self]; rfl) (by rw [set_self]; rfl))
        (not_not_intro trivial)
  | @handle t msg handled ht hrec =>
      obtain ⟨i, rfl⟩ := h.exists_worker (t := t) (by rw [ht]; rfl)
      exact wedged_handle_iff ht
  | wakePop ht =>
      rw [wedged_set_of_inEnqueue (by rw [ht]; rfl) rfl]
      exact iff_of_false hw (not_not_intro trivial)

/-- A step that is not roomy is taken. -/
theorem exists_step_of_not_roomy (hr : ¬ s.Roomy flushOn l) :
    ∃ s', s.step flushOn l = .ok s' := by
  cases l with
  | handle t => cases hs : s.threads t <;> simp_all [Roomy, step]
  | enqueue t =>
      simp only [step]
      split
      case h_1 msg ht => split <;> exact ⟨_, rfl⟩
      case h_2 hother =>
        refine absurd ?_ hr
        cases t <;> simp only [Roomy]
  | _ => exact absurd trivial hr

theorem not_wedged_init [Inhabited μ] : ¬ (init max : Pool μ n c).Wedged := by
  rintro ⟨-, ⟨i, -⟩, hall⟩
  exact Bool.noConfusion (hall i rfl)

/-- **When the logger cannot wedge.**  For every capacity, number of workers and of logging
threads and every interleaving: no state of the run is wedged exactly when every step leaves
a worker that can make room. -/
theorem not_wedged_iff_roomy [Inhabited μ] (hmax : 0 < max) (ls : List (PoolLabel μ n c)) :
    (∀ ks s, ks <+: ls → run (step flushOn) (init max) ks = .ok s → ¬ s.Wedged) ↔
      Meets (step flushOn) (Roomy flushOn) (init max : Pool μ n c) ls := by
  refine invariant_iff (fun s : Pool μ n c => s.Fits max ∧ ¬ s.Wedged) (fun s => ¬ s.Wedged)
    (fun _ => True) ?_ (fun _ h => h.2) ?_ ⟨fits_init, not_wedged_init⟩
    (fun _ _ => trivial)
  · rintro s l s' ⟨hfits, hw⟩ - hroomy hs
    exact ⟨fits_step hmax hfits hs, fun hw' => (wedged_step_iff hmax hfits hw hs).mp hw' hroomy⟩
  · rintro s l ⟨hfits, hw⟩ hroomy
    obtain ⟨s', hs⟩ := exists_step_of_not_roomy hroomy
    exact ⟨s', hs, not_not_intro ((wedged_step_iff hmax hfits hw hs).mpr hroomy)⟩

/-- A queue of one message, one worker, and records of which `true` is at the flush level:
while the worker handles such a record another record fills the queue, and the worker goes to
sleep on it. -/
def wedgingRun : List (PoolLabel Bool 1 1) :=
  let sole : Fin 1 := Fin.last 0
  [.post sole (.log true), .enqueue (.client sole), .notifyPush (.client sole) none,
   .dequeue (.worker sole), .notifyPop (.worker sole) none,
   .post sole (.log false), .enqueue (.client sole), .notifyPush (.client sole) none,
   .handle (.worker sole), .enqueue (.worker sole)]

/-- The equivalence for this run. -/
theorem wedgingRun_equivalence : 0 < 2 ∧
    ((∀ ks (s : Pool Bool 1 1), ks <+: wedgingRun → run (step id) (init 2) ks = .ok s →
        ¬ s.Wedged) ↔ Meets (step id) (Roomy id) (init 2 : Pool Bool 1 1) wedgingRun) :=
  ⟨by decide, not_wedged_iff_roomy (by decide) wedgingRun⟩

theorem wedgingRun_wedged : ∃ s : Pool Bool 1 1,
    run (step id) (init 2) wedgingRun = .ok s ∧ s.Wedged := by
  obtain ⟨s, hrun, hw⟩ := map_eq_ok (f := fun s : Pool Bool 1 1 => decide s.Wedged)
    (r := run (step id) (init 2) wedgingRun) (b := true) (by decide +kernel)
  exact ⟨s, hrun, of_decide_eq_true hw⟩

end Pool

end Hare.Log
