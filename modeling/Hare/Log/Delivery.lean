import Hare.Log.Wakeup
import Hare.Log.Wedge

/-!
# Accepted records

What becomes of the messages posted to an asynchronous logger until its destructor has joined
the workers.  `Ledger` relates the history of a run to the queue and to the threads: messages
are taken in the order of their posts, the `TERMINATE` messages of the destructor come after
all records, and each worker stops on one of them.  It holds in every run.

What can go wrong is that the threads come to rest too early, and by `Pool.rest_cases` that is
the case exactly when the logger is wedged.
-/

namespace Hare.Log

open LabelledRun Util Threads

namespace ThreadState

variable {μ : Type*}

/-- Whether the thread has taken a `TERMINATE` message. -/
def quits : ThreadState μ → ℕ
  | .popped msg | .handling msg => msg.isTerminate.toNat
  | .stopped => 1
  | _ => 0

/-- Whether the thread has a message to push. -/
def posting : ThreadState μ → ℕ
  | .enqueue _ | .blocked _ => 1
  | _ => 0

end ThreadState

namespace Pool

variable {μ : Type*} {n c : ℕ}

/-- The `TERMINATE` messages a thread has taken. -/
def quitsTaken (s : Pool μ n c) (t : Thread n c) : ℕ :=
  s.taken.countP fun e => decide (e.1 = t) && e.2.isTerminate

/-- The history of a run and the state it led to. -/
structure Ledger (s : Pool μ n c) : Prop where
  /-- Messages are taken in the order in which they were posted, each once. -/
  inOrder : s.taken.map Prod.snd ++ s.queue.content = s.posted
  overrun : s.queue.overCounter = 0
  takers : ∀ e ∈ s.taken, ∃ i, e.1 = .worker i
  /-- Before the destructor begins nothing of it is there. -/
  opened : s.remaining = none →
    s.threads .destructor = .idle ∧ s.posted.countP AsyncMsg.isTerminate = 0
  /-- Afterwards no other thread posts from outside. -/
  closed : s.remaining ≠ none → ∀ p, s.threads (.client p) = .idle
  terminates : ∀ k, s.remaining = some k →
    s.posted.countP AsyncMsg.isTerminate + k + (s.threads .destructor).posting = n
  /-- No record is posted behind a `TERMINATE` message. -/
  logsFirst : s.posted.Pairwise fun a b => a.isTerminate = true → b.isLog = false
  quits : ∀ t, s.quitsTaken t = (s.threads t).quits

variable {flushOn : μ → Bool} {s s' : Pool μ n c} {l : PoolLabel μ n c} {max : ℕ}
variable {t u : Thread n c} {state : ThreadState μ}

theorem ledger_init [Inhabited μ] : (init max : Pool μ n c).Ledger where
  inOrder := rfl
  overrun := rfl
  takers := by simp [init]
  opened := fun _ => ⟨rfl, rfl⟩
  closed := fun h => absurd rfl h
  terminates := by simp [init]
  logsFirst := .nil
  quits := fun t => by cases t <;> rfl

/-- The destructor moves only once it has begun, and the other threads outside only before. -/
theorem Ledger.busy (h : s.Ledger) (hbusy : s.threads t ≠ .idle) :
    (t = .destructor → s.remaining ≠ none) ∧ ∀ p, t = .client p → s.remaining = none := by
  constructor
  · rintro rfl hopen
    exact hbusy (h.opened hopen).1
  · rintro p rfl
    by_contra hbegun
    exact hbusy (h.closed hbegun p)

/-- A thread moves inside its code. -/
theorem Ledger.set (h : s.Ledger) (hd : t = .destructor → s.remaining ≠ none)
    (hc : ∀ p, t = .client p → s.remaining = none)
    (hquits : state.quits = (s.threads t).quits)
    (hposting : t = .destructor → state.posting = (s.threads t).posting) :
    (s.set t state).Ledger where
  inOrder := h.inOrder
  overrun := h.overrun
  takers := h.takers
  opened hopen := by
    have hne : .destructor ≠ t := fun heq => hd heq.symm hopen
    rw [set_other hne]
    exact h.opened hopen
  closed hbegun p := by
    have hne : .client p ≠ t := fun heq => hbegun (hc p heq.symm)
    rw [set_other hne]
    exact h.closed hbegun p
  terminates k hk := by
    by_cases ht : .destructor = t
    · subst ht
      rw [set_self, hposting rfl]
      exact h.terminates k hk
    · rw [set_other ht]
      exact h.terminates k hk
  logsFirst := h.logsFirst
  quits u := by
    by_cases hu : u = t
    · rw [hu, set_self, hquits]
      exact h.quits t
    · rw [set_other hu]
      exact h.quits u

/-- A busy thread moves inside its code. -/
theorem Ledger.move (h : s.Ledger) (hbusy : s.threads t ≠ .idle)
    (hquits : state.quits = (s.threads t).quits)
    (hposting : state.posting = (s.threads t).posting) : (s.set t state).Ledger :=
  h.set (h.busy hbusy).1 (h.busy hbusy).2 hquits fun _ => hposting

/-- What a thread can be pushing. -/
theorem Fits.pushes {msg : AsyncMsg μ} (h : s.Fits max) (ht : s.threads t = .enqueue msg) :
    (msg.isTerminate = true ↔ t = .destructor) ∧ (msg.isLog = true → ∃ p, t = .client p) := by
  have hfits := h.threads t
  rw [ht] at hfits
  cases t <;> cases msg <;> simp_all [Thread.fits, AsyncMsg.isTerminate, AsyncMsg.isLog]

theorem Ledger.push {msg : AsyncMsg μ} {queue : CircularQueue (AsyncMsg μ)} (h : s.Ledger)
    (hfits : s.Fits max) (hcap : 0 < s.queue.maxCapacity) (ht : s.threads t = .enqueue msg)
    (hq : BlockingQueue.enqueue s.queue msg = some queue) :
    { s.set t .pushed with queue, posted := s.posted ++ [msg] }.Ledger := by
  obtain ⟨-, hcontent, -, hover⟩ := BlockingQueue.enqueue_eq_some hcap hq
  obtain ⟨hterminate, hlog⟩ := hfits.pushes ht
  obtain ⟨hbegun, hopen⟩ := h.busy (t := t) (by simp [ht])
  have hcount : (s.posted ++ [msg]).countP AsyncMsg.isTerminate =
      s.posted.countP AsyncMsg.isTerminate + if t = .destructor then 1 else 0 := by
    simp [List.countP_append, List.countP_singleton, hterminate]
  have hquits : ∀ u, (s.threads u).quits = ((s.set t .pushed).threads u).quits := by
    intro u
    by_cases hu : u = t
    · rw [hu, set_self, ht]
      rfl
    · rw [set_other hu]
  refine ⟨?_, hover.trans h.overrun, h.takers, fun hnone => ?_, fun hsome p => ?_, fun k hk => ?_,
    ?_, fun u => (h.quits u).trans (hquits u)⟩
  · change s.taken.map Prod.snd ++ queue.content = s.posted ++ [msg]
    rw [hcontent, ← List.append_assoc, h.inOrder]
  · have hne : .destructor ≠ t := fun heq => hbegun heq.symm hnone
    change (s.set t .pushed).threads .destructor = .idle ∧ (s.posted ++ [msg]).countP _ = 0
    rw [set_other hne, hcount, if_neg hne.symm]
    exact h.opened hnone
  · have hne : .client p ≠ t := fun heq => hsome (hopen p heq.symm)
    change (s.set t .pushed).threads (.client p) = .idle
    rw [set_other hne]
    exact h.closed hsome p
  · have hold := h.terminates k hk
    change (s.posted ++ [msg]).countP _ + k + ((s.set t .pushed).threads .destructor).posting = n
    rw [hcount]
    by_cases hd : t = .destructor
    · subst hd
      rw [ht] at hold
      rw [set_self, if_pos rfl]
      simp only [ThreadState.posting] at hold ⊢
      omega
    · rw [set_other (Ne.symm hd), if_neg hd]
      exact hold
  · refine List.pairwise_append.mpr ⟨h.logsFirst, List.pairwise_singleton _ _, ?_⟩
    intro a ha b hb hat
    rw [List.mem_singleton.mp hb]
    by_contra hl
    obtain ⟨p, hp⟩ := hlog (by simpa using hl)
    have hzero := (h.opened (hopen p hp)).2
    exact List.countP_eq_zero.mp hzero a ha hat

theorem Ledger.pop {i : Fin n} {msg : AsyncMsg μ} {queue : CircularQueue (AsyncMsg μ)}
    (h : s.Ledger) (hcap : 0 < s.queue.maxCapacity) (ht : s.threads (.worker i) = .dequeue)
    (hq : BlockingQueue.dequeue s.queue = some (msg, queue)) :
    { s.set (.worker i) (.popped msg) with
      queue, taken := s.taken ++ [(Thread.worker i, msg)] }.Ledger := by
  obtain ⟨hcontent, -, hover⟩ := BlockingQueue.dequeue_eq_some hcap hq
  refine ⟨?_, hover.trans h.overrun, ?_, fun hnone => ?_, fun hsome p => ?_, fun k hk => ?_,
    h.logsFirst, fun u => ?_⟩
  · change (s.taken ++ [(Thread.worker i, msg)]).map Prod.snd ++ queue.content = s.posted
    rw [← h.inOrder, hcontent]
    simp
  · intro e he
    rcases List.mem_append.mp he with hold | hnew
    · exact h.takers e hold
    · exact ⟨i, by rw [List.mem_singleton.mp hnew]⟩
  · change (s.set (.worker i) (.popped msg)).threads .destructor = .idle ∧ _
    rw [set_other (by simp)]
    exact h.opened hnone
  · change (s.set (.worker i) (.popped msg)).threads (.client p) = .idle
    rw [set_other (by simp)]
    exact h.closed hsome p
  · change s.posted.countP _ + k +
      ((s.set (.worker i) (.popped msg)).threads .destructor).posting = n
    rw [set_other (by simp)]
    exact h.terminates k hk
  · have hold := h.quits u
    rw [quitsTaken, List.countP_append, List.countP_singleton]
    change s.quitsTaken u + _ = ((s.set (.worker i) (.popped msg)).threads u).quits
    by_cases hu : u = .worker i
    · rw [hold, hu, set_self, ht]
      cases hm : msg.isTerminate <;> simp [ThreadState.quits, hm]
    · rw [hold, set_other hu]
      simp [Ne.symm hu]

theorem quits_handleMsg (msg : AsyncMsg μ) :
    (ThreadState.handleMsg flushOn msg).quits = (ThreadState.handling msg).quits := by
  cases msg with
  | log record => simp only [ThreadState.handleMsg]; split <;> rfl
  | flush => rfl
  | terminate => rfl

theorem ledger_step (hmax : 0 < max) (hfits : s.Fits max) (h : s.Ledger)
    (hs : s.step flushOn l = .ok s') : s'.Ledger := by
  have hcap : 0 < s.queue.maxCapacity := hfits.capacity ▸ hmax
  cases step_eq_ok hs with
  | post hopen ht hmsg => exact h.set (by simp) (fun _ _ => hopen) (by rw [ht]; rfl) (by simp)
  | destroy hopen hidle =>
      obtain ⟨hd, hzero⟩ := h.opened hopen
      refine ⟨h.inOrder, h.overrun, h.takers, fun hf => (by cases hf), fun _ => hidle, ?_,
        h.logsFirst, h.quits⟩
      rintro k ⟨⟩
      simp [hzero, hd, ThreadState.posting]
  | @terminate k hleft ht =>
      have hbegun : s.remaining ≠ none := by simp [hleft]
      have hold := h.terminates _ hleft
      rw [ht] at hold
      refine ⟨h.inOrder, h.overrun, h.takers, fun hf => (by cases hf), fun _ p => ?_, ?_,
        h.logsFirst, fun u => ?_⟩
      · change (s.set .destructor (.enqueue .terminate)).threads (.client p) = .idle
        rw [set_other (by simp)]
        exact h.closed hbegun p
      · rintro k ⟨⟩
        simp only [set_self, set_posted, ThreadState.posting] at hold ⊢
        omega
      · change s.quitsTaken u = ((s.set .destructor (.enqueue .terminate)).threads u).quits
        by_cases hu : u = .destructor
        · rw [hu, set_self, h.quits, ht]
          rfl
        · rw [set_other hu, h.quits]
  | block ht hfull | wait ht hq | endPop ht hnone | wakePush ht | wakePop ht =>
      exact h.move (by simp [ht]) (by rw [ht]; rfl) (by rw [ht]; rfl)
  | push ht hq => exact h.push hfits hcap ht hq
  | @notifyPush t u ht hu =>
      have hne : t ≠ u := fun heq => by rw [heq, hu] at ht; cases ht
      have hwoken : (s.set u .dequeue).Ledger :=
        h.move (by simp [hu]) (by rw [hu]; rfl) (by rw [hu]; rfl)
      refine hwoken.move (by simp [set_other hne, ht]) ?_ ?_ <;>
        rw [set_other hne, ht] <;> cases t <;> rfl
  | @endPush t ht hnone =>
      refine h.move (by simp [ht]) ?_ ?_ <;> rw [ht] <;> cases t <;> rfl
  | @pop t msg queue ht hq =>
      obtain ⟨i, rfl⟩ := hfits.exists_worker (t := t) (by rw [ht]; rfl)
      exact h.pop hcap ht hq
  | @notifyPop t u msg next ht hu =>
      have hne : t ≠ u := fun heq => by rw [heq, hu] at ht; cases ht
      have hwoken : (s.set u (.enqueue next)).Ledger :=
        h.move (by simp [hu]) (by rw [hu]; rfl) (by rw [hu]; rfl)
      refine hwoken.move (by simp [set_other hne, ht]) ?_ ?_ <;> rw [set_other hne, ht] <;> rfl
  | @handle t msg handled ht hrec =>
      obtain ⟨i, rfl⟩ := hfits.exists_worker (t := t) (by rw [ht]; rfl)
      have hset : (s.set (.worker i) (ThreadState.handleMsg flushOn msg)).Ledger :=
        h.set (by simp) (by simp) (by rw [ht]; exact quits_handleMsg msg) (by simp)
      exact ⟨hset.inOrder, hset.overrun, hset.takers, hset.opened, hset.closed, hset.terminates,
        hset.logsFirst, hset.quits⟩

/-! ## Rest -/

/-- Only workers take `TERMINATE` messages, each at most one. -/
theorem Fits.quits_le (h : s.Fits max) (t : Thread n c) :
    (s.threads t).quits ≤ if ∃ i, t = .worker i then 1 else 0 := by
  split
  case isTrue => cases hs : s.threads t <;> simp [ThreadState.quits, Bool.toNat_le]
  case isFalse hother =>
    have hloop : (s.threads t).inLoop ≠ true := fun hl => hother (h.exists_worker hl)
    cases hs : s.threads t <;> simp_all [ThreadState.inLoop, ThreadState.quits]

theorem sum_workers : ∑ t : Thread n c, (if ∃ i, t = .worker i then 1 else 0) = n := by
  have himage : (Finset.univ.filter fun t : Thread n c => ∃ i, t = .worker i) =
      Finset.univ.image Thread.worker := by
    ext t
    simp [eq_comm]
  rw [← Finset.card_filter, himage, Finset.card_image_of_injective _ fun i j h => by cases h; rfl]
  simp

theorem Ledger.countP_taken (h : s.Ledger) :
    (s.taken.map Prod.snd).countP AsyncMsg.isTerminate = ∑ t, (s.threads t).quits := by
  rw [List.countP_map, ← Finset.sum_congr rfl fun t _ => h.quits t]
  exact (sum_countP_fst AsyncMsg.isTerminate s.taken).symm

/-- While a worker has not taken a `TERMINATE` message, fewer than `n` have been taken. -/
theorem Ledger.taken_lt (h : s.Ledger) (hfits : s.Fits max) {i : Fin n}
    (hi : (s.threads (.worker i)).quits = 0) :
    (s.taken.map Prod.snd).countP AsyncMsg.isTerminate < n := by
  have hlt := Finset.sum_lt_sum (fun t _ => hfits.quits_le t)
    ⟨Thread.worker i, Finset.mem_univ _, by simp [hi]⟩
  rw [h.countP_taken]
  exact hlt.trans_eq sum_workers

/-- When all workers have stopped, `n` of these messages have been taken. -/
theorem Ledger.taken_eq (h : s.Ledger) (hfits : s.Fits max)
    (hstopped : ∀ i, s.threads (.worker i) = .stopped) :
    (s.taken.map Prod.snd).countP AsyncMsg.isTerminate = n := by
  rw [h.countP_taken, Finset.sum_congr rfl fun t _ => ?_]
  · exact sum_workers
  · have hle := hfits.quits_le t
    by_cases hw : ∃ i, t = .worker i
    · obtain ⟨i, rfl⟩ := hw
      simp [hstopped i, ThreadState.quits]
    · rw [if_neg hw] at hle ⊢
      exact Nat.le_zero.mp hle

/-- All workers have stopped, on the `n` messages of the destructor, and no record is left. -/
structure Finished (s : Pool μ n c) : Prop where
  stopped : ∀ i, s.threads (.worker i) = .stopped
  drained : ∀ record, .log record ∉ s.queue.content
  posted : s.posted.countP AsyncMsg.isTerminate = n

/-- A record in the queue is in front of every `TERMINATE` message. -/
theorem Ledger.drained (h : s.Ledger) (ht : 0 < s.quitsTaken t) (record : μ) :
    .log record ∉ s.queue.content := by
  intro hmem
  obtain ⟨e, he, hq⟩ := List.countP_pos_iff.mp ht
  have hterm : e.2.isTerminate = true := (Bool.and_eq_true_iff.mp hq).2
  have hpair := h.logsFirst
  rw [← h.inOrder] at hpair
  have hlog := (List.pairwise_append.mp hpair).2.2 e.2 (List.mem_map_of_mem he) _ hmem hterm
  cases hlog

theorem total_pushNote_eq_zero (hrest : ∀ t, (s.threads t).atRest = true) :
    total ThreadState.pushNote s.threads = 0 :=
  total_eq_zero.mpr fun t => by
    have := hrest t
    cases hs : s.threads t <;> simp_all [ThreadState.atRest, ThreadState.pushNote]

theorem total_popNote_eq_zero (hrest : ∀ t, (s.threads t).atRest = true) :
    total ThreadState.popNote s.threads = 0 :=
  total_eq_zero.mpr fun t => by
    have := hrest t
    cases hs : s.threads t <;> simp_all [ThreadState.atRest, ThreadState.popNote]

/-- No worker is left waiting for messages. -/
theorem Ledger.not_waiting (h : s.Ledger) (hmax : 2 ≤ max) (hfits : s.Fits max)
    (hawake : s.Awake) (hstuck : s.Stuck flushOn) (i : Fin n) :
    s.threads (.worker i) ≠ .waiting := by
  intro hwait
  obtain ⟨hbegun, hrest, hdone⟩ := stuck_iff.mp hstuck
  have hempty : s.queue.content = [] := by
    have hlen := hawake.push ⟨_, hwait⟩
    rw [total_pushNote_eq_zero hrest] at hlen
    exact List.length_eq_zero_iff.mp (Nat.le_zero.mp hlen)
  have hroom : ∀ t msg, s.threads t ≠ .blocked msg := by
    intro t msg ht
    have hlen := hawake.pop ⟨t, msg, ht⟩
    rw [total_popNote_eq_zero hrest, hempty, hfits.capacity] at hlen
    simp only [List.length_nil] at hlen
    omega
  have hidle : s.threads .destructor = .idle := by
    have hfit := hfits.threads .destructor
    have hr := hrest .destructor
    cases hs : s.threads .destructor with
    | idle => rfl
    | blocked msg => exact absurd hs (hroom _ msg)
    | _ => simp_all [Thread.fits, ThreadState.atRest]
  have hall := h.terminates 0 (hdone hidle)
  have horder := h.inOrder
  have hlt := h.taken_lt hfits (i := i) (by rw [hwait]; rfl)
  rw [hempty, List.append_nil] at horder
  rw [hidle] at hall
  rw [horder] at hlt
  simp only [ThreadState.posting] at hall
  omega

/-- **Where the threads come to rest**: at their end, or wedged. -/
theorem rest_cases (hmax : 2 ≤ max) (hn : 0 < n) (hfits : s.Fits max) (h : s.Ledger)
    (hawake : s.Awake) (hstuck : s.Stuck flushOn) : s.Wedged ∨ s.Finished := by
  have hcap : 0 < s.queue.maxCapacity := by rw [hfits.capacity]; omega
  have hrest := (stuck_iff.mp hstuck).2.1
  have hworker : ∀ i, s.threads (.worker i) = .stopped ∨
      ∃ msg, s.threads (.worker i) = .blocked msg := by
    intro i
    have hfit := hfits.threads (.worker i)
    have hwait := h.not_waiting hmax hfits hawake hstuck i
    have hr := hrest (.worker i)
    cases hs : s.threads (.worker i) <;> simp_all [Thread.fits, ThreadState.atRest]
  by_cases hblocked : ∃ i msg, s.threads (.worker i) = .blocked msg
  · left
    obtain ⟨i, msg, hi⟩ := hblocked
    have hlen := hawake.pop ⟨_, msg, hi⟩
    rw [total_popNote_eq_zero hrest] at hlen
    have hsize := CircularQueue.size_lt hcap
    rw [← CircularQueue.length_content] at hsize
    refine ⟨(CircularQueue.full_iff hcap).mpr (by omega), ⟨i, by rw [hi]; rfl⟩, fun j hj => ?_⟩
    rcases hworker j with hstop | ⟨m, hm⟩
    · rw [hstop] at hj
      cases hj
    · rw [hm]
      rfl
  · right
    have hstopped : ∀ i, s.threads (.worker i) = .stopped := fun i =>
      (hworker i).resolve_right fun hb => hblocked ⟨i, hb⟩
    have hquits : 0 < s.quitsTaken (.worker ⟨0, hn⟩) := by
      rw [h.quits, hstopped]
      exact Nat.one_pos
    have htaken := h.taken_eq hfits hstopped
    obtain ⟨k, hk⟩ := Option.ne_none_iff_exists'.mp (stuck_iff.mp hstuck).1
    have hposted := h.terminates k hk
    have hcount := congrArg (List.countP AsyncMsg.isTerminate) h.inOrder
    rw [List.countP_append] at hcount
    exact ⟨hstopped, h.drained hquits, by omega⟩

/-! ## Whole runs -/

/-- What every state of a run satisfies. -/
structure Sound (max : ℕ) (s : Pool μ n c) : Prop where
  fits : s.Fits max
  ledger : s.Ledger
  awake : s.Awake

theorem sound_of_run [Inhabited μ] (hmax : 0 < max) {ls : List (PoolLabel μ n c)}
    (hrun : run (step flushOn) (init max) ls = .ok s) : s.Sound max := by
  refine invariant_of_step (fun s => s.Sound max) (fun s l s' h hs => ?_)
    ⟨fits_init, ledger_init, awake_init⟩ hrun
  exact ⟨fits_step hmax h.fits hs, ledger_step hmax h.fits h.ledger hs,
    awake_step hmax h.fits h.awake hs⟩

/-- A run stays wedged. -/
theorem wedged_of_run (hmax : 0 < max) {ls : List (PoolLabel μ n c)} (hfits : s.Fits max)
    (hw : s.Wedged) (hrun : run (step flushOn) s ls = .ok s') : s'.Wedged :=
  (invariant_of_step (fun s => s.Fits max ∧ s.Wedged)
    (fun _ _ _ h hs => ⟨fits_step hmax h.1 hs, wedged_step hmax h.1 h.2 hs⟩) ⟨hfits, hw⟩ hrun).2

/-- The last state of a run is wedged exactly when a step of the run was not roomy. -/
theorem wedged_iff_of_run [Inhabited μ] (hmax : 0 < max) {ls : List (PoolLabel μ n c)}
    (hrun : run (step flushOn) (init max) ls = .ok s) :
    ¬ s.Wedged ↔ Meets (step flushOn) (Roomy flushOn) (init max : Pool μ n c) ls := by
  constructor
  · intro hw
    by_contra hmeets
    obtain ⟨ks, l, m, ⟨rest, hpre⟩, hks, hroomy⟩ := exists_of_not_meets hmeets
    have hfits := (sound_of_run hmax hks).fits
    obtain ⟨m', hm'⟩ := exists_step_of_not_roomy hroomy
    have hwedged : m'.Wedged := by
      by_cases hm : m.Wedged
      · exact wedged_step hmax hfits hm hm'
      · exact (wedged_step_iff hmax hfits hm hm').mpr hroomy
    rw [← hpre, List.append_assoc, run_append hks, List.singleton_append, run_cons_ok hm'] at hrun
    exact hw (wedged_of_run hmax (fits_step hmax hfits hm') hwedged hrun)
  · intro hmeets
    refine (invariant (fun s => s.Fits max ∧ ¬ s.Wedged) (fun s l s' h hroomy hs => ?_)
      ⟨fits_init, not_wedged_init⟩ hmeets hrun).2
    exact ⟨fits_step hmax h.1 hs, fun hw => (wedged_step_iff hmax h.1 h.2 hs).mp hw hroomy⟩

/-- No accepted record is lost, along a run: messages are taken in the order of their posts,
each once and by a worker, nothing is overrun, a worker stops on one `TERMINATE` message of
its own and behind all records; the threads come to rest by themselves after the last call,
and when they have, every record has been taken and every worker has stopped. -/
structure Delivers [Inhabited μ] (flushOn : μ → Bool) (max : ℕ) (ls : List (PoolLabel μ n c)) :
    Prop where
  inOrder : ∀ ks s, ks <+: ls → run (step flushOn) (init max) ks = .ok s →
    s.taken.map Prod.snd ++ s.queue.content = s.posted ∧
      (∀ e ∈ s.taken, ∃ i, e.1 = .worker i) ∧ s.queue.overCounter = 0
  stops : ∀ ks s i, ks <+: ls → run (step flushOn) (init max) ks = .ok s →
    s.threads (.worker i) = .stopped →
      s.quitsTaken (.worker i) = 1 ∧ ∀ record, .log record ∉ s.queue.content
  rests : ∀ ks s, ks <+: ls → run (step flushOn) (init max) ks = .ok s →
    ∀ os s', (∀ l ∈ os, l.isCall = false) → run (step flushOn) s os = .ok s' →
      (os.map PoolLabel.own).sum ≤ s.work + (os.map PoolLabel.spurious).sum
  finishes : ∀ s, run (step flushOn) (init max) ls = .ok s → s.Stuck flushOn → s.Finished

/-- **No accepted record is lost, unless the workers wait for each other.**  A run whose
threads have come to rest after the destructor began delivers everything exactly when every
step of it left a worker that could make room; all other runs deliver so far. -/
theorem delivers_iff_roomy [Inhabited μ] (hmax : 2 ≤ max) (hn : 0 < n)
    (ls : List (PoolLabel μ n c)) :
    Delivers flushOn max ls ↔ ∀ s, run (step flushOn) (init max) ls = .ok s →
      s.Stuck flushOn → Meets (step flushOn) (Roomy flushOn) (init max : Pool μ n c) ls := by
  have hpos : 0 < max := by omega
  constructor
  · intro hdel s hrun hstuck
    refine (wedged_iff_of_run hpos hrun).mp fun hw => ?_
    obtain ⟨-, ⟨i, hlive⟩, -⟩ := hw
    rw [(hdel.finishes s hrun hstuck).stopped i] at hlive
    cases hlive
  · intro hroomy
    refine ⟨fun ks s _ hrun => ?_, fun ks s i _ hrun hstop => ?_,
      fun ks s _ hrun os s' hown hos => ?_, fun s hrun hstuck => ?_⟩
    · have hledger := (sound_of_run hpos hrun).ledger
      exact ⟨hledger.inOrder, hledger.takers, hledger.overrun⟩
    · have hledger := (sound_of_run hpos hrun).ledger
      have hquits : s.quitsTaken (.worker i) = 1 := by
        rw [hledger.quits, hstop]
        rfl
      exact ⟨hquits, hledger.drained (by rw [hquits]; exact Nat.one_pos)⟩
    · have hbound := sum_le_of_step (fun s => s.Fits max) work PoolLabel.own PoolLabel.spurious
        (fun l => l.isCall = false) (fun _ _ _ => fits_step hpos)
        (fun m l m' hm hl hs => work_step (hm.capacity ▸ hpos) hl hs)
        (sound_of_run hpos hrun).fits hown hos
      omega
    · have hsound := sound_of_run hpos hrun
      refine (rest_cases hmax hn hsound.fits hsound.ledger hsound.awake hstuck).resolve_left ?_
      exact (wedged_iff_of_run hpos hrun).mpr (hroomy s hrun hstuck)

/-- The wedged run with the destructor behind it. -/
def losingRun : List (PoolLabel Bool 1 1) :=
  wedgingRun ++ [.destroy, .terminate, .enqueue .destructor]

theorem losingRun_delivers_iff : 2 ≤ 2 ∧ 0 < 1 ∧
    (Delivers id 2 losingRun ↔ ∀ s : Pool Bool 1 1, run (step id) (init 2) losingRun = .ok s →
      s.Stuck id → Meets (step id) (Roomy id) (init 2 : Pool Bool 1 1) losingRun) :=
  ⟨by decide, by decide, delivers_iff_roomy (by decide) (by decide) losingRun⟩

/-- The second record stays in the queue for ever, and the worker is never joined. -/
theorem record_never_taken : ∃ s : Pool Bool 1 1,
    run (step id) (init 2) losingRun = .ok s ∧ s.Stuck id ∧
      s.posted = [.log true, .log false] ∧ s.taken = [(.worker 0, .log true)] ∧
      s.threads (.worker 0) = .blocked .flush := by
  obtain ⟨s, hrun, hs⟩ := map_eq_ok
    (f := fun s : Pool Bool 1 1 => decide ((s.remaining ≠ none ∧
      (∀ t, (s.threads t).atRest = true) ∧
      (s.threads .destructor = .idle → s.remaining = some 0)) ∧
      s.posted = [.log true, .log false] ∧ s.taken = [(.worker 0, .log true)] ∧
      s.threads (.worker 0) = .blocked .flush))
    (r := run (step id) (init 2) losingRun) (b := true) (by decide +kernel)
  obtain ⟨hstuck, hrest⟩ := of_decide_eq_true hs
  exact ⟨s, hrun, stuck_iff.mpr hstuck, hrest⟩

end Pool

end Hare.Log
