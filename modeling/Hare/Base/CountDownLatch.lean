import Hare.Base.Fault
import Hare.Lib.LabelledRun
import Hare.Lib.Threads

/-!
# The latch

`CountDownLatch` is a counter behind a mutex, with a condition variable for the threads that wait
for zero.  The library uses it in one way: a function puts a latch on its stack, gives it to
closures that run on other threads, calls `Await`, and returns, which destroys the latch.  The last
`CountDown` notifies while it holds the mutex, so the waiting thread can go on only after the other
one has left the latch for good.

The model has a step for each instruction that another thread can see: taking the mutex, the
decrement, the test with its notification, and the release of the mutex.  A wait releases the mutex
and falls asleep at once; it can end without a notification.

`Gate` is the latch as its callers see it: a count, and a thread that gets through at zero.

## Main definitions

* `Latch`, `Latch.step`: the latch, the threads that count down, and the one that waits.
* `Gate`, `Latch.gate`: what the latch is for.
* `Latch.Step`, `Latch.Inv`: what a step can do, and the invariant.

## Main results

* `latch_sound`: no access after the destruction, no lost wake-up, and a bound on the steps.
* `fault_of_timeout`: with a timeout there is an access after the destruction.
-/

namespace Hare.Util

open LabelledRun Threads

/-- Where a thread is in `CountDown`. -/
inductive CountDownPoint
  | before
  /-- With the mutex, before the decrement. -/
  | locked
  /-- With the mutex, after the decrement. -/
  | counted
  /-- With the mutex, after the test. -/
  | tested
  | after
  deriving DecidableEq, Repr

/-- Where the owner of the latch is in `Await`. -/
inductive AwaitPoint
  | before
  /-- With the mutex, before the test of the count. -/
  | testing
  /-- In the wait, without a notification. -/
  | asleep
  /-- In the wait, which has to take the mutex again. -/
  | woken
  /-- With the mutex, after the loop. -/
  | leaving
  | returned
  deriving DecidableEq, Repr

namespace CountDownPoint

/-- The thread has the mutex. -/
@[simp] def holds : CountDownPoint → Bool
  | .locked | .counted | .tested => true
  | .before | .after => false

/-- How often the thread has decremented the count. -/
@[simp] def decrements : CountDownPoint → ℕ
  | .before | .locked => 0
  | .counted | .tested | .after => 1

/-- The steps that are left; the notification may give the owner two more. -/
@[simp] def rank : CountDownPoint → ℕ
  | .before => 6
  | .locked => 5
  | .counted => 4
  | .tested => 1
  | .after => 0

end CountDownPoint

namespace AwaitPoint

/-- The owner has the mutex. -/
@[simp] def holds : AwaitPoint → Bool
  | .testing | .leaving => true
  | .before | .asleep | .woken | .returned => false

/-- The loop of `Await` has ended. -/
@[simp] def left : AwaitPoint → Bool
  | .leaving | .returned => true
  | .before | .testing | .asleep | .woken => false

/-- `notify_all`. -/
@[simp] def notified : AwaitPoint → AwaitPoint
  | .asleep => .woken
  | p => p

@[simp, grind =] theorem holds_notified (p : AwaitPoint) : p.notified.holds = p.holds := by
  cases p <;> rfl

@[simp, grind =] theorem left_notified (p : AwaitPoint) : p.notified.left = p.left := by
  cases p <;> rfl

theorem notified_ne_asleep (p : AwaitPoint) : p.notified ≠ .asleep := by
  cases p <;> simp

/-- The steps that are left if the count is zero. -/
@[simp] def rank : AwaitPoint → ℕ
  | .before | .woken => 6
  | .testing => 5
  | .asleep => 4
  | .leaving => 2
  | .returned => 1

theorem rank_notified_le (p : AwaitPoint) : p.notified.rank ≤ p.rank + 2 := by
  cases p <;> simp

end AwaitPoint

/-- The threads at a latch: `n` that count down, and the owner. -/
inductive Party (n : ℕ)
  | counter (i : Fin n)
  | owner
  deriving DecidableEq, Repr

/-- `--count` of a `uint32_t`. -/
def decremented (count : ℕ) : ℕ := (count + 2 ^ 32 - 1) % 2 ^ 32

theorem decremented_eq {count : ℕ} (hpos : 0 < count) (hlt : count < 2 ^ 32) :
    decremented count = count - 1 := by
  unfold decremented
  omega

/-- A latch, and where the threads are that use it. -/
structure Latch (n : ℕ) where
  /-- A `uint32_t`. -/
  count : ℕ
  mutex : Option (Party n)
  counters : Fin n → CountDownPoint
  owner : AwaitPoint
  destroyed : Bool

inductive LatchLabel (n : ℕ)
  /-- The next instruction of `CountDown`. -/
  | countDown (i : Fin n)
  /-- The next instruction of `Await`. -/
  | await
  /-- The wait ends without a notification: the timeout, or for no reason. -/
  | wake
  /-- The destructor. -/
  | destroy
  deriving DecidableEq, Repr

@[simp] def LatchLabel.spurious {n : ℕ} : LatchLabel n → Bool
  | .wake => true
  | _ => false

/-- The latch as its callers see it. -/
structure Gate where
  count : ℕ
  through : Bool
  deriving DecidableEq, Repr

inductive GateLabel
  | countDown
  | pass
  deriving DecidableEq, Repr

def Gate.step (g : Gate) : GateLabel → Except Stop Gate
  | .countDown => if 0 < g.count then .ok { g with count := g.count - 1 } else .error .disabled
  | .pass =>
      if g.count = 0 ∧ g.through = false then .ok { g with through := true } else .error .disabled

namespace Latch

variable {n : ℕ}

def init (n : ℕ) : Latch n where
  count := n
  mutex := none
  counters _ := .before
  owner := .before
  destroyed := false

def goto (s : Latch n) (i : Fin n) (p : CountDownPoint) : Latch n :=
  { s with counters := Function.update s.counters i p }

section Goto

variable (s : Latch n) (i j : Fin n) (p : CountDownPoint)

@[grind =] theorem goto_counters : (s.goto i p).counters j = if j = i then p else s.counters j := by
  simp [goto, Function.update_apply]

@[simp, grind =] theorem goto_owner : (s.goto i p).owner = s.owner := rfl

@[simp, grind =] theorem goto_count : (s.goto i p).count = s.count := rfl

@[simp, grind =] theorem goto_mutex : (s.goto i p).mutex = s.mutex := rfl

@[simp, grind =] theorem goto_destroyed : (s.goto i p).destroyed = s.destroyed := rfl

end Goto

/-- The next instruction of `CountDown`, on a latch that exists. -/
def countDown (s : Latch n) (i : Fin n) : Except Stop (Latch n) :=
  match s.counters i with
  | .before =>
      if s.mutex = none then .ok { s.goto i .locked with mutex := some (.counter i) }
      else .error .disabled
  | .locked => .ok { s.goto i .counted with count := decremented s.count }
  | .counted =>
      .ok { s.goto i .tested with owner := if s.count = 0 then s.owner.notified else s.owner }
  | .tested => .ok { s.goto i .after with mutex := none }
  | .after => .error .disabled

/-- The next instruction of `Await`.  The wait with a predicate tests the count when it has the
mutex again, as the loop around it does; the one with a timeout leaves the loop. -/
def await (milliseconds : ℤ) (s : Latch n) : Except Stop (Latch n) :=
  match s.owner with
  | .before =>
      if s.mutex = none then .ok { s with mutex := some .owner, owner := .testing }
      else .error .disabled
  | .testing =>
      if 0 < s.count then .ok { s with mutex := none, owner := .asleep }
      else .ok { s with owner := .leaving }
  | .woken =>
      if s.mutex = none then
        .ok { s with
          mutex := some .owner
          owner := if 0 < milliseconds then .leaving else .testing }
      else .error .disabled
  | .leaving => .ok { s with mutex := none, owner := .returned }
  | .asleep | .returned => .error .disabled

def step (milliseconds : ℤ) (s : Latch n) : LatchLabel n → Except Stop (Latch n)
  | .countDown i =>
      if s.destroyed = true ∧ s.counters i ≠ .after then .error (.fault .useAfterFree)
      else s.countDown i
  | .await => s.await milliseconds
  | .wake => if s.owner = .asleep then .ok { s with owner := .woken } else .error .disabled
  | .destroy =>
      if s.owner = .returned ∧ s.destroyed = false then .ok { s with destroyed := true }
      else .error .disabled

def gate (s : Latch n) : Gate := ⟨s.count, s.owner.left⟩

/-! ### What a step can do -/

/-- A step with `Await()`, which waits without a timeout. -/
inductive Step (s : Latch n) : LatchLabel n → Latch n → Prop
  | lock {i : Fin n} (hi : s.counters i = .before) (hfree : s.mutex = none) :
      Step s (.countDown i) { s.goto i .locked with mutex := some (.counter i) }
  | decrement {i : Fin n} (hi : s.counters i = .locked) :
      Step s (.countDown i) { s.goto i .counted with count := decremented s.count }
  | test {i : Fin n} (hi : s.counters i = .counted) :
      Step s (.countDown i)
        { s.goto i .tested with owner := if s.count = 0 then s.owner.notified else s.owner }
  | unlock {i : Fin n} (hi : s.counters i = .tested) :
      Step s (.countDown i) { s.goto i .after with mutex := none }
  | enter (ho : s.owner = .before ∨ s.owner = .woken) (hfree : s.mutex = none) :
      Step s .await { s with mutex := some .owner, owner := .testing }
  | sleep (ho : s.owner = .testing) (hpos : 0 < s.count) :
      Step s .await { s with mutex := none, owner := .asleep }
  | leave (ho : s.owner = .testing) (hzero : s.count = 0) :
      Step s .await { s with owner := .leaving }
  | return_ (ho : s.owner = .leaving) : Step s .await { s with mutex := none, owner := .returned }
  | wake (ho : s.owner = .asleep) : Step s .wake { s with owner := .woken }
  | destroy (ho : s.owner = .returned) (hd : s.destroyed = false) :
      Step s .destroy { s with destroyed := true }

variable {s s' : Latch n} {l : LatchLabel n} {milliseconds : ℤ}

theorem countDown_cases {i : Fin n} (hs : s.countDown i = .ok s') : Step s (.countDown i) s' := by
  unfold countDown at hs
  split at hs
  case h_1 hi =>
    split at hs
    case isTrue hfree =>
      cases hs
      exact .lock hi hfree
    case isFalse => cases hs
  case h_2 hi =>
    obtain rfl := Except.ok.inj hs
    exact .decrement hi
  case h_3 hi =>
    cases hs
    exact .test hi
  case h_4 hi =>
    cases hs
    exact .unlock hi
  case h_5 => cases hs

theorem await_cases (hms : milliseconds ≤ 0) (hs : s.await milliseconds = .ok s') :
    Step s .await s' := by
  unfold await at hs
  split at hs
  case h_1 ho =>
    split at hs
    case isTrue hfree =>
      cases hs
      exact .enter (.inl ho) hfree
    case isFalse => cases hs
  case h_2 ho =>
    split at hs
    case isTrue hpos =>
      cases hs
      exact .sleep ho hpos
    case isFalse hzero =>
      cases hs
      exact .leave ho (Nat.eq_zero_of_not_pos hzero)
  case h_3 ho =>
    rw [if_neg (not_lt.mpr hms)] at hs
    split at hs
    case isTrue hfree =>
      cases hs
      exact .enter (.inr ho) hfree
    case isFalse => cases hs
  case h_4 ho =>
    cases hs
    exact .return_ ho
  all_goals cases hs

theorem step_cases (hms : milliseconds ≤ 0) (hs : s.step milliseconds l = .ok s') :
    Step s l s' := by
  cases l with
  | countDown i =>
      simp only [step] at hs
      split at hs
      · cases hs
      · exact countDown_cases hs
  | await => exact await_cases hms hs
  | wake =>
      simp only [step] at hs
      split at hs
      case isTrue ho =>
        cases hs
        exact .wake ho
      case isFalse => cases hs
  | destroy =>
      simp only [step] at hs
      split at hs
      case isTrue h =>
        cases hs
        exact .destroy h.1 h.2
      case isFalse => cases hs

/-! ### The invariant -/

structure Inv (s : Latch n) : Prop where
  counter_holds : ∀ i, s.mutex = some (.counter i) ↔ (s.counters i).holds = true
  owner_holds : s.mutex = some .owner ↔ s.owner.holds = true
  count_eq : s.count + total CountDownPoint.decrements s.counters = n
  /-- The owner sleeps only while the notification is still to come. -/
  asleep : s.owner = .asleep → 0 < s.count ∨ ∃ i, s.counters i = .counted
  /-- The owner leaves the loop behind all other threads. -/
  left : s.owner.left = true → ∀ i, s.counters i = .after
  destroyed : s.destroyed = true → s.owner = .returned

theorem inv_init : Inv (init n) where
  counter_holds _ := by simp [init]
  owner_holds := by simp [init]
  count_eq := by simp [init, total]
  asleep h := by cases h
  left h := by cases h
  destroyed h := by cases h

namespace Inv

/-- At zero every thread has decremented the count. -/
theorem decrements_of_zero (h : Inv s) (hzero : s.count = 0) (i : Fin n) :
    (s.counters i).decrements = 1 := by
  refine eq_one_of_total (fun p => by cases p <;> simp) ?_ i
  have hsum := h.count_eq
  rw [Fintype.card_fin]
  omega

/-- With the mutex at zero, the owner is alone. -/
theorem after_of_testing (h : Inv s) (ho : s.owner = .testing) (hzero : s.count = 0) (i : Fin n) :
    s.counters i = .after := by
  have hmutex : s.mutex = some .owner := h.owner_holds.mpr (by rw [ho]; rfl)
  have hfree : (s.counters i).holds ≠ true := by
    rw [ne_eq, ← h.counter_holds i, hmutex]
    simp
  have hone := h.decrements_of_zero hzero i
  cases hi : s.counters i <;> simp_all

/-- A thread that has not decremented finds the count positive. -/
theorem count_pos (h : Inv s) {i : Fin n} (hi : (s.counters i).decrements = 0) : 0 < s.count := by
  refine Nat.pos_of_ne_zero fun hzero => ?_
  rw [h.decrements_of_zero hzero i] at hi
  cases hi

theorem count_lt (h : Inv s) (hn : n < 2 ^ 32) : s.count < 2 ^ 32 := by
  have := h.count_eq
  omega

/-- The mutex and the points of the threads stay in step. -/
theorem holds_step (h : Inv s) (hs : Step s l s') :
    (∀ i, s'.mutex = some (.counter i) ↔ (s'.counters i).holds = true) ∧
      (s'.mutex = some .owner ↔ s'.owner.holds = true) := by
  have hc := h.counter_holds
  have ho := h.owner_holds
  cases hs with
  | lock hi hfree => grind [CountDownPoint.holds]
  | decrement hi => grind [CountDownPoint.holds]
  | test hi => grind [CountDownPoint.holds]
  | unlock hi => grind [CountDownPoint.holds]
  | enter ho' hfree => grind [AwaitPoint.holds]
  | sleep ho' hpos => grind [AwaitPoint.holds]
  | leave ho' hzero => grind [AwaitPoint.holds]
  | return_ ho' => grind [AwaitPoint.holds]
  | wake ho' => grind [AwaitPoint.holds]
  | destroy ho' hd => exact ⟨hc, ho⟩

theorem count_step (hn : n < 2 ^ 32) (h : Inv s) (hs : Step s l s') :
    s'.count + total CountDownPoint.decrements s'.counters = n := by
  have hsum := h.count_eq
  have hmove := fun i p => total_update CountDownPoint.decrements s.counters i p
  cases hs with
  | @decrement i hi =>
      have hpos := h.count_pos (i := i) (by rw [hi]; rfl)
      have hone := hmove i .counted
      simp only [hi, CountDownPoint.decrements] at hone
      simp only [goto, decremented_eq hpos (h.count_lt hn)]
      omega
  | @lock i hi => 
      have hzero := hmove i .locked
      simp only [hi, CountDownPoint.decrements] at hzero
      simp only [goto]
      omega
  | @test i hi =>
      have hzero := hmove i .tested
      simp only [hi, CountDownPoint.decrements] at hzero
      simp only [goto]
      omega
  | @unlock i hi =>
      have hzero := hmove i .after
      simp only [hi, CountDownPoint.decrements] at hzero
      simp only [goto]
      omega
  | enter | sleep | leave | return_ | wake | destroy => exact hsum

/-- The notification is still to come when a thread moves that does not send it. -/
theorem asleep_goto (h : Inv s) {i : Fin n} {p : CountDownPoint} (hi : s.counters i ≠ .counted)
    (hasleep : s.owner = .asleep) : 0 < s.count ∨ ∃ j, (s.goto i p).counters j = .counted := by
  refine (h.asleep hasleep).imp_right ?_
  intro ⟨j, hj⟩
  have hne : j ≠ i := by
    rintro rfl
    exact hi hj
  exact ⟨j, by rw [goto_counters, if_neg hne, hj]⟩

theorem asleep_step (h : Inv s) (hs : Step s l s') (hasleep : s'.owner = .asleep) :
    0 < s'.count ∨ ∃ i, s'.counters i = .counted := by
  cases hs with
  | lock hi hfree => exact h.asleep_goto (by rw [hi]; simp) hasleep
  | @decrement i hi => exact .inr ⟨i, by simp [goto_counters]⟩
  | test hi =>
      -- At zero the owner has just been notified.
      refine .inl (Nat.pos_of_ne_zero fun hzero => ?_)
      simp only [goto_count] at hzero
      rw [if_pos hzero] at hasleep
      exact AwaitPoint.notified_ne_asleep _ hasleep
  | unlock hi => exact h.asleep_goto (by rw [hi]; simp) hasleep
  | sleep ho hpos => exact .inl hpos
  | enter | leave | return_ | wake => cases hasleep
  | destroy ho hd => exact h.asleep hasleep

theorem left_step (h : Inv s) (hs : Step s l s') (hleft : s'.owner.left = true) (i : Fin n) :
    s'.counters i = .after := by
  have hl := h.left
  cases hs with
  | lock hi hfree => grind
  | decrement hi => grind
  | test hi => grind
  | unlock hi => grind
  | leave ho hzero => exact h.after_of_testing ho hzero i
  | return_ ho => exact hl (by rw [ho]; rfl) i
  | enter | sleep | wake => cases hleft
  | destroy ho hd => exact hl hleft i

theorem destroyed_step (h : Inv s) (hs : Step s l s') (hd : s'.destroyed = true) :
    s'.owner = .returned := by
  have hdes := h.destroyed
  cases hs with
  | test hi => grind [AwaitPoint.notified]
  | lock | decrement | unlock => exact hdes hd
  | enter | sleep | leave | return_ | wake | destroy => grind

theorem step (hn : n < 2 ^ 32) (h : Inv s) (hs : Step s l s') : Inv s' where
  counter_holds := (h.holds_step hs).1
  owner_holds := (h.holds_step hs).2
  count_eq := h.count_step hn hs
  asleep := h.asleep_step hs
  left := h.left_step hs
  destroyed := h.destroyed_step hs

end Inv

theorem inv_step (hn : n < 2 ^ 32) (hms : milliseconds ≤ 0) (h : Inv s)
    (hs : s.step milliseconds l = .ok s') : Inv s' :=
  h.step hn (step_cases hms hs)

/-! ### Safety -/

/-- When the latch is destroyed, no thread is in `CountDown` or has yet to call it. -/
theorem Inv.step_ne_fault (h : Inv s) (l : LatchLabel n) :
    s.step milliseconds l ≠ .error (.fault .useAfterFree) := by
  cases l with
  | countDown i =>
      have hafter (hd : s.destroyed = true) : s.counters i = .after :=
        h.left (by rw [h.destroyed hd]; rfl) i
      simp only [Latch.step, countDown]
      grind
  | await =>
      simp only [Latch.step, await]
      grind
  | wake =>
      simp only [Latch.step]
      grind
  | destroy =>
      simp only [Latch.step]
      grind

/-- A step is one of the gate, or the gate does not change. -/
theorem Inv.gate_step (hn : n < 2 ^ 32) (h : Inv s) (hs : Step s l s') :
    s'.gate = s.gate ∨ ∃ g, s.gate.step g = .ok s'.gate := by
  cases hs with
  | @decrement i hi =>
      have hpos := h.count_pos (i := i) (by rw [hi]; rfl)
      refine .inr ⟨.countDown, ?_⟩
      simp [gate, Gate.step, hpos, decremented_eq hpos (h.count_lt hn)]
  | leave ho hzero =>
      refine .inr ⟨.pass, ?_⟩
      simp [gate, Gate.step, ho, hzero]
  | enter ho hfree =>
      refine .inl ?_
      rcases ho with ho | ho <;> simp [gate, ho]
  | test hi =>
      refine .inl ?_
      simp only [gate, goto_count]
      split
      · rw [AwaitPoint.left_notified]
      · rfl
  | lock | unlock | destroy => exact .inl rfl
  | sleep ho | return_ ho | wake ho => exact .inl (by simp [gate, ho])

theorem gate_of_run (hn : n < 2 ^ 32) (hms : milliseconds ≤ 0) {ls : List (LatchLabel n)}
    (hrun : run (step milliseconds) (init n) ls = .ok s) :
    Inv s ∧ ∃ gs, run Gate.step ⟨n, false⟩ gs = .ok s.gate := by
  refine invariant_of_step
    (fun s : Latch n => Inv s ∧ ∃ gs, run Gate.step ⟨n, false⟩ gs = .ok s.gate)
    ?_ ⟨inv_init, [], rfl⟩ hrun
  rintro s l s' ⟨h, gs, hgs⟩ hs
  refine ⟨inv_step hn hms h hs, ?_⟩
  rcases h.gate_step hn (step_cases hms hs) with heq | ⟨g, hg⟩
  · exact ⟨gs, by rw [heq, hgs]⟩
  · exact ⟨gs ++ [g], by rw [run_append hgs, run_cons_ok hg, run_nil]⟩

/-! ### Progress -/

/-- The steps that are left, wake-ups without a notification apart. -/
def rank (s : Latch n) : ℕ :=
  total CountDownPoint.rank s.counters + bif s.destroyed then 0 else s.owner.rank

theorem rank_goto (s : Latch n) (i : Fin n) (p : CountDownPoint) :
    total CountDownPoint.rank (s.goto i p).counters + (s.counters i).rank =
      total CountDownPoint.rank s.counters + p.rank :=
  total_update CountDownPoint.rank s.counters i p

theorem Inv.rank_step (h : Inv s) (hs : Step s l s') :
    s'.rank + (!l.spurious).toNat ≤ s.rank + 2 * l.spurious.toNat := by
  have hlive (ho : s.owner ≠ .returned) : s.destroyed = false :=
    Bool.eq_false_iff.mpr fun hd => ho (h.destroyed hd)
  cases hs with
  | @lock i hi =>
      have hmove := s.rank_goto i .locked
      simp only [hi, CountDownPoint.rank] at hmove
      simp only [rank, goto_owner, goto_destroyed, LatchLabel.spurious, Bool.not_false,
        Bool.toNat_true, Bool.toNat_false]
      omega
  | @decrement i hi =>
      have hmove := s.rank_goto i .counted
      simp only [hi, CountDownPoint.rank] at hmove
      simp only [rank, goto_owner, goto_destroyed, LatchLabel.spurious, Bool.not_false,
        Bool.toNat_true, Bool.toNat_false]
      omega
  | @test i hi =>
      -- The rank of the test pays for the owner, who is woken.
      have hmove := s.rank_goto i .tested
      have hle : (if s.count = 0 then s.owner.notified else s.owner).rank ≤ s.owner.rank + 2 := by
        split
        · exact s.owner.rank_notified_le
        · omega
      simp only [hi, CountDownPoint.rank] at hmove
      simp only [rank, goto_destroyed, LatchLabel.spurious, Bool.not_false, Bool.toNat_true,
        Bool.toNat_false]
      cases s.destroyed <;> simp only [cond_true, cond_false] <;> omega
  | @unlock i hi =>
      have hmove := s.rank_goto i .after
      simp only [hi, CountDownPoint.rank] at hmove
      simp only [rank, goto_owner, goto_destroyed, LatchLabel.spurious, Bool.not_false,
        Bool.toNat_true, Bool.toNat_false]
      omega
  | enter ho =>
      have hd := hlive (by rcases ho with ho | ho <;> simp [ho])
      rcases ho with ho | ho <;> simp [rank, ho, hd]
  | sleep ho | leave ho | return_ ho | wake ho =>
      have hd := hlive (by simp [ho])
      simp [rank, ho, hd]
  | destroy ho hd => simp [rank, ho, hd]

/-- A run is as long as the wake-ups without a notification let it be. -/
theorem length_le (hn : n < 2 ^ 32) (hms : milliseconds ≤ 0) {ls : List (LatchLabel n)}
    (hrun : run (step milliseconds) (init n) ls = .ok s) :
    ls.length ≤ 6 * n + 6 + 3 * ls.countP (·.spurious) := by
  have hbound := countP_le_of_step Inv rank (!·.spurious) (·.spurious) 2
    (fun _ _ _ h hs => inv_step hn hms h hs) (fun _ _ _ h hs => h.rank_step (step_cases hms hs))
    inv_init hrun
  have hrank : (init n).rank = 6 * n + 6 := by
    simp [rank, init, total_const, Nat.mul_comm]
  have hlength := ls.length_eq_countP_add_countP (·.spurious)
  simp only [Bool.not_eq_true, Bool.decide_eq_false] at hlength
  omega

/-- A thread that has the mutex is never blocked. -/
theorem holds_of_rest (hd : s.destroyed = false)
    (hrest : ∀ l, l ≠ .wake → s.step milliseconds l = .error .disabled) (i : Fin n) :
    (s.counters i).holds = false := by
  have hi := hrest (.countDown i) (by simp)
  rw [Latch.step, if_neg (by simp [hd]), countDown] at hi
  cases hp : s.counters i <;> simp [hp] at hi ⊢

theorem Inv.free_of_rest (h : Inv s) (hd : s.destroyed = false)
    (hrest : ∀ l, l ≠ .wake → s.step milliseconds l = .error .disabled) : s.mutex = none := by
  cases hm : s.mutex with
  | none => rfl
  | some p =>
      cases p with
      | counter i =>
          rw [h.counter_holds i, holds_of_rest hd hrest i] at hm
          cases hm
      | owner =>
          have ho := hrest .await (by simp)
          rw [h.owner_holds] at hm
          rw [Latch.step, await] at ho
          cases hp : s.owner <;> simp [hp] at hm ho
          split at ho <;> cases ho

/-- The threads stop only when the latch is gone: no wake-up is lost. -/
theorem Inv.destroyed_of_rest (h : Inv s)
    (hrest : ∀ l, l ≠ .wake → s.step milliseconds l = .error .disabled) : s.destroyed = true := by
  by_contra hd
  have hlive : s.destroyed = false := Bool.eq_false_iff.mpr hd
  have hfree := h.free_of_rest hlive hrest
  have hafter (i : Fin n) : s.counters i = .after := by
    have hi := hrest (.countDown i) (by simp)
    have hholds := holds_of_rest hlive hrest i
    rw [Latch.step, if_neg (by simp [hlive]), countDown] at hi
    cases hp : s.counters i <;> simp [hp, hfree] at hi hholds ⊢
  have ho := hrest .await (by simp)
  rw [Latch.step, await] at ho
  cases hp : s.owner with
  | asleep =>
      rcases h.asleep hp with hpos | ⟨i, hi⟩
      · have hsum := h.count_eq
        rw [funext hafter, total_const, Fintype.card_fin, CountDownPoint.decrements] at hsum
        omega
      · rw [hafter i] at hi
        cases hi
  | returned =>
      have hdes := hrest .destroy (by simp)
      simp [Latch.step, hp, hlive] at hdes
  | testing =>
      simp only [hp] at ho
      split at ho <;> cases ho
  | before | woken | leaving => simp [hp, hfree] at ho

end Latch

/-- **The latch does what its callers expect.**  With `Await()`, however the threads take turns: no
thread uses the latch after the owner has destroyed it; the owner returns behind all calls of
`CountDown`; and the latch is the gate it stands for.  The threads come to a stop only when the
owner has returned and the latch is gone, and it takes them a bounded number of steps, unless the
owner is woken for no reason again and again. -/
theorem latch_sound {n : ℕ} (hn : n < 2 ^ 32) {milliseconds : ℤ} (hms : milliseconds ≤ 0)
    {ls : List (LatchLabel n)} {s : Latch n}
    (hrun : run (Latch.step milliseconds) (.init n) ls = .ok s) :
    (∀ l, s.step milliseconds l ≠ .error (.fault .useAfterFree)) ∧
      (s.owner = .returned → ∀ i, s.counters i = .after) ∧
      (∃ gs, run Gate.step ⟨n, false⟩ gs = .ok s.gate) ∧
      ((∀ l, l ≠ .wake → s.step milliseconds l = .error .disabled) → s.destroyed = true) ∧
      ls.length ≤ 6 * n + 6 + 3 * ls.countP (·.spurious) := by
  obtain ⟨h, hgate⟩ := Latch.gate_of_run hn hms hrun
  refine ⟨h.step_ne_fault, fun ho => h.left ?_, hgate, h.destroyed_of_rest,
    Latch.length_le hn hms hrun⟩
  rw [ho]
  rfl

/-- The owner waits, is woken for no reason, waits again, and is notified. -/
def twiceAsleep : List (LatchLabel 1) :=
  let sole : Fin 1 := Fin.last 0
  [.await, .await, .wake, .await, .await, .countDown sole, .countDown sole, .countDown sole,
    .countDown sole, .await, .await, .await, .destroy]

theorem latch_sound_twice : ∃ s, run (Latch.step 0) (.init 1) twiceAsleep = .ok s ∧
    s.owner = .returned ∧ s.counters 0 = .after := by
  obtain ⟨s, hrun, hs⟩ := map_eq_ok (f := fun s : Latch 1 => s.owner)
    (r := run (Latch.step 0) (.init 1) twiceAsleep) (b := .returned) (by decide +kernel)
  exact ⟨s, hrun, hs, (latch_sound (by decide) (by decide) hrun).2.1 hs 0⟩

/-- With a timeout the owner may leave before the others, and they find no latch. -/
theorem fault_of_timeout {n : ℕ} {milliseconds : ℤ} (hms : 0 < milliseconds) (i : Fin n) :
    run (Latch.step milliseconds) (.init n)
      [.await, .await, .wake, .await, .await, .destroy, .countDown i] =
      .error (.fault .useAfterFree) := by
  have hn : 0 < n := Fin.pos i
  simp [run, Latch.step, Latch.init, Latch.await, hms, hn]

end Hare.Util
