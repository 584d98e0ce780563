import Hare.Base.Cycle

/-!
# Calls that wait for a task

Six functions pass a closure to `RunInCycle` that refers to their stack and to a latch on it:
`Cycle::Cancel`, `Connected`, `Send`, `Append` and `Close` of `TcpClient`, and
`TcpServe::AddAcceptor`.  On the cycle thread `RunInCycle` calls the closure at once.  On
another thread it queues the closure, and the function has to wait for the latch before it
returns.  Each function has a test of its own for that, and the one of `Close` is the wrong
way round.

The system is made of the loop of a cycle and any number of calls on any threads.  What the
closures do is left open, but that they may call code of the user, which may make calls
itself.  A closure ends with the `CountDown` of its latch, which is a fault when the call has
gone on and the latch with it.

`waits_iff` says which calls return only after their closures have been run, each once;
`finish_fault` that no other closure than that of `Close` finds its latch gone.
-/

namespace Hare.Net

open LabelledRun Io

/-- The functions that wait for a closure. -/
inductive SyncCall
  | cancel
  | connected
  | send
  | append
  | close
  | addAcceptor
  deriving DecidableEq, Repr

/-- The closures a function passes to `RunInCycle`, one after the other; for each, whether the
latch is awaited afterwards, given whether the thread is that of the cycle.  `Send` and
`Append` call `Connected` first. -/
def SyncCall.sections : SyncCall → List (Bool → Bool)
  | .cancel => [fun inThread => !inThread]
  | .connected => [fun inThread => !inThread]
  | .send => [fun inThread => !inThread, fun inThread => !inThread]
  | .append => [fun inThread => !inThread, fun inThread => !inThread]
  | .close => [fun inThread => inThread]
  | .addAcceptor => [fun inThread => !inThread]

/-- All functions but `Close` wait on other threads. -/
theorem SyncCall.awaits_of_ne {f : SyncCall} (hf : f ≠ .close) {awaits : Bool → Bool}
    (hmem : awaits ∈ f.sections) : awaits false = true := by
  cases f with
  | close => exact absurd rfl hf
  | _ =>
      simp only [sections, List.mem_cons, List.not_mem_nil, or_false, or_self] at hmem
      rw [hmem]
      rfl

/-- Where a call is. -/
inductive Stage
  /-- Before it passes the next closure. -/
  | ready
  /-- In `RunInCycle`, or waiting for the latch. -/
  | passed
  | returned
  deriving DecidableEq, Repr

/-- A closure: the call, and the number of the section it belongs to. -/
abbrev Closure := ℕ × ℕ

/-- A function on the stack of the cycle thread. -/
inductive SyncFrame
  /-- Code of the user. -/
  | user
  /-- A closure that was queued. -/
  | queued (c : Closure)
  /-- A closure that `RunInCycle` has called, in a call on the cycle thread. -/
  | inline (c : Closure)
  /-- A call on the cycle thread, outside its closures. -/
  | call (i : ℕ)
  deriving DecidableEq, Repr

/-- The closure that runs in a frame. -/
@[simp] def SyncFrame.closure? : SyncFrame → Option Closure
  | .queued c | .inline c => some c
  | .user | .call _ => none

/-- The call a frame belongs to. -/
@[simp] def SyncFrame.call? : SyncFrame → Option ℕ
  | .inline c => some c.1
  | .call i => some i
  | .user | .queued _ => none

structure Callers where
  /-- The loop of the cycle; a task that is no closure is one of the user. -/
  loop : Loop (Option Closure)
  stage : ℕ → Stage
  /-- The sections a call has left behind. -/
  left : ℕ → ℕ
  passed : Closure → Bool
  /-- The count of the latch of a closure. -/
  latch : Closure → ℕ
  /-- How often a closure has run to its end. -/
  ran : Closure → ℕ
  stack : List SyncFrame

/-- A step of the system. -/
inductive SyncLabel
  /-- A step of the loop that calls no task. -/
  | cycle (l : LoopLabel (Option Closure))
  /-- The next task is called. -/
  | start
  /-- The callback of an event or of a timer is called. -/
  | callback
  /-- A closure calls code of the user. -/
  | enter
  /-- Code of the user returns. -/
  | resume
  /-- A call passes its next closure to `RunInCycle`. -/
  | pass (i : ℕ)
  /-- The closure on top of the stack ends. -/
  | finish
  /-- A call goes past the wait for its latch. -/
  | leave (i : ℕ)
  /-- A call returns without passing its next closure. -/
  | giveUp (i : ℕ)
  deriving DecidableEq, Repr

namespace Callers

def init : Callers where
  loop := Loop.init
  stage _ := .ready
  left _ := 0
  passed _ := false
  latch _ := 1
  ran _ := 0
  stack := []

def disabled {α : Type} : Except Stop α := .error .disabled

/-- The cycle thread runs code of the user. -/
def userTop (w : Callers) : Bool :=
  match w.stack with
  | [] => w.loop.phase == .idle
  | frame :: _ => frame == .user

/-- A step of the loop can be taken as it is. -/
def passes (w : Callers) : LoopLabel (Option Closure) → Bool
  | .exec | .pollReturn _ | .readNotify | .swap | .loop => w.stack.isEmpty
  | .start => false
  | .queueInCycle inThread task | .runInCycle inThread task =>
    task == none && (!inThread || w.userTop)
  | .exit inThread => !inThread || w.userTop
  | .notify | .notifyExit => true

/-- A step of the loop, with the verdict of the loop on it. -/
def stepLoop (w : Callers) (l : LoopLabel (Option Closure)) : Except Stop Callers :=
  match w.loop.step l with
  | .ok loop => .ok { w with loop }
  | .error r => .error r

/-- A closure ends with the `CountDown` of its latch. -/
def complete (w : Callers) (c : Closure) : Callers :=
  { w with
    latch := Function.update w.latch c (w.latch c - 1)
    ran := Function.update w.ran c (w.ran c + 1) }

/-- The closure of the section a call is in. -/
def current (w : Callers) (i : ℕ) : Closure := (i, w.left i)

/-- The call has passed the closure of its section. -/
def mark (w : Callers) (i : ℕ) : Callers :=
  { w with
    stage := Function.update w.stage i .passed
    passed := Function.update w.passed (w.current i) true }

@[simp] theorem mark_loop (w : Callers) (i : ℕ) : (w.mark i).loop = w.loop := rfl

@[simp] theorem mark_stack (w : Callers) (i : ℕ) : (w.mark i).stack = w.stack := rfl

/-- `RunInCycle` of the next closure of a call.  The cycle is running when the call is
made. -/
def pass (inThread : Bool) (count i : ℕ) (w : Callers) : Except Stop Callers :=
  if w.stage i = .ready ∧ w.left i < count then
    if inThread then
      match w.stack with
      | .user :: _ =>
        if w.left i = 0 then .ok { w.mark i with stack := .inline (w.current i) :: w.stack }
        else disabled
      | .call j :: stack =>
        if j = i then .ok { w.mark i with stack := .inline (w.current i) :: stack }
        else disabled
      | _ => disabled
    else if w.left i = 0 ∧ w.loop.phase = .idle then disabled
    else (w.mark i).stepLoop (.runInCycle false (some (w.current i)))
  else
    disabled

/-- The closure on top of the stack ends. -/
def finish (w : Callers) : Except Stop Callers :=
  match w.stack with
  | .queued c :: stack =>
    -- the latch is on the stack of a call that has left the section
    if c.2 < w.left c.1 then .error (.fault .useAfterFree)
    else .ok ({ w with stack }.complete c)
  | .inline c :: stack => .ok ({ w with stack := .call c.1 :: stack }.complete c)
  | _ => disabled

/-- The stack without the frame of a call that returns; missing when a call on the cycle
thread has not the control. -/
def returns (inThread : Bool) (i : ℕ) (w : Callers) : Option (List SyncFrame) :=
  if inThread then
    match w.stack with
    | .call j :: stack => if j = i then some stack else none
    | _ => none
  else
    some w.stack

/-- A call goes past the wait for its latch. -/
def leave (sections : List (Bool → Bool)) (inThread : Bool) (i : ℕ) (w : Callers) :
    Except Stop Callers :=
  match w.stage i, sections[w.left i]?, w.returns inThread i with
  | .passed, some awaits, some stack =>
    if awaits inThread && w.latch (w.current i) ≠ 0 then disabled
    else
      let w' := { w with left := Function.update w.left i (w.left i + 1) }
      if w.left i + 1 = sections.length then
        .ok { w' with stage := Function.update w.stage i .returned, stack }
      else
        .ok { w' with stage := Function.update w.stage i .ready }
  | _, _, _ => disabled

/-- A call returns before its next closure, because `Connected` has answered false or a buffer
takes no more. -/
def giveUp (inThread : Bool) (i : ℕ) (w : Callers) : Except Stop Callers :=
  match w.returns inThread i with
  | some stack =>
    if w.stage i = .ready ∧ 0 < w.left i then
      .ok { w with stage := Function.update w.stage i .returned, stack }
    else
      disabled
  | none => disabled

/-- The system, for given functions and threads of the calls. -/
def step (prog : ℕ → SyncCall × Bool) (w : Callers) : SyncLabel → Except Stop Callers
  | .cycle l => if w.passes l then w.stepLoop l else disabled
  | .start =>
    match w.stack, w.loop.functions with
    | [], q :: _ =>
      match w.stepLoop .start with
      | .ok w =>
        match q.task with
        | some c => .ok { w with stack := [.queued c] }
        | none => .ok { w with stack := [.user] }
      | .error r => .error r
    | _, _ => disabled
  | .callback =>
    match w.loop.phase, w.stack with
    | .handling _, [] => .ok { w with stack := [.user] }
    | _, _ => disabled
  | .enter =>
    match w.stack with
    | .queued _ :: _ | .inline _ :: _ => .ok { w with stack := .user :: w.stack }
    | _ => disabled
  | .resume =>
    match w.stack with
    | .user :: stack => .ok { w with stack }
    | _ => disabled
  | .pass i => pass (prog i).2 (prog i).1.sections.length i w
  | .finish => w.finish
  | .leave i => leave (prog i).1.sections (prog i).2 i w
  | .giveUp i => giveUp (prog i).2 i w

/-- What should hold of a call: however the steps are interleaved, once it has returned every
closure it has passed has run to its end exactly once. -/
def Waits (prog : ℕ → SyncCall × Bool) (i : ℕ) : Prop :=
  ∀ ls w, run (step prog) init ls = .ok w → w.stage i = .returned →
    ∀ k, w.passed (i, k) = true → w.ran (i, k) = 1

/-! ## Moves -/

/-- What a step can do. -/
inductive Move (prog : ℕ → SyncCall × Bool) (w : Callers) : Callers → Prop
  | loop {l : LoopLabel (Option Closure)} {loop : Loop (Option Closure)}
      (hs : Loop.Step w.loop l loop) (hl : l ≠ .start) (hpush : ∀ c, l.pushes ≠ some (some c)) :
      Move prog w { w with loop }
  | start {q : Queued (Option Closure)} {functions : List (Queued (Option Closure))}
      {loop : Loop (Option Closure)} (hs : Loop.Step w.loop .start loop) (hstack : w.stack = [])
      (hfun : w.loop.functions = q :: functions) :
      Move prog w { w with loop, stack := [(q.task.map SyncFrame.queued).getD .user] }
  | user : Move prog w { w with stack := .user :: w.stack }
  | resume {stack : List SyncFrame} (hstack : w.stack = .user :: stack) :
      Move prog w { w with stack }
  /-- A closure is passed on another thread. -/
  | queue {i : ℕ} {loop : Loop (Option Closure)} (hready : w.stage i = .ready)
      (hother : (prog i).2 = false)
      (hs : Loop.Step w.loop (.runInCycle false (some (w.current i))) loop) :
      Move prog w { w.mark i with loop }
  /-- A first closure is passed on the cycle thread. -/
  | first {i : ℕ} (hready : w.stage i = .ready) (hown : (prog i).2 = true)
      (hleft : w.left i = 0) :
      Move prog w { w.mark i with stack := .inline (w.current i) :: w.stack }
  /-- A further closure is passed on the cycle thread. -/
  | next {i : ℕ} {stack : List SyncFrame} (hready : w.stage i = .ready)
      (hown : (prog i).2 = true) (hstack : w.stack = .call i :: stack) :
      Move prog w { w.mark i with stack := .inline (w.current i) :: stack }
  | finishQueued {c : Closure} {stack : List SyncFrame} (hstack : w.stack = .queued c :: stack) :
      Move prog w ({ w with stack }.complete c)
  | finishInline {c : Closure} {stack : List SyncFrame} (hstack : w.stack = .inline c :: stack) :
      Move prog w ({ w with stack := .call c.1 :: stack }.complete c)
  /-- A section is left, and the call goes on or returns. -/
  | leave {i : ℕ} {stage : Stage} {awaits : Bool → Bool} {stack stack' : List SyncFrame}
      (hpassed : w.stage i = .passed) (hstage : stage ≠ .passed)
      (hawaits : (prog i).1.sections[w.left i]? = some awaits)
      (hlatch : awaits (prog i).2 = true → w.latch (w.current i) = 0)
      (hreturns : w.returns (prog i).2 i = some stack')
      (hstack : stack = w.stack ∨ stack = stack') :
      Move prog w { w with
        left := Function.update w.left i (w.left i + 1)
        stage := Function.update w.stage i stage, stack }
  | giveUp {i : ℕ} {stack : List SyncFrame} (hready : w.stage i = .ready) (hleft : 0 < w.left i)
      (hreturns : w.returns (prog i).2 i = some stack) :
      Move prog w { w with stage := Function.update w.stage i .returned, stack }

variable {prog : ℕ → SyncCall × Bool} {w w' : Callers} {i : ℕ} {stack : List SyncFrame}

theorem stepLoop_eq_ok {l : LoopLabel (Option Closure)} (h : w.stepLoop l = .ok w') :
    ∃ loop, Loop.Step w.loop l loop ∧ w' = { w with loop } := by
  unfold stepLoop at h
  split at h
  · next loop hloop => cases h; exact ⟨loop, Loop.step_of_ok hloop, rfl⟩
  · cases h

theorem pass_move (h : pass (prog i).2 (prog i).1.sections.length i w = .ok w') :
    Move prog w w' := by
  unfold pass at h
  split at h
  · next hready =>
      split at h
      · next hown =>
          split at h
          · next hstack =>
              split at h
              · next hleft => cases h; exact .first hready.1 hown hleft
              · cases h
          · next j stack hstack =>
              split at h
              · next hji =>
                  cases h
                  subst hji
                  exact .next hready.1 hown hstack
              · cases h
          · cases h
      · next hother =>
          split at h
          · cases h
          · obtain ⟨loop, hs, rfl⟩ := stepLoop_eq_ok h
            exact .queue hready.1 (by simpa using hother) hs
  · cases h

theorem leave_move (h : leave (prog i).1.sections (prog i).2 i w = .ok w') :
    Move prog w w' := by
  unfold leave at h
  split at h
  · next awaits stack hpassed hawaits hreturns =>
      split at h
      · cases h
      next hlatch =>
        have hlatch : awaits (prog i).2 = true → w.latch (w.current i) = 0 := by
          simpa using hlatch
        simp only at h
        split at h <;> cases h
        · exact .leave hpassed (by simp) hawaits hlatch hreturns (Or.inr rfl)
        · exact .leave hpassed (by simp) hawaits hlatch hreturns (Or.inl rfl)
  · cases h

theorem giveUp_move (h : giveUp (prog i).2 i w = .ok w') : Move prog w w' := by
  unfold giveUp at h
  split at h
  · next stack hreturns =>
      split at h <;> cases h
      next hready => exact .giveUp hready.1 hready.2 hreturns
  · cases h

/-- A loop step that is taken as it is starts no task and pushes no closure. -/
theorem passes_spec {l : LoopLabel (Option Closure)} (h : w.passes l = true) :
    l ≠ .start ∧ ∀ c, l.pushes ≠ some (some c) := by
  cases l with
  | start => cases h
  | queueInCycle inThread task | runInCycle inThread task =>
      have htask : task = none := by simp_all [passes]
      subst htask
      cases inThread <;> simp [LoopLabel.pushes]
  | _ => simp [LoopLabel.pushes]

/-- Every step that is taken is a move. -/
theorem step_move {l : SyncLabel} (h : step prog w l = .ok w') : Move prog w w' := by
  cases l <;> simp only [step] at h
  case cycle l =>
    split at h
    · next hl =>
        obtain ⟨loop, hs, rfl⟩ := stepLoop_eq_ok h
        exact .loop hs (passes_spec hl).1 (passes_spec hl).2
    · cases h
  case start =>
    split at h
    · next q functions hstack hfun =>
        split at h
        · next w₁ hloop =>
            obtain ⟨loop, hs, rfl⟩ := stepLoop_eq_ok hloop
            have hmove := @Move.start prog w q functions loop hs hstack hfun
            split at h <;> cases h <;> simp_all
        · cases h
    · cases h
  case callback =>
    split at h <;> cases h
    next hstack =>
      have hmove := @Move.user prog w
      rwa [hstack] at hmove
  case enter =>
    split at h <;> cases h <;> exact .user
  case resume =>
    split at h <;> cases h
    next hstack => exact .resume hstack
  case pass i => exact pass_move h
  case finish =>
    unfold finish at h
    split at h
    · next hstack =>
        split at h <;> cases h
        exact .finishQueued hstack
    · next hstack =>
        cases h
        exact .finishInline hstack
    · cases h
  case leave i => exact leave_move h
  case giveUp i => exact giveUp_move h

/-! ## The invariant -/

/-- How often a closure is running. -/
def running (stack : List SyncFrame) (c : Closure) : ℕ := stack.countP (·.closure? = some c)

/-- How many frames belong to a call. -/
def framesOf (stack : List SyncFrame) (i : ℕ) : ℕ := stack.countP (·.call? = some i)

@[simp] theorem running_nil (c : Closure) : running [] c = 0 := rfl

@[simp] theorem framesOf_nil (i : ℕ) : framesOf [] i = 0 := rfl

@[simp] theorem running_cons (f : SyncFrame) (stack : List SyncFrame) (c : Closure) :
    running (f :: stack) c = running stack c + if f.closure? = some c then 1 else 0 := by
  simp only [running, List.countP_cons, decide_eq_true_eq]

@[simp] theorem framesOf_cons (f : SyncFrame) (stack : List SyncFrame) (i : ℕ) :
    framesOf (f :: stack) i = framesOf stack i + if f.call? = some i then 1 else 0 := by
  simp only [framesOf, List.countP_cons, decide_eq_true_eq]

/-- The calls that wait where it is needed: all but `Close` on another thread. -/
def Guarded (prog : ℕ → SyncCall × Bool) (i : ℕ) : Prop :=
  (prog i).1 = .close → (prog i).2 = true

/-- What holds in every state. -/
structure Inv (prog : ℕ → SyncCall × Bool) (w : Callers) : Prop where
  order : w.loop.InOrder
  /-- A closure that has been passed is queued, or runs, or has run once. -/
  placed : ∀ c, w.loop.waiting.count (some c) + running w.stack c + w.ran c =
    (w.passed c).toNat
  latch : ∀ c, w.latch c + w.ran c = 1
  /-- Calls on the cycle thread queue nothing. -/
  own : ∀ c, (prog c.1).2 = true → some c ∉ w.loop.waiting ∧ SyncFrame.queued c ∉ w.stack
  single : ∀ i, framesOf w.stack i ≤
    if w.stage i = .ready ∧ w.left i = 0 then 0 else 1
  upto : ∀ {i k}, w.passed (i, k) = true → k < w.left i ∨ k = w.left i ∧ w.stage i = .passed
  begun : ∀ {i}, w.stage i = .passed → w.passed (i, w.left i) = true
  waited : ∀ {i}, Guarded prog i → ∀ {k}, k < w.left i → w.passed (i, k) = true →
    w.ran (i, k) = 1

theorem inv_init : Inv prog init where
  order := Loop.inOrder_init
  placed c := by simp [init, Loop.init, Loop.waiting]
  latch c := rfl
  own c _ := by simp [init, Loop.init, Loop.waiting]
  single i := by simp [init]
  upto h := by cases h
  begun h := by cases h
  waited _ _ h := absurd h (Nat.not_lt_zero _)

theorem returns_eq_some {inThread : Bool}
    (h : w.returns inThread i = some stack) :
    inThread = true ∧ w.stack = .call i :: stack ∨ inThread = false ∧ stack = w.stack := by
  unfold returns at h
  split at h
  · next hown =>
      split at h
      · next j rest hstack =>
          split at h
          · next hji =>
              cases h
              exact Or.inl ⟨hown, hji ▸ hstack⟩
          · cases h
      · cases h
  · next hother =>
      cases h
      exact Or.inr ⟨by simpa using hother, rfl⟩

section Returns

variable {i : ℕ} {stack : List SyncFrame} (h : stack = w.stack ∨ w.stack = .call i :: stack)
include h

theorem closures_of_returns (c : Closure) :
    running stack c = running w.stack c := by
  rcases h with rfl | h
  · rfl
  · simp [h, SyncFrame.closure?]

theorem calls_of_returns (j : ℕ) :
    framesOf stack j ≤ framesOf w.stack j := by
  rcases h with rfl | h
  · exact le_rfl
  · simp [h]

theorem mem_of_returns {f : SyncFrame} (hf : f ∈ stack) : f ∈ w.stack := by
  rcases h with rfl | h
  · exact hf
  · simp [h, hf]

end Returns

namespace Inv

theorem fresh (h : Inv prog w) (hready : w.stage i = .ready) :
    w.passed (w.current i) = false := by
  by_contra hne
  rcases h.upto (by simpa [current] using hne) with hlt | ⟨-, hpassed⟩
  · exact lt_irrefl _ hlt
  · rw [hready] at hpassed
    cases hpassed

/-- A change of the loop and of the stack that moves no closure and no call. -/
theorem shift (h : Inv prog w) {loop : Loop (Option Closure)}
    (horder : loop.InOrder)
    (hplaced : ∀ c, loop.waiting.count (some c) + running stack c =
      w.loop.waiting.count (some c) + running w.stack c)
    (hown : ∀ c, (prog c.1).2 = true → some c ∉ loop.waiting ∧ SyncFrame.queued c ∉ stack)
    (hsingle : ∀ i, framesOf stack i = framesOf w.stack i) :
    Inv prog { w with loop, stack } where
  order := horder
  placed c := by rw [hplaced]; exact h.placed c
  latch := h.latch
  own := hown
  single i := by rw [hsingle]; exact h.single i
  upto := h.upto
  begun := h.begun
  waited := h.waited

/-- A call passes a closure: it is queued, or it runs in a frame of the call. -/
theorem mark (h : Inv prog w) {loop : Loop (Option Closure)}
    (hready : w.stage i = .ready) (horder : loop.InOrder)
    (hplaced : ∀ c, loop.waiting.count (some c) + running stack c =
      w.loop.waiting.count (some c) + running w.stack c +
        if w.current i = c then 1 else 0)
    (hown : ∀ c, (prog c.1).2 = true → some c ∉ loop.waiting ∧ SyncFrame.queued c ∉ stack)
    (hsingle : ∀ j, framesOf stack j ≤
      if j = i then 1 else framesOf w.stack j) :
    Inv prog { w.mark i with loop, stack } where
  order := horder
  placed c := by
    have hold := h.placed c
    have hnew := h.fresh hready
    simp only [Callers.mark, hplaced]
    by_cases hc : w.current i = c
    · subst hc
      simp_all
    · simp_all [Ne.symm hc]
  latch := h.latch
  own := hown
  single j := by
    have hj := hsingle j
    have hold := h.single j
    simp only [Callers.mark]
    by_cases hji : j = i
    · subst hji
      simpa using hj
    · rw [if_neg hji] at hj
      simpa [hji] using hj.trans hold
  upto {j k} hp := by
    have hold := @h.upto j k
    simp only [Callers.mark, current] at hp ⊢
    by_cases hji : j = i
    · subst hji
      grind
    · grind
  begun {j} hp := by
    have hold := @h.begun j
    simp only [Callers.mark, current] at hp ⊢
    grind
  waited {j} hg {k} hk hp := by
    simp only [Callers.mark, current] at hk hp ⊢
    have hold := @h.waited j hg k hk
    grind

/-- A closure ends. -/
theorem complete (h : Inv prog w) {c : Closure}
    (hrun : ∀ d, running stack d + (if c = d then 1 else 0) = running w.stack d)
    (hown : ∀ d, SyncFrame.queued d ∈ stack → SyncFrame.queued d ∈ w.stack)
    (hsingle : ∀ i, framesOf stack i = framesOf w.stack i) :
    Inv prog ({ w with stack }.complete c) := by
  have hzero : w.ran c = 0 := by
    have hplaced := h.placed c
    have hc := hrun c
    have := Bool.toNat_le (w.passed c)
    simp at hc
    omega
  have hone : w.latch c = 1 := by
    have := h.latch c
    omega
  refine ⟨h.order, fun d => ?_, fun d => ?_, fun d hd => ?_, fun i => ?_, h.upto, h.begun,
    fun {i} hg {k} hk hp => ?_⟩
  · have hplaced := h.placed d
    have hd := hrun d
    simp only [Callers.complete]
    by_cases hdc : c = d
    · subst hdc
      simp_all
      omega
    · simp_all [Ne.symm hdc]
  · have hlatch := h.latch d
    simp only [Callers.complete]
    by_cases hdc : d = c
    · subst hdc
      simp [hzero, hone]
    · simpa [hdc] using hlatch
  · obtain ⟨hw, hs⟩ := h.own d hd
    exact ⟨hw, fun hmem => hs (hown d hmem)⟩
  · simp only [Callers.complete]
    rw [hsingle]
    exact h.single i
  · simp only [Callers.complete]
    by_cases hdc : (i, k) = c
    · subst hdc
      simp [hzero]
    · rw [Function.update_of_ne hdc]
      exact h.waited hg hk hp

/-- On the cycle thread, the closure of a call whose frame is on top is not running. -/
theorem running_eq_zero (h : Inv prog w)
    (hown : (prog i).2 = true) (hpassed : w.stage i = .passed)
    (hstack : w.stack = .call i :: stack) : running w.stack (w.current i) = 0 := by
  have hsingle := h.single i
  have hnone : framesOf stack i = 0 := by simpa [hpassed, hstack] using hsingle
  rw [framesOf, List.countP_eq_zero] at hnone
  rw [running, List.countP_eq_zero]
  intro f hf hclosure
  cases f with
  | user | call j => simp at hclosure
  | queued c =>
      have hc : c = w.current i := by simpa using hclosure
      exact (h.own (w.current i) hown).2 (hc ▸ hf)
  | inline c =>
      have hc : c = w.current i := by simpa using hclosure
      have hf : SyncFrame.inline c ∈ stack := by simpa [hstack] using hf
      exact hnone _ hf (by simp [hc, current])

/-- The closure of the section a guarded call leaves has run. -/
theorem ran_of_leave (h : Inv prog w) {awaits : Bool → Bool}
    (hg : Guarded prog i) (hpassed : w.stage i = .passed)
    (hawaits : (prog i).1.sections[w.left i]? = some awaits)
    (hlatch : awaits (prog i).2 = true → w.latch (w.current i) = 0)
    (hreturns : w.returns (prog i).2 i = some stack) : w.ran (w.current i) = 1 := by
  rcases returns_eq_some hreturns with ⟨hown, hstack⟩ | ⟨hother, -⟩
  · have hplaced := h.placed (w.current i)
    have hpass : w.passed (w.current i) = true := h.begun hpassed
    have hwaiting := List.count_eq_zero.mpr (h.own (w.current i) hown).1
    rw [hpass, hwaiting, h.running_eq_zero hown hpassed hstack] at hplaced
    simpa using hplaced
  · have hne : (prog i).1 ≠ .close := fun hclose => by simp [hg hclose] at hother
    rw [hother] at hlatch
    have hzero := hlatch (SyncCall.awaits_of_ne hne (List.mem_of_getElem? hawaits))
    have hone := h.latch (w.current i)
    omega

/-- A call has the sections before `k` behind it and is in none. -/
theorem retire (h : Inv prog w) {i k : ℕ} {stage : Stage}
    (hstage : stage ≠ .passed) (hk : k ≠ 0) (hupto : ∀ {m}, w.passed (i, m) = true → m < k)
    (hran : Guarded prog i → ∀ {m}, m < k → w.passed (i, m) = true → w.ran (i, m) = 1)
    (hstack : stack = w.stack ∨ w.stack = .call i :: stack) :
    Inv prog { w with
      left := Function.update w.left i k, stage := Function.update w.stage i stage, stack } := by
  refine ⟨h.order, fun c => ?_, h.latch, fun c hc => ?_, fun j => ?_, fun {j m} hp => ?_,
    fun {j} hp => ?_, fun {j} hg {m} hm hp => ?_⟩
  · rw [closures_of_returns hstack]
    exact h.placed c
  · exact ⟨(h.own c hc).1, fun hq => (h.own c hc).2 (mem_of_returns hstack hq)⟩
  · refine (calls_of_returns hstack j).trans ?_
    have hsingle := h.single j
    by_cases hji : j = i
    · subst hji
      simp only [Function.update_self, hk, and_false, if_false]
      exact hsingle.trans (by split <;> omega)
    · simpa [hji] using hsingle
  · by_cases hji : j = i
    · subst hji
      simpa using Or.inl (hupto hp)
    · simpa [hji] using h.upto hp
  · by_cases hji : j = i
    · subst hji
      simp [hstage] at hp
    · simp only [Function.update_of_ne hji] at hp ⊢
      exact h.begun hp
  · by_cases hji : j = i
    · subst hji
      exact hran hg (by simpa using hm) hp
    · exact h.waited hg (by simpa [hji] using hm) hp

/-- A call leaves a section. -/
theorem leave (h : Inv prog w) {stage : Stage}
    (hstage : stage ≠ .passed) (hran : Guarded prog i → w.ran (w.current i) = 1)
    (hstack : stack = w.stack ∨ w.stack = .call i :: stack) :
    Inv prog { w with
      left := Function.update w.left i (w.left i + 1)
      stage := Function.update w.stage i stage, stack } := by
  refine h.retire hstage (Nat.succ_ne_zero _) (fun hp => ?_) (fun hg {m} hm hp => ?_) hstack
  · rcases h.upto hp with hlt | ⟨heq, -⟩ <;> omega
  · rcases Nat.lt_succ_iff_lt_or_eq.mp hm with hlt | rfl
    · exact h.waited hg hlt hp
    · exact hran hg

/-- A call returns early. -/
theorem giveUp (h : Inv prog w) (hready : w.stage i = .ready)
    (hleft : 0 < w.left i) (hstack : stack = w.stack ∨ w.stack = .call i :: stack) :
    Inv prog { w with stage := Function.update w.stage i .returned, stack } := by
  have hupto : ∀ {m}, w.passed (i, m) = true → m < w.left i := fun hp => by
    simpa [hready] using h.upto hp
  have hstage : Stage.returned ≠ .passed := by simp
  simpa using h.retire hstage hleft.ne' hupto h.waited hstack

end Inv

/-- A call of the cycle thread runs a closure in a frame of its own. -/
theorem Inv.inline (h : Inv prog w) (hready : w.stage i = .ready)
    (hstack : stack = w.stack ∧ w.left i = 0 ∨ w.stack = .call i :: stack) :
    Inv prog { w.mark i with stack := .inline (w.current i) :: stack } := by
  have hreturns : stack = w.stack ∨ w.stack = .call i :: stack := hstack.imp_left And.left
  have hnone : framesOf stack i = 0 := by
    have hsingle := h.single i
    rcases hstack with ⟨rfl, hleft⟩ | hstack
    · simpa [hready, hleft] using hsingle
    · simp only [hstack, framesOf_cons, SyncFrame.call?, if_true] at hsingle
      split at hsingle <;> omega
  refine h.mark hready h.order (fun c => ?_) (fun c hc => ?_) (fun j => ?_)
  · simp [closures_of_returns hreturns, add_assoc]
  · obtain ⟨hw, hq⟩ := h.own c hc
    exact ⟨hw, by simpa using fun hf => hq (mem_of_returns hreturns hf)⟩
  · have hle := calls_of_returns hreturns j
    by_cases hji : j = i
    · subst hji
      simp [hnone, current]
    · simpa [hji, Ne.symm hji, current] using hle

/-- Every move keeps the invariant. -/
theorem Move.inv (hm : Move prog w w') (h : Inv prog w) : Inv prog w' := by
  cases hm with
  | loop hs hl hpush =>
      have hwaiting := hs.waiting_eq h.order hl
      refine h.shift (h.order.step hs) (fun c => ?_) (fun c hc => ?_) (fun _ => rfl)
      · simp [hwaiting, List.count_append, List.count_eq_zero, hpush c]
      · rw [hwaiting]
        exact ⟨by simpa using ⟨(h.own c hc).1, hpush c⟩, (h.own c hc).2⟩
  | @start q functions loop hs hstack hfun =>
      have hwaiting := hs.waiting_start hfun
      refine h.shift (h.order.step hs) (fun c => ?_) (fun c hc => ?_) (fun i => ?_)
      · rw [hwaiting, hstack]
        cases hq : q.task <;> simp [List.count_cons]
      · have hown := h.own c hc
        rw [hwaiting] at hown
        cases hq : q.task <;> simp_all
      · cases hq : q.task <;> simp [hstack]
  | user => exact h.shift h.order (by simp) (by simpa using h.own) (by simp)
  | resume hstack =>
      refine h.shift h.order (by simp [hstack]) (fun c hc => ?_) (by simp [hstack])
      simpa [hstack] using h.own c hc
  | @queue i loop hready hother hs =>
      have hwaiting := hs.waiting_eq h.order (by simp)
      refine h.mark hready (h.order.step hs) (fun c => ?_) (fun c hc => ?_) (fun j => ?_)
      · simp [hwaiting, LoopLabel.pushes, List.count_append, List.count_singleton]
        omega
      · have hne : w.current i ≠ c := fun heq => by simp [← heq, current, hother] at hc
        obtain ⟨hw, hq⟩ := h.own c hc
        exact ⟨by simpa [hwaiting, LoopLabel.pushes, hw] using hne.symm, hq⟩
      · have hsingle := h.single j
        simp only [mark_stack]
        split
        · exact hsingle.trans (by split <;> omega)
        · exact le_rfl
  | first hready hown hleft => exact h.inline hready (Or.inl ⟨rfl, hleft⟩)
  | next hready hown hstack => exact h.inline hready (Or.inr hstack)
  | finishQueued hstack =>
      exact h.complete (by simp [hstack])
        (by simp +contextual [hstack]) (by simp [hstack])
  | finishInline hstack =>
      exact h.complete (by simp [hstack])
        (by simp +contextual [hstack]) (by simp [hstack])
  | leave hpassed hstage hawaits hlatch hreturns hstack =>
      refine h.leave hstage
        (fun hg => h.ran_of_leave hg hpassed hawaits hlatch hreturns) ?_
      rcases hstack with rfl | rfl
      · exact Or.inl rfl
      · exact (returns_eq_some hreturns).symm.imp And.right And.right
  | giveUp hready hleft hreturns =>
      exact h.giveUp hready hleft ((returns_eq_some hreturns).symm.imp And.right And.right)

theorem inv_of_run {ls : List SyncLabel} (hrun : run (step prog) init ls = .ok w) :
    Inv prog w :=
  invariant_of_step (Inv prog) (fun _ _ _ h hs => (step_move hs).inv h) inv_init hrun

/-! ## Who waits -/

/-- `Close` on another thread can return as soon as its closure is queued. -/
theorem run_close (h : prog i = (.close, false)) :
    ∃ w, run (step prog) init [.cycle .exec, .pass i, .leave i] = .ok w ∧
      w.stage i = .returned ∧ w.passed (i, 0) = true ∧ w.ran (i, 0) = 0 := by
  have hexec : step prog init (.cycle .exec) =
      .ok { init with loop := { Loop.init with phase := .calling false } } := rfl
  rw [run_cons_ok hexec]
  simp [run, step, h, pass, leave, init, Loop.init, stepLoop, Loop.step, Loop.queueInCycle,
    Loop.push, mark, current, SyncCall.sections, returns]

/-- **The calls that wait.**  For whatever functions are called on whatever threads, a call
returns only after each closure it has passed has run to its end, once, in every interleaving;
the exception is `Close` when it is called on another thread. -/
theorem waits_iff (prog : ℕ → SyncCall × Bool) (i : ℕ) :
    Waits prog i ↔ ((prog i).1 = .close → (prog i).2 = true) := by
  constructor
  · intro h hclose
    by_contra hother
    obtain ⟨w, hrun, hstage, hpassed, hran⟩ :=
      run_close (Prod.ext hclose (by simpa using hother) : prog i = (.close, false))
    have := h _ w hrun hstage 0 hpassed
    omega
  · intro hg ls w hrun hstage k hpassed
    have h := inv_of_run hrun
    refine h.waited hg ?_ hpassed
    rcases h.upto hpassed with hlt | ⟨-, hp⟩
    · exact hlt
    · rw [hstage] at hp
      cases hp

/-- `Close` is called on another thread while the cycle polls.  It returns although its closure,
which refers to the latch on the stack of the call, is still queued. -/
theorem close_leaves_closure_queued :
    ∃ w, run (step fun _ => (.close, false)) init
        [.cycle .exec, .cycle .loop, .pass 0, .leave 0] = .ok w ∧
      (w.stage 0, w.loop.waiting, w.ran (0, 0)) = (.returned, [some (0, 0)], 0) :=
  map_eq_ok (by decide +kernel)

/-- A closure that runs has been passed and has not run before. -/
theorem Inv.passed_of_queued (h : Inv prog w) {c : Closure}
    (hstack : w.stack = .queued c :: stack) : w.passed c = true ∧ w.ran c = 0 := by
  have hplaced := h.placed c
  have hone : 1 ≤ running w.stack c := by simp [hstack]
  cases hp : w.passed c with
  | true =>
      rw [hp, Bool.toNat_true] at hplaced
      exact ⟨rfl, by omega⟩
  | false =>
      rw [hp, Bool.toNat_false] at hplaced
      omega

/-- A closure whose latch is gone is that of a `Close` on another thread. -/
theorem finish_fault {ls : List SyncLabel} (hrun : run (step prog) init ls = .ok w) {f : Fault}
    (hs : step prog w .finish = .error (.fault f)) :
    f = .useAfterFree ∧ ∃ c stack, w.stack = .queued c :: stack ∧ prog c.1 = (.close, false) := by
  have h := inv_of_run hrun
  simp only [step, finish] at hs
  split at hs
  · next c stack hstack =>
      split at hs <;> cases hs
      next hleft =>
        obtain ⟨hpassed, hran⟩ := h.passed_of_queued hstack
        have hnot : ¬ Guarded prog c.1 := fun hg => by
          rw [h.waited hg hleft hpassed] at hran
          cases hran
        obtain ⟨hclose, hother⟩ := Classical.not_imp.mp hnot
        exact ⟨rfl, c, stack, hstack, Prod.ext hclose (Bool.eq_false_iff.mpr hother)⟩
  · cases hs
  · cases hs

/-- The closure that `Close` has left behind counts down a latch that is gone. -/
example :
    stopped (run (step fun _ => (.close, false)) init
      [.cycle .exec, .cycle .loop, .pass 0, .leave 0, .cycle (.pollReturn false), .cycle .swap,
        .start, .finish]) = some (.fault .useAfterFree) := by
  decide +kernel

/-- A `Send` on another thread goes past its two latches, each time after the cycle has run the
closure. -/
example :
    (run (step fun _ => (.send, false)) init
      [.cycle .exec, .cycle .loop, .pass 0, .cycle (.pollReturn false), .cycle .swap, .start,
        .finish, .leave 0, .pass 0, .cycle .loop, .cycle (.pollReturn false), .cycle .swap, .start,
        .finish, .leave 0]).map (fun w => (w.stage 0, w.ran (0, 0), w.ran (0, 1))) =
      .ok (.returned, 1, 1) := by
  decide +kernel

end Callers

end Hare.Net
