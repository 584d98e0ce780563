import Hare.Net.Acts

/-!
# A session is closed once

`HandleClose` asserts that the session is connected or disconnecting.  It is called from
four places, and only `ForceClose` and `HandleWrite` have looked at the state before.
`HandleRead` at the end of the stream and `HandleCallback` with `EVENT_CLOSED` have not,
and the state may have changed since the event became active: another callback of the same
batch, or the read callback of the very event, may have closed the session.

`Shutdown` tests the state and sets it in two statements.  On another thread the session may be
closed between them, and is then disconnecting again: its state has moved backward, and
`HandleClose` can run a second time.  Otherwise the state moves forward only, and the assertion
keeps `HandleClose` from running twice.  `closesOnce_iff_stillOpen` says when all is well.
-/

namespace Hare.Net

open LabelledRun Io

/-- The order in which a session goes through its states. -/
def SessionState.rank : SessionState → ℕ
  | .connecting => 0
  | .connected => 1
  | .disconnecting => 2
  | .disconnected => 3

/-- The session a function on the stack works for, once `ConnectEstablished` has begun. -/
def Frame.begun : Frame → Option ℕ
  | .callback i _ | .closed i | .established i => some i
  | .user | .establish _ => none

/-- A session has been closed as often as its state says. -/
def Session.Lawful (s : Session) : Prop :=
  s.closes = if s.state = .disconnected then 1 else 0

/-- `HandleClose` has run, and has set the session to disconnected. -/
def Session.Closed (s : Session) : Prop := s.closes ≠ 0

/-- The state does not move backward, and the number of closes stays right. -/
structure Session.Forward (s s' : Session) : Prop where
  rank : s.state.rank ≤ s'.state.rank
  lawful : s.Lawful → s'.Lawful

theorem Session.Lawful.closes_le {s : Session} (h : s.Lawful) : s.closes ≤ 1 := by
  rw [h]
  split <;> omega

/-- What a step may do to a session, `prompt` if `Shutdown` is. -/
structure Session.Advances (prompt : Prop) (s s' : Session) : Prop where
  begun : s.state ≠ .connecting → s'.state ≠ .connecting
  tied : s'.event.tied = s.event.tied ∨ s'.state ≠ .connecting
  tested : s'.tested ≠ 0 → s.tested ≠ 0 ∨ s'.state ≠ .connecting
  closed : s'.state = .disconnected → s.state = .disconnected ∧ s'.closes = s.closes ∨ s'.Closed
  forward : prompt → s.Forward s'

namespace Session

variable {s s' : Session} {prompt : Prop}

theorem Forward.refl (s : Session) : s.Forward s := ⟨le_rfl, id⟩

theorem Forward.trans {s'' : Session} (h : s.Forward s') (h' : s'.Forward s'') :
    s.Forward s'' :=
  ⟨h.rank.trans h'.rank, h'.lawful ∘ h.lawful⟩

theorem Forward.ne_connecting (h : s.Forward s') (hs : s.state ≠ .connecting) :
    s'.state ≠ .connecting := by
  intro hs'
  have hrank := h.rank
  rw [hs'] at hrank
  cases hstate : s.state <;> simp_all [SessionState.rank]

/-- A step that leaves the state, the number of closes and the tie alone. -/
theorem Advances.of_eq (hstate : s'.state = s.state) (hcloses : s'.closes = s.closes)
    (htied : s'.event.tied = s.event.tied)
    (htested : s'.tested ≠ 0 → s.tested ≠ 0 ∨ s.state = .connected) : s.Advances prompt s' where
  begun := by rw [hstate]; exact id
  tied := Or.inl htied
  tested h := (htested h).imp_right fun hs => by simp [hstate, hs]
  closed h := Or.inl ⟨hstate ▸ h, hcloses⟩
  forward _ := ⟨by rw [hstate], fun h => by rw [Lawful, hstate, hcloses]; exact h⟩

theorem Advances.refl (s : Session) : s.Advances prompt s := .of_eq rfl rfl rfl Or.inl

/-- A change of the state before the session is closed. -/
theorem Advances.of_state (hcloses : s'.closes = s.closes)
    (htied : s'.event.tied = s.event.tied) (hne : s'.state ≠ .connecting)
    (hrank : prompt → s.state.rank ≤ s'.state.rank) (hs : prompt → s.state ≠ .disconnected)
    (hs' : s'.state ≠ .disconnected) : s.Advances prompt s' where
  begun _ := hne
  tied := Or.inl htied
  tested _ := Or.inr hne
  closed h := absurd h hs'
  forward hp := ⟨hrank hp, fun h => by
    rw [Lawful, if_neg (hs hp)] at h
    rw [Lawful, if_neg hs', hcloses, h]⟩

theorem advances_close (h : s.state = .connected ∨ s.state = .disconnecting) :
    s.Advances prompt s.close where
  begun _ := by simp
  tied := Or.inl rfl
  tested _ := by simp
  closed _ := Or.inr (by simp [Closed])
  forward _ := by
    have hne : s.state ≠ .disconnected := by rcases h with h | h <;> simp [h]
    refine ⟨by rcases h with h | h <;> simp [h, SessionState.rank], fun hl => ?_⟩
    rw [Lawful, if_neg hne] at hl
    simp [Lawful, hl]

end Session

namespace Worker

/-- What holds in every state of every run. -/
structure Inv (w : Worker) : Prop where
  tested : ∀ i, (w.sessions i).tested ≠ 0 → (w.sessions i).state ≠ .connecting
  tied : ∀ i, (w.sessions i).event.tied = true → (w.sessions i).state ≠ .connecting
  begun : ∀ f ∈ w.stack, ∀ i, f.begun = some i → (w.sessions i).state ≠ .connecting
  closed : ∀ i, (w.sessions i).state = .disconnected → (w.sessions i).Closed

/-- What a step keeps: the invariant, and the direction of the states. -/
def Keeps (prompt : Prop) (w w' : Worker) : Prop :=
  w.Inv → w'.Inv ∧ (prompt → ∀ i, (w.sessions i).Forward (w'.sessions i))

variable {prompt : Prop} {w w' w'' : Worker} {l : WorkerLabel} {i : ℕ} {stack : List Frame}

theorem inv_init : init.Inv where
  tested _ h := absurd rfl h
  tied _ h := by cases h
  begun _ h := by cases h
  closed _ h := by cases h

theorem Keeps.refl (w : Worker) : Keeps prompt w w := fun h => ⟨h, fun _ _ => .refl _⟩

theorem Keeps.trans (h : Keeps prompt w w') (h' : Keeps prompt w' w'') : Keeps prompt w w'' :=
  fun hw => ⟨(h' (h hw).1).1, fun hp i => ((h hw).2 hp i).trans ((h' (h hw).1).2 hp i)⟩

/-- A change of the loop, of the active events, or of the stack down to a part of it. -/
theorem keeps_of_stack (hsessions : w'.sessions = w.sessions)
    (hstack : ∀ f ∈ w'.stack, f ∈ w.stack) : Keeps prompt w w' := fun h =>
  ⟨⟨by rw [hsessions]; exact h.tested, by rw [hsessions]; exact h.tied,
    fun f hf => by rw [hsessions]; exact h.begun f (hstack f hf),
    by rw [hsessions]; exact h.closed⟩,
    fun _ i => by rw [hsessions]; exact .refl _⟩

theorem keeps_enter {frames : List Frame}
    (h : w.Inv → ∀ f ∈ frames, ∀ i, f.begun = some i → (w.sessions i).state ≠ .connecting) :
    Keeps prompt w (w.enter frames) := fun hw => by
  refine ⟨⟨hw.tested, hw.tied, fun f hf => ?_, hw.closed⟩, fun _ _ => .refl _⟩
  rcases List.mem_append.mp hf with hf | hf
  · exact h hw f hf
  · exact hw.begun f hf

/-- Code of the user is called. -/
theorem keeps_user : Keeps prompt w (w.enter [.user]) :=
  keeps_enter fun _ f hf i hi => by
    rw [List.mem_singleton.mp hf] at hi
    cases hi

/-- Code of the user is called by a function that goes on afterwards. -/
theorem keeps_user_cons {frame : Frame}
    (h : ∀ i, frame.begun = some i → (w.sessions i).state ≠ .connecting) :
    Keeps prompt w (w.enter [.user, frame]) :=
  keeps_enter fun _ f hf i hi => by
    rcases List.mem_cons.mp hf with rfl | hf
    · cases hi
    · rw [List.mem_singleton.mp hf] at hi
      exact h i hi

theorem keeps_sessions (hstack : w'.stack = w.stack)
    (h : w.Inv → ∀ i, (w.sessions i).Advances prompt (w'.sessions i)) : Keeps prompt w w' :=
  fun hw => by
    refine ⟨⟨fun i ht => ?_, fun i ht => ?_, fun f hf i hi => ?_, fun i hdis => ?_⟩,
      fun hp i => (h hw i).forward hp⟩
    · rcases (h hw i).tested ht with hold | hne
      · exact (h hw i).begun (hw.tested i hold)
      · exact hne
    · rcases (h hw i).tied with heq | hne
      · exact (h hw i).begun (hw.tied i (heq ▸ ht))
      · exact hne
    · exact (h hw i).begun (hw.begun f (hstack ▸ hf) i hi)
    · rcases (h hw i).closed hdis with ⟨hold, heq⟩ | hnew
      · rw [Session.Closed, heq]
        exact hw.closed i hold
      · exact hnew

theorem keeps_modify {f : Session → Session}
    (h : w.Inv → (w.sessions i).Advances prompt (f (w.sessions i))) :
    Keeps prompt w (w.modify i f) :=
  keeps_sessions rfl fun hw j => by
    by_cases hj : j = i
    · subst hj
      simpa [modify] using h hw
    · simpa [modify, Function.update_of_ne hj] using Session.Advances.refl (w.sessions j)

/-! ## Acts and steps -/

theorem written_keeps (i accept : ℕ) : Keeps prompt w (w.written i accept) := by
  have hwrite : Keeps prompt w (w.modify i (Session.write · accept)) :=
    keeps_modify fun _ => .of_eq rfl rfl rfl Or.inl
  unfold written
  split
  · have hclear : Keeps prompt (w.modify i (Session.write · accept))
        ((w.modify i (Session.write · accept)).modify i (Session.setWrite · false)) :=
      keeps_modify fun _ => .of_eq rfl rfl rfl Or.inl
    exact (hwrite.trans hclear).trans (keeps_of_stack rfl fun _ hf => hf)
  · exact hwrite

theorem written_state (w : Worker) (i accept : ℕ) :
    ((w.written i accept).sessions i).state = (w.sessions i).state := by
  unfold written
  split <;> simp [queue, Session.write]

/-- `HandleWrite` closes only sessions that are disconnecting. -/
theorem handleWrite_ne (w : Worker) (i accept j : ℕ) :
    w.handleWrite i accept ≠ .error (.handleClose j) := by
  unfold handleWrite
  split
  · split
    · next h => simp [handleClose_of_open (Or.inr ((w.written_state i accept).trans h))]
    · simp
  · simp

/-- `ConnectEstablished` ties the event of a session that is not connecting any more. -/
theorem connected_keeps (hstack : w.stack = .established i :: stack) :
    Keeps prompt w ({ w with stack }.finishConnect i) := fun hw => by
  have hstate := hw.begun (.established i) (hstack ▸ List.mem_cons_self) i rfl
  have hpop : Keeps prompt w { w with stack } :=
    keeps_of_stack rfl fun f hf => hstack ▸ List.mem_cons_of_mem _ hf
  have htie : Keeps prompt { w with stack } ({ w with stack }.finishConnect i) :=
    keeps_modify fun _ =>
      ⟨id, Or.inr hstate, Or.inl, fun h => Or.inl ⟨h, rfl⟩, fun _ => ⟨le_rfl, id⟩⟩
  exact hpop.trans htie hw

/-- The step of `HandleCallback` to its next event. -/
theorem callback_keeps {revents revents' : Events}
    (hstack : w.stack = .callback i revents :: stack) :
    Keeps prompt w { w with stack := .callback i revents' :: stack } := fun hw => by
  refine ⟨⟨hw.tested, hw.tied, fun f hf j hj => ?_, hw.closed⟩, fun _ _ => .refl _⟩
  rcases List.mem_cons.mp hf with rfl | hf
  · cases hj
    exact hw.begun (.callback i revents) (hstack ▸ List.mem_cons_self) i rfl
  · exact hw.begun f (hstack ▸ List.mem_cons_of_mem _ hf) j hj

/-- Every act keeps the invariant, and moves no state backward if `Shutdown` is prompt. -/
theorem act_keeps {w₀ : Worker} (ha : Act w₀ l w w') :
    Keeps (w₀.Prompt l) w w' := by
  cases ha with
  | loop hs hk | queue htask | active active => exact keeps_of_stack rfl fun _ hf => hf
  | settle =>
      unfold settle
      split
      · exact keeps_sessions rfl fun _ _ => .of_eq rfl rfl rfl Or.inl
      · exact Keeps.refl w
  | user => exact keeps_user
  | called htied =>
      refine keeps_enter fun hw f hf j hj => ?_
      rw [List.mem_singleton.mp hf] at hj
      cases hj
      exact hw.tied _ htied
  | next hstack => exact callback_keeps hstack
  | leave hstack hf => exact keeps_of_stack rfl fun f hf => hstack ▸ List.mem_cons_of_mem _ hf
  | manage h => exact keeps_modify fun _ => .of_eq h.state h.closes (by rw [h.event]) h.tested
  | reading h => exact keeps_modify fun _ => by rw [h]; exact .of_eq rfl rfl rfl Or.inl
  | establish i => exact keeps_user_cons fun j hj => by cases hj
  | @connect i _ hl hstack hstate =>
      have hadv : (w.sessions i).Advances (w₀.Prompt l) ((w.sessions i).setState .connected) :=
        .of_state rfl rfl (by simp [Session.setState]) (by simp [hstate, SessionState.rank])
          (by simp [hstate]) (by simp [Session.setState])
      refine (keeps_modify fun _ => hadv).trans (keeps_user_cons ?_)
      intro j hj
      cases hj
      simp [Session.setState]
  | connected hl hw hstack => exact connected_keeps hstack
  | shutdown hstate h =>
      refine keeps_modify fun _ => .of_state h.closes (by rw [h.event]; rfl) ?_ ?_ ?_ ?_ <;>
        simp [h.state, hstate, Session.setState, SessionState.rank]
  | @set i hl hw htested =>
      subst hl hw
      refine keeps_modify fun _ => .of_state rfl rfl (by simp [Session.setDisconnecting]) ?_ ?_
        (by simp [Session.setDisconnecting])
      all_goals
        intro hprompt
        rcases hprompt htested with hstate | hstate <;>
          simp [Session.setDisconnecting, SessionState.rank, hstate]
  | close hopen =>
      refine (keeps_modify fun _ => Session.advances_close hopen).trans (keeps_user_cons ?_)
      intro j hj
      cases hj
      simp
  | closed hl hw hstack =>
      refine Keeps.trans ?_ (keeps_modify fun _ => .of_eq rfl rfl rfl Or.inl)
      exact keeps_of_stack rfl fun f hf => hstack ▸ List.mem_cons_of_mem _ hf
  | @begin i chunks hsend hsame hstack =>
      have happend : Keeps (w₀.Prompt l) w (w.modify i (Session.append · chunks)) :=
        keeps_modify fun _ => .of_eq rfl rfl rfl Or.inl
      exact happend.trans (keeps_modify fun _ => .of_eq rfl rfl rfl Or.inl)
  | append chunks hsize => exact keeps_modify fun _ => .of_eq rfl rfl rfl Or.inl
  | @written i accept hwrites hw => exact written_keeps i accept

/-- Every step keeps the invariant, and moves no state backward if `Shutdown` is prompt. -/
theorem step_keeps (hs : w.step l = .ok w') : Keeps (w.Prompt l) w w' :=
  step_preserves (fun _ _ ha h => h.trans (act_keeps ha)) (Keeps.refl w) hs

theorem inv_of_run {ls : List WorkerLabel} (hrun : run step init ls = .ok w) : w.Inv :=
  invariant_of_step Inv (fun _ _ _ h hl => (step_keeps hl h).1) inv_init hrun

/-- When `Shutdown` is prompt, a session has been closed as often as its state says. -/
theorem lawful_of_run {ls : List WorkerLabel} (hm : Meets step Prompt init ls)
    (hrun : run step init ls = .ok w) (i : ℕ) : (w.sessions i).Lawful := by
  refine (invariant (fun w => w.Inv ∧ ∀ i, (w.sessions i).Lawful) ?_ ⟨inv_init, fun _ => rfl⟩ hm
    hrun).2 i
  intro w l w' h hp hs
  obtain ⟨hinv, hforward⟩ := step_keeps hs h.1
  exact ⟨hinv, fun i => (hforward hp i).lawful (h.2 i)⟩

/-! ## The assertion -/

/-- What should hold of a run: the assertion of `HandleClose` never fails, `HandleClose` runs
at most once for each session, and no state moves backward. -/
structure ClosesOnce (ls : List WorkerLabel) : Prop where
  asserted : ∀ ks i, ks <+: ls → run step init ks ≠ .error (.handleClose i)
  once : ∀ ks w, ks <+: ls → run step init ks = .ok w → ∀ i, (w.sessions i).closes ≤ 1
  forward : ∀ ks l w w', ks ++ [l] <+: ls → run step init ks = .ok w → w.step l = .ok w' →
    ∀ i, (w.sessions i).state.rank ≤ (w'.sessions i).state.rank

/-- The end of the stream, or `EVENT_CLOSED`, is handled, and the state is set by `Shutdown`, for
a session that has not been closed in the meantime. -/
def StillOpen (w : Worker) : WorkerLabel → Prop
  | .read 0 => ∀ i revents stack, w.stack = .callback i revents :: stack →
    revents.read = true → (w.sessions i).state ≠ .disconnected
  | .close => ∀ i revents stack, w.stack = .callback i revents :: stack →
    revents.read = false → revents.write = false → revents.closed = true →
    (w.sessions i).state ≠ .disconnected
  | .shutdownSet i => (w.sessions i).tested ≠ 0 → (w.sessions i).state ≠ .disconnected
  | _ => True

theorem StillOpen.isPrompt (h : w.StillOpen l) (hinv : w.Inv) :
    w.Prompt l := by
  cases l with
  | shutdownSet i =>
      intro htested
      have hbegun := hinv.tested i htested
      have hopen := h htested
      cases hstate : (w.sessions i).state <;> simp_all
  | _ => trivial

theorem perform_ne {accept : ℕ} (task : Task) (j : ℕ) :
    w.perform accept task ≠ .error (.handleClose j) := by
  cases task with
  | user => simp [perform]
  | written i => simp [perform]
  | newSession i =>
      simp only [perform, newSession]
      split <;> simp
  | send i chunks =>
      simp only [perform, performSend]
      split
      · exact handleWrite_ne _ _ _ _
      split
      · split <;> simp
      · simp

theorem call_ne (c : UserCall) (j : ℕ) : w.call c ≠ .error (.handleClose j) := by
  cases c with
  | forceClose i =>
      simp only [call]
      split
      · next h => simp [handleClose_of_open (Or.inl h)]
      · next h => simp [handleClose_of_open (Or.inr h)]
      · simp
  | newSession i =>
      simp only [call, newSession, disabled]
      split
      · simp
      · split <;> simp
  | _ =>
      simp only [call]
      first | (split <;> simp) | simp

theorem dispatch_ne (j : ℕ) : w.dispatch ≠ .error (.handleClose j) := by
  unfold dispatch
  split
  · simp only
    split <;> simp
  · simp
  · simp [disabled]

theorem resume_ne (j : ℕ) : w.resume ≠ .error (.handleClose j) := by
  unfold resume
  split
  · simp [disabled]
  · simp
  · split <;> simp [disabled]
  · unfold finishClose
    split <;> simp
  · unfold connectEstablished
    split <;> simp
  · simp

/-- `HandleClose` reached from `HandleCallback` on a session that is still open. -/
theorem handleClose_ne (h : w.Inv) {revents : Events}
    (hstack : w.stack = .callback i revents :: stack)
    (hopen : (w.sessions i).state ≠ .disconnected) (frames : List Frame) (j : ℕ) :
    { w with stack := frames }.handleClose i ≠ .error (.handleClose j) := by
  have hbegun := h.begun (.callback i revents) (hstack ▸ List.mem_cons_self) i rfl
  rcases handleClose_cases { w with stack := frames } i with ⟨-, hok⟩ | ⟨hstate, -⟩
  · simp [hok]
  · rcases hstate with hstate | hstate
    · exact absurd hstate hbegun
    · exact absurd hstate hopen

/-- A step that meets the condition does not fail the assertion. -/
theorem step_ne (h : w.Inv) (hc : w.StillOpen l) (j : ℕ) :
    w.step l ≠ .error (.handleClose j) := by
  have hcases := w.step_cases l
  generalize w.step l = r at hcases
  cases hcases with
  | dispatch => exact dispatch_ne j
  | start hstack hfun hloop => exact perform_ne _ j
  | @read received i revents stack hstack hread =>
      unfold handleRead
      split
      · next hzero =>
          subst hzero
          exact handleClose_ne h hstack (hc i revents stack hstack hread) _ j
      · simp
  | write hstack hread hwrite => exact handleWrite_ne _ _ _ j
  | @close i revents stack hstack hread hwrite hclosed =>
      exact handleClose_ne h hstack (hc i revents stack hstack hread hwrite hclosed) _ j
  | resume => exact resume_ne j
  | call huser => exact call_ne _ j
  | _ => simp

/-- A step that breaks the condition fails the assertion, or moves a state backward. -/
theorem step_of_not_stillOpen (hbad : ¬ w.StillOpen l) :
    (∃ i, w.step l = .error (.handleClose i)) ∨
      ∃ i w', w.step l = .ok w' ∧ (w'.sessions i).state.rank < (w.sessions i).state.rank := by
  unfold StillOpen at hbad
  split at hbad
  · simp only [not_forall, not_not] at hbad
    obtain ⟨i, revents, stack, hstack, hread, hstate⟩ := hbad
    exact Or.inl ⟨i, by simp [step, hstack, hread, handleRead, handleClose, hstate]⟩
  · simp only [not_forall, not_not] at hbad
    obtain ⟨i, revents, stack, hstack, hread, hwrite, hclosed, hstate⟩ := hbad
    exact Or.inl ⟨i, by simp [step, hstack, hread, hwrite, hclosed, handleClose, hstate]⟩
  · next i =>
      simp only [Classical.not_imp, not_not] at hbad
      obtain ⟨htested, hstate⟩ := hbad
      refine Or.inr ⟨i, _, by simp only [step, if_neg htested]; rfl, ?_⟩
      simp [Session.setDisconnecting, hstate, SessionState.rank]
  · exact absurd trivial hbad

/-- **When a session is closed once.**  A run closes each session at most once, fails no
assertion of `HandleClose` and moves no state backward exactly when every end of a stream and
every `EVENT_CLOSED` is handled, and every `Shutdown` on another thread sets the state, for a
session that has not been closed in the meantime. -/
theorem closesOnce_iff_stillOpen (ls : List WorkerLabel) :
    ClosesOnce ls ↔ Meets step StillOpen init ls := by
  constructor
  · intro hall
    by_contra hm
    obtain ⟨ks, l, m, hpre, hks, hbad⟩ := exists_of_not_meets hm
    rcases step_of_not_stillOpen hbad with ⟨i, hi⟩ | ⟨i, w', hs, hlt⟩
    · refine hall.asserted (ks ++ [l]) i hpre ?_
      rw [run_append hks, run_cons_error hi]
    · exact absurd (hall.forward ks l m w' hpre hks hs i) (Nat.not_le.mpr hlt)
  · intro hm
    have hprompt : Meets step Prompt init ls :=
      hm.imp Inv (fun _ _ h hc => hc.isPrompt h) (fun _ _ _ h _ hs => (step_keeps hs h).1) inv_init
    refine ⟨fun ks i hks herr => ?_, fun ks w hks hrun i => ?_, fun ks l w w' hks hrun hs i => ?_⟩
    · obtain ⟨ks', l, m, hpre, hrun, hl⟩ := exists_of_run_error herr
      exact step_ne (inv_of_run hrun) (hm.cond_of_run (hpre.trans hks) hrun) i hl
    · exact (lawful_of_run (hprompt.of_isPrefix hks) hrun i).closes_le
    · exact ((step_keeps hs (inv_of_run hrun)).2 (hprompt.cond_of_run hks hrun) i).rank

/-- The server makes two sessions, the user keeps a pointer to the second, and both are
connected.  Then both are readable at once. -/
def twoSessions : List WorkerLabel :=
  [.newSession 0, .newSession 1, .cycle .exec, .cycle .loop, .poll false [], .cycle .swap,
    .start 0, .resume, .resume, .resume, .resume,
    .start 0, .keep 1, .resume, .resume, .resume, .resume, .cycle .loop,
    .poll false [.session 0 { read := true }, .session 1 { read := true }]]

/-- The read callback of the first session closes the second by `ForceClose`.  The event of
the second is already active, and when its turn comes the peer has closed the connection:
the assertion of `HandleClose` fails. -/
theorem closed_in_batch :
    run step init (twoSessions ++ [.dispatch, .read 5, .call (.forceClose 1), .resume, .resume,
      .resume, .resume, .dispatch, .read 0]) = .error (.handleClose 1) :=
  stopped_eq_some.mp (by decide +kernel)

end Worker

end Hare.Net
