import Hare.Net.Registered
import Hare.Net.Shutdown

/-!
# Pending output has write interest

The task of `Send` takes up the write interest only when it finds the out-buffer empty, and
`HandleWrite` gives it up only when it leaves the out-buffer empty.  In between the flag of
the event and the mask of the reactor are set by separate calls.  Together they never stall a
session: while bytes are pending, the event has `EVENT_WRITE` and the reactor knows it.
-/

namespace Hare.Net

open LabelledRun Io

namespace Session

/-- The reactor has the mask of the event, and pending bytes have write interest. -/
structure Interested (s : Session) : Prop where
  mask : s.registered = true → s.mask = s.event.events
  pending : s.state ≠ .disconnected → s.size ≠ 0 → s.writing = true

variable {s s' : Session}

theorem Interested.new : Session.new.Interested where
  mask h := by cases h
  pending _ h := absurd rfl h

theorem Interested.alike (h : s.Interested) (hs : s.Alike s') : s'.Interested where
  mask hreg := by
    rw [hs.mask, hs.event]
    exact h.mask (hs.registered ▸ hreg)
  pending hstate hsize := by
    rw [hs.writing]
    exact h.pending (hs.state ▸ hstate) (hs.size ▸ hsize)

/-- After `Cycle::EventUpdate` the reactor has the mask of the event. -/
theorem Interested.update (hpending : s.state ≠ .disconnected → s.size ≠ 0 → s.writing = true) :
    s.update.Interested where
  mask hreg := if_pos hreg
  pending := hpending

theorem Interested.setRead (h : s.Interested) (read : Bool) : (s.setRead read).Interested :=
  .update h.pending

theorem Interested.setWrite_true (s : Session) : (s.setWrite true).Interested :=
  .update fun _ _ => rfl

theorem Interested.setWrite_false (hsize : s.size = 0) : (s.setWrite false).Interested :=
  .update fun _ hne => absurd hsize hne

theorem Interested.close (s : Session) : s.close.Interested where
  mask hreg := if_pos hreg
  pending hstate := absurd rfl hstate

/-- A write to the socket leaves the event as it is. -/
theorem Interested.write (h : s.Interested) (hw : s.writing = true) (accept : ℕ) :
    (s.write accept).Interested :=
  ⟨h.mask, fun _ _ => hw⟩

end Session

namespace Worker

/-- What holds in every state of every run.  While `HandleClose` waits for the connect
callback, nothing takes up the write interest again. -/
structure Interested (w : Worker) : Prop where
  sessions : ∀ i, (w.sessions i).Interested
  closing : ∀ i, .closed i ∈ w.stack → (w.sessions i).writing = false

variable {w w' : Worker}

theorem interested_init : init.Interested where
  sessions _ := Session.Interested.new
  closing _ h := by cases h

namespace Interested

/-- A step that changes no session and adds no `HandleClose`. -/
theorem of_sessions (h : w.Interested) (hsessions : w'.sessions = w.sessions)
    (hstack : ∀ i, .closed i ∈ w'.stack → .closed i ∈ w.stack) : w'.Interested where
  sessions i := by
    rw [hsessions]
    exact h.sessions i
  closing i hi := by
    rw [hsessions]
    exact h.closing i (hstack i hi)

theorem push (h : w.Interested) {f : Frame} (hf : f.plain = true) :
    Interested { w with stack := f :: w.stack } :=
  h.of_sessions rfl fun i => (closed_mem_cons_of_plain hf w.stack i).mp

theorem pop (h : w.Interested) {f : Frame} {stack : List Frame} (hstack : w.stack = f :: stack) :
    Interested { w with stack } :=
  h.of_sessions rfl fun _ hi => hstack ▸ List.mem_cons_of_mem _ hi

/-- A change of one session that does not take up the write interest during its
`HandleClose`. -/
theorem modify (h : w.Interested) {i : ℕ} {f : Session → Session}
    (hf : (f (w.sessions i)).Interested)
    (hw : .closed i ∈ w.stack → (f (w.sessions i)).writing = false) :
    (w.modify i f).Interested where
  sessions j := by
    by_cases hji : j = i
    · subst hji
      rw [modify_self]
      exact hf
    · rw [modify_other w hji]
      exact h.sessions j
  closing j hj := by
    by_cases hji : j = i
    · subst hji
      rw [modify_self]
      exact hw hj
    · rw [modify_other w hji]
      exact h.closing j hj

/-- `HandleClose` begins. -/
theorem close (h : w.Interested) (i : ℕ) :
    ((w.modify i Session.close).enter [.user, .closed i]).Interested := by
  have hclose : (w.modify i Session.close).Interested :=
    h.modify (.close _) fun _ => Session.close_writing _
  refine ⟨hclose.sessions, fun j hj => ?_⟩
  by_cases hji : j = i
  · subst hji
    simp [enter]
  · exact hclose.closing j (by simpa [enter, hji] using hj)

theorem written (h : w.Interested) {i : ℕ} (hw : (w.sessions i).writing = true) (accept : ℕ) :
    (w.written i accept).Interested := by
  have hnot : Frame.closed i ∉ w.stack := fun hi => by simp [h.closing i hi] at hw
  have hwrite : (w.modify i (Session.write · accept)).Interested :=
    h.modify ((h.sessions i).write hw accept) fun hi => absurd hi hnot
  unfold Worker.written
  split
  · next hsize =>
      refine (hwrite.modify (i := i) (f := (Session.setWrite · false)) ?_ ?_).of_sessions rfl
        fun _ => id
      · rw [modify_self]
        exact .setWrite_false hsize
      · exact fun _ => rfl
  · exact hwrite

end Interested

theorem act_interested {w₀ : Worker} {l : WorkerLabel} (hprompt : w₀.Prompt l)
    (ha : Act w₀ l w w') (h : w.Interested) : w'.Interested := by
  cases ha with
  | loop hs hk | queue htask | active active => exact h.of_sessions rfl fun _ => id
  | settle =>
      unfold settle
      split
      · exact ⟨fun i => ⟨fun hreg => (by cases hreg), (h.sessions i).pending⟩, h.closing⟩
      · exact h
  | user | called htied => exact h.push rfl
  | next hstack => exact (h.pop hstack).push rfl
  | leave hstack hf => exact h.pop hstack
  | @manage i f hs =>
      exact h.modify ((h.sessions i).alike hs) fun hi => hs.writing.trans (h.closing i hi)
  | @reading i f read reading hf =>
      have hread := (h.sessions i).setRead read
      refine h.modify ?_ fun hi => ?_ <;> rw [hf]
      · exact ⟨hread.mask, hread.pending⟩
      · exact h.closing i hi
  | establish i => exact (h.push (f := .establish i) rfl).push (f := .user) rfl
  | @connect i _ hl hstack hstate =>
      have hs := h.sessions i
      have hconnect : (w.modify i (Session.setState · .connected)).Interested :=
        h.modify ⟨hs.mask, fun _ => hs.pending (by simp [hstate])⟩ (h.closing i)
      exact hconnect.of_sessions rfl fun _ hi => by simpa [enter] using hi
  | @connected i stack hl hw hstack =>
      have hpop := h.pop hstack
      refine hpop.modify (.setRead (.update ?_) true) (hpop.closing i)
      exact (h.sessions i).pending
  | @set i hl hw htested =>
      subst hl hw
      have hi := h.sessions i
      have hopen : (w.sessions i).state ≠ .disconnected := by
        rcases hprompt htested with hstate | hstate <;> simp [hstate]
      exact h.modify ⟨hi.mask, fun _ => hi.pending hopen⟩ (h.closing i)
  | @shutdown i f hstate hs =>
      have hi := h.sessions i
      have hset : ((w.sessions i).setState .disconnecting).Interested :=
        ⟨hi.mask, fun _ => hi.pending (by simp [hstate])⟩
      exact h.modify (hset.alike hs) fun hi => hs.writing.trans (h.closing i hi)
  | close hopen => exact h.close _
  | @closed i stack hl hw hstack =>
      have hpop := h.pop hstack
      exact hpop.modify ⟨fun hreg => (by cases hreg), (h.sessions i).pending⟩ (hpop.closing i)
  | @begin i chunks hsend hsame hstack =>
      -- Tasks are called on an empty stack, so no `HandleClose` is running.
      refine ⟨fun j => ?_, fun j hj => ?_⟩
      · by_cases hji : j = i
        · subst hji
          simpa using Session.Interested.setWrite_true _
        · rw [modify_other _ hji, modify_other _ hji]
          exact h.sessions j
      · simp [hstack] at hj
  | @append i chunks hsize =>
      have hi := h.sessions i
      exact h.modify ⟨hi.mask, fun hstate _ => hi.pending hstate hsize⟩ (h.closing i)
  | written accept hwrites hw => exact h.written hw accept

theorem interested_of_run {ls : List WorkerLabel} (hprompt : Meets step Prompt init ls)
    (hrun : run step init ls = .ok w) : w.Interested :=
  invariant Interested (fun _ _ _ h hc hs => step_preserves (fun _ _ => act_interested hc) h hs)
    interested_init hprompt hrun

/-! ## HandleWrite -/

theorem written_clears {i accept : ℕ} (hsize : ((w.written i accept).sessions i).size = 0) :
    ((w.written i accept).sessions i).writing = false := by
  unfold written at hsize ⊢
  split at hsize
  · next hempty => simp [hempty, queue]
  · next hsome => exact absurd (by simpa using hsize) hsome

/-- A `HandleWrite` that leaves the out-buffer empty leaves no write interest. -/
theorem handleWrite_clears {i accept : ℕ} (hs : w.handleWrite i accept = .ok w')
    (hsize : (w'.sessions i).size = 0) : (w'.sessions i).writing = false := by
  unfold handleWrite at hs
  split at hs
  · split at hs
    · rcases (w.written i accept).handleClose_cases i with ⟨-, hok⟩ | ⟨-, herr⟩
      · cases hok.symm.trans hs
        simp [enter]
      · cases herr.symm.trans hs
    · cases hs
      exact written_clears hsize
  · next hw =>
      cases hs
      simpa using hw

/-- **Pending output has write interest.**  In every state of every run, `EVENT_WRITE` is set
in the event of a registered open session with a non-empty out-buffer, and in the mask last
given to the reactor; the run may have calls of `Shutdown` on other threads, if they set the state
of sessions that are still open.  Every `HandleWrite` that leaves the out-buffer empty leaves
`EVENT_WRITE` cleared, also while the `HandleClose` it may end with waits for the connect
callback. -/
theorem pending_output_has_interest {ls : List WorkerLabel} (hprompt : Meets step Prompt init ls)
    (hrun : run step init ls = .ok w) :
    (∀ i, (w.sessions i).registered = true → (w.sessions i).Open → (w.sessions i).size ≠ 0 →
      (w.sessions i).writing = true ∧ (w.sessions i).mask.write = true) ∧
    (∀ v v' i accept, handleWrite v i accept = .ok v' → (v'.sessions i).size = 0 →
      (v'.sessions i).writing = false) ∧
    (∀ i, .closed i ∈ w.stack → (w.sessions i).writing = false) := by
  have h := interested_of_run hprompt hrun
  refine ⟨fun i hreg hopen hsize => ?_, fun _ _ _ _ => handleWrite_clears, h.closing⟩
  have hstate : (w.sessions i).state ≠ .disconnected := by
    rcases hopen with hopen | hopen <;> simp [hopen]
  have hw := (h.sessions i).pending hstate hsize
  refine ⟨hw, ?_⟩
  rw [(h.sessions i).mask hreg]
  exact hw

/-- The connect callback sends three bytes, of which the socket takes two.  Then the callback
of another event stops reading. -/
def partialWrite : List WorkerLabel :=
  oneSession ++ [.call (.send 0 (.send [1, 2, 3])), .resume, .resume, .cycle .loop,
    .poll false [], .cycle .swap, .start 2, .cycle .loop, .poll false [.other], .dispatch,
    .call (.stopRead 0)]

theorem pending_output_partialWrite :
    ∃ w, run step init partialWrite = .ok w ∧
      ((w.sessions 0).registered, (w.sessions 0).state, (w.sessions 0).size) =
        (true, .connected, 1) ∧
      (w.sessions 0).writing = true ∧ (w.sessions 0).mask.write = true := by
  obtain ⟨w, hrun, heq⟩ : ∃ w, run step init partialWrite = .ok w ∧
      ((w.sessions 0).registered, (w.sessions 0).state, (w.sessions 0).size) =
        (true, .connected, 1) := map_eq_ok (by decide +kernel)
  obtain ⟨hreg, hstate, hsize⟩ := by simpa only [Prod.mk.injEq] using heq
  have hprompt : Meets step Prompt init partialWrite := by decide +kernel
  refine ⟨w, hrun, heq, (pending_output_has_interest hprompt hrun).1 0 hreg (Or.inl hstate) ?_⟩
  omega

end Worker

end Hare.Net
