import Hare.Net.SessionClose

/-!
# Nothing is sent after the close

A session that is disconnected should not write any more.  `HandleClose` gives up the write
interest, so `HandleWrite` does nothing.  But the task of a `Send` that was queued before
the close does not look at the state: when it finds the out-buffer empty, it takes up the
write interest again and writes.  `silent_iff_unsent` says that this is the only way.
-/

namespace Hare.Net

open LabelledRun Io

/-- What a session does towards its socket, its event and its user when it writes. -/
inductive Output
  /-- Bytes are handed to `writev`. -/
  | writev (bytes : List UInt8)
  /-- `EVENT_WRITE` is set. -/
  | enableWrite
  /-- The write callback is queued. -/
  | queueWrite
  deriving DecidableEq, Repr

/-- What `HandleWrite` does. -/
def Session.writeOutputs (s : Session) (accept : ℕ) : List Output :=
  if s.writing then
    .writev s.offered :: if (s.write accept).size = 0 then [.queueWrite] else []
  else
    []

/-- What the task of `Send` and `Append` does. -/
def Session.sendOutputs (s : Session) (chunks : List (List UInt8)) (accept : ℕ) :
    List Output :=
  if s.size = 0 then .enableWrite :: ((s.append chunks).setWrite true).writeOutputs accept
  else []

namespace Worker

/-- What a step does for a session. -/
def outputs (w : Worker) (i : ℕ) : WorkerLabel → List Output
  | .write accept =>
    match w.stack with
    | .callback j revents :: _ =>
      if j = i ∧ revents.read = false ∧ revents.write = true then
        (w.sessions i).writeOutputs accept
      else
        []
    | _ => []
  | .start accept =>
    match w.stack, w.loop.functions with
    | [], ⟨_, .send j chunks⟩ :: _ =>
      if j = i then (w.sessions i).sendOutputs chunks accept else []
    | _, _ => []
  | _ => []

/-- What should hold of a run: once a session has been disconnected, no step does anything for
it. -/
def Silent (ls : List WorkerLabel) : Prop :=
  ∀ ks l w w', ks ++ [l] <+: ls → run step init ks = .ok w → w.step l = .ok w' →
    ∀ i, (w.sessions i).Closed → w.outputs i l = []

/-- No task of `Send` or `Append` is called for a session that has been disconnected and has an
empty out-buffer. -/
def Unsent (w : Worker) : WorkerLabel → Prop
  | .start _ => ∀ ticket i chunks functions, w.stack = [] →
    w.loop.functions = ⟨ticket, .send i chunks⟩ :: functions →
    (w.sessions i).Closed → (w.sessions i).size ≠ 0
  | _ => True

variable {w w' w'' : Worker} {l : WorkerLabel} {i : ℕ}

/-! ## Steps without outputs -/

/-- How often the write callback of a session has been queued. -/
def callbacks (loop : Loop Task) (i : ℕ) : ℕ := loop.pushed.countP (·.task = .written i)

/-- Nothing that can be seen outside has happened for a session. -/
structure Still (w w' : Worker) (i : ℕ) : Prop where
  accepted : (w'.sessions i).accepted = (w.sessions i).accepted
  writing : (w'.sessions i).writing = true → (w.sessions i).writing = true
  queued : callbacks w'.loop i = callbacks w.loop i

namespace Still

variable {i : ℕ}

theorem refl (w : Worker) (i : ℕ) : w.Still w i := ⟨rfl, id, rfl⟩

theorem trans (h : w.Still w' i) (h' : w'.Still w'' i) : w.Still w'' i :=
  ⟨h'.accepted.trans h.accepted, h.writing ∘ h'.writing, h'.queued.trans h.queued⟩

/-- A step that changes neither the sessions nor the queue. -/
theorem of_eq (hsessions : w'.sessions = w.sessions) (hloop : w'.loop = w.loop) :
    w.Still w' i := by
  refine ⟨?_, ?_, ?_⟩ <;> simp [hsessions, hloop]

theorem modify {j : ℕ} {f : Session → Session}
    (haccepted : (f (w.sessions j)).accepted = (w.sessions j).accepted)
    (hwriting : (f (w.sessions j)).writing = true → (w.sessions j).writing = true) :
    w.Still (w.modify j f) i := by
  by_cases hi : i = j
  · subst hi
    exact ⟨by rw [modify_self, haccepted], by rw [modify_self]; exact hwriting, rfl⟩
  · exact ⟨by rw [modify_other w hi], by rw [modify_other w hi]; exact id, rfl⟩

theorem modify_ne {j : ℕ} (hj : i ≠ j) (f : Session → Session) : w.Still (w.modify j f) i :=
  ⟨by rw [modify_other w hj], by rw [modify_other w hj]; exact id, rfl⟩

/-- A step of the loop that does not queue the write callback. -/
theorem loop {l : LoopLabel Task} {loop : Loop Task} (hs : Loop.Step w.loop l loop)
    (hl : l.pushes ≠ some (.written i)) : w.Still { w with loop } i := by
  refine ⟨rfl, id, ?_⟩
  have hpushed := congrArg (List.countP (· = Task.written i)) hs.pushed_eq
  simp only [List.countP_map, List.countP_append] at hpushed
  have hnone : l.pushes.toList.countP (· = Task.written i) = 0 := by
    rw [List.countP_eq_zero]
    intro task htask
    rw [Option.mem_toList] at htask
    simp only [decide_eq_true_eq]
    rintro rfl
    exact hl htask
  rw [hnone] at hpushed
  exact hpushed

theorem queue {task : Task} (htask : task ≠ .written i) : w.Still (w.queue task) i := by
  refine ⟨rfl, id, ?_⟩
  simp [callbacks, Worker.queue, Loop.push, htask]

end Still

theorem written_still {i j : ℕ} (hi : i ≠ j) (accept : ℕ) : w.Still (w.written j accept) i := by
  unfold written
  split
  · exact ((Still.modify_ne hi _).trans (.modify_ne hi _)).trans
      (.queue (by simpa using Ne.symm hi))
  · exact .modify_ne hi _

/-- A step that writes for a session has an output for it. -/
theorem Writes.outputs_ne_nil (h : w.Writes i l) :
    w.outputs i l ≠ [] := by
  cases l with
  | write accept =>
      obtain ⟨hw, revents, stack, hstack, hread, hwrite⟩ := h
      simp [outputs, hstack, hread, hwrite, Session.writeOutputs, hw]
  | start accept =>
      obtain ⟨hstack, hsize, ticket, chunks, functions, hfun⟩ := h
      simp [outputs, hstack, hfun, Session.sendOutputs, hsize]
  | _ => cases h

theorem Sends.writes (h : w.Sends i l) : w.Writes i l := by
  cases l <;> first | exact h | cases h

/-- An act of a step without an output for a session. -/
theorem act_still {w₀ : Worker} (hout : w₀.outputs i l = [])
    (ha : Act w₀ l w w') : w.Still w' i := by
  cases ha with
  | loop hs hk => exact .loop hs (hk i)
  | queue htask => exact .queue (htask i)
  | active | user | called | next | leave | establish => exact .of_eq rfl rfl
  | settle =>
      unfold settle
      split
      · exact ⟨rfl, id, rfl⟩
      · exact .refl w i
  | manage h | shutdown hstate h => exact .modify h.accepted (by rw [h.writing]; exact id)
  | reading h => exact .modify (by rw [h]; rfl) (by rw [h]; exact id)
  | @connect j _ hl hstack hstate =>
      have hstill : w.Still (w.modify j (Session.setState · .connected)) i := .modify rfl id
      exact hstill.trans (.of_eq rfl rfl)
  | @connected j stack hl hw hstack =>
      have hpop : w.Still { w with stack } i := .of_eq rfl rfl
      exact hpop.trans (.modify rfl id)
  | set hl hw htested | append chunks hsize => exact .modify rfl id
  | @close j hopen =>
      have hclose : w.Still (w.modify j Session.close) i := .modify rfl (by simp)
      exact hclose.trans (.of_eq rfl rfl)
  | @closed j stack hl hw hstack =>
      have hpop : w.Still { w with stack } i := .of_eq rfl rfl
      exact hpop.trans (.modify rfl id)
  | @begin j chunks hsend hsame hstack =>
      have hne : i ≠ j := fun h => hsend.writes.outputs_ne_nil (h ▸ hout)
      exact (Still.modify_ne hne _).trans (.modify_ne hne _)
  | @written j accept hwrites hw =>
      have hne : i ≠ j := fun h => hwrites.outputs_ne_nil (h ▸ hout)
      exact written_still hne accept

/-- **`outputs` records all there is to see.**  A step without an output for a session hands
none of its bytes to the socket, does not take up its write interest and does not queue its
write callback. -/
theorem still_of_outputs (hs : w.step l = .ok w')
    (hout : w.outputs i l = []) : w.Still w' i :=
  step_preserves (P := (w.Still · i)) (fun _ _ ha h => h.trans (act_still hout ha)) (.refl w i) hs

/-! ## The invariant -/

/-- A session that has been disconnected has no write interest. -/
def Muted (w : Worker) : Prop := ∀ i, (w.sessions i).Closed → (w.sessions i).writing = false

theorem muted_init : init.Muted := fun _ h => absurd rfl h

theorem Muted.modify (h : w.Muted) {f : Session → Session}
    (hf : (f (w.sessions i)).Closed → (f (w.sessions i)).writing = false) :
    (w.modify i f).Muted := by
  intro j hj
  by_cases hji : j = i
  · subst hji
    rw [modify_self] at hj ⊢
    exact hf hj
  · rw [modify_other w hji] at hj ⊢
    exact h j hj

theorem written_muted (h : w.Muted) (i accept : ℕ) : (w.written i accept).Muted := by
  have hwrite : (w.modify i (Session.write · accept)).Muted := h.modify (h i)
  unfold written
  split
  · exact hwrite.modify (f := (Session.setWrite · false)) fun _ => rfl
  · exact hwrite

/-- Under the condition no task of `Send` finds a session that has been disconnected with an empty
out-buffer. -/
theorem Sends.not_closed (h : w.Sends i l) (hc : w.Unsent l) :
    ¬ (w.sessions i).Closed := by
  cases l with
  | start accept =>
      obtain ⟨hstack, hsize, ticket, chunks, functions, hfun⟩ := h
      exact fun hclosed => hc ticket i chunks functions hstack hfun hclosed hsize
  | _ => cases h

/-- Every act of a step that meets the condition keeps the invariant. -/
theorem act_muted {w₀ : Worker} (hc : w₀.Unsent l) (ha : Act w₀ l w w')
    (h : w.Muted) : w'.Muted := by
  cases ha with
  | settle =>
      unfold settle
      split <;> exact h
  | @manage i f hs =>
      refine h.modify ?_
      rw [Session.Closed, hs.closes, hs.writing]
      exact h i
  | @reading i f read reading hf =>
      refine h.modify ?_
      rw [hf]
      exact h i
  | @connect i _ hl hstack hstate => exact h.modify (f := (Session.setState · .connected)) (h i)
  | @connected i stack hl hw hstack =>
      have hpop : Muted { w with stack } := h
      exact hpop.modify (h i)
  | @shutdown i f hstate hs =>
      refine h.modify ?_
      rw [Session.Closed, hs.closes, hs.writing]
      exact h i
  | @set i hl hw htested => exact h.modify (h i)
  | close hopen => exact h.modify fun _ => Session.close_writing _
  | @closed i stack hl hw hstack =>
      have hpop : Muted { w with stack } := h
      exact hpop.modify (h i)
  | @begin i chunks hsend hsame hstack =>
      have happend : (w.modify i (Session.append · chunks)).Muted := h.modify (h i)
      refine happend.modify fun hclosed => ?_
      rw [modify_self] at hclosed
      exact absurd (hsame ▸ hclosed) (hsend.not_closed hc)
  | @append i chunks hsize => exact h.modify (h i)
  | @written i accept hwrites hw => exact written_muted h i accept
  | _ => exact h

/-- Every step that meets the condition keeps the invariant. -/
theorem step_muted (h : w.Muted) (hc : w.Unsent l)
    (hs : w.step l = .ok w') : w'.Muted :=
  step_preserves (fun _ _ ha hv => act_muted hc ha hv) h hs

/-- A step that meets the condition does nothing for a session that has been disconnected. -/
theorem Muted.outputs_eq_nil (h : w.Muted) (hc : w.Unsent l)
    (hclosed : (w.sessions i).Closed) : w.outputs i l = [] := by
  have hmute : (w.sessions i).writing = false := h i hclosed
  unfold outputs
  split
  · split
    · split
      · simp [Session.writeOutputs, hmute]
      · rfl
    · rfl
  · split
    · next hstack hfun =>
        split
        · next hji =>
            subst hji
            exact if_neg (hc _ _ _ _ hstack hfun hclosed)
        · rfl
    · rfl
  · rfl

/-- The task of `Send` writes for a session with an empty out-buffer, whatever its state. -/
theorem exists_performSend (hsize : (w.sessions i).size = 0)
    (chunks : List (List UInt8)) (accept : ℕ) : ∃ w', w.performSend i chunks accept = .ok w' := by
  rw [performSend, if_pos hsize, handleWrite]
  split
  · split
    · next hstate => exact ⟨_, handleClose_of_open (Or.inr ((written_state _ _ _).trans hstate))⟩
    · exact ⟨_, rfl⟩
  · exact ⟨_, rfl⟩

/-- A step that breaks the condition is taken, and does something for a session that has been
disconnected. -/
theorem step_of_not_unsent (horder : w.loop.InOrder) (hbad : ¬ w.Unsent l) :
    ∃ w' i, w.step l = .ok w' ∧ (w.sessions i).Closed ∧ w.outputs i l ≠ [] := by
  unfold Unsent at hbad
  split at hbad
  · next accept =>
      simp only [not_forall, not_not] at hbad
      obtain ⟨ticket, i, chunks, functions, hstack, hfun, hclosed, hsize⟩ := hbad
      obtain ⟨loop, hloop⟩ := horder.exists_start hfun
      obtain ⟨w', hs⟩ := exists_performSend (w := { w with loop }) hsize chunks accept
      refine ⟨w', i, ?_, hclosed, ?_⟩
      · simp only [step, hstack, hfun, stepLoop, hloop, perform]
        simpa only [hstack] using hs
      · simp [outputs, hstack, hfun, Session.sendOutputs, hsize]
  · exact absurd trivial hbad

/-- **When nothing is sent after the close.**  In a run, once a session has been disconnected no
step hands its bytes to `writev`, takes up its write interest or queues its write callback,
exactly when no task of `Send` or `Append` is called for a session that has been disconnected and
has an empty out-buffer.  A session that is disconnected has been (`Inv.closed`); `Shutdown` on
another thread can set it to disconnecting once more. -/
theorem silent_iff_unsent (ls : List WorkerLabel) :
    Silent ls ↔ Meets step Unsent init ls := by
  constructor
  · intro hall
    by_contra hm
    obtain ⟨ks, l, m, hpre, hks, hbad⟩ := exists_of_not_meets hm
    obtain ⟨w', i, hs, hclosed, hout⟩ := step_of_not_unsent (inOrder_of_run hks) hbad
    exact hout (hall ks l m w' hpre hks hs i hclosed)
  · intro hm ks l w w' hpre hks _ i hclosed
    have hmeets : Meets step Unsent init ks :=
      hm.of_isPrefix ((List.prefix_append ks [l]).trans hpre)
    have hmuted : w.Muted :=
      invariant Muted (fun _ _ _ h hc hs => step_muted h hc hs) muted_init hmeets hks
    exact hmuted.outputs_eq_nil (hm.cond_of_run hpre hks) hclosed

/-- A session is connected, its connect callback sends three bytes and closes the session by
`ForceClose`, and a pointer to it is kept.  The task of `Send` then takes up the write
interest of the disconnected session and hands the bytes to `writev`. -/
theorem sent_after_close :
    ∃ w, run step init [.newSession 0, .cycle .exec, .cycle .loop, .poll false [], .cycle .swap,
        .start 0, .resume, .resume, .keep 0, .call (.send 0 (.send [1, 2, 3])),
        .call (.forceClose 0), .resume, .resume, .resume, .resume, .cycle .loop, .poll false [],
        .cycle .swap] = .ok w ∧
      ((w.sessions 0).held, (w.sessions 0).state, w.outputs 0 (.start 2),
          (w.step (.start 2)).map fun w' => (w'.sessions 0).accepted) =
        (true, .disconnected, [.enableWrite, .writev [1, 2, 3]], .ok [1, 2]) :=
  map_eq_ok (by decide +kernel)

end Worker

end Hare.Net
