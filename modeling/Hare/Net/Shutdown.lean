import Hare.Net.SessionClose

/-!
# Graceful shutdown

The bytes of a call of `Send` or `Append` go through three places: the queued task of the
call, the out-buffer of the session, and the socket.  A call that returned true before
`Shutdown` has promised its bytes, and the write side of the socket should be shut down, and
the session be disconnected, only when the socket has taken all of them.

The three places hold the bytes in order (`Session.Balanced`), so at the moment a session ends the
promised bytes the socket has not taken are those in the out-buffer and in the queued tasks, apart
from the ones that were queued after `Shutdown` (`Worker.owed`).  Nothing in the code waits for
them: `Shutdown` shuts the write side when there is no write interest, although tasks of `Send` may
be queued, and `HandleWrite` closes a disconnecting session after any write.  Bytes the temporary
buffer has refused are in none of the places.  `delivered_iff_delivers` is the exact condition.
-/

namespace Hare.Net

open LabelledRun Io

/-! ## The bytes of a session -/

/-- The bytes a task will add to the out-buffer of a session. -/
def Task.bytes (i : ℕ) : Task → List UInt8
  | .send j chunks => if j = i then chunks.flatten else []
  | _ => []

/-- The bytes in the queued tasks for a session. -/
def queuedBytes (loop : Loop Task) (i : ℕ) : List UInt8 :=
  (loop.functions ++ loop.pending).flatMap fun q => q.task.bytes i

theorem queuedBytes_eq (loop : Loop Task) (i : ℕ) :
    queuedBytes loop i = loop.waiting.flatMap (Task.bytes i) := by
  simp [queuedBytes, Loop.waiting, List.flatMap_map]

theorem queuedBytes_push (loop : Loop Task) (task : Task) (i : ℕ) :
    queuedBytes (loop.push task) i = queuedBytes loop i ++ task.bytes i := by
  simp [queuedBytes_eq, Loop.waiting_push]

/-- A step of the loop moves queued tasks, and adds the ones it pushes. -/
theorem queuedBytes_step {loop loop' : Loop Task} {l : LoopLabel Task} (h : loop.InOrder)
    (hs : Loop.Step loop l loop') (hl : l ≠ .start) (i : ℕ) :
    queuedBytes loop' i = queuedBytes loop i ++ (l.pushes.map (Task.bytes i)).getD [] := by
  rw [queuedBytes_eq, queuedBytes_eq, hs.waiting_eq h hl, List.flatMap_append]
  cases l.pushes <;> simp

/-- The task that is started is the first one. -/
theorem queuedBytes_start {loop loop' : Loop Task} {q : Queued Task}
    {functions : List (Queued Task)} (hs : Loop.Step loop .start loop')
    (hq : loop.functions = q :: functions) (i : ℕ) :
    queuedBytes loop i = q.task.bytes i ++ queuedBytes loop' i := by
  rw [queuedBytes_eq, queuedBytes_eq, hs.waiting_start hq, List.flatMap_cons]

namespace Session

/-- The session has not been shut down. -/
def Early (s : Session) : Prop := s.state = .connecting ∨ s.state = .connected

/-- The session has come to its end, for the writer. -/
def Ended (s : Session) : Prop := s.shut = true ∨ s.state = .disconnected

/-- The socket has taken all bytes promised before `Shutdown`. -/
def Done (s : Session) : Prop := s.refused = false ∧ s.promised <+: s.accepted

/-- The socket, the out-buffer and the queue hold the promised bytes in order, followed by
what was queued after `Shutdown`. -/
def Balanced (s : Session) (queued : List UInt8) : Prop :=
  ∃ late, s.accepted ++ s.out.flatten ++ queued = s.promised ++ late ∧ late.length = s.late ∧
    (s.Early → late = [])

/-- What holds of a session, given the bytes queued for it. -/
structure Sane (s : Session) (queued : List UInt8) : Prop where
  balanced : s.refused = false → s.Balanced queued
  sending : s.sending ≠ [] → s.state ≠ .connecting
  late : s.shut = true ∨ s.shutting ≠ 0 → ¬ s.Early
  delivered : s.Ended → s.Done

namespace Sane

variable {s : Session} {queued : List UInt8}

theorem new : Session.new.Sane [] where
  balanced _ := ⟨[], rfl, rfl, fun _ => rfl⟩
  sending h := absurd rfl h
  late h := by rcases h with h | h <;> simp [Session.new] at h
  delivered h := by rcases h with h | h <;> cases h

/-- The promised bytes the socket has not taken are in the out-buffer and in the queue. -/
theorem length_le_iff (h : s.Sane queued) (hkept : s.refused = false) (n : ℕ) :
    s.promised.length ≤ s.accepted.length + n ↔ s.size + queued.length - s.late ≤ n := by
  obtain ⟨late, heq, hlate, -⟩ := h.balanced hkept
  have hlen := congrArg List.length heq
  simp only [List.length_append] at hlen
  rw [Session.size]
  omega

/-- All promised bytes have been taken when enough bytes have been. -/
theorem done_of_length (h : s.Sane queued) (hkept : s.refused = false)
    (hlen : s.promised.length ≤ s.accepted.length) : s.Done := by
  obtain ⟨late, heq, -⟩ := h.balanced hkept
  refine ⟨hkept, List.prefix_of_prefix_length_le (List.prefix_append _ late) ?_ hlen⟩
  rw [← heq, List.append_assoc]
  exact List.prefix_append _ _

theorem write (h : s.Sane queued) (accept : ℕ) : (s.write accept).Sane queued where
  balanced hkept := by
    obtain ⟨late, heq, hlate⟩ := h.balanced hkept
    refine ⟨late, ?_, hlate⟩
    have htaken : s.offered.take accept <+: s.out.flatten :=
      (List.take_prefix _ _).trans (Chunks.gather_prefix _ _ _)
    simp only [Session.write, Chunks.flatten_drop]
    rw [List.append_assoc s.accepted, List.prefix_iff_eq_append.mp htaken]
    exact heq
  sending := h.sending
  late := h.late
  delivered hend := (h.delivered hend).imp_right fun hp => hp.trans (List.prefix_append _ _)

theorem setWrite (h : s.Sane queued) (write : Bool) : (s.setWrite write).Sane queued :=
  ⟨h.balanced, h.sending, h.late, h.delivered⟩

theorem append {chunks : List (List UInt8)} (h : s.Sane (chunks.flatten ++ queued)) :
    (s.append chunks).Sane queued where
  balanced hkept := by
    obtain ⟨late, heq, hlate⟩ := h.balanced hkept
    refine ⟨late, ?_, hlate⟩
    simpa [Session.append] using heq
  sending := h.sending
  late := h.late
  delivered := h.delivered

/-- The state moves to one in which nothing is promised any more. -/
theorem of_not_early {s' : Session} (h : s.Sane queued) (hstate : ¬ s'.Early)
    (hout : s'.out = s.out) (haccepted : s'.accepted = s.accepted)
    (hpromised : s'.promised = s.promised) (hrefused : s'.refused = s.refused)
    (hlate : s'.late = s.late) (hend : s'.Ended → s.Done) : s'.Sane queued where
  balanced hkept := by
    obtain ⟨late, heq, hlen, -⟩ := h.balanced (hrefused ▸ hkept)
    exact ⟨late, by rw [haccepted, hout, hpromised, heq], hlen.trans hlate.symm,
      fun he => absurd he hstate⟩
  sending _ hc := hstate (Or.inl hc)
  late _ := hstate
  delivered he := by rw [Done, haccepted, hpromised, hrefused]; exact hend he

theorem close (h : s.Sane queued) (hdone : s.Done) : s.close.Sane queued := by
  refine h.of_not_early ?_ rfl rfl rfl rfl rfl fun _ => hdone
  rintro (hc | hc) <;> cases hc

theorem finishShutdown (h : s.Sane queued) (hlate : ¬ s.Early)
    (hdone : s.writing = false → s.Done) : s.finishShutdown.Sane queued := by
  unfold Session.finishShutdown
  split
  · exact h
  · next hw =>
      exact h.of_not_early hlate rfl rfl rfl rfl rfl fun _ => hdone (by simpa using hw)

/-- A session that has been shut down has left its first states. -/
theorem not_ended_of_early (h : s.Sane queued) (hearly : s.Early) : ¬ s.Ended := by
  rintro (hshut | hstate)
  · exact h.late (Or.inl hshut) hearly
  · rcases hearly with he | he <;> simp [he] at hstate

/-- `Shutdown` sets the state. -/
theorem disconnecting {s' : Session} (h : s.Sane queued) (hstate : s'.state = .disconnecting)
    (hshut : s'.shut = s.shut) (hout : s'.out = s.out) (haccepted : s'.accepted = s.accepted)
    (hpromised : s'.promised = s.promised) (hrefused : s'.refused = s.refused)
    (hlate : s'.late = s.late) : s'.Sane queued := by
  refine h.of_not_early ?_ hout haccepted hpromised hrefused hlate ?_
  · rintro (hc | hc) <;> simp [hstate] at hc
  · rintro (hend | hend)
    · exact h.delivered (Or.inl (hshut ▸ hend))
    · simp [hstate] at hend

end Sane

end Session

/-- Unless the temporary buffer refuses them, it holds the bytes of the call. -/
theorem Message.flatten_chunks {m : Message} (h : m.refused = false) :
    m.chunks.flatten = m.bytes := by
  cases m with
  | send bytes =>
      have hcap : bytes.length ≤ maxSize := by simpa [refused] using h
      simp [chunks, hcap, Chunks.flatten_push, Message.bytes]
  | append blocks => exact List.flatten_filter_ne_nil

theorem Session.Sane.promise {s : Session} {queued : List UInt8} (h : s.Sane queued) (m : Message)
    (hne : s.state ≠ .connecting) : (s.promise m).Sane (queued ++ m.chunks.flatten) := by
  unfold Session.promise
  split
  · next hstate =>
      have he : s.Early := Or.inr hstate
      refine ⟨fun hkept => ?_, h.sending, h.late, fun hend => ?_⟩
      · obtain ⟨hold, hm⟩ := Bool.or_eq_false_iff.mp hkept
        obtain ⟨late, heq, hlate, hearly⟩ := h.balanced hold
        rw [hearly he] at heq hlate
        refine ⟨[], ?_, hlate, fun _ => rfl⟩
        rw [Message.flatten_chunks hm, ← List.append_assoc, heq]
        simp
      · exact absurd hend (h.not_ended_of_early he)
  · next hstate =>
      refine ⟨fun hkept => ?_, h.sending, h.late, h.delivered⟩
      obtain ⟨late, heq, hlate, -⟩ := h.balanced hkept
      refine ⟨late ++ m.chunks.flatten, ?_, by simp [hlate], ?_⟩
      · rw [← List.append_assoc, heq, List.append_assoc]
      · rintro (he | he)
        · exact absurd he hne
        · exact absurd he hstate

namespace Worker

variable {w w' : Worker} {i accept : ℕ} {f : Session → Session} {l : WorkerLabel}
  {loop loop' : Loop Task} {m : Message}

/-! ## The invariant -/

/-- What holds of a worker while a task is being called that will add the bytes `rest`. -/
structure FlowsWith (w : Worker) (rest : ℕ → List UInt8) : Prop where
  order : w.loop.InOrder
  sane : ∀ i, (w.sessions i).Sane (rest i ++ queuedBytes w.loop i)

/-- What holds between two steps. -/
def Flows (w : Worker) : Prop := w.FlowsWith fun _ => []

theorem flows_init : init.Flows where
  order := Loop.inOrder_init
  sane _ := Session.Sane.new

namespace FlowsWith

variable {rest : ℕ → List UInt8}

theorem modify (h : w.FlowsWith rest)
    (hs : (f (w.sessions i)).Sane (rest i ++ queuedBytes w.loop i)) :
    (w.modify i f).FlowsWith rest where
  order := h.order
  sane j := by
    by_cases hj : j = i
    · subst hj
      rw [modify_self]
      exact hs
    · rw [modify_other w hj]
      exact h.sane j

theorem congr (h : w.FlowsWith rest) (hloop : w'.loop = w.loop)
    (hsessions : w'.sessions = w.sessions) : w'.FlowsWith rest :=
  ⟨hloop ▸ h.order, by rw [hloop, hsessions]; exact h.sane⟩

theorem enter (h : w.FlowsWith rest) (frames : List Frame) :
    (w.enter frames).FlowsWith rest :=
  h.congr rfl rfl

/-- A task is queued that adds no bytes. -/
theorem queue (h : w.FlowsWith rest) {task : Task} (htask : ∀ i, task.bytes i = []) :
    (w.queue task).FlowsWith rest where
  order := h.order.push task
  sane i := by
    have hbytes : queuedBytes (w.queue task).loop i = queuedBytes w.loop i := by
      rw [Worker.queue, queuedBytes_push, htask, List.append_nil]
    rw [hbytes]
    exact h.sane i

/-- A change of a session in what the writer does not see. -/
theorem other (h : w.FlowsWith rest)
    (hstate : (f (w.sessions i)).state = (w.sessions i).state)
    (hout : (f (w.sessions i)).out = (w.sessions i).out)
    (haccepted : (f (w.sessions i)).accepted = (w.sessions i).accepted)
    (hpromised : (f (w.sessions i)).promised = (w.sessions i).promised)
    (hsending : (f (w.sessions i)).sending ≠ [] → (w.sessions i).state ≠ .connecting)
    (hshut : (f (w.sessions i)).shut = (w.sessions i).shut)
    (hshutting : (f (w.sessions i)).shutting = (w.sessions i).shutting)
    (hrefused : (f (w.sessions i)).refused = (w.sessions i).refused)
    (hlate : (f (w.sessions i)).late = (w.sessions i).late) :
    (w.modify i f).FlowsWith rest := by
  have hsane := h.sane i
  refine h.modify ⟨?_, ?_, ?_, ?_⟩
  · simp only [Session.Balanced, Session.Early, hstate, hout, haccepted, hpromised, hrefused, hlate]
    exact hsane.balanced
  · rw [hstate]
    exact hsending
  · simp only [Session.Early, hstate, hshut, hshutting]
    exact hsane.late
  · simp only [Session.Ended, Session.Done, hstate, hshut, haccepted, hpromised, hrefused]
    exact hsane.delivered

end FlowsWith

theorem handleClose_flows (h : w.Flows)
    (hdone : (w.sessions i).Done) (hs : w.handleClose i = .ok w') : w'.Flows := by
  rcases w.handleClose_cases i with ⟨-, hok⟩ | ⟨-, herr⟩
  · cases hok.symm.trans hs
    exact (h.modify ((h.sane i).close hdone)).enter _
  · cases herr.symm.trans hs

theorem written_flows (h : w.Flows) (i accept : ℕ) : (w.written i accept).Flows := by
  have hwrite : (w.modify i (Session.write · accept)).Flows :=
    h.modify ((h.sane i).write accept)
  unfold written
  split
  · refine FlowsWith.queue (hwrite.modify ?_) fun _ => rfl
    exact (hwrite.sane i).setWrite false
  · exact hwrite

/-- The promised and the taken bytes of a session after a write. -/
theorem written_sessions (w : Worker) (i accept : ℕ) :
    ((w.written i accept).sessions i).promised = (w.sessions i).promised ∧
      ((w.written i accept).sessions i).refused = (w.sessions i).refused ∧
      ((w.written i accept).sessions i).accepted =
        (w.sessions i).accepted ++ (w.sessions i).offered.take accept := by
  unfold written
  split <;> simp [queue, Session.setWrite, Session.update, Session.write]

/-- How many bytes the socket takes. -/
def takes (s : Session) (accept : ℕ) : ℕ := min accept s.offered.length

/-- The socket has taken all promised bytes when it has taken `n` bytes more. -/
def DoneWith (s : Session) (n : ℕ) : Prop :=
  s.refused = false ∧ s.promised.length ≤ s.accepted.length + n

theorem handleWrite_flows (h : w.Flows)
    (hdone : (w.sessions i).writing = true → (w.sessions i).state = .disconnecting →
      DoneWith (w.sessions i) (takes (w.sessions i) accept))
    (hs : w.handleWrite i accept = .ok w') : w'.Flows := by
  have hwritten := written_flows h i accept
  unfold handleWrite at hs
  split at hs
  · next hw =>
      split at hs
      · next hstate =>
          obtain ⟨hkept, hlen⟩ := hdone hw hstate
          obtain ⟨hpromised, hrefused, haccepted⟩ := w.written_sessions i accept
          refine handleClose_flows hwritten
            ((hwritten.sane i).done_of_length (hrefused.trans hkept) ?_) hs
          rw [hpromised, haccepted, List.length_append, List.length_take]
          exact hlen
      · cases hs
        exact hwritten
  · cases hs
    exact h

theorem performSend_flows {chunks : List (List UInt8)}
    (h : w.FlowsWith fun j => Task.bytes j (.send i chunks))
    (hdone : (w.sessions i).size = 0 → (w.sessions i).state = .disconnecting →
      DoneWith (w.sessions i) (takes ((w.sessions i).append chunks) accept))
    (hs : w.performSend i chunks accept = .ok w') : w'.Flows := by
  have hsane : (w.sessions i).Sane (chunks.flatten ++ queuedBytes w.loop i) := by
    simpa [Task.bytes] using h.sane i
  have happend : (w.modify i (Session.append · chunks)).Flows := by
    refine ⟨h.order, fun j => ?_⟩
    by_cases hj : j = i
    · subst hj
      rw [modify_self]
      exact hsane.append
    · have hother := h.sane j
      rw [Task.bytes, if_neg (Ne.symm hj)] at hother
      rw [modify_other w hj]
      exact hother
  unfold performSend at hs
  split at hs
  · next hsize =>
      refine handleWrite_flows (happend.modify ((happend.sane i).setWrite true)) ?_ hs
      simp only [modify_self]
      exact fun _ hstate => hdone hsize hstate
  split at hs
  · split at hs <;> cases hs
    exact happend.enter _
  · cases hs
    exact happend

theorem newSession_flows (h : w.Flows) (hs : w.newSession i = .ok w') : w'.Flows := by
  unfold newSession at hs
  split at hs <;> cases hs
  exact FlowsWith.enter (h.other rfl rfl rfl rfl (h.sane i).sending rfl rfl rfl rfl) _

theorem connectEstablished_flows (h : w.Flows)
    (hs : w.connectEstablished i = .ok w') : w'.Flows := by
  unfold connectEstablished at hs
  split at hs
  · next hstate =>
      cases hs
      have hsane := h.sane i
      have hearly : (w.sessions i).Early := Or.inl hstate
      refine FlowsWith.enter (h.modify ⟨?_, ?_, ?_, ?_⟩) _
      · intro hkept
        obtain ⟨late, heq, hlen, hlate⟩ := hsane.balanced hkept
        exact ⟨late, heq, hlen, fun _ => hlate hearly⟩
      · simp [Session.setState]
      · exact fun hshut => absurd hearly (hsane.late hshut)
      · rintro (hshut | hdis)
        · exact absurd hearly (hsane.late (Or.inl hshut))
        · cases hdis
  · cases hs

/-- The session a step shuts down for writing or closes, and how many bytes the socket
takes in the same step. -/
def ending (w : Worker) : WorkerLabel → Option (ℕ × ℕ)
  | .read received =>
    match w.stack with
    | .callback i revents :: _ =>
      if received = 0 ∧ revents.read then some (i, 0) else none
    | _ => none
  | .close =>
    match w.stack with
    | .callback i revents :: _ =>
      if !revents.read && !revents.write && revents.closed then some (i, 0) else none
    | _ => none
  | .write accept =>
    match w.stack with
    | .callback i revents :: _ =>
      if !revents.read && revents.write && (w.sessions i).writing &&
          (w.sessions i).state == .disconnecting then
        some (i, takes (w.sessions i) accept)
      else
        none
    | _ => none
  | .start accept =>
    match w.stack, w.loop.functions with
    | [], ⟨_, .send i chunks⟩ :: _ =>
      if (w.sessions i).size = 0 ∧ (w.sessions i).state = .disconnecting then
        some (i, takes ((w.sessions i).append chunks) accept)
      else
        none
    | _, _ => none
  | .call (.shutdown i) =>
    if w.userTop ∧ (w.sessions i).state = .connected ∧ (w.sessions i).writing = false then
      some (i, 0)
    else
      none
  | .call (.forceClose i) =>
    if w.userTop ∧
        ((w.sessions i).state = .connected ∨ (w.sessions i).state = .disconnecting) then
      some (i, 0)
    else
      none
  | .shutdownEnd i =>
    if (w.sessions i).shutting ≠ 0 ∧ (w.sessions i).writing = false then some (i, 0) else none
  | _ => none

/-- The bytes in the out-buffer and in the queued tasks of a session, apart from those queued
after `Shutdown`. -/
def owed (w : Worker) (i : ℕ) : ℕ :=
  (w.sessions i).size + (queuedBytes w.loop i).length - (w.sessions i).late

/-- A step that ends a session finds no more bytes owed than the socket takes in the same step, and
no call before `Shutdown` had its bytes refused. -/
def Delivers (w : Worker) (l : WorkerLabel) : Prop :=
  ∀ i n, w.ending l = some (i, n) → (w.sessions i).refused = false ∧ w.owed i ≤ n

instance (w : Worker) (l : WorkerLabel) : Decidable (w.Delivers l) :=
  match h : w.ending l with
  | none => isTrue fun i n he => by simp [h] at he
  | some (i, n) =>
    decidable_of_iff ((w.sessions i).refused = false ∧ w.owed i ≤ n) (by
      refine ⟨fun hle j m he => ?_, fun hall => hall i n h⟩
      cases h.symm.trans he
      exact hle)

/-- What should hold in every state: when the write side of a session is shut down or the
session is disconnected, the socket has taken all promised bytes. -/
def Delivered (w : Worker) : Prop := ∀ i, (w.sessions i).Ended → (w.sessions i).Done

/-- What is owed is what the socket has still to take. -/
theorem Flows.doneWith_iff (h : w.Flows) (i n : ℕ) :
    DoneWith (w.sessions i) n ↔ (w.sessions i).refused = false ∧ w.owed i ≤ n :=
  and_congr_right fun hkept => (h.sane i).length_le_iff hkept n

theorem Delivers.doneWith (hc : w.Delivers l) (h : w.Flows) {i n : ℕ}
    (he : w.ending l = some (i, n)) : DoneWith (w.sessions i) n :=
  (h.doneWith_iff i n).mpr (hc i n he)

theorem Delivers.done (hc : w.Delivers l) (h : w.Flows)
    (he : w.ending l = some (i, 0)) : (w.sessions i).Done := by
  obtain ⟨hkept, hlen⟩ := hc.doneWith h he
  exact (h.sane i).done_of_length hkept hlen

/-- A step of the loop that starts no task and pushes no bytes. -/
theorem loop_flows {l : LoopLabel Task} (h : w.Flows)
    (hs : Loop.Step w.loop l loop) (hl : l ≠ .start)
    (hpush : ∀ i, (l.pushes.map (Task.bytes i)).getD [] = []) : Flows { w with loop } := by
  refine ⟨h.order.step hs, fun i => ?_⟩
  have hbytes := queuedBytes_step h.order hs hl i
  rw [hpush, List.append_nil] at hbytes
  simpa [hbytes] using h.sane i

/-- The bytes of a call are queued and promised. -/
theorem promise_flows (h : w.Flows)
    (horder : loop.InOrder)
    (hbytes : ∀ j, queuedBytes loop j = queuedBytes w.loop j ++ Task.bytes j (.send i m.chunks))
    (hf : (f (w.sessions i)).Sane (queuedBytes w.loop i))
    (hstate : (f (w.sessions i)).state ≠ .connecting) :
    ({ w with loop }.modify i fun s => (f s).promise m).Flows := by
  refine ⟨horder, fun j => ?_⟩
  by_cases hj : j = i
  · subst hj
    have hq : queuedBytes loop j = queuedBytes w.loop j ++ m.chunks.flatten := by
      rw [hbytes, Task.bytes, if_pos rfl]
    rw [modify_self]
    exact hq ▸ hf.promise m hstate
  · have hq : queuedBytes loop j = queuedBytes w.loop j := by
      rw [hbytes, Task.bytes, if_neg (Ne.symm hj), List.append_nil]
    rw [modify_other _ hj]
    exact hq ▸ h.sane j

theorem call_flows (h : w.Flows) {c : UserCall} (huser : w.userTop = true)
    (hc : w.Delivers (.call c)) (hs : w.call c = .ok w') : w'.Flows := by
  cases c with
  | send i m =>
      simp only [call] at hs
      split at hs
      · next hstate =>
          cases hs
          refine promise_flows h (h.order.push _) (queuedBytes_push w.loop _)
            (f := fun s => s) (h.sane i) ?_
          simp [hstate]
      · cases hs
        exact h
  | shutdown i =>
      simp only [call] at hs
      split at hs
      · next hstate =>
          cases hs
          have hsane := h.sane i
          refine h.modify (Session.Sane.finishShutdown ?_ ?_ ?_)
          · exact hsane.disconnecting rfl rfl rfl rfl rfl rfl rfl
          · rintro (hc | hc) <;> cases hc
          · intro hwriting
            exact hc.done h (if_pos ⟨huser, hstate, hwriting⟩)
      · cases hs
        exact h
  | forceClose i =>
      have hdone : ∀ hopen : (w.sessions i).state = .connected ∨
          (w.sessions i).state = .disconnecting,
          (w.sessions i).Done := fun hopen => hc.done h (if_pos ⟨huser, hopen⟩)
      simp only [call] at hs
      split at hs
      · next hstate => exact handleClose_flows h (hdone (Or.inl hstate)) hs
      · next hstate => exact handleClose_flows h (hdone (Or.inr hstate)) hs
      · cases hs
        exact h
  | newSession i =>
      simp only [call] at hs
      split at hs
      · cases hs
      · exact newSession_flows (h.other rfl rfl rfl rfl (h.sane i).sending rfl rfl rfl rfl) hs
  | setHighWaterMark i n | setHighWaterCallback i set =>
      cases hs
      exact h.other rfl rfl rfl rfl (h.sane i).sending rfl rfl rfl rfl
  | startRead i | stopRead i =>
      obtain ⟨_, _, _, rfl⟩ := call_reading (i := i) (by simp) hs
      exact h.other rfl rfl rfl rfl (h.sane i).sending rfl rfl rfl rfl

theorem Flows.setStack (h : w.Flows) (stack : List Frame) : Flows { w with stack } :=
  h.congr rfl rfl

theorem settle_flows (h : w.Flows) : w.settle.Flows := by
  unfold settle
  split
  · refine ⟨h.order, fun i => ?_⟩
    have hsane := h.sane i
    exact ⟨hsane.balanced, hsane.sending, hsane.late, hsane.delivered⟩
  · exact h

theorem resume_flows (h : w.Flows) (hs : w.resume = .ok w') : w'.Flows := by
  unfold resume at hs
  split at hs
  · cases hs
  · cases hs
    exact h.congr rfl rfl
  · split at hs <;> cases hs
    exact h.congr rfl rfl
  · next i stack _ =>
      have hpop := h.setStack stack
      unfold finishClose at hs
      split at hs <;> cases hs
      exact hpop.other rfl rfl rfl rfl (hpop.sane i).sending rfl rfl rfl rfl
  · next i stack _ =>
      exact connectEstablished_flows (h.setStack stack) hs
  · next i stack _ =>
      have hpop := h.setStack stack
      cases hs
      exact hpop.other rfl rfl rfl rfl (hpop.sane i).sending rfl rfl rfl rfl

theorem dispatch_flows (h : w.Flows) (hs : w.dispatch = .ok w') : w'.Flows := by
  unfold dispatch at hs
  split at hs
  · simp only at hs
    split at hs <;> cases hs <;> exact h.congr rfl rfl
  · cases hs
    exact h.congr rfl rfl
  · cases hs

/-- The first task is started and adds its bytes. -/
theorem start_flows (h : w.Flows) (hc : w.Delivers (.start accept))
    {q : Queued Task} {functions : List (Queued Task)}
    (hstack : w.stack = []) (hfun : w.loop.functions = q :: functions)
    (hloop : Loop.Step w.loop .start loop)
    (hs : { w with loop }.perform accept q.task = .ok w') : w'.Flows := by
  have hwith : FlowsWith { w with loop } fun j => q.task.bytes j := by
    refine ⟨h.order.step hloop, fun j => ?_⟩
    have hsane := h.sane j
    rw [queuedBytes_start hloop hfun j] at hsane
    exact hsane
  obtain ⟨ticket, task⟩ := q
  cases task with
  | send i chunks =>
      refine performSend_flows hwith (fun hsize hstate => hc.doneWith h ?_) hs
      simp only [ending, hstack, hfun]
      exact if_pos ⟨hsize, hstate⟩
  | user | written i => cases hs; exact hwith.enter _
  | newSession i => exact newSession_flows hwith hs

/-- The tested bytes of a call on another thread are queued. -/
theorem sendPush_flows (h : w.Flows)
    (hmem : m ∈ (w.sessions i).sending)
    (hloop : Loop.Step w.loop (.queueInCycle false (.send i m.chunks)) loop) :
    ({ w with loop }.modify i fun s =>
      { s with sending := s.sending.erase m }.promise m).Flows := by
  have hsane := h.sane i
  have hstate := hsane.sending (List.ne_nil_of_mem hmem)
  exact promise_flows h (h.order.step hloop) (queuedBytes_step h.order hloop (by simp))
    (f := fun s => { s with sending := s.sending.erase m })
    ⟨hsane.balanced, fun _ => hstate, hsane.late, hsane.delivered⟩ hstate

/-- The steps of the loop that are taken as they are push no bytes. -/
theorem bytes_of_passes {l : LoopLabel Task} (hl : w.passes l = true) :
    l ≠ .start ∧ ∀ i, (l.pushes.map (Task.bytes i)).getD [] = [] := by
  cases l with
  | queueInCycle inThread task =>
      have htask : task = .user := by simp_all [passes]
      exact ⟨by simp, fun _ => by rw [htask]; rfl⟩
  | runInCycle inThread task =>
      have htask : task = .user := by simp_all [passes]
      exact ⟨by simp, fun _ => by rw [htask]; cases inThread <;> rfl⟩
  | start => cases hl
  | _ => exact ⟨by simp, fun _ => rfl⟩

/-- Every step that meets the condition keeps the invariant. -/
theorem step_flows (h : w.Flows) (hc : w.Delivers l)
    (hs : w.step l = .ok w') : w'.Flows := by
  have hcases := w.step_cases l
  generalize w.step l = r at hcases hs
  cases hcases with
  | stop l r => cases hs
  | idle l => cases hs; exact h
  | cycle hl hloop =>
      obtain ⟨hne, hpush⟩ := bytes_of_passes hl
      have h₁ := loop_flows h hloop hne hpush
      cases hs
      split
      · exact settle_flows h₁
      · exact h₁
  | poll hloop =>
      cases hs
      have h₁ := loop_flows h hloop (by simp) fun _ => rfl
      exact h₁.congr rfl rfl
  | dispatch => exact dispatch_flows h hs
  | timer => cases hs; exact h.enter _
  | start hstack hfun hloop => exact start_flows h hc hstack hfun hloop hs
  | @read received i revents stack hstack hread =>
      unfold handleRead at hs
      split at hs
      · next hzero =>
          refine handleClose_flows (h.setStack _) ?_ hs
          exact hc.done h (by simp [ending, hstack, hread, hzero])
      · cases hs
        exact h.congr rfl rfl
  | @write accept i revents stack hstack hread hwrite =>
      refine handleWrite_flows (h.setStack _) (fun hw hstate => ?_) hs
      refine hc.doneWith h ?_
      simp only at hw hstate
      simp [ending, hstack, hread, hwrite, hw, hstate]
  | @close i revents stack hstack hread hwrite hclosed =>
      refine handleClose_flows (h.setStack _) ?_ hs
      exact hc.done h (by simp [ending, hstack, hread, hwrite, hclosed])
  | resume => exact resume_flows h hs
  | call huser => exact call_flows h huser hc hs
  | sendCheck hstate =>
      cases hs
      exact h.other rfl rfl rfl rfl (fun _ => by simp [hstate]) rfl rfl rfl rfl
  | sendPush hmem hloop => cases hs; exact sendPush_flows h hmem hloop
  | @shutdownCheck i hstate =>
      cases hs
      exact h.other rfl rfl rfl rfl (h.sane i).sending rfl rfl rfl rfl
  | @shutdownSet i htested =>
      cases hs
      exact h.modify ((h.sane i).disconnecting rfl rfl rfl rfl rfl rfl rfl)
  | @shutdownEnd i hshutting =>
      cases hs
      have hsane := h.sane i
      have hlate := hsane.late (Or.inr hshutting)
      refine h.modify (Session.Sane.finishShutdown ?_ hlate ?_)
      · exact hsane.of_not_early hlate rfl rfl rfl rfl rfl hsane.delivered
      · exact fun hwriting => hc.done h (if_pos ⟨hshutting, hwriting⟩)
  | @newSession i loop hloop =>
      cases hs
      have h₁ := loop_flows h hloop (by simp) fun _ => rfl
      exact h₁.other rfl rfl rfl rfl (h₁.sane i).sending rfl rfl rfl rfl
  | @keep i | @drop i =>
      cases hs
      exact h.other rfl rfl rfl rfl (h.sane i).sending rfl rfl rfl rfl

/-! ## Lost bytes -/

theorem not_delivered (hend : (w.sessions i).Ended)
    (hlost : ¬ DoneWith (w.sessions i) 0) : ¬ w.Delivered := fun h =>
  hlost ((h i hend).imp_right List.IsPrefix.length_le)

theorem handleClose_lost
    (hopen : (w.sessions i).state = .connected ∨ (w.sessions i).state = .disconnecting)
    (hlost : ¬ DoneWith (w.sessions i) 0) :
    ∃ w', w.handleClose i = .ok w' ∧ ¬ w'.Delivered := by
  refine ⟨_, handleClose_of_open hopen, not_delivered (i := i) ?_ ?_⟩
  · exact Or.inr (by simp [enter])
  · simpa [enter, DoneWith] using hlost

theorem handleWrite_lost (hw : (w.sessions i).writing = true)
    (hstate : (w.sessions i).state = .disconnecting)
    (hlost : ¬ DoneWith (w.sessions i) (takes (w.sessions i) accept)) :
    ∃ w', w.handleWrite i accept = .ok w' ∧ ¬ w'.Delivered := by
  rw [handleWrite, if_pos hw, if_pos hstate]
  obtain ⟨hpromised, hrefused, haccepted⟩ := w.written_sessions i accept
  apply handleClose_lost
  · exact Or.inr ((w.written_state i accept).trans hstate)
  · rw [DoneWith, hpromised, hrefused, haccepted, List.length_append, List.length_take]
    exact hlost

theorem performSend_lost {chunks : List (List UInt8)}
    (hsize : (w.sessions i).size = 0) (hstate : (w.sessions i).state = .disconnecting)
    (hlost : ¬ DoneWith (w.sessions i) (takes ((w.sessions i).append chunks) accept)) :
    ∃ w', w.performSend i chunks accept = .ok w' ∧ ¬ w'.Delivered := by
  rw [performSend, if_pos hsize]
  apply handleWrite_lost
  · simp
  · simp only [modify_self]
    exact hstate
  · simp only [modify_self]
    exact hlost

theorem finishShutdown_lost
    (hwriting : (f (w.sessions i)).writing = false) (hlost : ¬ DoneWith (f (w.sessions i)) 0) :
    ¬ (w.modify i fun s => (f s).finishShutdown).Delivered := by
  have hshut : (f (w.sessions i)).finishShutdown = { f (w.sessions i) with shut := true } :=
    if_neg (by simp [hwriting])
  apply not_delivered (i := i)
  · rw [modify_self, hshut]
    exact Or.inl rfl
  · rw [modify_self, hshut]
    exact hlost

/-- A session `HandleCallback` works for, with promised bytes left, can be closed. -/
theorem open_of_callback (hinv : w.Inv) (h : w.Flows) {revents : Events}
    {stack : List Frame} (hstack : w.stack = .callback i revents :: stack)
    (hlost : ¬ DoneWith (w.sessions i) 0) :
    (w.sessions i).state = .connected ∨ (w.sessions i).state = .disconnecting := by
  have hbegun := hinv.begun (.callback i revents) (hstack ▸ List.mem_cons_self) i rfl
  cases hstate : (w.sessions i).state with
  | connecting => exact absurd hstate hbegun
  | connected => exact Or.inl rfl
  | disconnecting => exact Or.inr rfl
  | disconnected =>
      exact absurd (((h.sane i).delivered (Or.inr hstate)).imp_right List.IsPrefix.length_le) hlost

/-- A step that ends a session too early is taken, and bytes are lost. -/
theorem step_of_ending (hinv : w.Inv) (h : w.Flows) {i n : ℕ}
    (he : w.ending l = some (i, n))
    (hlost : ¬ DoneWith (w.sessions i) n) : ∃ w', w.step l = .ok w' ∧ ¬ w'.Delivered := by
  unfold ending at he
  split at he
  · split at he
    · next hstack =>
        split at he <;> cases he
        next hread =>
          simp only [step, hstack, hread.2, if_true, handleRead, hread.1]
          exact handleClose_lost (open_of_callback (w := w) hinv h hstack hlost) hlost
    · cases he
  · split at he
    · next hstack =>
        split at he <;> cases he
        next hrev =>
          simp only [step, hstack, hrev, if_true]
          exact handleClose_lost (open_of_callback (w := w) hinv h hstack hlost) hlost
    · cases he
  · split at he
    · next hstack =>
        split at he <;> cases he
        next hrev =>
          simp only [Bool.and_eq_true, Bool.not_eq_true', beq_iff_eq] at hrev
          obtain ⟨⟨⟨hread, hwrite⟩, hwriting⟩, hstate⟩ := hrev
          simp only [step, hstack, hread, hwrite, Bool.not_false, Bool.and_true, if_true]
          exact handleWrite_lost hwriting hstate hlost
    · cases he
  · split at he
    · next ticket j chunks functions hstack hfun =>
        split at he <;> cases he
        next hcond =>
          obtain ⟨hsize, hstate⟩ := hcond
          obtain ⟨loop, hloop⟩ := h.order.exists_start hfun
          simp only [step, hstack, hfun, stepLoop, hloop]
          exact performSend_lost hsize hstate hlost
    · cases he
  · split at he <;> cases he
    next j hcond =>
      obtain ⟨huser, hstate, hwriting⟩ := hcond
      have hstep : w.step (.call (.shutdown i)) =
          .ok (w.modify i fun s => (s.setState .disconnecting).finishShutdown) := by
        simp only [step, huser, if_true, call, hstate]
      exact ⟨_, hstep, finishShutdown_lost hwriting hlost⟩
  · split at he <;> cases he
    next j hcond =>
      obtain ⟨huser, hopen⟩ := hcond
      have hcall : w.call (.forceClose i) = w.handleClose i := by
        rcases hopen with hstate | hstate <;> simp [call, hstate]
      simp only [step, huser, if_true, hcall]
      exact handleClose_lost hopen hlost
  · split at he <;> cases he
    next j hcond =>
      obtain ⟨hshutting, hwriting⟩ := hcond
      have hstep : w.step (.shutdownEnd i) = .ok (w.modify i fun s =>
          { s with shutting := s.shutting - 1 }.finishShutdown) := by
        simp only [step, hshutting, if_false]
      exact ⟨_, hstep, finishShutdown_lost hwriting hlost⟩
  · cases he

/-- **When a graceful shutdown loses nothing.**  In every run: the socket has taken all bytes
promised before `Shutdown` whenever the write side of a session is shut down or the session is
disconnected, exactly when every step that does so finds no more bytes in the out-buffer and in the
queued tasks than the socket takes in the same step, apart from bytes queued after `Shutdown`, and
no bytes promised before it were refused by the temporary buffer. -/
theorem delivered_iff_delivers (ls : List WorkerLabel) :
    (∀ ks w, ks <+: ls → run step init ks = .ok w → w.Delivered) ↔
      Meets step Delivers init ls := by
  refine invariant_iff (fun w => w.Inv ∧ w.Flows) Delivered (fun _ => True) ?_ ?_ ?_
    ⟨inv_init, flows_init⟩ fun _ _ => trivial
  · intro w l w' h _ hc hs
    exact ⟨(step_keeps hs h.1).1, step_flows h.2 hc hs⟩
  · intro w h i hend
    exact (h.2.sane i).delivered hend
  · intro w l h hbad
    simp only [Delivers, not_forall] at hbad
    obtain ⟨i, n, he, hlost⟩ := hbad
    exact step_of_ending h.1 h.2 he (mt (h.2.doneWith_iff i n).mp hlost)

/-- A session is made and connected; its connect callback runs. -/
def oneSession : List WorkerLabel :=
  [.newSession 0, .cycle .exec, .cycle .loop, .poll false [], .cycle .swap, .start 0, .resume,
    .resume]

/-- The connect callback sends three bytes, the task of the call writes them, and the write
callback shuts the session down. -/
def sendThenShutdown : List WorkerLabel :=
  oneSession ++ [.call (.send 0 (.send [1, 2, 3])), .resume, .resume, .cycle .loop,
    .poll false [], .cycle .swap, .start 5, .cycle .loop, .poll false [], .cycle .swap,
    .start 0, .call (.shutdown 0), .resume]

theorem delivered_sendThenShutdown :
    (∀ ks w, ks <+: sendThenShutdown → run step init ks = .ok w → w.Delivered) ∧
      ∃ w, run step init sendThenShutdown = .ok w ∧
        ((w.sessions 0).shut, (w.sessions 0).promised, (w.sessions 0).accepted) =
          (true, [1, 2, 3], [1, 2, 3]) :=
  ⟨(delivered_iff_delivers sendThenShutdown).mpr (by decide +kernel), map_eq_ok (by decide +kernel)⟩

/-- The connect callback sends three bytes and shuts the session down.  The session is
writable at the next poll, before the task of `Send` is called: `HandleWrite` writes nothing
and closes the session. -/
theorem shutdown_loses_bytes :
    ∃ w, run step init (oneSession ++ [.call (.send 0 (.send [1, 2, 3])), .call (.shutdown 0),
        .resume, .resume, .cycle .loop, .poll false [.session 0 { write := true }], .dispatch,
        .write 10]) = .ok w ∧
      ((w.sessions 0).state, (w.sessions 0).promised, (w.sessions 0).accepted) =
        (.disconnected, [1, 2, 3], []) :=
  map_eq_ok (by decide +kernel)

end Worker

end Hare.Net
