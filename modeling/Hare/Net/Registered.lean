import Hare.Net.SessionClose

/-!
# The sessions in the registry

An event that is part of the cycle should belong to a session that is open.
`ConnectEstablished` calls the connect callback in the middle of its work and puts the event
into the cycle afterwards, without a look at the state: a callback that closes the session
it is given leaves a disconnected session registered.  `onlyOpen_iff_staysOpen` says that
this is the only way.

While `HandleClose` runs the session is disconnected and its event not yet taken out; its
frame `closed` is then on the stack of the cycle thread.
-/

namespace Hare.Net

open LabelledRun Io

/-- The session is open. -/
def Session.Open (s : Session) : Prop := s.state = .connected ∨ s.state = .disconnecting

/-- Below the `ConnectEstablished` of a session there is no `HandleClose` of it. -/
def Nested : List Frame → Prop
  | [] => True
  | .established i :: stack => .closed i ∉ stack ∧ Nested stack
  | _ :: stack => Nested stack

theorem nested_cons_of_plain {f : Frame} (hf : f.plain = true) (stack : List Frame) :
    Nested (f :: stack) ↔ Nested stack := by
  cases f <;> first | exact Iff.rfl | cases hf

theorem closed_mem_cons_of_plain {f : Frame} (hf : f.plain = true) (stack : List Frame)
    (i : ℕ) : Frame.closed i ∈ f :: stack ↔ Frame.closed i ∈ stack := by
  cases f <;> first | cases hf; done | simp

namespace Worker

/-- What should hold in every state: an event in the cycle belongs to a session that is
open, or for which `HandleClose` is still running. -/
def OnlyOpen (w : Worker) : Prop :=
  ∀ i, (w.sessions i).registered = true → (w.sessions i).Open ∨ .closed i ∈ w.stack

/-- What holds in every state of a run that meets the condition. -/
structure Listed (w : Worker) : Prop where
  only : w.OnlyOpen
  nested : Nested w.stack

variable {w w' : Worker} {i : ℕ} {stack : List Frame} {l : WorkerLabel}

theorem listed_init : init.Listed where
  only _ h := by cases h
  nested := trivial

namespace Listed

/-- A step that changes no state and puts no event into the cycle. -/
theorem congr (h : w.Listed) (hstate : ∀ i, (w'.sessions i).state = (w.sessions i).state)
    (hreg : ∀ i, (w'.sessions i).registered = true → (w.sessions i).registered = true)
    (hclosed : ∀ i, .closed i ∈ w'.stack ↔ .closed i ∈ w.stack) (hn : Nested w'.stack) :
    w'.Listed where
  only i hi := by
    rw [Session.Open, hstate, hclosed]
    exact h.only i (hreg i hi)
  nested := hn

theorem of_sessions (h : w.Listed) (hsessions : w'.sessions = w.sessions)
    (hstack : w'.stack = w.stack) : w'.Listed :=
  h.congr (fun i => by rw [hsessions]) (fun i => by rw [hsessions]; exact id)
    (fun i => by rw [hstack]) (hstack ▸ h.nested)

theorem push (h : w.Listed) {f : Frame} (hf : f.plain = true) :
    Listed { w with stack := f :: w.stack } :=
  h.congr (fun _ => rfl) (fun _ => id) (closed_mem_cons_of_plain hf w.stack)
    ((nested_cons_of_plain hf w.stack).mpr h.nested)

theorem pop (h : w.Listed) {f : Frame} (hstack : w.stack = f :: stack)
    (hf : f.plain = true) : Listed { w with stack } := by
  refine h.congr (fun _ => rfl) (fun _ => id) (fun i => ?_) ?_
  · rw [hstack, closed_mem_cons_of_plain hf]
  · exact (nested_cons_of_plain hf stack).mp (hstack ▸ h.nested)

/-- A change of one session that keeps its state and registers nothing. -/
theorem modify (h : w.Listed) {f : Session → Session}
    (hstate : (f (w.sessions i)).state = (w.sessions i).state)
    (hreg : (f (w.sessions i)).registered = true → (w.sessions i).registered = true) :
    (w.modify i f).Listed := by
  refine h.congr (fun j => ?_) (fun j => ?_) (fun _ => Iff.rfl) h.nested
  · by_cases hj : j = i
    · subst hj
      rw [modify_self, hstate]
    · rw [modify_other w hj]
  · by_cases hj : j = i
    · subst hj
      rw [modify_self]
      exact hreg
    · rw [modify_other w hj]
      exact id

/-- A session becomes or stays open. -/
theorem opens (h : w.Listed) {f : Session → Session} (hopen : (f (w.sessions i)).Open) :
    (w.modify i f).Listed where
  only j hj := by
    by_cases hji : j = i
    · subst hji
      rw [modify_self]
      exact Or.inl hopen
    · rw [modify_other w hji] at hj ⊢
      exact h.only j hj
  nested := h.nested

/-- `HandleClose` begins. -/
theorem close (h : w.Listed) (i : ℕ) :
    ((w.modify i Session.close).enter [.user, .closed i]).Listed where
  only j hj := by
    by_cases hji : j = i
    · exact Or.inr (by simp [enter, hji])
    · simp only [enter, modify_other w hji] at hj ⊢
      exact (h.only j hj).imp_right fun hm => by simp [hm]
  nested := h.nested

end Listed

/-! ## Acts and steps -/

/-- A connect callback does not return to `ConnectEstablished` with its session
disconnected. -/
def StaysOpen (w : Worker) : WorkerLabel → Prop
  | .resume => ∀ i stack, w.stack = .established i :: stack →
    (w.sessions i).state ≠ .disconnected
  | _ => True

/-- `HandleClose` ends, and takes the event out of the cycle. -/
theorem Listed.closed (h : w.Listed)
    (hstack : w.stack = .closed i :: stack) :
    ({ w with stack }.modify i fun s => { s with registered := false, owned := false }).Listed := by
  refine ⟨fun j hj => ?_, ?_⟩
  · by_cases hji : j = i
    · subst hji
      simp at hj
    · rw [modify_other _ hji] at hj ⊢
      refine (h.only j hj).imp_right fun hm => ?_
      simpa [hstack, hji] using hm
  · have hn := h.nested
    rw [hstack] at hn
    exact hn

/-- `ConnectEstablished` begins. -/
theorem Listed.connect (h : w.Listed) (hnot : Frame.closed i ∉ w.stack) :
    ((w.modify i (Session.setState · .connected)).enter [.user, .established i]).Listed := by
  have hopened : (w.modify i (Session.setState · .connected)).Listed := h.opens (Or.inl rfl)
  refine ⟨fun j hj => ?_, ⟨hnot, hopened.nested⟩⟩
  exact (hopened.only j hj).imp_right fun hm => by simpa [enter] using hm

/-- `ConnectEstablished` ends, and puts the event of an open session into the cycle. -/
theorem Listed.connected (h : w.Listed)
    (hstack : w.stack = .established i :: stack) (hopen : (w.sessions i).Open) :
    ({ w with stack }.finishConnect i).Listed := by
  have hclosed : ∀ j, .closed j ∈ stack ↔ .closed j ∈ w.stack := fun j => by simp [hstack]
  have hn : Nested stack := (hstack ▸ h.nested : Nested (.established i :: stack)).2
  have hpop : Listed { w with stack } := h.congr (fun _ => rfl) (fun _ => id) hclosed hn
  refine hpop.opens ?_
  exact hopen

theorem written_listed (h : w.Listed) (i accept : ℕ) : (w.written i accept).Listed := by
  have hwrite : (w.modify i (Session.write · accept)).Listed := h.modify rfl id
  unfold written
  split
  · exact (hwrite.modify (i := i) (f := (Session.setWrite · false)) rfl id).of_sessions rfl rfl
  · exact hwrite

/-- Every act of a step that meets the condition keeps the invariant. -/
theorem act_listed {w₀ : Worker} (hinv : w.Inv) (hc : w₀.StaysOpen l)
    (ha : Act w₀ l w w') (h : w.Listed) : w'.Listed := by
  cases ha with
  | loop hs hk | queue htask | active active => exact h.of_sessions rfl rfl
  | settle =>
      unfold settle
      split
      · exact ⟨fun _ hi => (by cases hi), h.nested⟩
      · exact h
  | user | called htied => exact h.push rfl
  | next hstack => exact (h.pop hstack rfl).push rfl
  | leave hstack hf => exact h.pop hstack hf
  | manage hs => exact h.modify hs.state (by rw [hs.registered]; exact id)
  | reading hf => exact h.modify (by rw [hf]; rfl) (by rw [hf]; exact id)
  | establish i => exact (h.push (f := .establish i) rfl).push (f := .user) rfl
  | @connect i _ hl hstack hstate =>
      exact h.connect fun hm => hinv.begun (.closed i) hm i rfl hstate
  | @connected i stack hl hw hstack =>
      subst hl hw
      refine h.connected hstack ?_
      have hbegun := hinv.begun (.established i) (hstack ▸ List.mem_cons_self) i rfl
      have hopen := hc i stack hstack
      cases hstate : (w.sessions i).state with
      | connecting => exact absurd hstate hbegun
      | connected => exact Or.inl hstate
      | disconnecting => exact Or.inr hstate
      | disconnected => exact absurd hstate hopen
  | shutdown hstate hs => exact h.opens (Or.inr hs.state)
  | set hl hw htested => exact h.opens (Or.inr rfl)
  | close hopen => exact h.close _
  | closed hl hw hstack => exact h.closed hstack
  | @begin i chunks hsend hsame hstack =>
      have happend : (w.modify i (Session.append · chunks)).Listed := h.modify rfl id
      exact happend.modify rfl id
  | append chunks hsize => exact h.modify rfl id
  | @written i accept hwrites hw => exact written_listed h i accept

/-- Every step that meets the condition keeps the invariant. -/
theorem step_listed (hinv : w.Inv) (h : w.Listed) (hc : w.StaysOpen l)
    (hs : w.step l = .ok w') : w'.Listed :=
  (step_preserves (P := fun v => v.Inv ∧ v.Listed)
    (fun _ _ ha hv => ⟨(act_keeps ha hv.1).1, act_listed hv.1 hc ha hv.2⟩) ⟨hinv, h⟩ hs).2

/-- A step that breaks the condition registers a session that is disconnected. -/
theorem step_of_not_staysOpen (h : w.Listed) (hbad : ¬ w.StaysOpen l) :
    ∃ w', w.step l = .ok w' ∧ ¬ w'.OnlyOpen := by
  unfold StaysOpen at hbad
  split at hbad
  · simp only [not_forall, not_not] at hbad
    obtain ⟨i, stack, hstack, hstate⟩ := hbad
    have hresume : w.step .resume = .ok ({ w with stack }.finishConnect i) := by
      simp only [step, resume, hstack]
    refine ⟨_, hresume, fun hall => ?_⟩
    have hnot : Frame.closed i ∉ stack :=
      (hstack ▸ h.nested : Nested (.established i :: stack)).1
    rcases hall i (by simp [finishConnect, modify, Session.setRead, Session.update]) with hopen | hm
    · rcases hopen with hopen | hopen <;>
        simp [finishConnect, modify, Session.setRead, Session.update, hstate] at hopen
    · exact hnot hm
  · exact absurd trivial hbad

/-- **When only open sessions are registered.**  In every state of a run an event in the
cycle belongs to a session that is open, or for which `HandleClose` is still running,
exactly when no connect callback returns to `ConnectEstablished` with its session
disconnected. -/
theorem onlyOpen_iff_staysOpen (ls : List WorkerLabel) :
    (∀ ks w, ks <+: ls → run step init ks = .ok w → w.OnlyOpen) ↔
      Meets step StaysOpen init ls := by
  refine invariant_iff (fun w => w.Inv ∧ w.Listed) OnlyOpen (fun _ => True) ?_ ?_ ?_
    ⟨inv_init, listed_init⟩ fun _ _ => trivial
  · intro w l w' h _ hc hs
    exact ⟨(step_keeps hs h.1).1, step_listed h.1 h.2 hc hs⟩
  · exact fun w h => h.2.only
  · exact fun w l h hbad => step_of_not_staysOpen h.2 hbad

/-- The connect callback keeps a pointer to the session it is given and closes the session by
`ForceClose`.  When the task of `NewSession` has returned, the session is disconnected and
its event is in the cycle. -/
theorem closed_while_connecting :
    ∃ w, run step init [.newSession 0, .cycle .exec, .cycle .loop, .poll false [], .cycle .swap,
        .start 0, .resume, .resume, .keep 0, .call (.forceClose 0), .resume, .resume, .resume,
        .resume] = .ok w ∧
      (w.stack, (w.sessions 0).held, (w.sessions 0).registered, (w.sessions 0).state) =
        ([], true, true, .disconnected) :=
  map_eq_ok (by decide +kernel)

end Worker

end Hare.Net
