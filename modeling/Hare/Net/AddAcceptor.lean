import Hare.Base.ExecMoves

/-!
# Adding an acceptor to a server

`TcpServe::AddAcceptor` registers the acceptor with the cycle of the server and calls
`Acceptor::Listen`, which binds the socket, makes it listen and enables reading.  If the socket
cannot be bound or cannot listen, `AddAcceptor` returns false, and the acceptor stays registered.
So a failed call has changed nothing only where it did not get to register the acceptor.

The task is the one `AddAcceptor` has run on the cycle thread.  What the kernel answers to
`epoll_ctl`, `bind` and `listen` are arguments.
-/

namespace Hare.Net

open LabelledRun Io

/-- The answers of the kernel in `Listen`. -/
structure Listening where
  /-- `bind` succeeds. -/
  bound : Bool
  /-- `listen` succeeds. -/
  listening : Bool
  /-- `epoll_ctl` accepts the read interest. -/
  accepted : Bool
  now : ℤ
  deriving DecidableEq, Repr

/-- `Acceptor::Listen` of the event `n`. -/
def Acceptor.listen (r : Registry) (n : ℕ) (answer : Listening) :
    Except Assertion (Bool × Registry) :=
  if (r.object (.user n)).cycle = .null then .ok (false, r)
  else if !answer.bound then .ok (false, r)
  else if !answer.listening then .ok (false, r)
  else do
    let r ← (Call.tie n true).effect true r
    let r ← (Call.setInterest n true (r.object (.user n)).event.events.write answer.accepted
      answer.now).effect true r
    pure (true, r)

/-- The task of `TcpServe::AddAcceptor`, with what `AddAcceptor` returns. -/
def addAcceptor (r : Registry) (n : ℕ) (accepted : Bool) (now : ℤ) (answer : Listening) :
    Except Assertion (Bool × Registry) := do
  let r ← (Call.update n accepted now).effect true r
  Acceptor.listen r n answer

/-- The maps are as before, and the acceptor belongs to no cycle. -/
structure Unchanged (r : Registry) (n : ℕ) (r' : Registry) : Prop where
  events_eq : r'.events = r.events
  inverseMap_eq : r'.inverseMap = r.inverseMap
  id_eq : (r'.object (.user n)).id = none
  cycle_eq : (r'.object (.user n)).cycle = .null

/-- The poller takes the descriptor, if the event has one. -/
def Polled (r : Registry) (p : EventPtr) (accepted : Bool) : Prop :=
  0 ≤ r.fd p → r.inverseMap (r.fd p) = none ∧ accepted = true ∧ r.epoll (r.fd p) = none

/-- `EventUpdate` registers an event that has no id. -/
def Registers (r : Registry) (p : EventPtr) (accepted : Bool) : Prop :=
  Polled r p accepted ∧ r.events r.eventId = none

variable {r r' : Registry} {p : EventPtr} {n : ℕ} {accepted : Bool} {now : ℤ} {answer : Listening}

/-! ## The registration -/

@[simp] theorem object_arm (r : Registry) (p : EventPtr) (now : ℤ) :
    (r.arm p now).object = r.object := by
  rw [Registry.arm]
  split
  · split <;> rfl
  · rfl

theorem activate_eq_ok (h : r.activate p = .ok r') :
    r.events r.eventId = none ∧ (r'.object p).cycle = .this := by
  rw [Registry.activate] at h
  split at h
  case isTrue => cases h
  case isFalse hfree =>
    cases h
    refine ⟨by simpa using hfree, ?_⟩
    simp [Registry.modify, EventImpl.active]

theorem exists_activate (h : r.events r.eventId = none) : ∃ r', r.activate p = .ok r' := by
  rw [Registry.activate, h]
  exact ⟨_, rfl⟩

/-- The first part of `EventUpdate` of an event without an id. -/
def poll (r : Registry) (p : EventPtr) (accepted : Bool) : Except Assertion (Option Registry) :=
  if 0 ≤ r.fd p then r.reactorUpdate p accepted else .ok (some r)

theorem poll_polled (hid : (r.object p).id = none) (h : Polled r p accepted) :
    ∃ r₁, poll r p accepted = .ok (some r₁) ∧ r₁.object = r.object ∧ r₁.events = r.events ∧
      r₁.eventId = r.eventId := by
  rw [poll]
  split
  case isTrue hpos =>
    obtain ⟨hmap, hacc, hk⟩ := h hpos
    refine ⟨r.watch p, ?_, rfl, rfl, rfl⟩
    simp [Registry.reactorUpdate, hid, hmap, hacc, hk]
  case isFalse => exact ⟨r, rfl, rfl, rfl, rfl⟩

theorem poll_not_polled (hid : (r.object p).id = none) (h : ¬ Polled r p accepted) :
    poll r p accepted = .ok none ∨ poll r p accepted = .error .updateNew := by
  obtain ⟨hpos, hrest⟩ := Classical.not_imp.mp h
  rw [poll, if_pos hpos, Registry.reactorUpdate, hid]
  by_cases hmap : r.inverseMap (r.fd p) = none
  · have hrefused : ¬ (accepted && (r.epoll (r.fd p)).isNone) = true := by
      rw [Bool.and_eq_true, Option.isNone_iff_eq_none]
      exact fun hacc => hrest ⟨hmap, hacc⟩
    simp [hmap, hrefused]
  · simp [hmap, Option.isSome_iff_ne_none]

/-- What holds of every registry holds after a call. -/
theorem registered_of_call {c : Call} {running : Bool} (h : r.Registered)
    (hr : c.effect running r = .ok r') : r'.Registered := by
  have hworks := Registry.works_call (S := .all) h running c (fun _ _ => trivial)
    (fun _ _ => trivial) fun _ => trivial
  rw [hr] at hworks
  exact h.moves hworks

theorem callUpdate_new (hid : (r.object p).id = none) :
    r.callUpdate p accepted now = r.eventUpdate p accepted now := by
  have hmay : r.mayUpdate p = true := by simp [Registry.mayUpdate, hid]
  rw [Registry.callUpdate, if_pos hmay]

theorem eventUpdate_of_poll {r₁ : Registry} (hpoll : poll r p accepted = .ok (some r₁))
    (hid : (r₁.object p).id = none) :
    r.eventUpdate p accepted now = (r₁.activate p).map (Registry.arm · p now) := by
  have hnew : (r₁.object p).id.isNone = true := by simp [hid]
  have hmap : (do let r ← r₁.activate p; .ok (r.arm p now)) =
      (r₁.activate p).map (Registry.arm · p now) := by
    cases r₁.activate p <;> rfl
  rw [poll] at hpoll
  rw [Registry.eventUpdate, ← hmap]
  split at hpoll
  case isTrue hpos => simp only [if_pos hpos, hpoll, ok_bind, if_pos hnew]
  case isFalse hneg =>
    cases hpoll
    simp only [if_neg hneg, ok_bind, if_pos hnew]

theorem eventUpdate_of_not_poll (hpos : 0 ≤ r.fd p)
    (hpoll : poll r p accepted = .ok none ∨ poll r p accepted = .error .updateNew)
    (hr : r.eventUpdate p accepted now = .ok r') : r' = r := by
  rw [poll, if_pos hpos] at hpoll
  rw [Registry.eventUpdate, if_pos hpos] at hr
  rcases hpoll with hpoll | hpoll <;> rw [hpoll] at hr <;> cases hr
  rfl

/-- A registration that goes through. -/
theorem callUpdate_of_registers (hid : (r.object p).id = none) (h : Registers r p accepted)
    (now : ℤ) :
    ∃ r', r.callUpdate p accepted now = .ok r' ∧ (r'.object p).cycle = .this := by
  obtain ⟨r₁, hpoll, hobj, hevents, hnext⟩ := poll_polled hid h.1
  have hid₁ : (r₁.object p).id = none := hobj ▸ hid
  have hfree : r₁.events r₁.eventId = none := by
    rw [hevents, hnext]
    exact h.2
  obtain ⟨r₂, hr₂⟩ := exists_activate (p := p) hfree
  refine ⟨r₂.arm p now, ?_, ?_⟩
  · rw [callUpdate_new hid, eventUpdate_of_poll hpoll hid₁, hr₂]
    rfl
  · rw [object_arm]
    exact (activate_eq_ok hr₂).2

/-- A registration that does not go through leaves the registry. -/
theorem callUpdate_of_not_registers (hid : (r.object p).id = none) (h : ¬ Registers r p accepted)
    (hr : r.callUpdate p accepted now = .ok r') : r' = r := by
  rw [callUpdate_new hid] at hr
  by_cases hp : Polled r p accepted
  · obtain ⟨r₁, hpoll, hobj, hevents, hnext⟩ := poll_polled hid hp
    rw [eventUpdate_of_poll hpoll (hobj ▸ hid)] at hr
    obtain ⟨r₂, hr₂, -⟩ := map_eq_ok hr
    refine absurd ⟨hp, ?_⟩ h
    rw [← hevents, ← hnext]
    exact (activate_eq_ok hr₂).1
  · exact eventUpdate_of_not_poll (Classical.not_imp.mp hp).1 (poll_not_polled hid hp) hr

/-! ## The call -/

/-- `Listen` fails for an acceptor of no cycle and where the kernel refuses, and has done nothing
to the registry then. -/
theorem listen_eq_false (h : Acceptor.listen r n answer = .ok (false, r')) :
    r' = r ∧ ((r.object (.user n)).cycle = .null ∨
      ¬ (answer.bound = true ∧ answer.listening = true)) := by
  rw [Acceptor.listen] at h
  split at h
  case isTrue hnull =>
    cases h
    exact ⟨rfl, Or.inl hnull⟩
  case isFalse =>
    split at h
    case isTrue hbound =>
      cases h
      exact ⟨rfl, Or.inr fun hb => by simp [hb.1] at hbound⟩
    case isFalse =>
      split at h
      case isTrue hlisten =>
        cases h
        exact ⟨rfl, Or.inr fun hb => by simp [hb.2] at hlisten⟩
      case isFalse =>
        obtain ⟨r₁, -, h⟩ := bind_eq_ok h
        obtain ⟨r₂, -, h⟩ := bind_eq_ok h
        cases h

theorem listen_of_refused (h : ¬ (answer.bound = true ∧ answer.listening = true)) :
    Acceptor.listen r n answer = .ok (false, r) := by
  rw [Acceptor.listen]
  cases hbound : answer.bound with
  | false => simp
  | true =>
      have hlisten : answer.listening = false := by simpa [hbound] using h
      simp [hlisten]

/-- **When a failed call changes nothing**: when the socket is bound and listens, or the acceptor
could not be registered. -/
theorem addAcceptor_unchanged_iff (r : Registry) (n : ℕ) (accepted : Bool) (now : ℤ)
    (answer : Listening) (hid : (r.object (.user n)).id = none)
    (hcycle : (r.object (.user n)).cycle = .null) :
    (∀ r', addAcceptor r n accepted now answer = .ok (false, r') → Unchanged r n r') ↔
      answer.bound = true ∧ answer.listening = true ∨ ¬ Registers r (.user n) accepted := by
  constructor
  · intro h
    by_contra hnot
    obtain ⟨hrefused, hreg⟩ := not_or.mp hnot
    obtain ⟨r', hr', hthis⟩ := callUpdate_of_registers hid (not_not.mp hreg) now
    have hcall : addAcceptor r n accepted now answer = .ok (false, r') := by
      rw [addAcceptor, Call.effect, hr', ok_bind, listen_of_refused hrefused]
    have hnull := (h r' hcall).cycle_eq
    rw [hthis] at hnull
    cases hnull
  · intro h r' hr'
    rw [addAcceptor] at hr'
    obtain ⟨r₁, hr₁, hlisten⟩ := bind_eq_ok hr'
    rw [Call.effect] at hr₁
    obtain ⟨rfl, hfail⟩ := listen_eq_false hlisten
    by_cases hreg : Registers r (.user n) accepted
    · obtain ⟨r₂, hr₂, hthis⟩ := callUpdate_of_registers hid hreg now
      cases hr₁.symm.trans hr₂
      rw [hthis] at hfail
      rcases hfail with hnull | hrefused
      · cases hnull
      · exact absurd (h.resolve_right (not_not.mpr hreg)) hrefused
    · cases callUpdate_of_not_registers hid hreg hr₁
      exact ⟨rfl, rfl, hid, hcycle⟩

/-- A cycle without events, and an acceptor with descriptor 7. -/
def idle : Registry where
  object := fun _ => .new (Event.new 7 true { read := true, persist := true } 0)
  events := fun _ => none
  inverseMap := fun _ => none
  ptimer := []
  eventId := 0
  epoll := fun _ => none

/-- The kernel does not watch the descriptor, and nothing has changed. -/
theorem addAcceptor_refused :
    ∃ r', addAcceptor idle 0 false 0 ⟨false, false, false, 0⟩ = .ok (false, r') ∧
      Unchanged idle 0 r' :=
  ⟨idle, rfl, (addAcceptor_unchanged_iff idle 0 false 0 ⟨false, false, false, 0⟩ rfl rfl).mpr
    (Or.inr fun h => Bool.false_ne_true (h.1 (by decide)).2.1) idle rfl⟩

/-- The port is in use: the acceptor stays in both maps, under the id 0. -/
theorem addAcceptor_bind_fails :
    ∃ r', addAcceptor idle 0 true 0 ⟨false, true, true, 0⟩ = .ok (false, r') ∧
      r'.events 0 = some (.user 0) ∧ r'.inverseMap 7 = some 0 ∧
      (r'.object (.user 0)).id = some 0 ∧ ¬ Unchanged idle 0 r' := by
  refine ⟨_, rfl, rfl, rfl, rfl, fun h => ?_⟩
  cases h.id_eq

/-- **The registry is sound after every call.**  An acceptor that could not listen is an event of
the cycle like any other, and can be removed. -/
theorem addAcceptor_registered {added : Bool} (h : r.Registered)
    (hr : addAcceptor r n accepted now answer = .ok (added, r')) : r'.Registered := by
  rw [addAcceptor] at hr
  obtain ⟨r₁, hr₁, hr⟩ := bind_eq_ok hr
  have h₁ : r₁.Registered := registered_of_call h hr₁
  rw [Acceptor.listen] at hr
  repeat' split at hr
  case isFalse.isFalse.isFalse =>
    obtain ⟨r₂, hr₂, hr⟩ := bind_eq_ok hr
    obtain ⟨r₃, hr₃, hr⟩ := bind_eq_ok hr
    cases hr
    exact registered_of_call (registered_of_call h₁ hr₂) hr₃
  all_goals
    cases hr
    exact h₁

end Hare.Net
