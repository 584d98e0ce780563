import Hare.Base.PollReport
import Mathlib.Data.Finset.Card

/-!
# The index of the poll reactor

`ReactorPoll` keeps for each descriptor the position of its entry in `poll_fds_`, and its
functions assert at every step that the two agree, and that they agree with the event objects
and their ids.  For events with descriptors of their own these assertions hold: whatever calls
are made, the map has the descriptors of the registered events as keys, each leads to an entry
with the descriptor and the mask of its event, and the list has no other entries behind the
unused ones at its beginning.
-/

namespace Hare.Io

open LabelledRun IndexMap

/-- Whether it is an assertion of `EventUpdate` or `EventRemove`, of the poller or the cycle. -/
def PollHalt.ofUpdateOrRemove : PollHalt → Bool
  | .updateNew | .updateKnown | .updateIndex | .updateFd | .removeKnown | .removeIndex
  | .removeEvents | .removeSwap | .insertNew | .removeSame => true
  | _ => false

namespace PollReactor

/-- The map, the list and the registered events agree. -/
structure Indexed (r : PollReactor) : Prop where
  keys : ∀ d, (r.inverseMap d).isSome ↔ 0 ≤ d ∧ ∃ p, r.registered p ∧ r.fd p = d
  entry : ∀ p, r.registered p → 0 ≤ r.fd p → ∃ index pfd,
    r.inverseMap (r.fd p) = some index ∧ initEventsCnt ≤ index ∧ index < r.pollFds.length ∧
      r.pollFds[index]? = some pfd ∧ pfd.fd = r.fd p ∧ pfd.events = r.mask p
  injective : ∀ d e index, r.inverseMap d = some index → r.inverseMap e = some index → d = e
  /-- There is one entry for each registered descriptor, behind the unused ones. -/
  size : ∃ descriptors : Finset ℤ,
    (∀ d, d ∈ descriptors ↔ 0 ≤ d ∧ ∃ p, r.registered p ∧ r.fd p = d) ∧
      r.pollFds.length = initEventsCnt + descriptors.card

/-- The entries with the descriptors of some events have their masks. -/
def Masked (r : PollReactor) (P : EventPtr → Prop) : Prop :=
  ∀ k pfd q, initEventsCnt ≤ k → r.pollFds[k]? = some pfd → P q → r.registered q →
    r.fd q = pfd.fd → pfd.events = r.mask q

/-- Descriptors that are not negative, each of one event. -/
structure Apart (event : EventPtr → Event) (E : EventPtr → Prop) : Prop where
  nonneg : ∀ {p}, E p → 0 ≤ (event p).fd
  eq_of_fd : ∀ {p q}, E p → E q → (event p).fd = (event q).fd → p = q

/-- The event objects agree with the registry, and the events are those of `E`, with their
descriptors, and timers. -/
structure Tracked (event : EventPtr → Event) (E : EventPtr → Prop) (r : PollReactor) : Prop where
  valid : r.Valid
  back : ∀ {p id}, (r.object p).id = some id → r.events id = some p
  cycle : ∀ p, (r.object p).cycle = if (r.object p).id.isSome then .this else .null
  fd_eq : ∀ {p}, p.isTimer = false → r.fd p = (event p).fd
  mem : ∀ {p}, r.registered p → p.isTimer = false → E p

variable {event : EventPtr → Event} {E : EventPtr → Prop} {r r' : PollReactor} {p q : EventPtr}

theorem object_modify (f : EventImpl → EventImpl) : (r.modify p f).object p = f (r.object p) :=
  Function.update_self p _ _

theorem object_modify_of_ne (f : EventImpl → EventImpl) (h : q ≠ p) :
    (r.modify p f).object q = r.object q :=
  Function.update_of_ne h _ _

theorem tracked_init (event : EventPtr → Event) (E : EventPtr → Prop) :
    Tracked event E (init event) where
  valid := valid_init event
  back h := by cases h
  cycle _ := rfl
  fd_eq hp := by simp [fd, init, EventImpl.new, hp]
  mem h := by cases h.choose_spec

theorem masked_init (event : EventPtr → Event) (P : EventPtr → Prop) : (init event).Masked P := by
  intro k pfd q hk hpfd
  rw [List.getElem?_eq_none (by simpa [init] using hk)] at hpfd
  cases hpfd

namespace Tracked

theorem registered_iff (h : Tracked event E r) : r.registered p ↔ (r.object p).id.isSome := by
  rw [Option.isSome_iff_exists]
  exact ⟨fun ⟨id, hid⟩ => ⟨id, h.valid.own hid⟩, fun ⟨id, hid⟩ => ⟨id, h.back hid⟩⟩

theorem isTimer_of_nonneg (h : Tracked event E r) (hfd : 0 ≤ r.fd p) : p.isTimer = false := by
  cases p with
  | timer i => exact absurd hfd (Int.not_le.mpr (h.valid.timer i))
  | notify => rfl
  | user n => rfl

/-- The entry of a registered event. -/
theorem entry (h : Tracked event E r) (hp : r.registered p) (hfd : 0 ≤ r.fd p) :
    ∃ index pfd, r.inverseMap (r.fd p) = some index ∧ initEventsCnt ≤ index ∧
      r.pollFds[index]? = some pfd ∧ pfd.fd = r.fd p := by
  obtain ⟨index, hindex⟩ :=
    Option.isSome_iff_exists.mp ((h.valid.watched (r.fd p)).mpr ⟨hfd, p, hp, rfl⟩)
  obtain ⟨hle, hkey⟩ := (h.valid.exact.index_iff _ _).mp hindex
  obtain ⟨pfd, hpfd, hkey⟩ := Option.map_eq_some_iff.mp hkey
  exact ⟨index, pfd, hindex, hle, hpfd, hkey⟩

/-- The descriptor of an event that is not registered is free. -/
theorem free (h : Tracked event E r) (hE : Apart event E) (hp : E p) (ht : p.isTimer = false)
    (hnew : ¬ r.registered p) : r.inverseMap (r.fd p) = none := by
  by_contra hne
  obtain ⟨hfd, q, hq, heq⟩ := (h.valid.watched (r.fd p)).mp (Option.isSome_iff_ne_none.mpr hne)
  have hqt := h.isTimer_of_nonneg (heq ▸ hfd)
  rw [h.fd_eq ht, h.fd_eq hqt] at heq
  exact hnew (hE.eq_of_fd (h.mem hq hqt) hp heq ▸ hq)

/-- The invariant says what is to be shown. -/
theorem indexed (h : Tracked event E r) (hm : r.Masked fun _ => True) : r.Indexed where
  keys := h.valid.watched
  entry p hp hfd := by
    obtain ⟨index, pfd, hindex, hle, hpfd, hkey⟩ := h.entry hp hfd
    exact ⟨index, pfd, hindex, hle, h.valid.exact.lt hindex, hpfd, hkey,
      hm index pfd p hle hpfd trivial hp hkey.symm⟩
  injective _ _ _ := h.valid.exact.injective
  size := by
    refine ⟨((r.pollFds.drop initEventsCnt).map PollFd.fd).toFinset, fun d => ?_, ?_⟩
    · rw [List.mem_toFinset, h.valid.exact.mem_keys]
      exact h.valid.watched d
    · rw [List.toFinset_card_of_nodup h.valid.exact.nodup_keys, List.length_map,
        List.length_drop, Nat.add_sub_cancel' h.valid.exact.base_le]

/-! ## Changes of the registry -/

/-- A registry that differs at one id has the other events where they were. -/
theorem update_eq_some_iff {events : ℕ → Option EventPtr} {x : Option EventPtr} {id j : ℕ}
    {q : EventPtr} (hx : x ≠ some q) (hid : events id ≠ some q) :
    Function.update events id x j = some q ↔ events j = some q := by
  by_cases hj : j = id
  · rw [hj, Function.update_self]
    exact iff_of_false hx hid
  · rw [Function.update_of_ne hj]

/-- One event object is changed, and perhaps its registration. -/
theorem change (h : Tracked event E r) (hvalid : r'.Valid) {f : EventImpl → EventImpl}
    (hobject : r'.object = (r.modify p f).object)
    (hfd : p.isTimer = false → (f (r.object p)).event.fd = r.fd p)
    (hcycle : (f (r.object p)).cycle = if (f (r.object p)).id.isSome then .this else .null)
    (hback : ∀ id, (f (r.object p)).id = some id → r'.events id = some p)
    (hevents : ∀ {q id}, q ≠ p → (r'.events id = some q ↔ r.events id = some q))
    (hmem : r'.registered p → p.isTimer = false → E p) : Tracked event E r' := by
  have hown : r'.object p = f (r.object p) := by rw [hobject, object_modify]
  have hother : ∀ {q}, q ≠ p → r'.object q = r.object q := by
    intro q hq
    rw [hobject, object_modify_of_ne f hq]
  refine ⟨hvalid, fun {q id} hid => ?_, fun q => ?_, fun {q} hq => ?_, fun {q} hreg hq => ?_⟩ <;>
    by_cases hqp : q = p
  · subst hqp
    exact hback id (hown ▸ hid)
  · exact (hevents hqp).mpr (h.back (hother hqp ▸ hid))
  · subst hqp
    rw [hown, hcycle]
  · rw [hother hqp]
    exact h.cycle q
  · subst hqp
    rw [← h.fd_eq hq, ← hfd hq, fd, hown]
  · rw [← h.fd_eq hq, fd, hother hqp, fd]
  · subst hqp
    exact hmem hreg hq
  · obtain ⟨id, hid⟩ := hreg
    exact h.mem ⟨id, (hevents hqp).mp hid⟩ hq

/-- An event is registered under a new id. -/
theorem insert (h : Tracked event E r) (hvalid : r'.Valid) {id : ℕ}
    (hobject : r'.object = (r.modify p (EventImpl.active · id)).object)
    (hevents : r'.events = Function.update r.events id (some p)) (hid : r.events id = none)
    (hp : p.isTimer = false → E p) : Tracked event E r' := by
  refine h.change hvalid hobject (fun _ => rfl) rfl (fun j hj => ?_) (fun {q j} hq => ?_)
    fun _ => hp
  · cases hj
    rw [hevents, Function.update_self]
  · rw [hevents]
    exact update_eq_some_iff (fun heq => hq (Option.some.inj heq).symm) (hid ▸ nofun)

/-- An event is removed from the registry. -/
theorem erase (h : Tracked event E r) (hvalid : r'.Valid) {id : ℕ}
    (hobject : r'.object = (r.modify p EventImpl.reset).object)
    (hevents : r'.events = Function.update r.events id none) (hid : r.events id = some p) :
    Tracked event E r' := by
  refine h.change hvalid hobject (fun _ => rfl) rfl (fun j hj => ?_) (fun {q j} hq => ?_)
    fun _ hp => ?_
  · cases hj
  · rw [hevents]
    exact update_eq_some_iff nofun fun heq => hq (Option.some.inj (hid.symm.trans heq)).symm
  · exact h.mem ⟨id, hid⟩ hp

/-- The objects and the registry are as before. -/
theorem congr (h : Tracked event E r) (hvalid : r'.Valid) (hobject : r'.object = r.object)
    (hevents : r'.events = r.events) : Tracked event E r' := by
  refine ⟨hvalid, ?_, ?_, fun {q} hq => ?_, ?_⟩
  · rw [hobject, hevents]
    exact h.back
  · rw [hobject]
    exact h.cycle
  · rw [← h.fd_eq hq, fd, hobject, fd]
  · intro q hq
    rw [registered, hevents] at hq
    exact h.mem hq

end Tracked

/-! ## The masks -/

/-- The descriptors of the entries behind the unused ones. -/
theorem Valid.fd_nonneg (h : r.Valid) {k : ℕ} {pfd : PollFd} (hk : initEventsCnt ≤ k)
    (hpfd : r.pollFds[k]? = some pfd) : r.inverseMap pfd.fd = some k ∧ 0 ≤ pfd.fd := by
  have hindex : r.inverseMap pfd.fd = some k :=
    (h.exact.index_iff _ _).mpr ⟨hk, by rw [hpfd, Option.map_some]⟩
  exact ⟨hindex, ((h.watched pfd.fd).mp (by rw [hindex]; rfl)).1⟩

/-- Entries are kept or dropped, and so are events with a descriptor. -/
theorem Masked.mono {P Q : EventPtr → Prop} (hm : r.Masked P) (hvalid : r'.Valid)
    (hentry : ∀ k pfd, initEventsCnt ≤ k → r'.pollFds[k]? = some pfd → ∃ j old,
      initEventsCnt ≤ j ∧ r.pollFds[j]? = some old ∧ old.fd = pfd.fd ∧ old.events = pfd.events)
    (hreg : ∀ q, Q q → r'.registered q → 0 ≤ r'.fd q →
      P q ∧ r.registered q ∧ r'.object q = r.object q) : r'.Masked Q := by
  intro k pfd q hk hpfd hQ hq hfd
  obtain ⟨j, old, hj, hold, hofd, hoev⟩ := hentry k pfd hk hpfd
  obtain ⟨hP, hqr, hobject⟩ := hreg q hQ hq (hfd ▸ (hvalid.fd_nonneg hk hpfd).2)
  have hfds : r'.fd q = r.fd q := by rw [fd, hobject, fd]
  have hmask : r'.mask q = r.mask q := by rw [mask, hobject, mask]
  rw [hmask, ← hoev]
  exact hm j old q hj hold hP hqr (by rw [hofd, ← hfd, hfds])

/-- `ReactorPoll::EventRemove` of an entry with the mask of the event: every entry that is left
was there before. -/
theorem reactorRemove_ok (hx : Exact PollFd.fd initEventsCnt r.pollFds r.inverseMap) {index : ℕ}
    {pfd : PollFd} (hindex : r.inverseMap (r.fd p) = some index)
    (hpfd : r.pollFds[index]? = some pfd) (hmask : pfd.events = r.mask p) :
    ∃ pollFds inverseMap, r.reactorRemove p = .ok { r with pollFds, inverseMap } ∧
      ∀ k pfd, initEventsCnt ≤ k → pollFds[k]? = some pfd →
        ∃ j, initEventsCnt ≤ j ∧ r.pollFds[j]? = some pfd := by
  have hlt := hx.lt hindex
  have hle := ((hx.index_iff _ _).mp hindex).1
  obtain ⟨last, hlast⟩ : ∃ last, r.pollFds[r.pollFds.length - 1]? = some last :=
    ⟨_, List.getElem?_eq_getElem (by omega)⟩
  have hgetLast : r.pollFds.getLast? = some last := by rw [List.getLast?_eq_getElem?, hlast]
  by_cases hend : index = r.pollFds.length - 1
  · refine ⟨r.pollFds.dropLast, Function.update r.inverseMap (r.fd p) none, ?_, ?_⟩
    · simp [reactorRemove, hindex, hpfd, hgetLast, hmask, ← hend]
    · intro k pfd' hk hpfd'
      rw [List.getElem?_dropLast] at hpfd'
      split at hpfd'
      · exact ⟨k, hk, hpfd'⟩
      · cases hpfd'
  · have hswap : r.inverseMap last.fd = some (r.pollFds.length - 1) :=
      (hx.index_iff _ _).mpr ⟨by omega, by rw [hlast, Option.map_some]⟩
    refine ⟨(r.pollFds.set index last).dropLast,
      Function.update (Function.update r.inverseMap last.fd (some index)) (r.fd p) none, ?_, ?_⟩
    · simp [reactorRemove, hindex, hpfd, hgetLast, hmask, hend, hswap]
    · intro k pfd' hk hpfd'
      rw [List.getElem?_dropLast] at hpfd'
      split at hpfd'
      · by_cases hkindex : index = k
        · subst hkindex
          rw [List.getElem?_set_self hlt] at hpfd'
          exact ⟨r.pollFds.length - 1, by omega, by rw [hlast, hpfd']⟩
        · rw [List.getElem?_set_ne hkindex] at hpfd'
          exact ⟨k, hk, hpfd'⟩
      · cases hpfd'

/-- A new entry for an event whose descriptor has none. -/
theorem Masked.insert (hm : r.Masked (· ≠ p)) (hvalid : r.Valid) (hfd : 0 ≤ r.fd p)
    (hfree : r.inverseMap (r.fd p) = none)
    (hlist : r'.pollFds = r.pollFds ++ [⟨r.fd p, r.mask p, 0⟩]) (hfds : r'.fd = r.fd)
    (hmask : ∀ q, r'.mask q = r.mask q) (hreg : ∀ {q}, r'.registered q → q = p ∨ r.registered q) :
    r'.Masked fun _ => True := by
  intro k pfd q hk hpfd _ hq hqfd
  rw [hlist] at hpfd
  rw [hfds] at hqfd
  rw [hmask]
  by_cases hlt : k < r.pollFds.length
  · -- an old entry: its descriptor is not the new one
    rw [List.getElem?_append_left hlt] at hpfd
    have hqp : q ≠ p := by
      rintro rfl
      have hindex := (hvalid.fd_nonneg hk hpfd).1
      rw [← hqfd, hfree] at hindex
      cases hindex
    exact hm k pfd q hk hpfd hqp ((hreg hq).resolve_left hqp) hqfd
  · -- the new entry
    rw [List.getElem?_append_right (Nat.not_lt.mp hlt)] at hpfd
    obtain rfl : pfd = ⟨r.fd p, r.mask p, 0⟩ :=
      List.mem_singleton.mp (List.mem_of_getElem? hpfd)
    rcases hreg hq with rfl | hqr
    · rfl
    · have hsome := (hvalid.watched (r.fd p)).mpr ⟨hfd, q, hqr, hqfd⟩
      rw [hfree] at hsome
      cases hsome

namespace Tracked

/-! ## The functions of the cycle -/

/-- `Cycle::EventUpdate` of a new event. -/
theorem eventUpdate_new (h : Tracked event E r) (hE : Apart event E) (hm : r.Masked (· ≠ p))
    (ht : p.isTimer = false) (hp : E p) (hid : (r.object p).id = none) :
    ∃ r', r.eventUpdate p = .ok r' ∧ Tracked event E r' ∧ r'.Masked fun _ => True := by
  have hnew : ¬ r.registered p := by rw [h.registered_iff, hid]; exact Bool.false_ne_true
  have hfree := h.free hE hp ht hnew
  have hfd : 0 ≤ r.fd p := h.fd_eq ht ▸ hE.nonneg hp
  let r₁ : PollReactor :=
    { r.modify p (EventImpl.active · r.eventId) with
      pollFds := r.pollFds ++ [⟨r.fd p, r.mask p, 0⟩]
      inverseMap := Function.update r.inverseMap (r.fd p) (some r.pollFds.length)
      events := Function.update r.events r.eventId (some p)
      eventId := r.eventId + 1 }
  have hs : r.eventUpdate p = .ok r₁ := by
    simp [eventUpdate, reactorUpdate, activate, hid, hfd, hfree, h.valid.fresh, r₁, modify]
  have hvalid : r₁.Valid := h.valid.eventUpdate ht hs
  have hreg : ∀ {q}, r₁.registered q → q = p ∨ r.registered q := by
    rintro q ⟨id, hq⟩
    by_cases hidq : id = r.eventId
    · subst hidq
      exact .inl (Option.some.inj ((Function.update_self r.eventId _ r.events).symm.trans hq)).symm
    · exact .inr ⟨id, (Function.update_of_ne hidq _ r.events).symm.trans hq⟩
  have hfds : r₁.fd = r.fd :=
    Valid.fd_modify (r := r) (p := p) (f := (EventImpl.active · r.eventId)) rfl
  have hmask : ∀ q, r₁.mask q = r.mask q := by
    intro q
    by_cases hqp : q = p
    · subst hqp
      simp [mask, r₁, modify, EventImpl.active]
    · simp [mask, r₁, modify, Function.update_of_ne hqp]
  exact ⟨r₁, hs, h.insert hvalid rfl rfl h.valid.fresh fun _ => hp,
    hm.insert h.valid hfd hfree rfl hfds hmask hreg⟩

/-- `Cycle::EventUpdate` of a registered event, which writes its mask. -/
theorem eventUpdate_known (h : Tracked event E r) (hm : r.Masked (· ≠ p))
    (hfd : 0 ≤ r.fd p) {id : ℕ} (hid : (r.object p).id = some id) :
    ∃ r', r.eventUpdate p = .ok r' ∧ Tracked event E r' ∧ r'.Masked fun _ => True := by
  have hreg : r.registered p := ⟨id, h.back hid⟩
  obtain ⟨index, pfd, hindex, hle, hpfd, hkey⟩ := h.entry hreg hfd
  let r₁ : PollReactor := { r with pollFds := r.pollFds.set index ⟨r.fd p, r.mask p, 0⟩ }
  have hcycle : (r.object p).cycle = .this := by rw [h.cycle, hid]; rfl
  have hs : r.eventUpdate p = .ok r₁ := by
    simp [eventUpdate, reactorUpdate, hcycle, hid, hfd, h.back hid, hindex, hpfd, hkey, r₁]
  have hvalid : r₁.Valid := h.valid.eventUpdate (h.isTimer_of_nonneg hfd) hs
  refine ⟨r₁, hs, h.congr hvalid rfl rfl, ?_⟩
  intro k pfd' q hk hpfd' _ hq hqfd
  by_cases hqp : q = p
  · -- the entry of the event is the one that has been written
    subst hqp
    have hsame : index = k := by
      have hkindex := (hvalid.fd_nonneg hk hpfd').1
      rw [← hqfd] at hkindex
      exact Option.some.inj (hindex.symm.trans hkindex)
    subst hsame
    have hwritten : (r.pollFds.set index ⟨r.fd q, r.mask q, 0⟩)[index]? =
        some ⟨r.fd q, r.mask q, 0⟩ :=
      List.getElem?_set_self (h.valid.exact.lt hindex)
    rw [Option.some.inj (hpfd'.symm.trans hwritten)]
    rfl
  · have hne : index ≠ k := by
      rintro rfl
      have hkindex := (hvalid.fd_nonneg hk hpfd').1
      exact hqp (h.valid.distinct hreg hq hfd
        ((h.valid.exact.injective hindex hkindex).trans hqfd.symm)).symm
    have hold : r.pollFds[k]? = some pfd' := by
      rw [← hpfd']
      exact (List.getElem?_set_ne hne).symm
    exact hm k pfd' q hk hold hqp hq hqfd

theorem eventUpdate (h : Tracked event E r) (hE : Apart event E) (hm : r.Masked (· ≠ p))
    (ht : p.isTimer = false) (hp : E p) :
    ∃ r', r.eventUpdate p = .ok r' ∧ Tracked event E r' ∧ r'.Masked fun _ => True := by
  cases hid : (r.object p).id with
  | none => exact h.eventUpdate_new hE hm ht hp hid
  | some id => exact h.eventUpdate_known hm (h.fd_eq ht ▸ hE.nonneg hp) hid

/-- An event object that is reset, and taken out of the registry, with entries that were there
before. -/
theorem reset (h : Tracked event E r) (hm : r.Masked fun _ => True) (hvalid : r'.Valid) {id : ℕ}
    (hobject : r'.object = (r.modify p EventImpl.reset).object)
    (hevents : r'.events = Function.update r.events id none) (hid : r.events id = some p)
    (hentry : ∀ k pfd, initEventsCnt ≤ k → r'.pollFds[k]? = some pfd →
      ∃ j, initEventsCnt ≤ j ∧ r.pollFds[j]? = some pfd) :
    Tracked event E r' ∧ r'.Masked fun _ => True := by
  have htracked := h.erase hvalid hobject hevents hid
  refine ⟨htracked, hm.mono hvalid (fun k pfd hk hpfd => ?_) fun q _ hq _ => ⟨trivial, ?_⟩⟩
  · obtain ⟨j, hj, hold⟩ := hentry k pfd hk hpfd
    exact ⟨j, pfd, hj, hold, rfl, rfl⟩
  · -- the event itself is not registered any more
    have hqp : q ≠ p := by
      rintro rfl
      rw [htracked.registered_iff, hobject, object_modify] at hq
      cases hq
    obtain ⟨j, hj⟩ := hq
    rw [hevents] at hj
    have hjid : j ≠ id := by
      rintro rfl
      rw [Function.update_self] at hj
      cases hj
    rw [Function.update_of_ne hjid] at hj
    rw [hobject]
    exact ⟨⟨j, hj⟩, object_modify_of_ne _ hqp⟩

/-- `Cycle::EventRemove`. -/
theorem eventRemove (h : Tracked event E r) (hm : r.Masked fun _ => True) (p : EventPtr) :
    ∃ r', r.eventRemove p = .ok r' ∧ Tracked event E r' ∧ r'.Masked fun _ => True := by
  cases hid : (r.object p).id with
  | none =>
      refine ⟨r, ?_, h, hm⟩
      have hcycle : (r.object p).cycle = .null := by rw [h.cycle, hid]; rfl
      rw [PollReactor.eventRemove, hcycle, hid]
  | some id =>
      have hcycle : (r.object p).cycle = .this := by rw [h.cycle, hid]; rfl
      have hreg := h.back hid
      have hfds : (r.modify p EventImpl.reset).fd = r.fd := Valid.fd_modify rfl
      by_cases hfd : 0 ≤ r.fd p
      · obtain ⟨index, pfd, hindex, hle, hpfd, hkey⟩ := h.entry ⟨id, hreg⟩ hfd
        have hmask : pfd.events = (r.modify p EventImpl.reset).mask p := by
          rw [hm index pfd p hle hpfd trivial ⟨id, hreg⟩ hkey.symm]
          simp [mask, modify, EventImpl.reset]
        obtain ⟨pollFds, inverseMap, hremove, hentry⟩ :=
          reactorRemove_ok (r := r.modify p EventImpl.reset) (p := p) h.valid.exact
            (hfds ▸ hindex) hpfd hmask
        let r₁ : PollReactor :=
          { r.modify p EventImpl.reset with
            pollFds, inverseMap, events := Function.update r.events id none }
        have hs : r.eventRemove p = .ok r₁ := by
          rw [PollReactor.eventRemove, hcycle, hid]
          simp only [hreg, ne_eq, not_true_eq_false, if_false, hfds, hfd, if_true, hremove,
            ok_bind]
          rfl
        exact ⟨r₁, hs, h.reset hm (h.valid.eventRemove hs) rfl rfl hreg hentry⟩
      · let r₁ : PollReactor :=
          { r.modify p EventImpl.reset with events := Function.update r.events id none }
        have hs : r.eventRemove p = .ok r₁ := by
          rw [PollReactor.eventRemove, hcycle, hid]
          simp only [hreg, ne_eq, not_true_eq_false, if_false, hfds, hfd]
          rfl
        exact ⟨r₁, hs, h.reset hm (h.valid.eventRemove hs) rfl rfl hreg
          fun k pfd hk hpfd => ⟨k, hk, hpfd⟩⟩

/-- `EnableRead` and the others. -/
theorem setInterest (h : Tracked event E r) (hE : Apart event E) (hm : r.Masked fun _ => True)
    (ht : p.isTimer = false) (read write : Bool) :
    ∃ r', r.setInterest p read write = .ok r' ∧ Tracked event E r' ∧ r'.Masked fun _ => True := by
  let f : EventImpl → EventImpl := fun o => { o with event := o.event.setInterest read write }
  have hvalid : (r.modify p f).Valid := h.valid.modify rfl rfl
  have hset : Tracked event E (r.modify p f) :=
    h.change hvalid rfl (fun _ => rfl) (h.cycle p) (fun id hid => h.back hid)
      (fun _ => Iff.rfl) fun hreg => h.mem hreg
  have hrest : (r.modify p f).Masked (· ≠ p) :=
    hm.mono hvalid (fun k pfd hk hpfd => ⟨k, pfd, hk, hpfd, rfl, rfl⟩)
      fun q hqp hq _ => ⟨trivial, hq, object_modify_of_ne f hqp⟩
  have hcycle : ((r.modify p f).object p).cycle =
      if (r.object p).id.isSome then .this else .null := by
    rw [object_modify]
    exact h.cycle p
  rw [PollReactor.setInterest]
  change ∃ r', (if ((r.modify p f).object p).cycle = .null then Except.ok (r.modify p f)
    else (r.modify p f).eventUpdate p) = .ok r' ∧ _
  cases hid : (r.object p).id with
  | none =>
      rw [hid] at hcycle
      refine ⟨r.modify p f, if_pos hcycle, hset, ?_⟩
      intro k pfd q hk hpfd _ hq hfd
      -- the flags of an event that is not registered are in no entry
      have hqp : q ≠ p := by
        rintro rfl
        rw [hset.registered_iff, object_modify] at hq
        have hsome : (r.object q).id.isSome = true := hq
        rw [hid] at hsome
        cases hsome
      exact hrest k pfd q hk hpfd hqp hq hfd
  | some id =>
      rw [hid] at hcycle
      rw [if_neg (by rw [hcycle]; exact fun heq => by cases heq)]
      exact hset.eventUpdate hE hrest ht (h.mem ⟨id, h.back hid⟩ ht)

theorem createTimer (h : Tracked event E r) (hm : r.Masked fun _ => True) (delay : ℤ)
    (isPersist : Bool) : Tracked event E (r.createTimer delay isPersist) ∧
      (r.createTimer delay isPersist).Masked fun _ => True := by
  have hvalid := h.valid.createTimer delay isPersist
  have htracked : Tracked event E (r.createTimer delay isPersist) :=
    h.change (p := .timer r.eventId) (f := fun _ => .new (Timer.new delay isPersist)) hvalid rfl
      (fun ht => by cases ht) rfl (fun id hid => by cases hid) (fun _ => Iff.rfl)
      fun _ ht => by cases ht
  refine ⟨htracked, hm.mono hvalid (fun k pfd hk hpfd => ⟨k, pfd, hk, hpfd, rfl, rfl⟩) ?_⟩
  intro q _ hq hfd
  have hqt := htracked.isTimer_of_nonneg hfd
  have hne : q ≠ .timer r.eventId := fun heq => by rw [heq] at hqt; cases hqt
  exact ⟨trivial, hq, Function.update_of_ne hne _ r.object⟩

/-- A timer is registered, or it is not. -/
theorem registerTimer (h : Tracked event E r) (hm : r.Masked fun _ => True) {id : ℕ}
    (hmem : id ∈ r.drawn) (hs : r.registerTimer id = .ok r') :
    Tracked event E r' ∧ r'.Masked fun _ => True := by
  have hvalid := h.valid.registerTimer hmem hs
  unfold PollReactor.registerTimer at hs
  split at hs
  · cases hs
  split at hs
  · cases hs
  next hnew hfree =>
    cases hs
    have htracked := h.insert (p := .timer id) hvalid rfl rfl (by simpa using hfree)
      fun ht => by cases ht
    refine ⟨htracked, hm.mono hvalid (fun k pfd hk hpfd => ⟨k, pfd, hk, hpfd, rfl, rfl⟩) ?_⟩
    intro q _ hq hfd
    have hqt := htracked.isTimer_of_nonneg hfd
    have hne : q ≠ .timer id := fun heq => by rw [heq] at hqt; cases hqt
    obtain ⟨j, hj⟩ := hq
    have hjid : j ≠ id := by
      rintro rfl
      exact hne (Option.some.inj ((Function.update_self j _ r.events).symm.trans hj)).symm
    exact ⟨trivial, ⟨j, (Function.update_of_ne hjid _ r.events).symm.trans hj⟩,
      Function.update_of_ne hne _ r.object⟩

theorem cancel (h : Tracked event E r) (hm : r.Masked fun _ => True) (id : ℕ) :
    Tracked event E (r.cancel id) ∧ (r.cancel id).Masked fun _ => True := by
  have hvalid := h.valid.cancel id
  unfold PollReactor.cancel at hvalid ⊢
  split
  · exact ⟨h, hm⟩
  next p hp =>
    simp only [hp] at hvalid
    split
    · next hfd =>
        rw [if_pos hfd] at hvalid
        exact h.reset hm hvalid rfl rfl hp fun k pfd hk hpfd => ⟨k, hk, hpfd⟩
    · exact ⟨h, hm⟩

/-- The kernel writes neither descriptors nor masks. -/
theorem poll (h : Tracked event E r) (hm : r.Masked fun _ => True) {answer : ℤ → BitVec 16}
    (hs : r.step (.poll answer) = .ok r') : Tracked event E r' ∧ r'.Masked fun _ => True := by
  have hvalid := step_valid h.valid hs
  obtain ⟨active, -, rfl⟩ := fillActiveEvents_cases hs
  refine ⟨h.congr hvalid rfl rfl, hm.mono hvalid (fun k pfd hk hpfd => ?_)
    fun q _ hq _ => ⟨trivial, hq, rfl⟩⟩
  simp only [PollReactor.polled, List.getElem?_mapIdx, Option.map_eq_some_iff] at hpfd
  obtain ⟨old, hold, rfl⟩ := hpfd
  exact ⟨k, old, hk, hold, rfl, rfl⟩

end Tracked

/-! ## The result -/

theorem fillLoop_error {eventId numOfEvents : ℕ} {active : List (EventPtr × Events)}
    {pollFds : List PollFd} {e : PollHalt}
    (hs : r.fillLoop eventId numOfEvents active pollFds = .error e) :
    e.ofUpdateOrRemove = false := by
  induction pollFds generalizing eventId numOfEvents active with
  | nil => cases hs
  | cons pfd pollFds ih =>
      rw [fillLoop] at hs
      split at hs
      · cases hs
      split at hs
      · split at hs
        · cases hs
          rfl
        · split at hs
          · exact ih hs
          · cases hs
            rfl
      · exact ih hs

end PollReactor

/-- New events are only those of `E`. -/
def PollCall.Within (E : EventPtr → Prop) : PollCall → Prop
  | .update p => E p
  | _ => True

namespace PollReactor

/-- What a call leads to: a state in which the three are in step, or an end for another reason
than an assertion of `EventUpdate` or `EventRemove`. -/
def Safe (event : EventPtr → Event) (E : EventPtr → Prop) : Except PollHalt PollReactor → Prop
  | .ok r => Tracked event E r ∧ r.Masked fun _ => True
  | .error e => e.ofUpdateOrRemove = false

theorem safe_of_ok {x : Except PollHalt PollReactor}
    (h : ∃ r, x = .ok r ∧ Tracked event E r ∧ r.Masked fun _ => True) : Safe event E x := by
  obtain ⟨r, rfl, hr⟩ := h
  exact hr

theorem safe_registerTimer (h : Tracked event E r) (hm : r.Masked fun _ => True) {id : ℕ}
    (hmem : id ∈ r.drawn) : Safe event E (r.registerTimer id) := by
  cases hs : r.registerTimer id with
  | ok r' => exact h.registerTimer hm hmem hs
  | error e =>
      unfold registerTimer at hs
      split at hs
      · cases hs
        rfl
      split at hs
      · cases hs
        rfl
      · cases hs

theorem safe_poll (h : Tracked event E r) (hm : r.Masked fun _ => True)
    (answer : ℤ → BitVec 16) : Safe event E (r.step (.poll answer)) := by
  cases hs : r.step (.poll answer) with
  | ok r' => exact h.poll hm hs
  | error e =>
      generalize hr₁ : ({ r with active := [] } : PollReactor).polled answer = r₁ at hs
      rw [step, poll, hr₁, fillActiveEvents] at hs
      cases hloop : r₁.fillLoop 0 r₁.ready r₁.active r₁.pollFds with
      | ok active =>
          rw [hloop] at hs
          cases hs
      | error e' =>
          rw [hloop] at hs
          cases hs
          exact fillLoop_error hloop

/-- **A call keeps event objects, map and list in step**, and fails none of the assertions of
`EventUpdate` and `EventRemove`. -/
theorem step_safe (hE : Apart event E) {c : PollCall} (hc : c.Within E)
    (h : Tracked event E r) (hm : r.Masked fun _ => True) : Safe event E (r.step c) := by
  cases c with
  | update p =>
      rw [step]
      cases ht : p.isTimer with
      | true => rfl
      | false =>
          refine safe_of_ok (h.eventUpdate hE ?_ ht hc)
          exact fun k pfd q hk hpfd _ => hm k pfd q hk hpfd trivial
  | interest p read write =>
      rw [step]
      cases ht : p.isTimer with
      | true => rfl
      | false => exact safe_of_ok (h.setInterest hE hm ht read write)
  | remove p => exact safe_of_ok (h.eventRemove hm p)
  | createTimer delay isPersist => exact h.createTimer hm delay isPersist
  | registerTimer id =>
      rw [step]
      split
      case isTrue hmem => exact safe_registerTimer h hm hmem
      case isFalse => rfl
  | cancel id => exact h.cancel hm id
  | poll answer => exact safe_poll h hm answer

/-- **The index of the poll reactor stays exact.**  Whatever calls are made, with events whose
descriptors are not negative and different from each other, the map, the list and the
registered events agree, and no assertion of `EventUpdate` or `EventRemove` fails. -/
theorem indexed_of_run (event : EventPtr → Event) (E : EventPtr → Prop) (hE : Apart event E)
    (calls : List PollCall) (hcalls : ∀ c ∈ calls, c.Within E) :
    (∀ r, run step (init event) calls = .ok r → r.Indexed) ∧
      ∀ e, run step (init event) calls = .error e → e.ofUpdateOrRemove = false := by
  have hstate : ∀ ks r, ks <+: calls → run step (init event) ks = .ok r →
      Tracked event E r ∧ r.Masked fun _ => True := by
    intro ks r hks hrun
    have hmeets : Meets step (fun _ c => c.Within E) (init event) ks :=
      meets_of_labels fun c hc _ => hcalls c (hks.subset hc)
    refine invariant (fun r => Tracked event E r ∧ r.Masked fun _ => True) ?_
      ⟨tracked_init event E, masked_init event _⟩ hmeets hrun
    intro s c s' hs hc hstep
    have hsafe := step_safe hE hc hs.1 hs.2
    rw [hstep] at hsafe
    exact hsafe
  constructor
  · intro r hrun
    obtain ⟨h, hm⟩ := hstate calls r (List.prefix_refl calls) hrun
    exact h.indexed hm
  · intro e hrun
    obtain ⟨ks, c, m, hpre, hks, hstep⟩ := exists_of_run_error hrun
    have hks' : ks <+: calls := (List.prefix_append ks [c]).trans hpre
    obtain ⟨h, hm⟩ := hstate ks m hks' hks
    have hsafe := step_safe hE (hcalls c (hpre.subset (by simp))) h hm
    rw [hstep] at hsafe
    exact hsafe

/-- Two readers, on the descriptors 0 and 7. -/
def twoReaders : EventPtr → Event
  | .user 0 => Event.new 0 true { read := true, persist := true } 0
  | _ => Event.new 7 true { read := true, persist := true } 0

/-- The first of them is removed, and the entry of the second takes its place. -/
theorem indexed_twoReaders : ∃ r,
    run step (init twoReaders)
      [.update (.user 0), .update (.user 1), .interest (.user 1) true true, .remove (.user 0)] =
        .ok r ∧ r.Indexed ∧ r.inverseMap 7 = some 16 ∧ r.pollFds.length = 17 := by
  let E : EventPtr → Prop := fun p => p = .user 0 ∨ p = .user 1
  have hE : Apart twoReaders E := by
    constructor
    · rintro _ (rfl | rfl) <;> decide
    · rintro _ _ (rfl | rfl) (rfl | rfl) h
      · rfl
      · exact absurd h (by decide)
      · exact absurd h (by decide)
      · rfl
  refine ⟨_, rfl, (indexed_of_run twoReaders E hE
    [.update (.user 0), .update (.user 1), .interest (.user 1) true true, .remove (.user 0)]
    ?_).1 _ rfl, rfl, rfl⟩
  intro c hc
  simp only [List.mem_cons, List.not_mem_nil, or_false] at hc
  rcases hc with rfl | rfl | rfl | rfl
  · exact .inl rfl
  · exact .inr rfl
  · trivial
  · trivial

end PollReactor

end Hare.Io
