import Hare.Base.Poll

/-!
# What the poll reactor reports

`FillActiveEvents` walks through the list given to `poll` and takes the position of an entry
for the id of its event.  Positions begin at sixteen and are handed on by `EventRemove`; ids
begin at zero, are never used twice, and timers draw from the same counter.

`reports_iff_aligned` says when the right events are reported: when every descriptor with a
positive answer has the id of its event as its position.
-/

namespace Hare.Io

open LabelledRun IndexMap

namespace PollReactor

/-- The event is part of the cycle. -/
def registered (r : PollReactor) (p : EventPtr) : Prop := ∃ id, r.events id = some p

/-- What should hold of a `Poll` with a given answer: no assertion fails, and the active events
gain one element for each descriptor with a positive answer, with the event registered for it
and the encoding of the answer. -/
def Reports (r : PollReactor) (answer : ℤ → BitVec 16) : Prop :=
  ∃ found, r.poll answer = .ok { r.polled answer with active := r.active ++ found } ∧
    (found.map Prod.fst).Nodup ∧
    ∀ p revents, (p, revents) ∈ found ↔
      r.registered p ∧ 0 ≤ r.fd p ∧ 0 < (answer (r.fd p)).toInt ∧
        revents = encodePoll (answer (r.fd p))

/-- Every descriptor with a positive answer has the id of its event as its position. -/
def Aligned (r : PollReactor) (answer : ℤ → BitVec 16) : Prop :=
  ∀ id p, r.events id = some p → 0 ≤ r.fd p → 0 < (answer (r.fd p)).toInt →
    r.inverseMap (r.fd p) = some id

/-! ## The loop of FillActiveEvents -/

/-- Every entry for which something happened has the id of an event with its descriptor as its
position. -/
def Matches (r : PollReactor) (eventId : ℕ) (pollFds : List PollFd) : Prop :=
  ∀ k pfd, pollFds[k]? = some pfd → pfd.happened = true →
    ∃ p, r.events (eventId + k) = some p ∧ r.fd p = pfd.fd

/-- What the loop adds. -/
def found (r : PollReactor) (eventId : ℕ) : List PollFd → List (EventPtr × Events)
  | [] => []
  | pfd :: pollFds =>
    match pfd.happened, r.events eventId with
    | true, some p => (p, encodePoll pfd.revents) :: r.found (eventId + 1) pollFds
    | _, _ => r.found (eventId + 1) pollFds

variable {r : PollReactor} {eventId : ℕ} {pollFds : List PollFd} {r' : PollReactor} {p : EventPtr}
  {revents : Events} {numOfEvents id : ℕ}

theorem matches_cons {pfd : PollFd} :
    r.Matches eventId (pfd :: pollFds) ↔
      (pfd.happened = true → ∃ p, r.events eventId = some p ∧ r.fd p = pfd.fd) ∧
        r.Matches (eventId + 1) pollFds := by
  constructor
  · intro h
    refine ⟨fun hp => by simpa using h 0 pfd rfl hp, fun k pfd' hk hp => ?_⟩
    have := h (k + 1) pfd' (by simpa using hk) hp
    rwa [Nat.add_right_comm, Nat.add_assoc]
  · rintro ⟨hhead, htail⟩ k pfd' hk hp
    cases k with
    | zero =>
        cases hk
        exact hhead hp
    | succ k =>
        have := htail k pfd' (by simpa using hk) hp
        rwa [Nat.add_right_comm, Nat.add_assoc] at this

theorem found_eq_nil (h : pollFds.countP PollFd.happened = 0) : r.found eventId pollFds = [] := by
  induction pollFds generalizing eventId with
  | nil => rfl
  | cons pfd pollFds ih =>
      have hp : pfd.happened = false := by
        simpa using List.countP_eq_zero.mp h pfd List.mem_cons_self
      rw [List.countP_cons_of_neg (by simp [hp])] at h
      simp [found, hp, ih h]

theorem mem_found_cons {pfd : PollFd} :
    (p, revents) ∈ r.found eventId (pfd :: pollFds) ↔
      (pfd.happened = true ∧ r.events eventId = some p ∧ revents = encodePoll pfd.revents) ∨
        (p, revents) ∈ r.found (eventId + 1) pollFds := by
  rw [found]
  split
  · next q hp hev =>
      rw [List.mem_cons, Prod.mk.injEq, hp, hev, Option.some_inj, eq_comm (a := p)]
      simp
  · next hnone =>
      have hnot : ¬ (pfd.happened = true ∧ r.events eventId = some p ∧
          revents = encodePoll pfd.revents) := fun h => hnone p h.1 h.2.1
      simp [hnot]

theorem mem_found :
    (p, revents) ∈ r.found eventId pollFds ↔
      ∃ k pfd, pollFds[k]? = some pfd ∧ pfd.happened = true ∧ r.events (eventId + k) = some p ∧
        revents = encodePoll pfd.revents := by
  induction pollFds generalizing eventId with
  | nil => simp [found]
  | cons pfd pollFds ih =>
      rw [mem_found_cons, ih]
      constructor
      · rintro (⟨hp, hev, hrev⟩ | ⟨k, pfd', hk, hp, hev, hrev⟩)
        · exact ⟨0, pfd, rfl, hp, hev, hrev⟩
        · exact ⟨k + 1, pfd', by simpa using hk, hp, by grind, hrev⟩
      · rintro ⟨k, pfd', hk, hp, hev, hrev⟩
        cases k with
        | zero => cases hk; exact Or.inl ⟨hp, hev, hrev⟩
        | succ k => exact Or.inr ⟨k, pfd', by simpa using hk, hp, by grind, hrev⟩

/-- Distinct positions hold distinct events. -/
theorem nodup_found (hown : ∀ {id id' p}, r.events id = some p → r.events id' = some p → id = id') :
    ((r.found eventId pollFds).map Prod.fst).Nodup := by
  induction pollFds generalizing eventId with
  | nil => exact List.nodup_nil
  | cons pfd pollFds ih =>
      unfold found
      split
      · next p hp hev =>
          rw [List.map_cons, List.nodup_cons]
          refine ⟨fun hmem => ?_, ih⟩
          obtain ⟨⟨q, revents⟩, hq, rfl⟩ := List.mem_map.mp hmem
          obtain ⟨k, -, -, -, hk, -⟩ := mem_found.mp hq
          have := hown hev hk
          omega
      · exact ih

theorem fillLoop_of_matches (active : List (EventPtr × Events))
    (hnum : pollFds.countP PollFd.happened ≤ numOfEvents) (h : r.Matches eventId pollFds) :
    r.fillLoop eventId numOfEvents active pollFds = .ok (active ++ r.found eventId pollFds) := by
  induction pollFds generalizing eventId numOfEvents active with
  | nil => simp [fillLoop, found]
  | cons pfd pollFds ih =>
      obtain ⟨hhead, htail⟩ := matches_cons.mp h
      by_cases hzero : numOfEvents = 0
      · subst hzero
        simp [fillLoop, found_eq_nil (Nat.le_zero.mp hnum)]
      · rw [fillLoop, if_neg hzero]
        cases hp : pfd.happened with
        | false =>
            rw [List.countP_cons_of_neg (by simp [hp])] at hnum
            simp [found, hp, ih _ hnum htail]
        | true =>
            obtain ⟨p, hev, hfd⟩ := hhead hp
            rw [List.countP_cons_of_pos hp] at hnum
            simp [found, hp, hev, hfd, ih _ (Nat.le_sub_one_of_lt hnum) htail]

/-- An assertion fails when a position is not the id of an event with the descriptor. -/
theorem matches_of_fillLoop {active active' : List (EventPtr × Events)}
    (hnum : pollFds.countP PollFd.happened ≤ numOfEvents)
    (h : r.fillLoop eventId numOfEvents active pollFds = .ok active') :
    r.Matches eventId pollFds := by
  induction pollFds generalizing eventId numOfEvents active with
  | nil => exact fun k pfd hk => by simp at hk
  | cons pfd pollFds ih =>
      by_cases hzero : numOfEvents = 0
      · subst hzero
        intro k pfd' hk hp
        have hnone := List.countP_eq_zero.mp (Nat.le_zero.mp hnum) pfd' (List.mem_of_getElem? hk)
        exact absurd hp hnone
      · rw [fillLoop, if_neg hzero] at h
        rw [matches_cons]
        cases hp : pfd.happened with
        | false =>
            rw [List.countP_cons_of_neg (by simp [hp])] at hnum
            exact ⟨by simp, ih hnum (by simpa [hp] using h)⟩
        | true =>
            rw [List.countP_cons_of_pos hp] at hnum
            simp only [hp, if_true] at h
            split at h
            · cases h
            · next p hev =>
                split at h
                · next hfd => exact ⟨fun _ => ⟨p, hev, hfd⟩, ih (Nat.le_sub_one_of_lt hnum) h⟩
                · cases h

/-! ## The invariant -/

/-- What holds after all calls. -/
structure Valid (r : PollReactor) : Prop where
  own : ∀ {id p}, r.events id = some p → (r.object p).id = some id
  lt : ∀ {id p}, r.events id = some p → id < r.eventId
  label : ∀ {id i}, r.events id = some (.timer i) → i = id
  timer : ∀ i, r.fd (.timer i) < 0
  drawn : ∀ id ∈ r.drawn, id < r.eventId
  /-- The descriptors of registered events are the keys of the map. -/
  watched : ∀ d, (r.inverseMap d).isSome ↔ 0 ≤ d ∧ ∃ p, r.registered p ∧ r.fd p = d
  distinct : ∀ {p q}, r.registered p → r.registered q → 0 ≤ r.fd p → r.fd p = r.fd q → p = q
  exact : Exact PollFd.fd initEventsCnt r.pollFds r.inverseMap

theorem fd_timer (delay : ℤ) (isPersist : Bool) : (Timer.new delay isPersist).fd = -1 := by
  unfold Timer.new Event.new
  split <;> rfl

theorem valid_init (event : EventPtr → Event) : (init event).Valid where
  own h := by cases h
  lt h := by cases h
  label h := by cases h
  timer i := by simp [fd, init, EventImpl.new, EventPtr.isTimer, fd_timer]
  drawn id h := by cases h
  watched d := by simp [init, registered]
  distinct h := by cases h.choose_spec
  exact := by
    refine ⟨by simp [init], fun d k => ?_⟩
    simp only [init, reduceCtorEq, false_iff, not_and]
    intro hk hkey
    rw [List.getElem?_eq_none (by simpa using hk)] at hkey
    cases hkey

/-- `ReactorPoll::EventRemove` takes the entry out of the list and the descriptor out of the
map. -/
theorem reactorRemove_exact (h : Exact PollFd.fd initEventsCnt r.pollFds r.inverseMap)
    (hs : r.reactorRemove p = .ok r') :
    ∃ pollFds index, r' = { r with pollFds, inverseMap := index } ∧
      Exact PollFd.fd initEventsCnt pollFds index ∧
        ∀ d, (index d).isSome ↔ (r.inverseMap d).isSome ∧ d ≠ r.fd p := by
  unfold reactorRemove at hs
  split at hs
  · cases hs
  next index hindex =>
    split at hs
    · next pfd last hpfd hlast =>
        split at hs
        · cases hs
        split at hs
        · next hend =>
            cases hs
            exact ⟨_, _, rfl, h.pop (hend ▸ hindex), fun d => isSome_update_none⟩
        next hend =>
          split at hs
          · cases hs
          next hswap =>
            cases hs
            refine ⟨_, _, rfl, h.swapRemove hindex hlast hend, fun d => ?_⟩
            have hsome : (r.inverseMap last.fd).isSome = true := by
              simpa [Option.isSome_iff_ne_none] using hswap
            rw [isSome_update_none, isSome_update_some]
            grind
    · cases hs

namespace Valid

theorem eq_of_events (h : r.Valid) {id id' : ℕ} (hid : r.events id = some p)
    (hid' : r.events id' = some p) : id = id' :=
  Option.some.inj ((h.own hid).symm.trans (h.own hid'))

theorem fresh (h : r.Valid) : r.events r.eventId = none := by
  cases hid : r.events r.eventId with
  | none => rfl
  | some p => exact absurd (h.lt hid) (lt_irrefl _)

/-- The descriptor of an event does not change. -/
theorem fd_modify {f : EventImpl → EventImpl}
    (hfd : (f (r.object p)).event.fd = r.fd p) : (r.modify p f).fd = r.fd := by
  funext q
  by_cases hq : q = p
  · subst hq
    simpa [fd, PollReactor.modify] using hfd
  · simp [fd, PollReactor.modify, Function.update_of_ne hq]

/-- A change of an event object that keeps its descriptor and its id. -/
theorem modify (h : r.Valid) {f : EventImpl → EventImpl}
    (hfd : (f (r.object p)).event.fd = r.fd p) (hid : (f (r.object p)).id = (r.object p).id) :
    (r.modify p f).Valid := by
  have hfds := fd_modify hfd
  refine ⟨fun {id q} hq => ?_, h.lt, h.label, ?_, h.drawn, ?_, ?_, h.exact⟩
  · by_cases hqp : q = p
    · subst hqp
      simpa [PollReactor.modify, hid] using h.own hq
    · simpa [PollReactor.modify, Function.update_of_ne hqp] using h.own hq
  · rw [hfds]; exact h.timer
  · rw [hfds]; exact h.watched
  · rw [hfds]; exact h.distinct

/-- An event is registered under a new id; the map gains its descriptor. -/
theorem insert (h : r.Valid)
    (hobject : r'.object = (r.modify p (EventImpl.active · id)).object)
    (hevents : r'.events = Function.update r.events id (some p))
    (hp : (r.object p).id = none) (hid : r.events id = none) (hlt : id < r'.eventId)
    (hle : r.eventId ≤ r'.eventId) (hlabel : ∀ i, p = .timer i → i = id)
    (hdrawn : ∀ id ∈ r'.drawn, id < r'.eventId) (hfresh : r.inverseMap (r.fd p) = none)
    (hindex : ∀ d, (r'.inverseMap d).isSome ↔ (r.inverseMap d).isSome ∨ 0 ≤ d ∧ d = r.fd p)
    (hexact : Exact PollFd.fd initEventsCnt r'.pollFds r'.inverseMap) : r'.Valid := by
  have hfds : r'.fd = r.fd := by
    rw [← fd_modify (r := r) (p := p) (f := (EventImpl.active · id)) rfl]
    funext q
    rw [fd, fd, hobject]
  have hmem : ∀ {j q}, r'.events j = some q ↔ r.events j = some q ∨ j = id ∧ q = p := by
    intro j q
    rw [hevents]
    by_cases hj : j = id
    · subst hj
      simp [hid, eq_comm]
    · rw [Function.update_of_ne hj]
      simp [hj]
  have hreg : ∀ {q}, r'.registered q ↔ r.registered q ∨ q = p := by
    simp [hmem, registered, exists_or]
  have hnew : ∀ {j}, r.events j ≠ some p := fun hj => by simp [h.own hj] at hp
  have hfree : ∀ {q}, r.registered q → 0 ≤ r.fd q → r.fd q ≠ r.fd p := by
    intro q hq hnn heq
    have := (h.watched (r.fd q)).mpr ⟨hnn, q, hq, rfl⟩
    simp [heq, hfresh] at this
  refine ⟨fun {j q} hj => ?_, fun {j q} hj => ?_, fun {j i} hj => ?_, ?_, hdrawn, fun d => ?_,
    fun {q q'} hq hq' hnn heq => ?_, hexact⟩
  · rw [hobject]
    rcases hmem.mp hj with hj | ⟨rfl, rfl⟩
    · have hqp : q ≠ p := fun hqp => hnew (hqp ▸ hj)
      simpa [PollReactor.modify, Function.update_of_ne hqp] using h.own hj
    · simp [PollReactor.modify, EventImpl.active]
  · rcases hmem.mp hj with hj | ⟨rfl, -⟩
    · exact (h.lt hj).trans_le hle
    · exact hlt
  · rcases hmem.mp hj with hj | ⟨rfl, hi⟩
    · exact h.label hj
    · exact hlabel i hi.symm
  · rw [hfds]; exact h.timer
  · rw [hindex, h.watched, hfds]
    grind
  · rw [hfds] at hnn heq
    rcases hreg.mp hq with hq | rfl <;> rcases hreg.mp hq' with hq' | rfl
    · exact h.distinct hq hq' hnn heq
    · exact absurd heq (hfree hq hnn)
    · exact absurd heq.symm (hfree hq' (heq ▸ hnn))
    · rfl

/-- An event is removed; the map loses its descriptor. -/
theorem erase (h : r.Valid)
    (hid : r.events id = some p) (hobject : r'.object = (r.modify p EventImpl.reset).object)
    (hevents : r'.events = Function.update r.events id none) (heventId : r'.eventId = r.eventId)
    (hdrawn : r'.drawn = r.drawn)
    (hindex : ∀ d, (r'.inverseMap d).isSome ↔ (r.inverseMap d).isSome ∧ d ≠ r.fd p)
    (hexact : Exact PollFd.fd initEventsCnt r'.pollFds r'.inverseMap) : r'.Valid := by
  have hfds : r'.fd = r.fd := by
    rw [← fd_modify (r := r) (p := p) (f := EventImpl.reset) rfl]
    funext q
    rw [fd, fd, hobject]
  have hmem : ∀ {j q}, r'.events j = some q ↔ r.events j = some q ∧ q ≠ p := by
    intro j q
    rw [hevents]
    by_cases hj : j = id
    · subst hj
      simp [hid, eq_comm]
    · rw [Function.update_of_ne hj]
      refine ⟨fun hq => ⟨hq, ?_⟩, And.left⟩
      rintro rfl
      exact hj (h.eq_of_events hq hid)
  have hreg : ∀ {q}, r'.registered q ↔ r.registered q ∧ q ≠ p := by
    simp [hmem, registered]
  refine ⟨fun {j q} hj => ?_, fun {j q} hj => ?_, fun {j i} hj => h.label (hmem.mp hj).1, ?_, ?_,
    fun d => ?_, fun {q q'} hq hq' hnn heq => ?_, hexact⟩
  · obtain ⟨hj, hqp⟩ := hmem.mp hj
    rw [hobject]
    simpa [PollReactor.modify, Function.update_of_ne hqp] using h.own hj
  · rw [heventId]
    exact h.lt (hmem.mp hj).1
  · rw [hfds]; exact h.timer
  · rw [heventId, hdrawn]; exact h.drawn
  · have hdist : ∀ q, r.registered q → 0 ≤ r.fd p → r.fd p = r.fd q → p = q :=
      fun q hq => h.distinct ⟨id, hid⟩ hq
    rw [hindex, h.watched, hfds]
    grind
  · rw [hfds] at hnn heq
    exact h.distinct (hreg.mp hq).1 (hreg.mp hq').1 hnn heq

/-- A change of the entries and of the active events. -/
theorem relist (h : r.Valid) (active : List (EventPtr × Events))
    (hexact : Exact PollFd.fd initEventsCnt pollFds r.inverseMap) :
    Valid { r with pollFds, active } :=
  ⟨h.own, h.lt, h.label, h.timer, h.drawn, h.watched, h.distinct, hexact⟩

/-- Events without a descriptor are not in the map. -/
theorem inverseMap_of_neg (h : r.Valid) {d : ℤ} (hd : d < 0) : r.inverseMap d = none := by
  by_contra hne
  have := (h.watched d).mp (Option.isSome_iff_ne_none.mpr hne)
  omega

/-- `Cycle::EventUpdate` of an event that is not registered. -/
theorem eventUpdate_new (h : r.Valid)
    (hp : p.isTimer = false) (hid : (r.object p).id = none) (hs : r.eventUpdate p = .ok r') :
    r'.Valid := by
  have hlabel : ∀ i, p = .timer i → i = r.eventId := by
    rintro i rfl
    cases hp
  have hdrawn : ∀ id ∈ r.drawn, id < r.eventId + 1 :=
    fun id hmem => Nat.lt_succ_of_lt (h.drawn id hmem)
  simp only [eventUpdate, hid, Option.isSome_none, Bool.false_eq_true, and_false, if_false] at hs
  by_cases hfd : 0 ≤ r.fd p
  · simp only [if_pos hfd, reactorUpdate, hid] at hs
    cases hnone : r.inverseMap (r.fd p) with
    | some k => simp [hnone] at hs
    | none =>
        simp [hnone, activate, hid, h.fresh] at hs
        subst hs
        refine h.insert rfl rfl hid h.fresh (Nat.lt_succ_self _)
          (Nat.le_succ _) hlabel hdrawn hnone (fun d => ?_) (h.exact.push hnone)
        exact isSome_update_some.trans (or_congr_right ⟨fun hd => ⟨hd ▸ hfd, hd⟩, And.right⟩)
  · simp [if_neg hfd, activate, hid, h.fresh] at hs
    subst hs
    have hneg : r.fd p < 0 := by omega
    refine h.insert rfl rfl hid h.fresh (Nat.lt_succ_self _) (Nat.le_succ _)
      hlabel hdrawn (h.inverseMap_of_neg hneg) (fun d => ?_) h.exact
    exact ⟨Or.inl, fun hd => hd.elim id fun ⟨hd, heq⟩ => absurd (heq ▸ hd) hfd⟩

theorem eventUpdate (h : r.Valid) (hp : p.isTimer = false)
    (hs : r.eventUpdate p = .ok r') : r'.Valid := by
  cases hid : (r.object p).id with
  | none => exact h.eventUpdate_new hp hid hs
  | some id =>
      unfold PollReactor.eventUpdate at hs
      split at hs
      · cases hs
        exact h
      split at hs
      · simp only [reactorUpdate, hid] at hs
        split at hs
        · cases hs
        split at hs
        · cases hs
        next index hindex =>
          split at hs
          · cases hs
          next pfd hpfd =>
            split at hs
            · simp [hid] at hs
              subst hs
              exact h.relist r.active (h.exact.set hindex)
            · cases hs
      · simp [hid] at hs
        subst hs
        exact h

/-- `Cycle::EventRemove`. -/
theorem eventRemove (h : r.Valid)
    (hs : r.eventRemove p = .ok r') : r'.Valid := by
  unfold PollReactor.eventRemove at hs
  split at hs
  · next id hcycle hid =>
      split at hs
      · cases hs
        exact h
      next q hq =>
        split at hs
        · cases hs
        next hqp =>
          obtain rfl : q = p := not_not.mp hqp
          have hfds : (r.modify q EventImpl.reset).fd = r.fd := fd_modify rfl
          simp only at hs
          split at hs
          · obtain ⟨r₁, hremove, hs⟩ := bind_eq_ok hs
            obtain ⟨pollFds, index, rfl, hexact, hindex⟩ :=
              reactorRemove_exact (r := r.modify q EventImpl.reset) h.exact hremove
            rw [hfds] at hindex
            cases hs
            exact h.erase hq rfl rfl rfl rfl hindex hexact
          · next hfd =>
              cases hs
              refine h.erase hq rfl rfl rfl rfl (fun d => ⟨fun hd => ⟨hd, ?_⟩, And.left⟩) h.exact
              rintro rfl
              rw [hfds] at hfd
              exact hfd ((h.watched _).mp hd).1
  · cases hs
    exact h

theorem setInterest (h : r.Valid) {read write : Bool}
    (hp : p.isTimer = false) (hs : r.setInterest p read write = .ok r') : r'.Valid := by
  have hset : (r.modify p fun o => { o with event := o.event.setInterest read write }).Valid :=
    h.modify rfl rfl
  unfold PollReactor.setInterest at hs
  simp only at hs
  split at hs
  · cases hs
    exact hset
  · exact hset.eventUpdate hp hs

/-- A timer is made in place of an event that is not registered. -/
theorem createTimer (h : r.Valid) (delay : ℤ) (isPersist : Bool) :
    (r.createTimer delay isPersist).Valid := by
  have hnot : ∀ {q}, r.registered q → q ≠ .timer r.eventId := by
    rintro q ⟨id, hid⟩ rfl
    exact absurd (h.lt hid) (by rw [← h.label hid]; exact lt_irrefl _)
  have hkeep : ∀ {q}, r.registered q →
      (r.createTimer delay isPersist).object q = r.object q := fun hq => by
    simp [PollReactor.createTimer, PollReactor.modify, Function.update_of_ne (hnot hq)]
  have hfds : ∀ {q}, r.registered q → (r.createTimer delay isPersist).fd q = r.fd q :=
    fun hq => by rw [fd, hkeep hq, fd]
  refine ⟨fun {id q} hid => ?_, fun hid => Nat.lt_succ_of_lt (h.lt hid), h.label, fun i => ?_,
    fun id hmem => ?_, fun d => ?_, fun {q q'} hq hq' hnn heq => ?_, h.exact⟩
  · rw [hkeep ⟨id, hid⟩]
    exact h.own hid
  · by_cases hi : i = r.eventId
    · subst hi
      simp [fd, PollReactor.createTimer, PollReactor.modify, EventImpl.new, fd_timer]
    · have := h.timer i
      simpa [fd, PollReactor.createTimer, PollReactor.modify, hi] using this
  · rcases List.mem_append.mp hmem with hmem | hmem
    · exact Nat.lt_succ_of_lt (h.drawn id hmem)
    · rw [List.mem_singleton.mp hmem]
      exact Nat.lt_succ_self _
  · refine (h.watched d).trans (and_congr_right fun _ => exists_congr fun q => ?_)
    exact and_congr_right fun hq => by rw [hfds hq]
  · rw [hfds hq] at hnn heq
    rw [hfds hq'] at heq
    exact h.distinct hq hq' hnn heq

theorem registerTimer (h : r.Valid) (hmem : id ∈ r.drawn)
    (hs : r.registerTimer id = .ok r') : r'.Valid := by
  unfold PollReactor.registerTimer at hs
  split at hs
  · cases hs
  next hnew =>
    split at hs
    · cases hs
    next hfree =>
      cases hs
      refine h.insert (p := .timer id) rfl rfl (by simpa using hnew)
        (by simpa using hfree) (h.drawn id hmem) le_rfl (fun i hi => by cases hi; rfl)
        (fun j hj => h.drawn j (List.mem_of_mem_erase hj)) (h.inverseMap_of_neg (h.timer id))
        (fun d => ?_) h.exact
      have htimer := h.timer id
      exact ⟨Or.inl, fun hd => hd.elim (fun h => h) fun ⟨hd, heq⟩ => by omega⟩

theorem cancel (h : r.Valid) (id : ℕ) : (r.cancel id).Valid := by
  unfold PollReactor.cancel
  split
  · exact h
  next p hp =>
    split
    · next hfd =>
        refine h.erase hp rfl rfl rfl rfl (fun d => ⟨fun hd => ⟨hd, ?_⟩, And.left⟩) h.exact
        rintro rfl
        have := ((h.watched _).mp hd).1
        omega
    · exact h

/-- The kernel changes no descriptor. -/
theorem polled (h : r.Valid) (answer : ℤ → BitVec 16) : (r.polled answer).Valid := by
  refine h.relist r.active (h.exact.congr (List.ext_getElem? fun k => ?_))
  simp [Function.comp_def]

end Valid

theorem fillActiveEvents_cases (hs : r.fillActiveEvents numOfEvents = .ok r') :
    ∃ active, r.fillLoop 0 numOfEvents r.active r.pollFds = .ok active ∧
      r' = { r with active } := by
  obtain ⟨active, hloop, hs⟩ := bind_eq_ok hs
  cases hs
  exact ⟨active, hloop, rfl⟩

/-- Every call keeps the invariant. -/
theorem step_valid {c : PollCall} (h : r.Valid) (hs : r.step c = .ok r') :
    r'.Valid := by
  cases c <;> simp only [step] at hs
  case update p =>
    split at hs
    · cases hs
    · next hp => exact h.eventUpdate (by simpa using hp) hs
  case interest p read write =>
    split at hs
    · cases hs
    · next hp => exact h.setInterest (by simpa using hp) hs
  case remove p => exact h.eventRemove hs
  case createTimer delay isPersist =>
    cases hs
    exact h.createTimer delay isPersist
  case registerTimer id =>
    split at hs
    · next hmem => exact h.registerTimer hmem hs
    · cases hs
  case cancel id =>
    cases hs
    exact h.cancel id
  case poll answer =>
    have hclear : Valid { r with active := [] } := h.relist [] h.exact
    obtain ⟨active, -, rfl⟩ := fillActiveEvents_cases hs
    exact (hclear.polled answer).relist active (hclear.polled answer).exact

theorem valid_of_run {event : EventPtr → Event} {calls : List PollCall}
    (hrun : run step (init event) calls = .ok r) : r.Valid :=
  invariant_of_step Valid (fun _ _ _ h hs => step_valid h hs) (valid_init event) hrun

/-! ## The result -/

@[simp] theorem polled_events (answer : ℤ → BitVec 16) : (r.polled answer).events = r.events := rfl
@[simp] theorem polled_fd (answer : ℤ → BitVec 16) : (r.polled answer).fd = r.fd := rfl

/-- The entries for which something happened are those of the descriptors with a positive
answer. -/
theorem Valid.happened_iff (h : r.Valid) {answer : ℤ → BitVec 16} {k : ℕ} {d : ℤ}
    {revents : BitVec 16} :
    (∃ pfd, (r.polled answer).pollFds[k]? = some pfd ∧ pfd.happened = true ∧ pfd.fd = d ∧
        pfd.revents = revents) ↔
      r.inverseMap d = some k ∧ 0 < (answer d).toInt ∧ revents = answer d := by
  rw [h.exact.index_iff]
  simp only [PollReactor.polled, List.getElem?_mapIdx, Option.map_eq_some_iff, PollFd.happened]
  by_cases hk : k < initEventsCnt
  · simp only [hk, if_true]
    constructor
    · rintro ⟨_, ⟨pfd, -, rfl⟩, hpos, -⟩
      simp at hpos
    · exact fun hbase => absurd hbase.1.1 (by omega)
  · simp only [hk, if_false]
    constructor
    · rintro ⟨_, ⟨pfd, hpfd, rfl⟩, hpos, rfl, rfl⟩
      exact ⟨⟨by omega, pfd, hpfd, rfl⟩, by simpa using hpos, rfl⟩
    · rintro ⟨⟨-, pfd, hpfd, rfl⟩, hpos, rfl⟩
      exact ⟨_, ⟨pfd, hpfd, rfl⟩, by simpa using hpos, rfl, rfl⟩

/-- The positions of the entries that happened are ids exactly when the answer is aligned. -/
theorem Valid.aligned_iff_matches (h : r.Valid) (answer : ℤ → BitVec 16) :
    r.Aligned answer ↔ (r.polled answer).Matches 0 (r.polled answer).pollFds := by
  constructor
  · intro hall k pfd hk hp
    obtain ⟨hindex, hpos, -⟩ := h.happened_iff.mp ⟨pfd, hk, hp, rfl, rfl⟩
    obtain ⟨hnn, p, ⟨id, hid⟩, hfd⟩ := (h.watched pfd.fd).mp (by simp [hindex])
    rw [← hfd] at hnn hpos hindex ⊢
    cases hindex.symm.trans (hall id p hid hnn hpos)
    exact ⟨p, by simpa using hid, rfl⟩
  · intro hall id p hid hnn hpos
    obtain ⟨k, hk⟩ := Option.isSome_iff_exists.mp
      ((h.watched (r.fd p)).mpr ⟨hnn, p, ⟨id, hid⟩, rfl⟩)
    obtain ⟨pfd, hpfd, hp, hfd, -⟩ := h.happened_iff.mpr ⟨hk, hpos, rfl⟩
    obtain ⟨q, hq, hqfd⟩ := hall k pfd hpfd hp
    rw [Nat.zero_add, polled_events] at hq
    have hqp : p = q := h.distinct ⟨id, hid⟩ ⟨k, hq⟩ hnn (hfd.symm.trans hqfd.symm)
    subst hqp
    rw [hk, h.eq_of_events hid hq]

/-- What is found when the answer is aligned. -/
theorem Valid.mem_found_polled (h : r.Valid) {answer : ℤ → BitVec 16} (hall : r.Aligned answer)
    :
    (p, revents) ∈ (r.polled answer).found 0 (r.polled answer).pollFds ↔
      r.registered p ∧ 0 ≤ r.fd p ∧ 0 < (answer (r.fd p)).toInt ∧
        revents = encodePoll (answer (r.fd p)) := by
  have hmatch := (h.aligned_iff_matches answer).mp hall
  rw [mem_found]
  constructor
  · rintro ⟨k, pfd, hk, hp, hev, rfl⟩
    obtain ⟨q, hq, hqfd⟩ := hmatch k pfd hk hp
    cases hq.symm.trans hev
    rw [Nat.zero_add, polled_events] at hev
    rw [polled_fd] at hqfd
    obtain ⟨hindex, hpos, hrev⟩ := h.happened_iff.mp ⟨pfd, hk, hp, rfl, rfl⟩
    have hnn := ((h.watched pfd.fd).mp (by simp [hindex])).1
    rw [hqfd, hrev]
    exact ⟨⟨k, hev⟩, hnn, hpos, rfl⟩
  · rintro ⟨⟨id, hid⟩, hnn, hpos, rfl⟩
    obtain ⟨pfd, hpfd, hp, -, hrev⟩ := h.happened_iff.mpr ⟨hall id p hid hnn hpos, hpos, rfl⟩
    exact ⟨id, pfd, hpfd, hp, by simpa using hid, by rw [hrev]⟩

/-- `poll` counts at least the entries with a positive answer. -/
theorem countP_le_ready : r.pollFds.countP PollFd.happened ≤ r.ready := by
  refine List.countP_mono_left fun pfd _ hp => ?_
  simp only [PollFd.happened, decide_eq_true_eq] at hp ⊢
  rintro hzero
  simp [hzero] at hp

/-- **When the poll reactor reports the right events.**  After any calls and for every answer
of the kernel, `FillActiveEvents` fails no assertion and adds one element for each registered
descriptor with a positive answer, with its event and the encoding of the answer, exactly when
each such descriptor has the id of its event as its position in `poll_fds_`. -/
theorem reports_iff_aligned (event : EventPtr → Event) (calls : List PollCall) (r : PollReactor)
    (hrun : run step (init event) calls = .ok r) (answer : ℤ → BitVec 16) :
    r.Reports answer ↔ r.Aligned answer := by
  have h := valid_of_run hrun
  constructor
  · rintro ⟨found, hpoll, -⟩
    obtain ⟨active, hloop, -⟩ := fillActiveEvents_cases hpoll
    exact (h.aligned_iff_matches answer).mpr (matches_of_fillLoop countP_le_ready hloop)
  · intro hall
    have hmatch := (h.aligned_iff_matches answer).mp hall
    refine ⟨(r.polled answer).found 0 (r.polled answer).pollFds, ?_, ?_,
      fun p revents => h.mem_found_polled hall⟩
    · simp only [poll, fillActiveEvents]
      rw [fillLoop_of_matches _ countP_le_ready hmatch]
      rfl
    · exact nodup_found fun hid hid' => h.eq_of_events hid hid'

/-- An event that waits for descriptor 5 to be readable. -/
def reader : Event := Event.new 5 true { read := true, persist := true } 0

/-- Sixteen timers are made before an event is registered. -/
def sixteenTimers : List PollCall :=
  List.replicate 16 (.createTimer 0 false) ++ [.update (.user 0)]

/-- Then the event has the id 16, which is its position. -/
theorem reports_sixteenTimers :
    ∃ r, run step (init fun _ => reader) sixteenTimers = .ok r ∧
      r.events 16 = some (.user 0) ∧ r.Reports fun _ => pollIn := by
  obtain ⟨r, hrun, hevents, hfd, hindex⟩ : ∃ r,
      run step (init fun _ => reader) sixteenTimers = .ok r ∧
        r.events = Function.update (fun _ => none) 16 (some (.user 0)) ∧
          r.fd (.user 0) = 5 ∧ r.inverseMap 5 = some 16 := ⟨_, rfl, rfl, rfl, rfl⟩
  refine ⟨r, hrun, by simp [hevents], ?_⟩
  refine (reports_iff_aligned _ _ r hrun _).mpr fun id p hid _ _ => ?_
  rw [hevents] at hid
  by_cases h : id = 16
  · subst h
    rw [Function.update_self, Option.some_inj] at hid
    rw [← hid, hfd, hindex]
  · rw [Function.update_of_ne h] at hid
    cases hid

/-- The first event of a reactor has the id 0 and the position 16.  When it becomes readable,
`FillActiveEvents` looks for an event with the id 16. -/
theorem first_event_not_found :
    ∃ r, run step (init fun _ => reader) [.update (.user 0)] = .ok r ∧
      r.events 0 = some (.user 0) ∧ r.inverseMap 5 = some 16 ∧
        r.poll (fun _ => pollIn) = .error .fillFound :=
  ⟨_, rfl, rfl, rfl, rfl⟩

end PollReactor

end Hare.Io
