import Hare.Base.Registry
import Mathlib.Logic.Relation

/-!
# What the functions of a cycle do to its registry

The functions of `Hare.Base.Registry` check the two maps, the objects and the kernel against
each other step by step.  On a registry where these agree all of them come down to a few
moves: a new event is put in, an event is taken out, a timer is put in, a queue or a mask is
changed.  What holds of a registry is proved once for each move.  A `Scope` says which events may
be taken out and which timers may be put in; so it is said once for each function what it does,
and what follows for events, timers and entries is read off the moves.

`Hare.Base.Reactor` is what is left of a registry when the objects are forgotten: its functions do
what the functions here do to `Registry.view`.
-/

namespace Hare.Io

open LabelledRun

namespace Registry

/-- Which events may be taken out, and the ids under which timers may be put in. -/
structure Scope where
  takes : EventPtr → Prop
  arms : ℕ → Prop

/-- Any event and any timer. -/
def Scope.all : Scope := ⟨fun _ => True, fun _ => True⟩

variable {r r' : Registry} {p q : EventPtr} {id : ℕ} {S : Scope}

/-! ## The moves of a registry -/

/-- A new event is put into both maps and the kernel. -/
def insert (r : Registry) (p : EventPtr) : Registry :=
  { r.modify p (EventImpl.active · r.eventId) with
    events := Function.update r.events r.eventId (some p)
    inverseMap :=
      if 0 ≤ r.fd p then Function.update r.inverseMap (r.fd p) (some r.eventId)
      else r.inverseMap
    epoll := if 0 ≤ r.fd p then Function.update r.epoll (r.fd p) (some p) else r.epoll
    eventId := r.eventId + 1 }

/-- An event is taken out of both maps and the kernel. -/
def erase (r : Registry) (p : EventPtr) (id : ℕ) : Registry :=
  { r.modify p EventImpl.reset with
    events := Function.update r.events id none
    inverseMap := if 0 ≤ r.fd p then Function.update r.inverseMap (r.fd p) none else r.inverseMap
    epoll := if 0 ≤ r.fd p then Function.update r.epoll (r.fd p) none else r.epoll }

/-- A timer is put into the event map, under the id drawn for it. -/
def enroll (r : Registry) (id : ℕ) : Registry :=
  { r.modify (.timer id) (EventImpl.active · id) with
    events := Function.update r.events id (some (.timer id)) }

/-- What can happen to a registry short of the end of `Exec`.  Entries are made for registered
events only. -/
inductive Move (S : Scope) (r : Registry) : Registry → Prop
  | queue {ptimer : List TimerElem}
      (hptimer : ∀ y ∈ ptimer, y ∈ r.ptimer ∨ ∃ e, r.events y.id = some e) :
      Move S r { r with ptimer }
  | event {e : EventPtr} (he : e.isTimer = false) (event : Event) (hfd : event.fd = r.fd e) :
      Move S r (r.modify e fun o => { o with event })
  | insert {e : EventPtr} (he : e.isTimer = false) (hnull : (r.object e).cycle = .null)
      (hmap : 0 ≤ r.fd e → r.inverseMap (r.fd e) = none ∧ r.epoll (r.fd e) = none) :
      Move S r (r.insert e)
  | erase {e : EventPtr} {i : ℕ} (he : r.events i = some e) (ht : S.takes e) :
      Move S r (r.erase e i)
  | create (delay : ℤ) (isPersist : Bool) : Move S r (r.createTimer delay isPersist)
  | enroll {i : ℕ} (hid : (r.object (.timer i)).id = none) (hfree : r.events i = none)
      (hlt : i < r.eventId) (htimeout : (r.object (.timer i)).event.events.timeout = true)
      (ha : S.arms i) : Move S r (r.enroll i)

/-- Any number of moves. -/
def Moves (S : Scope) : Registry → Registry → Prop := Relation.ReflTransGen (Move S)

/-- The timer of an id is registered. -/
def Armed (r : Registry) (id : ℕ) : Prop := r.events id = some (.timer id)

section Fields

variable (r p q id)

@[grind =] theorem object_modify (f : EventImpl → EventImpl) :
    (r.modify p f).object q = if q = p then f (r.object p) else r.object q := by
  simp [modify, Function.update_apply]

@[grind =] theorem object_insert : (r.insert p).object q =
    if q = p then (r.object p).active r.eventId else r.object q :=
  object_modify r p q (EventImpl.active · r.eventId)

@[grind =] theorem object_erase : (r.erase p id).object q =
    if q = p then (r.object p).reset else r.object q :=
  object_modify r p q _

@[grind =] theorem object_createTimer (delay : ℤ) (isPersist : Bool) :
    (r.createTimer delay isPersist).object q =
      if q = .timer r.eventId then .new (Timer.new delay isPersist) else r.object q :=
  object_modify r (.timer r.eventId) q fun _ => .new (Timer.new delay isPersist)

@[grind =] theorem object_enroll : (r.enroll id).object q =
    if q = .timer id then (r.object (.timer id)).active id else r.object q :=
  object_modify r (.timer id) q (EventImpl.active · id)

variable (i : ℕ) (d : ℤ)

@[grind =] theorem events_insert : (r.insert p).events i =
    if i = r.eventId then some p else r.events i := by
  simp [insert, Function.update_apply]

@[grind =] theorem events_erase : (r.erase p id).events i =
    if i = id then none else r.events i := by
  simp [erase, Function.update_apply]

@[grind =] theorem events_enroll : (r.enroll id).events i =
    if i = id then some (.timer id) else r.events i := by
  simp [enroll, Function.update_apply]

@[grind =] theorem inverseMap_insert : (r.insert p).inverseMap d =
    if 0 ≤ r.fd p ∧ d = r.fd p then some r.eventId else r.inverseMap d := by
  by_cases h : 0 ≤ r.fd p <;> simp [insert, Function.update_apply, h]

@[grind =] theorem inverseMap_erase : (r.erase p id).inverseMap d =
    if 0 ≤ r.fd p ∧ d = r.fd p then none else r.inverseMap d := by
  by_cases h : 0 ≤ r.fd p <;> simp [erase, Function.update_apply, h]

@[grind =] theorem epoll_insert : (r.insert p).epoll d =
    if 0 ≤ r.fd p ∧ d = r.fd p then some p else r.epoll d := by
  by_cases h : 0 ≤ r.fd p <;> simp [insert, Function.update_apply, h]

@[grind =] theorem epoll_erase : (r.erase p id).epoll d =
    if 0 ≤ r.fd p ∧ d = r.fd p then none else r.epoll d := by
  by_cases h : 0 ≤ r.fd p <;> simp [erase, Function.update_apply, h]

end Fields

theorem fd_enroll (r : Registry) (q : EventPtr) (id : ℕ) : (r.enroll id).fd q = r.fd q := by
  simp only [fd, object_enroll]
  split
  · next hq => rw [hq]; rfl
  · rfl

/-- No move changes a descriptor. -/
theorem Move.fd_eq (hm : Move S r r') (h : r.Registered) (q : EventPtr) : r'.fd q = r.fd q := by
  cases hm with
  | queue => rfl
  | event he event hfd =>
      simp only [fd, object_modify]
      split
      · next hq => rw [hfd, hq, fd]
      · rfl
  | insert he hnull hmap =>
      simp only [fd, object_insert]
      split
      · next hq => rw [hq]; rfl
      · rfl
  | erase he =>
      simp only [fd, object_erase]
      split
      · next hq => rw [hq]; rfl
      · rfl
  | create delay isPersist =>
      by_cases hq : q = .timer r.eventId
      · rw [hq, h.timer, fd, object_createTimer, if_pos rfl]
        cases isPersist <;> rfl
      · rw [fd, object_createTimer, if_neg hq, fd]
  | enroll hid hfree hlt htimeout => exact fd_enroll r q _

/-- No move changes which events belong to other cycles. -/
theorem Move.other_iff (hm : Move S r r') (h : r.Registered) (q : EventPtr) :
    (r'.object q).cycle = .other ↔ (r.object q).cycle = .other := by
  have htimer (i : ℕ) : (r.object (.timer i)).cycle ≠ .other := fun hc => by
    obtain ⟨⟨n, hn⟩, -⟩ := h.other hc
    cases hn
  cases hm with
  | queue => exact Iff.rfl
  | event he event hfd =>
      rw [object_modify]
      split
      · next hq => rw [hq]
      · exact Iff.rfl
  | insert he hnull hmap =>
      rw [object_insert]
      split
      · next hq => simp [hq, hnull, EventImpl.active]
      · exact Iff.rfl
  | erase he =>
      rw [object_erase]
      split
      · next hq => simp [hq, (h.own he).2, EventImpl.reset]
      · exact Iff.rfl
  | create delay isPersist =>
      rw [object_createTimer]
      split
      · next hq => simp [hq, htimer, EventImpl.new]
      · exact Iff.rfl
  | enroll hid hfree hlt htimeout =>
      rw [object_enroll]
      split
      · next hq => simp [hq, htimer, EventImpl.active]
      · exact Iff.rfl

/-! ## What the moves keep -/

namespace Registered

variable (h : r.Registered)
include h

theorem queue (ptimer : List TimerElem) : Registered { r with ptimer } :=
  ⟨h.own, h.mem, h.null, h.other, h.lt, h.inverse, h.kernel, h.watched, h.timer, h.label⟩

theorem event (hp : p.isTimer = false) {event : Event} (hfd : event.fd = r.fd p) :
    (r.modify p fun o => { o with event }).Registered := by
  have hobj (q : EventPtr) : ((r.modify p fun o => { o with event }).object q).cycle =
      (r.object q).cycle ∧ ((r.modify p fun o => { o with event }).object q).id =
      (r.object q).id := by
    rw [object_modify]
    split
    · next hq => rw [hq]; exact ⟨rfl, rfl⟩
    · exact ⟨rfl, rfl⟩
  have hd := (Move.event (S := .all) hp event hfd).fd_eq h
  constructor
  · intro id q he
    rw [(hobj q).1, (hobj q).2]
    exact h.own he
  · intro q hc
    rw [(hobj q).1] at hc
    exact h.mem hc
  · intro q hc
    rw [(hobj q).1] at hc
    rw [(hobj q).2]
    exact h.null hc
  · intro q hc
    rw [(hobj q).1] at hc
    rw [(hobj q).2]
    exact h.other hc
  · exact h.lt
  · intro id q he hpos
    rw [hd] at hpos ⊢
    exact h.inverse he hpos
  · intro id q he hpos
    rw [hd] at hpos ⊢
    exact h.kernel he hpos
  · exact h.watched
  · intro id
    rw [hd]
    exact h.timer id
  · exact h.label

theorem insert (hp : p.isTimer = false) (hnull : (r.object p).cycle = .null)
    (hmap : 0 ≤ r.fd p → r.inverseMap (r.fd p) = none ∧ r.epoll (r.fd p) = none) :
    (r.insert p).Registered := by
  have hd := (Move.insert (S := .all) hp hnull hmap).fd_eq h
  have hnot := h.not_mem_of_null hnull
  have hfresh := h.fresh
  constructor
  · intro id q hq
    grind [h.own]
  · intro q hc
    by_cases hq : q = p
    · exact ⟨r.eventId, by rw [events_insert, if_pos rfl, hq]⟩
    · rw [object_insert, if_neg hq] at hc
      obtain ⟨id, he⟩ := h.mem hc
      exact ⟨id, by grind⟩
  · intro q hc
    grind [h.null]
  · intro q hc
    grind [h.other]
  · intro id q hq
    have hlt := @h.lt id q
    change id < r.eventId + 1
    grind
  · intro id q hq hpos
    grind [h.inverse]
  · intro id q hq hpos
    grind [h.kernel]
  · intro d q hk
    have hold := @h.watched d q
    grind
  · intro id
    rw [hd, h.timer]
  · intro id i hq
    grind [h.label]

theorem erase (he : r.events id = some p) : (r.erase p id).Registered := by
  have hd := (Move.erase (S := .all) he trivial).fd_eq h
  have hother (i : ℕ) (q : EventPtr) (hne : i ≠ id) (hq : r.events i = some q) : q ≠ p := by
    rintro rfl
    exact hne (h.eq_of_events hq he)
  constructor
  · intro i q hq
    grind [h.own]
  · intro q hc
    have hq : q ≠ p := by grind
    rw [object_erase, if_neg hq] at hc
    obtain ⟨i, hi⟩ := h.mem hc
    exact ⟨i, by grind⟩
  · intro q hc
    grind [h.null]
  · intro q hc
    grind [h.other]
  · intro i q hq
    have hlt := @h.lt i q
    change i < r.eventId
    grind
  · intro i q hq hpos
    have hne := @h.eq_of_fd _ q p i id
    grind [h.inverse]
  · intro i q hq hpos
    have hne := @h.eq_of_fd _ q p i id
    grind [h.kernel]
  · intro d q hk
    have hold := @h.watched d q
    grind
  · intro i
    rw [hd, h.timer]
  · intro i j hq
    grind [h.label]

theorem create (delay : ℤ) (isPersist : Bool) : (r.createTimer delay isPersist).Registered := by
  have hd := (Move.create (S := .all) delay isPersist).fd_eq h
  have hnot (i : ℕ) : r.events i ≠ some (.timer r.eventId) := fun he => by
    have hlt := h.lt he
    rw [h.label he] at hlt
    exact Nat.lt_irrefl _ hlt
  constructor
  · intro i q hq
    change r.events i = some q at hq
    grind [h.own]
  · intro q hc
    have hq : q ≠ .timer r.eventId := by grind
    rw [object_createTimer, if_neg hq] at hc
    exact h.mem hc
  · intro q hc
    grind [h.null]
  · intro q hc
    grind [h.other]
  · intro i q hq
    exact Nat.lt_succ_of_lt (h.lt hq)
  · intro i q hq hpos
    rw [hd] at hpos ⊢
    exact h.inverse hq hpos
  · intro i q hq hpos
    rw [hd] at hpos ⊢
    exact h.kernel hq hpos
  · exact h.watched
  · intro i
    rw [hd, h.timer]
  · exact h.label

theorem enroll (hid : (r.object (.timer id)).id = none) (hfree : r.events id = none)
    (hlt : id < r.eventId) : (r.enroll id).Registered := by
  have hd (q : EventPtr) : (r.enroll id).fd q = r.fd q := fd_enroll r q id
  have hpos : ¬ 0 ≤ r.fd (.timer id) := by rw [h.timer]; decide
  have hnot (i : ℕ) : r.events i ≠ some (.timer id) := fun he => by
    rw [(h.own he).1] at hid
    cases hid
  constructor
  · intro i q hq
    grind [h.own]
  · intro q hc
    by_cases hq : q = .timer id
    · exact ⟨id, by rw [events_enroll, if_pos rfl, hq]⟩
    · rw [object_enroll, if_neg hq] at hc
      obtain ⟨i, hi⟩ := h.mem hc
      exact ⟨i, by grind⟩
  · intro q hc
    grind [h.null]
  · intro q hc
    grind [h.other]
  · intro i q hq
    have hlt' := @h.lt i q
    change i < r.eventId
    grind
  · intro i q hq hpos'
    have he : r.events i = some q := by grind
    rw [hd] at hpos' ⊢
    exact h.inverse he hpos'
  · intro i q hq hpos'
    have he : r.events i = some q := by grind
    rw [hd] at hpos' ⊢
    exact h.kernel he hpos'
  · exact h.watched
  · intro i
    rw [hd, h.timer]
  · intro i j hq
    grind [h.label]

/-- Every move keeps what always holds. -/
theorem move (hm : Move S r r') : r'.Registered := by
  cases hm with
  | queue => exact h.queue _
  | event he event hfd => exact h.event he hfd
  | insert hp hnull hmap => exact h.insert hp hnull hmap
  | erase he _ => exact h.erase he
  | create delay isPersist => exact h.create delay isPersist
  | enroll hid hfree hlt _ _ => exact h.enroll hid hfree hlt

theorem moves (hm : Moves S r r') : r'.Registered := by
  induction hm with
  | refl => exact h
  | tail _ hstep ih => exact ih.move hstep

end Registered

theorem Moves.fd_eq (hm : Moves S r r') (h : r.Registered) (q : EventPtr) : r'.fd q = r.fd q := by
  induction hm with
  | refl => rfl
  | tail hfirst hstep ih => rw [hstep.fd_eq (h.moves hfirst), ih]

theorem Moves.other_iff (hm : Moves S r r') (h : r.Registered) (q : EventPtr) :
    (r'.object q).cycle = .other ↔ (r.object q).cycle = .other := by
  induction hm with
  | refl => exact Iff.rfl
  | tail hfirst hstep ih => rw [hstep.other_iff (h.moves hfirst), ih]

theorem Move.eventId_le (hm : Move S r r') : r.eventId ≤ r'.eventId := by
  cases hm with
  | insert | create => exact Nat.le_succ _
  | _ => exact Nat.le_refl _

/-- No move takes back an id. -/
theorem Moves.eventId_le (hm : Moves S r r') : r.eventId ≤ r'.eventId := by
  induction hm with
  | refl => exact Nat.le_refl _
  | tail _ hstep ih => exact ih.trans hstep.eventId_le

/-- An event that is not taken out stays. -/
theorem Moves.kept (hm : Moves S r r') (h : r.Registered) (he : r.events id = some q) :
    r'.events id = some q ∨ S.takes q := by
  induction hm with
  | refl => exact .inl he
  | @tail r₁ r₂ hfirst hstep ih =>
      refine ih.elim (fun he₁ => ?_) .inr
      cases hstep with
      | queue | event | create => exact .inl he₁
      | insert =>
          rw [events_insert, if_neg ((h.moves hfirst).lt he₁).ne]
          exact .inl he₁
      | erase he₂ ht =>
          rw [events_erase]
          split
          · next hid =>
              rw [Option.some.inj (he₁.symm.trans (hid ▸ he₂))]
              exact .inr ht
          · exact .inl he₁
      | enroll _ hfree =>
          rw [events_enroll, if_neg]
          · exact .inl he₁
          · rintro rfl
            rw [hfree] at he₁
            cases he₁

/-- A registered timer was registered before, or may be put in. -/
theorem Moves.armed (hm : Moves S r r') (ha : r'.Armed id) : r.Armed id ∨ S.arms id := by
  induction hm with
  | refl => exact .inl ha
  | tail _ hstep ih =>
      cases hstep with
      | queue | event | create => exact ih ha
      | insert he =>
          rw [Armed, events_insert] at ha
          split at ha
          · rw [Option.some.inj ha] at he
            cases he
          · exact ih ha
      | erase =>
          rw [Armed, events_erase] at ha
          split at ha
          · cases ha
          · exact ih ha
      | enroll _ _ _ _ harms =>
          rw [Armed, events_enroll] at ha
          split at ha
          · next hid => exact .inr (hid ▸ harms)
          · exact ih ha

/-- Under an id that has been drawn, moves keep the event, take it out, or put the timer of the id
in. -/
theorem Moves.events_cases (hm : Moves S r r') (hid : id < r.eventId) :
    r'.events id = r.events id ∨ r'.events id = none ∨ S.arms id := by
  induction hm with
  | refl => exact .inl rfl
  | tail hfirst hstep ih =>
      cases hstep with
      | queue | event | create => exact ih
      | insert =>
          rw [events_insert, if_neg (hid.trans_le (Moves.eventId_le hfirst)).ne]
          exact ih
      | erase =>
          rw [events_erase]
          split
          · exact .inr (.inl rfl)
          · exact ih
      | enroll _ _ _ _ harms =>
          rw [events_enroll]
          split
          · next heq => exact .inr (.inr (heq ▸ harms))
          · exact ih

/-- An entry was there before, or its event was registered on the way. -/
theorem Moves.entry {y : TimerElem} (hm : Moves S r r') (hy : y ∈ r'.ptimer) :
    y ∈ r.ptimer ∨ ∃ r₁ e, Moves S r r₁ ∧ r₁.eventId ≤ r'.eventId ∧ r₁.events y.id = some e := by
  induction hm with
  | refl => exact .inl hy
  | @tail r₁ r₂ hfirst hstep ih =>
      have hlater (hy : y ∈ r₁.ptimer) := (ih hy).imp_right fun ⟨r₀, e, hm₀, hle, he⟩ =>
        (⟨r₀, e, hm₀, hle.trans hstep.eventId_le, he⟩ : ∃ r₀ e, Moves S r r₀ ∧
          r₀.eventId ≤ r₂.eventId ∧ r₀.events y.id = some e)
      cases hstep with
      | queue hptimer =>
          rcases hptimer y hy with hold | ⟨e, he⟩
          · exact hlater hold
          · exact .inr ⟨r₁, e, hfirst, Nat.le_refl _, he⟩
      | _ => exact hlater hy

/-- The descriptors stay exact when they do not change and no event is taken out. -/
theorem Exact.of_events (hx : r.Exact) (hi : r'.inverseMap = r.inverseMap)
    (hk : r'.epoll = r.epoll) (hd : ∀ q, r'.fd q = r.fd q)
    (hkeep : ∀ {id q}, r.events id = some q → r'.events id = some q) : r'.Exact where
  inverse hmap := by
    rw [hi] at hmap
    obtain ⟨q, he, hq, hpos⟩ := hx.inverse hmap
    exact ⟨q, hkeep he, by rw [hd, hq], hpos⟩
  kernel hmap := by
    rw [hk] at hmap
    obtain ⟨id, he, hq, hpos⟩ := hx.kernel hmap
    exact ⟨id, hkeep he, by rw [hd, hq], hpos⟩

/-- Every move keeps the descriptors exact. -/
theorem Exact.move (hx : r.Exact) (h : r.Registered) (hm : Move S r r') : r'.Exact := by
  have hd := hm.fd_eq h
  cases hm with
  | queue | event he event hfd | create delay isPersist =>
      exact hx.of_events rfl rfl hd fun he => he
  | @insert p hp hnull hmap =>
      constructor
      · intro d id hi
        rw [inverseMap_insert] at hi
        split at hi
        · next hdp =>
            cases hi
            exact ⟨p, by rw [events_insert, if_pos rfl], by rw [hd, hdp.2], hdp.2 ▸ hdp.1⟩
        · obtain ⟨q, he, hq, hpos⟩ := hx.inverse hi
          have hlt := h.lt he
          exact ⟨q, by rw [events_insert, if_neg hlt.ne, he], by rw [hd, hq], hpos⟩
      · intro d q hk
        rw [epoll_insert] at hk
        split at hk
        · next hdp =>
            cases hk
            exact ⟨r.eventId, by rw [events_insert, if_pos rfl], by rw [hd, hdp.2],
              hdp.2 ▸ hdp.1⟩
        · obtain ⟨id, he, hq, hpos⟩ := hx.kernel hk
          have hlt := h.lt he
          exact ⟨id, by rw [events_insert, if_neg hlt.ne, he], by rw [hd, hq], hpos⟩
  | @erase p i he ht =>
      constructor
      · intro d id hi
        rw [inverseMap_erase] at hi
        split at hi
        · cases hi
        · obtain ⟨q, hq, hdq, hpos⟩ := hx.inverse hi
          refine ⟨q, ?_, by rw [hd, hdq], hpos⟩
          have hne : id ≠ i := by
            rintro rfl
            grind
          rw [events_erase, if_neg hne, hq]
      · intro d q hk
        rw [epoll_erase] at hk
        split at hk
        · cases hk
        · obtain ⟨id, hq, hdq, hpos⟩ := hx.kernel hk
          refine ⟨id, ?_, by rw [hd, hdq], hpos⟩
          have hne : id ≠ i := by
            rintro rfl
            grind
          rw [events_erase, if_neg hne, hq]
  | @enroll i hid hfree hlt htimeout ha =>
      refine hx.of_events rfl rfl hd fun {id q} he => ?_
      have hne : id ≠ i := by
        rintro rfl
        rw [hfree] at he
        cases he
      rw [events_enroll, if_neg hne, he]

theorem Exact.moves (hx : r.Exact) (h : r.Registered) (hm : Moves S r r') : r'.Exact := by
  induction hm with
  | refl => exact hx
  | tail hfirst hstep ih => exact ih.move (h.moves hfirst) hstep

/-! ## What the functions do -/

/-- The descriptor of a new event is in `inverse_map_` already. -/
def Clash (r : Registry) (p : EventPtr) : Prop :=
  0 ≤ r.fd p ∧ (r.object p).id = none ∧ (r.inverseMap (r.fd p)).isSome

/-- What the task of `EventUpdate` does. -/
inductive UpdateCase (r : Registry) (e : EventPtr) (now : ℤ) : Except Assertion Registry → Prop
  | clash (h : r.Clash e) : UpdateCase r e now (.error .updateNew)
  | refused : UpdateCase r e now (.ok r)
  | known (hp : (r.object e).cycle ≠ .other) : UpdateCase r e now (.ok (r.arm e now))
  | added (hnull : (r.object e).cycle = .null)
      (hmap : 0 ≤ r.fd e → r.inverseMap (r.fd e) = none ∧ r.epoll (r.fd e) = none) :
      UpdateCase r e now (.ok ((r.insert e).arm e now))

/-- What the task of `EventRemove` does. -/
inductive RemoveCase (r : Registry) (e : EventPtr) : Except Assertion Registry → Prop
  | absent (h : ∀ i, r.events i ≠ some e) : RemoveCase r e (.ok r)
  | erased {i : ℕ} (he : r.events i = some e) : RemoveCase r e (.ok (r.erase e i))

/-- What the task of `RunAfter` and `RunEvery` does. -/
inductive RegisterCase (r : Registry) (i : ℕ) (now : ℤ) : Except Assertion Registry → Prop
  | failed {a : Assertion} (ha : a.ofReactor = false) : RegisterCase r i now (.error a)
  | enrolled (hid : (r.object (.timer i)).id = none) (hfree : r.events i = none)
      (htimeout : (r.object (.timer i)).event.events.timeout = true) :
      RegisterCase r i now
        (.ok ((r.enroll i).emplace i (now + (r.object (.timer i)).event.timeval)))

theorem watch_of_epoll (hk : r.epoll (r.fd p) = some p) : r.watch p = r := by
  simp only [watch, ← hk, Function.update_eq_self]

/-- A new event without a descriptor is put in. -/
theorem activate_of_neg (h : r.Registered) (hneg : ¬ 0 ≤ r.fd p) :
    r.activate p = .ok (r.insert p) := by
  simp only [activate, h.fresh, insert, hneg]
  rfl

/-- A new event whose descriptor is free is put in, after the kernel has been asked. -/
theorem activate_watch (h : r.Registered) (hpos : 0 ≤ r.fd p)
    (hmap : r.inverseMap (r.fd p) = none) : (r.watch p).activate p = .ok (r.insert p) := by
  have hfresh : (r.watch p).events (r.watch p).eventId = none := h.fresh
  have hfd : (r.watch p).fd p = r.fd p := rfl
  have hmap' : (r.watch p).inverseMap (r.fd p) = none := hmap
  simp only [activate, hfresh, hfd, hmap', hpos, insert]
  rfl

theorem eventUpdate_new (h : r.Registered) (hp : (r.object p).cycle ≠ .other)
    (hid : (r.object p).id = none) (accepted : Bool) (now : ℤ) :
    UpdateCase r p now (r.eventUpdate p accepted now) := by
  have hnull := h.null_of_id hp hid
  by_cases hpos : 0 ≤ r.fd p
  · simp only [eventUpdate, if_pos hpos, reactorUpdate, hid]
    by_cases hmap : (r.inverseMap (r.fd p)).isSome
    · rw [if_pos hmap]
      exact .clash ⟨hpos, hid, hmap⟩
    · rw [if_neg hmap]
      rw [Option.not_isSome_iff_eq_none] at hmap
      by_cases hacc : accepted && (r.epoll (r.fd p)).isNone
      · have hnew : ((r.watch p).object p).id.isNone = true := by
          rw [Option.isNone_iff_eq_none]
          exact hid
        rw [if_pos hacc, ok_bind]
        simp only [if_pos hnew, activate_watch h hpos hmap, ok_bind]
        rw [Bool.and_eq_true, Option.isNone_iff_eq_none] at hacc
        exact .added hnull fun _ => ⟨hmap, hacc.2⟩
      · rw [if_neg hacc]
        exact .refused
  · have hnew : (r.object p).id.isNone = true := by rw [hid]; rfl
    simp only [eventUpdate, if_neg hpos, ok_bind, if_pos hnew, activate_of_neg h hpos]
    exact .added hnull fun hpos' => absurd hpos' hpos

theorem eventUpdate_known (h : r.Registered) (hp : (r.object p).cycle ≠ .other)
    (hid : (r.object p).id = some id) (accepted : Bool) (now : ℤ) :
    UpdateCase r p now (r.eventUpdate p accepted now) := by
  have he := h.events_of_id hp hid
  have hold : ¬ (r.object p).id.isNone = true := by rw [hid]; exact Bool.false_ne_true
  by_cases hpos : 0 ≤ r.fd p
  · have hk := h.kernel he hpos
    have hmap : ¬ (r.inverseMap (r.fd p)).isNone = true := by
      rw [h.inverse he hpos]
      exact Bool.false_ne_true
    simp only [eventUpdate, if_pos hpos, reactorUpdate, hid, if_neg hmap, he, ne_eq,
      not_true_eq_false, if_false, watch_of_epoll hk]
    split
    · simp only [ok_bind, if_neg hold]
      exact .known hp
    · exact .refused
  · simp only [eventUpdate, if_neg hpos, ok_bind, if_neg hold]
    exact .known hp

theorem eventUpdate_cases (h : r.Registered) (hp : (r.object p).cycle ≠ .other)
    (accepted : Bool) (now : ℤ) : UpdateCase r p now (r.eventUpdate p accepted now) := by
  cases hid : (r.object p).id with
  | none => exact eventUpdate_new h hp hid accepted now
  | some id => exact eventUpdate_known h hp hid accepted now

/-- The check of `EventUpdate` keeps events of other cycles away from its task. -/
theorem Registered.other_of_mayUpdate (h : r.Registered) (hmay : r.mayUpdate p = true) :
    (r.object p).cycle ≠ .other := by
  intro hc
  obtain ⟨-, hid⟩ := h.other hc
  rw [mayUpdate, hc, ← Option.not_isSome, hid] at hmay
  cases hmay

theorem other_of_mayRemove (hmay : r.mayRemove p = true) : (r.object p).cycle ≠ .other := by
  intro hc
  rw [mayRemove, hc] at hmay
  cases hmay

theorem callUpdate_cases (h : r.Registered) (accepted : Bool) (now : ℤ) :
    UpdateCase r p now (r.callUpdate p accepted now) := by
  rw [callUpdate]
  split
  · next hmay => exact eventUpdate_cases h (h.other_of_mayUpdate hmay) accepted now
  · exact .refused

theorem eventRemove_cases (h : r.Registered) (hp : (r.object p).cycle ≠ .other) :
    RemoveCase r p (r.eventRemove p) := by
  cases hid : (r.object p).id with
  | none =>
      rw [eventRemove, hid]
      exact .absent (h.not_mem_of_null (h.null_of_id hp hid))
  | some id =>
      have he := h.events_of_id hp hid
      have hfd : (r.modify p EventImpl.reset).fd p = r.fd p := by
        rw [fd, object_modify, if_pos rfl]
        rfl
      have hreset : ¬ ((r.modify p EventImpl.reset).object p).id.isSome = true := by
        rw [object_modify, if_pos rfl]
        exact Bool.false_ne_true
      have herase : RemoveCase r p (.ok (r.erase p id)) := .erased he
      by_cases hpos : 0 ≤ r.fd p
      · have hmap : ¬ ((r.modify p EventImpl.reset).inverseMap (r.fd p)).isNone = true := by
          change ¬ (r.inverseMap (r.fd p)).isNone = true
          rw [h.inverse he hpos]
          exact Bool.false_ne_true
        simp only [erase, if_pos hpos] at herase
        simp only [eventRemove, hid, he, hfd, if_pos hpos, reactorRemove, if_neg hmap,
          if_neg hreset, ok_bind, ne_eq, not_true_eq_false, if_false]
        exact herase
      · simp only [erase, if_neg hpos] at herase
        simp only [eventRemove, hid, he, if_neg hpos, ok_bind, ne_eq, not_true_eq_false, if_false]
        exact herase

theorem callRemove_cases (h : r.Registered) : RemoveCase r p (r.callRemove p) := by
  rw [callRemove]
  split
  · next hmay => exact eventRemove_cases h (other_of_mayRemove hmay)
  · next hmay =>
      refine .absent fun id he => hmay ?_
      obtain ⟨hid, hc⟩ := h.own he
      rw [mayRemove, hid, hc]
      rfl

/-- `Cancel` takes out an event without a descriptor and does nothing else. -/
theorem cancel_cases (r : Registry) (id : ℕ) :
    (r.cancel id = r ∧ ∀ p, r.events id = some p → 0 ≤ r.fd p) ∨
      ∃ p, r.events id = some p ∧ r.fd p < 0 ∧ r.cancel id = r.erase p id := by
  cases he : r.events id with
  | none =>
      left
      simp [cancel, he]
  | some p =>
      by_cases hneg : r.fd p < 0
      · right
        refine ⟨p, rfl, hneg, ?_⟩
        simp only [cancel, he, if_pos hneg, erase, if_neg (not_le.mpr hneg)]
        rfl
      · left
        simp [cancel, he, hneg, not_lt.mp hneg]

theorem registerTimer_cases (r : Registry) (id : ℕ) (now : ℤ) :
    RegisterCase r id now (r.registerTimer id now) := by
  rw [registerTimer]
  split
  · exact .failed rfl
  · next hid =>
      split
      · exact .failed rfl
      · next hfree =>
          split
          · exact .failed rfl
          · next htimeout =>
              rw [Option.not_isSome_iff_eq_none] at hid hfree
              exact .enrolled hid hfree (by simpa using htimeout)

/-! ## Moves of the functions -/

theorem Moves.emplace (he : r.events id = some p) (stamp : ℤ) :
    Moves S r (r.emplace id stamp) := by
  refine .single (.queue fun y hy => ?_)
  rcases List.mem_append.mp hy with hy | hy
  · exact .inl hy
  · rw [List.mem_singleton.mp hy]
    exact .inr ⟨p, he⟩

/-- An event of this cycle gets its entry under the id it is registered with. -/
theorem Moves.arm (h : r.Registered) (hp : (r.object p).cycle ≠ .other) (now : ℤ) :
    Moves S r (r.arm p now) := by
  rw [Registry.arm]
  split
  · next id hid =>
      split
      · exact .emplace (h.events_of_id hp hid) _
      · exact .refl
  · exact .refl

/-! ## The end of `Exec` -/

/-- `Tie`, and the functions that change the read and write bits, leave the descriptor. -/
theorem Moves.retouch (r : Registry) (hp : p.isTimer = false) (f : Event → Event)
    (hfd : ∀ e, (f e).fd = e.fd) : Moves S r (r.modify p fun o => { o with event := f o.event }) :=
  .single (.event hp (f (r.object p).event) (hfd _))

theorem Moves.setInterest (r : Registry) (n : ℕ) (read write : Bool) :
    Moves S r (r.modify (.user n) fun o => { o with event := o.event.setInterest read write }) :=
  .retouch r rfl (Event.setInterest · read write) fun _ => rfl

@[grind =] theorem object_resetAll (r : Registry) (p : EventPtr) : r.resetAll.object p =
    if r.registered p = true then (r.object p).reset else r.object p := rfl

theorem fd_resetAll (r : Registry) (p : EventPtr) : r.resetAll.fd p = r.fd p := by
  rw [fd, object_resetAll]
  split <;> rfl

theorem Registered.resetAll (h : r.Registered) : r.resetAll.Registered where
  own he := by cases he
  mem {p} hc := by
    have hmem := @h.mem p
    have hreg := h.registered_iff (p := p)
    grind
  null {p} hc := by grind [h.null]
  other {p} hc := by grind [h.other]
  lt he := by cases he
  inverse he := by cases he
  kernel he := by cases he
  watched := h.watched
  timer id := by rw [fd_resetAll, h.timer]
  label he := by cases he

/-- `Exec` ends by taking out the notify event and resetting all others. -/
theorem leave_eq (h : r.Registered) : ∃ r₁, Moves .all r r₁ ∧ r.leave = .ok r₁.resetAll ∧
    ∀ id p, r₁.events id = some p ↔ r.events id = some p ∧ p ≠ .notify := by
  have hcase := callRemove_cases (p := .notify) h
  rw [leave]
  generalize r.callRemove .notify = x at hcase ⊢
  cases hcase with
  | absent hnot =>
      refine ⟨_, .retouch r rfl (Event.tie · false) fun _ => rfl, rfl, fun id p => ?_⟩
      change r.events id = some p ↔ _
      refine ⟨fun he => ⟨he, ?_⟩, And.left⟩
      rintro rfl
      exact hnot id he
  | @erased i hi =>
      have hfirst : Moves .all r (r.erase .notify i) := .single (.erase hi trivial)
      refine ⟨_, hfirst.trans (Moves.retouch _ rfl (Event.tie · false) fun _ => rfl), rfl,
        fun id p => ?_⟩
      change (r.erase .notify i).events id = some p ↔ _
      rw [events_erase]
      split
      · next hid =>
          subst hid
          simp [hi, eq_comm]
      · next hid =>
          refine ⟨fun he => ⟨he, ?_⟩, And.left⟩
          rintro rfl
          exact hid (h.eq_of_events he hi)

/-! ## The registry by ids -/

variable {reserved : List ℕ} {now : ℤ}

/-- What `Reactor` keeps of a registry, given the ids of the timers not registered yet. -/
def view (r : Registry) (reserved : List ℕ) : Reactor where
  events id := (r.events id).map fun p => (r.object p).event
  inverseMap := r.inverseMap
  ptimer := r.ptimer
  eventId := r.eventId
  reserved := reserved

theorem events_view (he : r.events id = some p) :
    (r.view reserved).events id = some (r.object p).event := by
  simp [view, he]

theorem view_arm (hid : (r.object p).id = some id) :
    (r.arm p now).view reserved = (r.view reserved).arm id (r.object p).event now := by
  simp only [arm, hid, Reactor.arm]
  split <;> rfl

theorem view_insert (hmap : 0 ≤ r.fd p → r.inverseMap (r.fd p) = none) :
    (r.insert p).view reserved = (r.view reserved).insertEvent (r.object p).event := by
  refine Reactor.ext (funext fun i => ?_) (funext fun d => ?_) rfl rfl rfl
  · simp only [view, events_insert, object_insert, Reactor.insertEvent, Function.update_apply]
    grind
  · simp only [view, inverseMap_insert, Reactor.insertEvent, fd] at hmap ⊢
    grind

theorem view_erase (he : r.events id = some p) :
    (r.erase p id).view reserved = (r.view reserved).eventRemove id := by
  rw [Reactor.eventRemove, events_view he]
  refine Reactor.ext (funext fun i => ?_) rfl rfl rfl rfl
  simp only [view, events_erase, object_erase, Reactor.setEvent, Function.update_apply]
  grind

theorem view_enroll (r : Registry) (id : ℕ) (reserved : List ℕ) : (r.enroll id).view reserved =
    (r.view reserved).setEvent id (some (r.object (.timer id)).event) := by
  refine Reactor.ext (funext fun i => ?_) rfl rfl rfl rfl
  simp only [view, events_enroll, object_enroll, Reactor.setEvent, Function.update_apply]
  grind

/-- `EventUpdate` does what it does in `Reactor`, unless it does nothing. -/
theorem view_callUpdate (h : r.Registered) {accepted : Bool}
    (hs : r.callUpdate p accepted now = .ok r') :
    r' = r ∨ (r.view reserved).eventUpdate (r.object p).id (r.object p).event true now =
      .ok (r'.view reserved) := by
  have hcase := callUpdate_cases (p := p) h accepted now
  rw [hs] at hcase
  cases hcase with
  | refused => exact .inl rfl
  | known hp =>
      cases hid : (r.object p).id with
      | none => exact .inl (by rw [arm, hid])
      | some id => exact .inr (by simp [view_arm hid, Reactor.eventUpdate])
  | added hnull hmap =>
      have hobject : (r.insert p).object p = (r.object p).active r.eventId := by
        rw [object_insert, if_pos rfl]
      have hfresh : (r.view reserved).events (r.view reserved).eventId = none := by
        simp [view, h.fresh]
      have hid : ((r.insert p).object p).id = some r.eventId := by rw [hobject]; rfl
      right
      rw [view_arm hid, view_insert fun hpos => (hmap hpos).1, h.null hnull, hobject]
      simp only [Reactor.eventUpdate, hfresh, Bool.true_eq_false, and_false, if_false,
        Option.isSome_none, Bool.false_eq_true]
      rfl

/-- `EventRemove` of an event is the one of its id. -/
theorem view_callRemove (h : r.Registered) (hs : r.callRemove p = .ok r') :
    (∀ i, r.events i ≠ some p) ∧ r' = r ∨ ∃ id, r.events id = some p ∧
      r'.view reserved = (r.view reserved).eventRemove id := by
  have hcase := callRemove_cases (p := p) h
  rw [hs] at hcase
  cases hcase with
  | absent hnot => exact .inl ⟨hnot, rfl⟩
  | erased he => exact .inr ⟨_, he, view_erase he⟩

theorem view_cancel : (r.cancel id).view reserved = (r.view reserved).cancel id := by
  rcases r.cancel_cases id with ⟨heq, hpos⟩ | ⟨p, he, hneg, heq⟩
  · rw [heq, Reactor.cancel]
    cases he : r.events id with
    | none => simp [view, he]
    | some p =>
        rw [events_view he]
        exact (if_neg (not_lt.mpr (hpos p he))).symm
  · rw [heq, view_erase he, Reactor.cancel, Reactor.eventRemove, events_view he]
    simp only [fd] at hneg
    simp only [if_pos hneg, if_neg (not_le.mpr hneg)]
    rfl

theorem view_registerTimer (hs : r.registerTimer id now = .ok r') :
    (r.view reserved).insertTimer id (r.object (.timer id)).event now =
      .ok (r'.view (reserved.erase id)) := by
  have hcase := r.registerTimer_cases id now
  rw [hs] at hcase
  cases hcase with
  | enrolled hid hfree htimeout =>
      have hnone : (r.view reserved).events id = none := by simp [view, hfree]
      simp only [Reactor.insertTimer, hnone, htimeout, Option.isSome_none, Bool.not_true,
        Bool.false_eq_true, if_false]
      exact congrArg (fun v : Reactor => Except.ok (v.emplace id _)) (view_enroll r id _).symm

end Registry

end Hare.Io
