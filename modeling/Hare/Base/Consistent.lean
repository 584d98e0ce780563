import Hare.Base.ExecMoves

/-!
# The maps of a cycle agree

The event map, the descriptors in `inverse_map_`, the descriptors in the kernel and the
objects themselves agree as long as `Exec` does not return.  When it returns, the events are
reset and the event map is cleared, but the descriptors of the events stay behind in
`inverse_map_` and in the kernel; the next attempt to register one of these events fails an
assertion of the poller.  This happens exactly when an event with a descriptor other than the
notify event is registered at that time.
-/

namespace Hare.Io

open LabelledRun PriorityQueue

/-- No two events have the same descriptor. -/
def Setup.Distinct (s : Setup) : Prop :=
  ∀ p q, p ≠ q → 0 ≤ (s.object p).event.fd → (s.object p).event.fd ≠ (s.object q).event.fd

/-- Readable events of the user, with the descriptors from 4 on. -/
def Setup.readers : Setup where
  notifyFd := 3
  user n := .new (Event.new (n + 4) true { read := true, persist := true } 0)
  notify_nonneg := by decide
  apart n h := by cases h
  null n _ := rfl
  other n h := by cases h

theorem Setup.distinct_readers : readers.Distinct := by
  have hfd (n : ℕ) : (readers.object (.user n)).event.fd = n + 4 := rfl
  have hnotify : (readers.object .notify).event.fd = 3 := rfl
  have htimer (i : ℕ) : (readers.object (.timer i)).event.fd = -1 := rfl
  intro p q hne hpos
  cases p <;> cases q <;> simp only [hfd, hnotify, htimer, ne_eq, EventPtr.user.injEq] at hne hpos ⊢
    <;> omega

namespace Registry

variable {r r' : Registry} {p q : EventPtr}

/-- The maps and the objects agree. -/
structure Consistent (r : Registry) : Prop where
  /-- A registered event knows its id and its cycle. -/
  own : ∀ id p, r.events id = some p → (r.object p).id = some id ∧ (r.object p).cycle = .this
  /-- An event without an id is in no map. -/
  free : ∀ p, (r.object p).id = none →
    (∀ id, r.events id ≠ some p) ∧ (0 ≤ r.fd p → r.inverseMap (r.fd p) = none)
  /-- The descriptors are those of the registered events. -/
  inverse : ∀ d id, r.inverseMap d = some id ↔ ∃ p, r.events id = some p ∧ r.fd p = d ∧ 0 ≤ d

/-- A descriptor that is known belongs to one event. -/
def Distinct (r : Registry) : Prop := ∀ p q, p ≠ q → 0 ≤ r.fd p → r.fd p ≠ r.fd q

theorem Exact.of_empty (hi : r.inverseMap = fun _ => none) (hk : r.epoll = fun _ => none) :
    r.Exact where
  inverse he := by rw [hi] at he; cases he
  kernel he := by rw [hk] at he; cases he

/-- Where descriptors are exact and distinct, a new event finds its own free. -/
theorem Exact.not_clash (hx : r.Exact) (h : r.Registered) (hd : r.Distinct) : ¬ r.Clash p := by
  rintro ⟨hpos, hid, hmap⟩
  obtain ⟨id, hmap⟩ := Option.isSome_iff_exists.mp hmap
  obtain ⟨q, he, hq, -⟩ := hx.inverse hmap
  have hne : p ≠ q := by
    rintro rfl
    rw [(h.own he).1] at hid
    cases hid
  exact hd p q hne hpos hq.symm

/-- Where descriptors are exact, the maps lead to the events the kernel reports. -/
theorem Exact.finds (hx : r.Exact) (h : r.Registered) (hk : r.epoll (r.fd p) = some p) :
    r.finds p = true := by
  obtain ⟨id, he, -, hpos⟩ := hx.kernel hk
  simp [Registry.finds, h.inverse he hpos, he]

theorem Exact.consistent (hx : r.Exact) (h : r.Registered) (hd : r.Distinct) :
    r.Consistent where
  own _ _ he := h.own he
  free p hid := by
    refine ⟨fun id he => ?_, fun hpos => ?_⟩
    · rw [(h.own he).1] at hid
      cases hid
    · by_contra hmap
      exact hx.not_clash h hd ⟨hpos, hid, Option.isSome_iff_ne_none.mpr hmap⟩
  inverse d id := by
    refine ⟨hx.inverse, ?_⟩
    rintro ⟨p, he, rfl, hpos⟩
    exact h.inverse he hpos

/-- Whether the registered events, the notify event apart, have no descriptors. -/
def onlyTimers (r : Registry) : Bool :=
  (List.range r.eventId).all fun id =>
    match r.events id with
    | some p => p = .notify || r.fd p < 0
    | none => true

theorem Registered.onlyTimers_iff (h : r.Registered) :
    r.onlyTimers = true ↔ ∀ id p, r.events id = some p → p ≠ .notify → r.fd p < 0 := by
  simp only [onlyTimers, List.all_eq_true, List.mem_range]
  constructor
  · intro hall id p he hne
    have hid := hall id (h.lt he)
    rw [he] at hid
    simpa [hne] using hid
  · intro hall id _
    split
    · next p he =>
        by_cases hne : p = .notify
        · simp [hne]
        · simp [hall id p he hne]
    · rfl

/-- After the end of `Exec` no descriptor is known if there were only timers. -/
theorem Exact.leaves (hx : r.Exact) (h : r.Registered) (ht : r.onlyTimers = true)
    (hl : Cycle.Leaves r r') : r'.inverseMap = (fun _ => none) ∧ r'.epoll = fun _ => none := by
  obtain ⟨r₁, hm, rfl, hiff⟩ := hl
  have hx₁ := hx.moves h hm
  have hneg {id : ℕ} {p : EventPtr} (he : r₁.events id = some p) : r₁.fd p < 0 := by
    obtain ⟨he, hne⟩ := (hiff id p).mp he
    rw [hm.fd_eq h]
    exact h.onlyTimers_iff.mp ht id p he hne
  refine ⟨funext fun d => ?_, funext fun d => ?_⟩
  · change r₁.inverseMap d = none
    cases hi : r₁.inverseMap d with
    | none => rfl
    | some id =>
        obtain ⟨p, he, rfl, hpos⟩ := hx₁.inverse hi
        exact absurd hpos (not_le.mpr (hneg he))
  · change r₁.epoll d = none
    cases hk : r₁.epoll d with
    | none => rfl
    | some p =>
        obtain ⟨id, he, rfl, hpos⟩ := hx₁.kernel hk
        exact absurd hpos (not_le.mpr (hneg he))

end Registry

namespace Cycle

variable {P : Top TimerPriority} {c c' : Cycle} {l : CycleLabel} {s : Setup}
  {ls : List CycleLabel}

/-- When `Exec` returns, the registered events have no descriptors, the notify event apart. -/
def Detached (P : Top TimerPriority) (c : Cycle) (l : CycleLabel) : Prop :=
  l = .leave → ∀ c', c.step P .leave = .ok c' → c.registry.onlyTimers = true

/-- The descriptors stay exact as long as `Exec` leaves none behind. -/
theorem exact_step (h : c.Sound) (hx : c.registry.Exact) (hd : Detached P c l)
    (hs : c.step P l = .ok c') : c'.registry.Exact := by
  rcases registry_step h hs with ⟨rfl, hl⟩ | ⟨-, hm⟩
  · obtain ⟨hi, hk⟩ := hx.leaves h.registered (hd rfl c' hs) hl
    exact .of_empty hi hk
  · exact hx.moves h.registered hm

theorem exact_init (s : Setup) : (init s).registry.Exact := .of_empty rfl rfl

theorem exact_of_run (hm : Meets (step P) (Detached P) (init s) ls)
    (hrun : run (step P) (init s) ls = .ok c) : c.registry.Exact :=
  (invariant (fun c => c.Sound ∧ c.registry.Exact)
    (fun _ _ _ h hd hs => ⟨sound_step h.1 hs, exact_step h.1 h.2 hd hs⟩)
    ⟨sound_init s, exact_init s⟩ hm hrun).2

theorem distinct_of_run (hd : s.Distinct) (hrun : run (step P) (init s) ls = .ok c) :
    c.registry.Distinct := by
  intro p q hne
  rw [fd_of_run hrun, fd_of_run hrun]
  exact hd p q hne

/-- No assertion of the poller fails as long as `Exec` leaves no descriptor behind. -/
theorem not_assertion_of_run (hd : s.Distinct) (hm : Meets (step P) (Detached P) (init s) ls)
    {a : Assertion} (ha : a.ofReactor = true) :
    run (step P) (init s) ls ≠ .error (.assertion a) := by
  intro hrun
  obtain ⟨ks, l, c, hpre, hks, hs⟩ := exists_of_run_error hrun
  have hbegin : ks <+: ls := (List.prefix_append ks [l]).trans hpre
  have hsound := sound_of_run hks
  have hx := exact_of_run (hm.of_isPrefix hbegin) hks
  rcases assertion_step hsound ha hs with ⟨r, p, hmoves, hclash⟩ | ⟨p, hk, hfind⟩
  · have hdist : r.Distinct := by
      intro p q hne
      rw [hmoves.fd_eq hsound.registered, hmoves.fd_eq hsound.registered]
      exact distinct_of_run hd hks p q hne
    exact (hx.moves hsound.registered hmoves).not_clash (hsound.registered.moves hmoves) hdist
      hclash
  · rw [hx.finds hsound.registered hk] at hfind
    cases hfind

theorem meets_detached (hleave : .leave ∉ ls) : Meets (step P) (Detached P) c ls :=
  meets_of_labels fun _ hmem _ hl => absurd (hl ▸ hmem) hleave

/-- **The maps agree.**  In every run in which `Exec` does not return, whatever is called in
whatever order and whatever the kernel answers, the maps and the objects agree, and no
assertion of the poller fails. -/
theorem registry_consistent (P : Top TimerPriority) (s : Setup) (hd : s.Distinct)
    (ls : List CycleLabel) (hleave : .leave ∉ ls) :
    (∀ ks c, ks <+: ls → run (step P) (init s) ks = .ok c → c.registry.Consistent) ∧
      ∀ a, a.ofReactor = true → run (step P) (init s) ls ≠ .error (.assertion a) := by
  refine ⟨fun ks c hks hrun => ?_, fun a ha => not_assertion_of_run hd (meets_detached hleave) ha⟩
  have hx := exact_of_run ((meets_detached hleave).of_isPrefix hks) hrun
  exact hx.consistent (sound_of_run hrun).registered (distinct_of_run hd hrun)

/-- The callback of a readable event fails to register a second one, starts a timer and takes
its own event out; the timer is due at once. -/
def busyRun : List CycleLabel :=
  [.call (.tie 0 true), .call (.update 0 true 0), .exec true 1, .again, .poll 2 [.user 0],
    .dispatch, .call (.update 1 false 2), .call (.runAfter 0 2), .call (.remove 0), .finish,
    .notifyTimer]

theorem busyRun_consistent :
    Setup.readers.Distinct ∧ .leave ∉ busyRun ∧ ∃ c, c.registry.Consistent ∧
      run (step (Top.ofKey TimerElem.stamp)) (init .readers) busyRun = .ok c := by
  have hrun := map_eq_ok (f := fun c => c.registry.eventId)
    (r := run (step (Top.ofKey TimerElem.stamp)) (init .readers) busyRun) (b := 3)
    (by decide +kernel)
  obtain ⟨c, hrun, -⟩ := hrun
  have hleave : .leave ∉ busyRun := by decide
  exact ⟨Setup.distinct_readers, hleave, c,
    (registry_consistent _ _ Setup.distinct_readers busyRun hleave).1 _ c (List.prefix_refl _) hrun,
    hrun⟩

/-! ## The end of `Exec` -/

/-- `Exec` returns in the run, from one state to another. -/
def Returns (P : Top TimerPriority) (s : Setup) (ls : List CycleLabel) (c c' : Cycle) : Prop :=
  ∃ ks, ks ++ [.leave] <+: ls ∧ run (step P) (init s) ks = .ok c ∧ c.step P .leave = .ok c'

/-- What `Exec` should leave when it returns: no trace of the events it reset, such that they
can be registered again, and `Exec` run again. -/
structure TearsDown (P : Top TimerPriority) (s : Setup) (ls : List CycleLabel) : Prop where
  events : ∀ c c', Returns P s ls c c' → ∀ id, c'.registry.events id = none
  /-- The descriptors of the events that were registered are gone. -/
  descriptors : ∀ c c', Returns P s ls c c' → ∀ id p, c.registry.events id = some p →
    c'.registry.inverseMap (c.registry.fd p) = none ∧ c'.registry.epoll (c.registry.fd p) = none
  /-- Each of these events can be registered again. -/
  again : ∀ c c', Returns P s ls c c' → ∀ id p, c.registry.events id = some p →
    ∀ accepted now a, a.ofReactor = true → c'.registry.callUpdate p accepted now ≠ .error a
  /-- What follows fails no assertion of the poller. -/
  later : s.Distinct → ∀ a, a.ofReactor = true →
    run (step P) (init s) ls ≠ .error (.assertion a)

theorem leaves_of_step (h : c.Sound) (hs : c.step P .leave = .ok c') :
    Leaves c.registry c'.registry := by
  rcases registry_step h hs with ⟨-, hl⟩ | ⟨hne, -⟩
  · exact hl
  · exact absurd rfl hne

theorem events_of_leaves {r r' : Registry} (hl : Leaves r r') (id : ℕ) : r'.events id = none := by
  obtain ⟨r₁, -, rfl, -⟩ := hl
  rfl

/-- The descriptor of an event that is reset stays in `inverse_map_`. -/
theorem inverseMap_of_leaves {r r' : Registry} (h : r.Registered) (hl : Leaves r r') {id : ℕ}
    {p : EventPtr} (he : r.events id = some p) (hne : p ≠ .notify) (hpos : 0 ≤ r.fd p) :
    r'.inverseMap (r.fd p) = some id := by
  obtain ⟨r₁, hm, rfl, hiff⟩ := hl
  have hfd := hm.fd_eq h p
  rw [← hfd] at hpos ⊢
  exact (h.moves hm).inverse ((hiff id p).mpr ⟨he, hne⟩) hpos

/-- What is left when `Exec` returns in a run that meets the condition. -/
theorem Returns.leaves_nothing (hm : Meets (step P) (Detached P) (init s) ls)
    (hr : Returns P s ls c c') :
    c'.Sound ∧ (∀ id, c'.registry.events id = none) ∧
      c'.registry.inverseMap = (fun _ => none) ∧ c'.registry.epoll = fun _ => none := by
  obtain ⟨ks, hpre, hks, hs⟩ := hr
  have hsound := sound_of_run hks
  have hx := exact_of_run (hm.of_isPrefix ((List.prefix_append ks _).trans hpre)) hks
  have hl := leaves_of_step hsound hs
  exact ⟨sound_step hsound hs, events_of_leaves hl,
    hx.leaves hsound.registered (hm.cond_of_run hpre hks rfl c' hs) hl⟩

/-- The descriptors of other events are left behind. -/
theorem TearsDown.meets_detached (ht : TearsDown P s ls) :
    Meets (step P) (Detached P) (init s) ls := by
  by_contra hm
  obtain ⟨ks, l, c, hpre, hks, hbad⟩ := exists_of_not_meets hm
  simp only [Detached, not_forall] at hbad
  obtain ⟨rfl, c', hs, hbad⟩ := hbad
  have h := (sound_of_run hks).registered
  simp only [h.onlyTimers_iff, not_forall, not_lt] at hbad
  obtain ⟨id, p, he, hne, hpos⟩ := hbad
  have hkept := inverseMap_of_leaves h (leaves_of_step (sound_of_run hks) hs) he hne hpos
  have hgone := (ht.descriptors c c' ⟨ks, hpre, hks, hs⟩ id p he).1
  rw [hgone] at hkept
  cases hkept

/-- **When `Exec` tears down**: exactly when no event with a descriptor, the notify event
apart, is registered at the time it returns. -/
theorem tearsDown_iff_detached (P : Top TimerPriority) (s : Setup) (ls : List CycleLabel) :
    TearsDown P s ls ↔ Meets (step P) (Detached P) (init s) ls := by
  refine ⟨TearsDown.meets_detached, fun hm => ⟨?_, ?_, ?_, ?_⟩⟩
  · exact fun c c' hr => (hr.leaves_nothing hm).2.1
  · intro c c' hr id p he
    obtain ⟨-, -, hi, hk⟩ := hr.leaves_nothing hm
    rw [hi, hk]
    exact ⟨rfl, rfl⟩
  · -- a descriptor can be taken only by an entry of `inverse_map_`
    intro c c' hr id p he accepted now a ha herr
    obtain ⟨hsound, -, hi, -⟩ := hr.leaves_nothing hm
    have hcase := Registry.callUpdate_cases (p := p) hsound.registered accepted now
    rw [herr] at hcase
    cases hcase with
    | clash hc =>
        have hsome := hc.2.2
        rw [hi] at hsome
        cases hsome
  · exact fun hd a ha => not_assertion_of_run hd hm ha

/-- An event with a descriptor is registered when another thread ends `Exec`. -/
def exitingRun : List CycleLabel :=
  [.call (.update 0 true 0), .exec true 1, .again, .exit false, .notifyExit, .poll 2 [.notify],
    .dispatch, .swap, .leave]

/-- The event is reset, but its descriptor stays behind: registering it again fails the
assertion of the poller, and so does a second `Exec` when the event becomes readable. -/
theorem exitingRun_leaves_descriptor :
    ¬ TearsDown (Top.ofKey TimerElem.stamp) .readers exitingRun ∧
      (∃ c, run (step (Top.ofKey TimerElem.stamp)) (init .readers) exitingRun = .ok c ∧
        (c.registry.object (.user 0)).id = none ∧ c.registry.inverseMap 4 = some 0 ∧
        c.registry.epoll 4 = some (.user 0)) ∧
      run (step (Top.ofKey TimerElem.stamp)) (init .readers)
        (exitingRun ++ [.call (.update 0 true 3)]) = .error (.assertion .updateNew) ∧
      run (step (Top.ofKey TimerElem.stamp)) (init .readers)
        (exitingRun ++ [.exec true 3, .again, .poll 4 [.user 0]]) =
          .error (.assertion .fillActive) := by
  have hbefore := map_eq_ok (f := fun c => c.registry.events 0)
    (r := run (step (Top.ofKey TimerElem.stamp)) (init .readers) exitingRun.dropLast)
    (b := some (.user 0)) (by decide +kernel)
  have hafter := map_eq_ok (f := fun c => ((c.registry.object (.user 0)).id,
      c.registry.inverseMap 4, c.registry.epoll 4))
    (r := run (step (Top.ofKey TimerElem.stamp)) (init .readers) exitingRun)
    (b := (none, some 0, some (.user 0))) (by decide +kernel)
  obtain ⟨c, hks, he⟩ := hbefore
  obtain ⟨c', hrun, hgone⟩ := hafter
  simp only [Prod.mk.injEq] at hgone
  refine ⟨fun ht => ?_, ⟨c', hrun, hgone⟩, stopped_eq_some.mp (by decide +kernel),
    stopped_eq_some.mp (by decide +kernel)⟩
  have hlast : run (step (Top.ofKey TimerElem.stamp)) c [.leave] = .ok c' :=
    (run_append hks).symm.trans hrun
  obtain ⟨m, hs, hm⟩ := run_cons_eq_ok hlast
  cases hm
  have hreturn : Returns (Top.ofKey TimerElem.stamp) .readers exitingRun c c' :=
    ⟨exitingRun.dropLast, List.prefix_refl _, hks, hs⟩
  have hnone := (ht.descriptors c c' hreturn 0 (.user 0) he).1
  rw [fd_of_run hks] at hnone
  cases hgone.2.1.symm.trans hnone

end Cycle

end Hare.Io
