import Hare.Base.NotifyTimer
import Mathlib.Algebra.Ring.Int.Defs
import Mathlib.Data.Finset.Card

/-!
# Timers that callbacks add, and the time to wait

`NotifyTimer` copies the top of the queue, calls the callback of its event and pops afterwards.
A callback that calls `RunAfter` puts entries into the same queue, and the top is an entry with
the latest stamp, so a new deadline behind the one that is handled is what `pop` takes: the new
timer is lost, and the handled entry is looked at again.

`GetWaitTime` narrows a difference of 64-bit times to 32 bits before it looks at its sign.
-/

namespace Hare.Io

open LabelledRun PriorityQueue

/-- A call of `RunAfter`: its delay, and the time at which it is made. -/
structure NewTimer where
  delay : ℤ
  now : ℤ
  deriving DecidableEq, Repr

/-- The time at which the task should run. -/
def NewTimer.deadline (x : NewTimer) : ℤ := x.now + x.delay

namespace Reactor

variable {P : Top TimerPriority} {t : ℤ} {r r' : Reactor} {timers : ℕ → List NewTimer}
  {x : TimerElem} {ex : Examined} {log : List Examined} {n : ℕ} {q : List TimerElem}

/-! ## `RunAfter` in a callback -/

/-- `RunAfter` on the cycle thread: the id is drawn, and the task that registers the timer runs
at once. -/
def runAfter (r : Reactor) (x : NewTimer) : Reactor :=
  { r with
    events := Function.update r.events r.eventId (some (Timer.new x.delay false))
    ptimer := r.ptimer ++ [⟨r.eventId, x.deadline⟩]
    eventId := r.eventId + 1 }

/-- The two halves of the call. -/
theorem step_runAfter (hv : r.Valid) (x : NewTimer) :
    r.fetchAdd.step (.runAfter r.eventId x.delay x.now) = .ok (r.runAfter x) := by
  have hnot : r.eventId ∉ r.reserved := fun hmem => (hv.reserved_lt _ hmem).false
  simp [step, fetchAdd, insertTimer, hv.fresh, Timer.new, Event.new, runAfter, setEvent, emplace,
    List.erase_append_right _ hnot, NewTimer.deadline]

theorem Valid.runAfter (hv : r.Valid) (x : NewTimer) : (r.runAfter x).Valid :=
  hv.fetchAdd.step (step_runAfter hv x)

/-- The callback of the event of an id registers the given timers. -/
def registering (timers : ℕ → List NewTimer) (id : ℕ) (r : Reactor) : Reactor :=
  (timers id).foldl runAfter r

/-- The entries of timers that are registered one after the other. -/
def newEntries : ℕ → List NewTimer → List TimerElem
  | _, [] => []
  | id, x :: xs => ⟨id, x.deadline⟩ :: newEntries (id + 1) xs

theorem mem_newEntries {id : ℕ} {xs : List NewTimer} {y : TimerElem}
    (hy : y ∈ newEntries id xs) :
    id ≤ y.id ∧ y.id < id + xs.length ∧ ∃ x ∈ xs, y.stamp = x.deadline := by
  induction xs generalizing id with
  | nil => cases hy
  | cons x xs ih =>
      rcases List.mem_cons.mp hy with rfl | hy
      · exact ⟨le_rfl, by simp, x, List.mem_cons_self, rfl⟩
      · obtain ⟨hlo, hhi, x', hx', hstamp⟩ := ih hy
        rw [List.length_cons]
        exact ⟨by omega, by omega, x', List.mem_cons_of_mem x hx', hstamp⟩

theorem newEntries_nodup (id : ℕ) (xs : List NewTimer) :
    ((newEntries id xs).map TimerElem.id).Nodup := by
  induction xs generalizing id with
  | nil => exact List.nodup_nil
  | cons x xs ih =>
      refine List.nodup_cons.mpr ⟨fun hmem => ?_, ih (id + 1)⟩
      obtain ⟨y, hy, hid⟩ := List.mem_map.mp hmem
      have hid : y.id = id := hid
      have := (mem_newEntries hy).1
      omega

theorem exists_newEntry (id : ℕ) {xs : List NewTimer} {x : NewTimer} (hx : x ∈ xs) :
    ∃ y ∈ newEntries id xs, y.stamp = x.deadline := by
  induction xs generalizing id with
  | nil => cases hx
  | cons x' xs ih =>
      rcases List.mem_cons.mp hx with rfl | hx
      · exact ⟨_, List.mem_cons_self, rfl⟩
      · obtain ⟨y, hy, hstamp⟩ := ih (id + 1) hx
        exact ⟨y, List.mem_cons_of_mem _ hy, hstamp⟩

/-- What a callback that only registers timers does. -/
structure Registers (xs : List NewTimer) (r r' : Reactor) : Prop where
  valid : r'.Valid
  ptimer : r'.ptimer = r.ptimer ++ newEntries r.eventId xs
  eventId : r'.eventId = r.eventId + xs.length
  old : ∀ i < r.eventId, r'.events i = r.events i
  new : ∀ i, r.eventId ≤ i → i < r'.eventId → ∃ delay, r'.events i = some (Timer.new delay false)

theorem registers_foldl (hv : r.Valid) (xs : List NewTimer) :
    Registers xs r (xs.foldl runAfter r) := by
  induction xs generalizing r with
  | nil =>
      exact ⟨hv, by simp [newEntries], rfl, fun _ _ => rfl, fun i h₁ h₂ => absurd h₂ h₁.not_gt⟩
  | cons x xs ih =>
      obtain ⟨hvalid, hptimer, hid, hold, hnew⟩ := ih (hv.runAfter x)
      have hnext : (r.runAfter x).eventId = r.eventId + 1 := rfl
      rw [hnext] at hptimer hid hold hnew
      refine ⟨hvalid, ?_, ?_, fun i hi => ?_, fun i h₁ h₂ => ?_⟩
      · rw [List.foldl_cons, hptimer]
        simp [newEntries, runAfter]
      · rw [List.foldl_cons, hid, List.length_cons]
        omega
      · rw [List.foldl_cons, hold i (by omega)]
        exact Function.update_of_ne hi.ne _ _
      · rw [List.foldl_cons] at h₂ ⊢
        rcases Nat.eq_or_lt_of_le h₁ with rfl | hlt
        · rw [hold _ (by omega)]
          exact ⟨x.delay, Function.update_self _ _ _⟩
        · exact hnew i hlt h₂

/-! ## One iteration -/

/-- The timers that were registered while an entry was looked at. -/
def given (timers : ℕ → List NewTimer) (ex : Examined) : List NewTimer :=
  if ex.invoked then timers ex.elem.id else []

/-- The ids of events whose callback a call of `HandleEvent` reaches. -/
def Callable (r : Reactor) (i : ℕ) : Prop :=
  ∃ e, r.events i = some e ∧ e.handleEvent = true

/-- The registry after an iteration that looked at `x`, before `pop`. -/
structure Iterated (timers : ℕ → List NewTimer) (r : Reactor) (x : TimerElem) (ex : Examined)
    (r' : Reactor) : Prop where
  valid : r'.Valid
  elem : ex.elem = x
  handled : ex.handled = true ↔ r.events x.id ≠ none
  invoked : ex.invoked = true ↔ Callable r x.id
  ptimer : r'.ptimer = r.ptimer ++ newEntries r.eventId (given timers ex)
  eventId : r'.eventId = r.eventId + (given timers ex).length
  removed : r'.events x.id = none
  old : ∀ i < r.eventId, i ≠ x.id → r'.events i = r.events i
  new : ∀ i, r.eventId ≤ i → i < r'.eventId → ∃ delay, r'.events i = some (Timer.new delay false)

theorem eventRemove_eventId (r : Reactor) (id : ℕ) : (r.eventRemove id).eventId = r.eventId := by
  unfold eventRemove
  split <;> rfl

/-- The event of a drawn id is removed after timers have been registered. -/
theorem Registers.iterated {e : Event}
    (hreg : Registers (given timers ex) r r') (he : r.events x.id = some e)
    (hx : x.id < r.eventId) (helem : ex.elem = x) (hhandled : ex.handled = true)
    (hinvoked : ex.invoked = e.handleEvent) :
    Iterated timers r x ex (r'.eventRemove x.id) where
  valid := hreg.valid.eventRemove x.id
  elem := helem
  handled := by simp [hhandled, he]
  invoked := by simp [Callable, he, hinvoked]
  ptimer := by rw [eventRemove_ptimer, hreg.ptimer]
  eventId := by rw [eventRemove_eventId, hreg.eventId]
  removed := by rw [eventRemove_events, Function.update_self]
  old i hi hne := by rw [eventRemove_events, Function.update_of_ne hne, hreg.old i hi]
  new i h₁ h₂ := by
    have hne : i ≠ x.id := by omega
    rw [eventRemove_eventId] at h₂
    rw [eventRemove_events, Function.update_of_ne hne]
    exact hreg.new i h₁ h₂

theorem examine_registering (timers : ℕ → List NewTimer) (t : ℤ) (hv : r.Valid)
    (hx : x ∈ r.ptimer) :
    ∃ r' ex, r.examine (registering timers) t x = .ok (r', ex) ∧ Iterated timers r x ex r' := by
  have hlt := hv.entry_lt x hx
  cases he : r.events x.id with
  | none =>
      refine ⟨r, _, examine_of_none he, hv, rfl, by simp [he], by simp [Callable, he], ?_, rfl, he,
        ?_, ?_⟩
      · simp [given, newEntries]
      · exact fun _ _ _ => rfl
      · exact fun i h₁ h₂ => absurd h₂ h₁.not_gt
  | some e =>
      have hcalled : called (registering timers) r x e =
          (given timers ⟨x, true, e.handleEvent⟩).foldl runAfter r := by
        cases hh : e.handleEvent <;> simp [called, given, registering, hh]
      have hreg := registers_foldl hv (given timers ⟨x, true, e.handleEvent⟩)
      rw [← hcalled] at hreg
      have he' : (called (registering timers) r x e).events x.id = some e :=
        (hreg.old x.id hlt).trans he
      have hpersist := hv.persist_eq_false hx he
      exact ⟨_, _, examine_of_some he he' hpersist, hreg.iterated he hlt rfl rfl rfl⟩

/-! ## The loop -/

/-- A call of `NotifyTimer` at time `t` that returns, iteration by iteration. -/
inductive Dispatch (P : Top TimerPriority) (timers : ℕ → List NewTimer) (t : ℤ) :
    Reactor → List Examined → Reactor → Prop
  | stop (r : Reactor) (later : ∀ x, P.top r.ptimer = some x → t < x.stamp) :
      Dispatch P timers t r [] r
  | next {r r₁ r' : Reactor} {x : TimerElem} {ex : Examined} {log : List Examined}
      (valid : r.Valid) (top : P.top r.ptimer = some x) (due : x.stamp ≤ t)
      (iterated : Iterated timers r x ex r₁) (rest : Dispatch P timers t (r₁.pop P) log r') :
      Dispatch P timers t r (ex :: log) r'

theorem Iterated.callable (h : Iterated timers r x ex r') {i : ℕ}
    (hi : Callable r' i) : i ≠ x.id ∧ Callable r i := by
  obtain ⟨e, he, hcall⟩ := hi
  have hne : i ≠ x.id := by
    rintro rfl
    rw [h.removed] at he
    cases he
  refine ⟨hne, e, ?_, hcall⟩
  rcases Nat.lt_or_ge i r.eventId with hlt | hge
  · rwa [← h.old i hlt hne]
  · -- the timers of `RunAfter` are not tied
    obtain ⟨delay, hdelay⟩ := h.new i hge (h.valid.event_lt i e he)
    cases hdelay.symm.trans he
    cases hcall

/-- The loop ends: each call of a callback takes one of finitely many events away that can be
called, and an iteration without a call makes the queue shorter. -/
theorem exists_dispatch (ids : Finset ℕ) (hv : r.Valid) (hids : ∀ i, Callable r i → i ∈ ids) :
    ∃ n r' log, (∀ k, r.notifyTimer P (registering timers) t (n + k + 1) = .ok (r', log)) ∧
      Dispatch P timers t r log r' := by
  induction ids using Finset.strongInduction generalizing r with
  | H ids ihids =>
  induction hlen : r.ptimer.length using Nat.strong_induction_on generalizing r with
  | h len ihlen =>
  cases htop : P.top r.ptimer with
  | none =>
      have hlater : ∀ x, P.top r.ptimer = some x → t < x.stamp := by simp [htop]
      exact ⟨0, r, [], fun k => notifyTimer_of_not_due _ hlater, .stop r hlater⟩
  | some x =>
      by_cases hdue : t < x.stamp
      · have hlater : ∀ y, P.top r.ptimer = some y → t < y.stamp := fun y hy => by
          cases htop.symm.trans hy
          exact hdue
        exact ⟨0, r, [], fun k => notifyTimer_of_not_due _ hlater, .stop r hlater⟩
      · obtain ⟨r₁, ex, hex, hit⟩ := examine_registering timers t hv (P.mem_of_top htop)
        have hvalid : (r₁.pop P).Valid := hit.valid.pop P
        obtain ⟨n, r', log, hrest, hdis⟩ : ∃ n r' log,
            (∀ k, (r₁.pop P).notifyTimer P (registering timers) t (n + k + 1) = .ok (r', log)) ∧
              Dispatch P timers t (r₁.pop P) log r' := by
          cases hinv : ex.invoked with
          | true =>
              have hx : x.id ∈ ids := hids x.id (hit.invoked.mp hinv)
              refine ihids (ids.erase x.id) (Finset.erase_ssubset hx) hvalid fun i hi => ?_
              obtain ⟨hne, hi⟩ := hit.callable hi
              exact Finset.mem_erase.mpr ⟨hne, hids i hi⟩
          | false =>
              have hsame : r₁.ptimer = r.ptimer := by
                rw [hit.ptimer]
                simp [given, hinv, newEntries]
              have hshort := P.length_of_top htop
              refine ihlen (P.pop r.ptimer).length (by omega) hvalid
                (fun i hi => hids i (hit.callable hi).2) ?_
              rw [pop, hsame]
        refine ⟨n + 1, r', ex :: log, fun k => ?_, .next hv htop (Int.not_lt.mp hdue) hit hdis⟩
        have hrest := hrest k
        rw [show n + k + 1 = n + 1 + k by omega] at hrest
        exact notifyTimer_of_due _ htop (Int.not_lt.mp hdue) hex hrest

/-! ## The timers that are added -/

/-- The entries of all timers registered during a call, when `id` is the next id. -/
def added (timers : ℕ → List NewTimer) : ℕ → List Examined → List TimerElem
  | _, [] => []
  | id, ex :: log =>
    newEntries id (given timers ex) ++ added timers (id + (given timers ex).length) log

theorem le_of_mem_added {id : ℕ} {y : TimerElem}
    (hy : y ∈ added timers id log) : id ≤ y.id := by
  induction log generalizing id with
  | nil => cases hy
  | cons ex log ih =>
      rcases List.mem_append.mp hy with hy | hy
      · exact (mem_newEntries hy).1
      · have := ih hy
        omega

/-- What should become of the timers that are registered during a call.  Together the entries it
looked at and the ones it leaves are the ones that were there and the new ones, and of each new
timer `HandleEvent` has been called or the entry is still there. -/
structure TimersKept (before new : List TimerElem) (log : List Examined)
    (after : List TimerElem) : Prop where
  examined : (log.map Examined.elem ++ after).Perm (before ++ new)
  kept : ∀ y ∈ new, (∃ ex ∈ log, ex.elem = y ∧ ex.handled = true) ∨ y ∈ after

/-- No callback registered a timer with a deadline behind the entry it was called for. -/
def NoneLater (timers : ℕ → List NewTimer) (log : List Examined) : Prop :=
  ∀ ex ∈ log, ∀ x ∈ given timers ex, x.deadline ≤ ex.elem.stamp

/-! ### Entries of new timers -/

/-- The entries with ids from `n` on have different ids. -/
def Distinct (n : ℕ) (q : List TimerElem) : Prop :=
  ((q.filter (n ≤ ·.id)).map TimerElem.id).Nodup

theorem distinct_of_lt (h : ∀ y ∈ q, y.id < n) : Distinct n q := by
  have hnil : q.filter (n ≤ ·.id) = [] :=
    List.filter_eq_nil_iff.mpr fun y hy => by simpa using h y hy
  rw [Distinct, hnil]
  exact List.nodup_nil

theorem Distinct.append {n m : ℕ} (h : Distinct n q) (hnm : n ≤ m)
    (hq : ∀ y ∈ q, y.id < m) (xs : List NewTimer) : Distinct n (q ++ newEntries m xs) := by
  have hall : (newEntries m xs).filter (n ≤ ·.id) = newEntries m xs :=
    List.filter_eq_self.mpr fun y hy => by simpa using hnm.trans (mem_newEntries hy).1
  rw [Distinct, List.filter_append, hall, List.map_append]
  refine List.nodup_append.mpr ⟨h, newEntries_nodup m xs, fun i hi j hj => ?_⟩
  obtain ⟨y, hy, rfl⟩ := List.mem_map.mp hi
  obtain ⟨z, hz, rfl⟩ := List.mem_map.mp hj
  exact ((hq y (List.mem_of_mem_filter hy)).trans_le (mem_newEntries hz).1).ne

/-- `pop` takes the only entry with its id. -/
theorem Distinct.pop (h : Distinct n q)
    (htop : P.top q = some x) :
    Distinct n (P.pop q) ∧ (n ≤ x.id → ∀ y ∈ P.pop q, y.id ≠ x.id) := by
  have hperm := ((P.perm_of_top htop).filter (n ≤ ·.id)).map TimerElem.id
  have hnodup := hperm.nodup_iff.mp h
  by_cases hx : n ≤ x.id
  · rw [List.filter_cons_of_pos (by simpa using hx), List.map_cons, List.nodup_cons] at hnodup
    refine ⟨hnodup.2, fun _ y hy hid => hnodup.1 (List.mem_map.mpr ⟨y, ?_, hid⟩)⟩
    exact List.mem_filter.mpr ⟨hy, by simpa [hid] using hx⟩
  · rw [List.filter_cons_of_neg (by simpa using hx)] at hnodup
    exact ⟨hnodup, fun hle => absurd hle hx⟩

theorem Iterated.distinct (hv : r.Valid)
    (hit : Iterated timers r x ex r') (hn : n ≤ r.eventId) (h : Distinct n r.ptimer) :
    Distinct n r'.ptimer := by
  rw [hit.ptimer]
  exact h.append hn hv.entry_lt _

/-! ### A timer that is lost -/

/-- An id that has been drawn and has no entry gets none. -/
theorem Dispatch.absent (h : Dispatch P timers t r log r') {id : ℕ}
    (hid : id < r.eventId) (hnot : ∀ y ∈ r.ptimer, y.id ≠ id) :
    (∀ ex ∈ log, ex.elem.id ≠ id) ∧ ∀ y ∈ r'.ptimer, y.id ≠ id := by
  induction h with
  | stop r _ => exact ⟨by simp, hnot⟩
  | @next r r₁ r' x ex log hv htop hdue hit _ ih =>
      have hnot₁ : ∀ y ∈ (r₁.pop P).ptimer, y.id ≠ id := by
        intro y hy
        have hy : y ∈ r.ptimer ++ newEntries r.eventId (given timers ex) :=
          hit.ptimer ▸ P.mem_of_mem_pop hy
        rcases List.mem_append.mp hy with hy | hy
        · exact hnot y hy
        · have := (mem_newEntries hy).1
          omega
      have hid₁ : id < (r₁.pop P).eventId := by
        have : (r₁.pop P).eventId = r.eventId + (given timers ex).length := hit.eventId
        omega
      obtain ⟨hlog, hafter⟩ := ih hid₁ hnot₁
      refine ⟨List.forall_mem_cons.mpr ⟨?_, hlog⟩, hafter⟩
      rw [hit.elem]
      exact hnot x (P.mem_of_top htop)

/-- A later deadline makes `pop` take a new entry. -/
theorem Iterated.pop_new (hv : r.Valid)
    (hit : Iterated timers r x ex r') (htop : P.top r.ptimer = some x) {d : NewTimer}
    (hd : d ∈ given timers ex) (hlater : x.stamp < d.deadline) :
    ∃ y ∈ newEntries r.eventId (given timers ex), ∀ z ∈ (r'.pop P).ptimer, z.id ≠ y.id := by
  obtain ⟨y, hy, hstamp⟩ := exists_newEntry r.eventId hd
  have hmem : y ∈ r'.ptimer := hit.ptimer ▸ List.mem_append_right _ hy
  obtain ⟨z, hz⟩ : ∃ z, P.top r'.ptimer = some z := by
    cases hnone : P.top r'.ptimer with
    | none => simp [P.eq_nil_of_top hnone] at hmem
    | some z => exact ⟨z, rfl⟩
  -- the top is none of the old entries, which are not behind the one that was on top
  have hnew : z ∈ newEntries r.eventId (given timers ex) := by
    have hzmem : z ∈ r.ptimer ++ newEntries r.eventId (given timers ex) :=
      hit.ptimer ▸ P.mem_of_top hz
    refine (List.mem_append.mp hzmem).resolve_left fun hold => ?_
    have h₁ : ¬ x.stamp < z.stamp := P.not_lt_of_top htop hold
    have h₂ : ¬ z.stamp < y.stamp := P.not_lt_of_top hz hmem
    omega
  have hdistinct := hit.distinct hv le_rfl (distinct_of_lt hv.entry_lt)
  exact ⟨z, hnew, (hdistinct.pop hz).2 (mem_newEntries hnew).1⟩

/-- A timer that was registered with a deadline behind the entry its callback was called for
makes one timer disappear: it is not looked at and has no entry at the end. -/
theorem Dispatch.exists_lost (h : Dispatch P timers t r log r')
    (hlater : ¬ NoneLater timers log) :
    ∃ y ∈ added timers r.eventId log, (∀ ex ∈ log, ex.elem ≠ y) ∧ y ∉ r'.ptimer := by
  induction h with
  | stop r _ => exact absurd (by simp [NoneLater]) hlater
  | @next r r₁ r' x ex log hv htop hdue hit hrest ih =>
      have hx := hv.entry_lt x (P.mem_of_top htop)
      have hid : (r₁.pop P).eventId = r.eventId + (given timers ex).length := hit.eventId
      -- an entry with a new id is not the one this iteration looked at
      have hne : ∀ y : TimerElem, r.eventId ≤ y.id → ex.elem ≠ y := by
        rintro y hy heq
        rw [← heq, hit.elem] at hy
        omega
      by_cases hthis : ∀ d ∈ given timers ex, d.deadline ≤ ex.elem.stamp
      · have hrest' : ¬ NoneLater timers log := fun hall =>
          hlater (List.forall_mem_cons.mpr ⟨hthis, hall⟩)
        obtain ⟨y, hy, hlog, hafter⟩ := ih hrest'
        have hle := le_of_mem_added hy
        rw [hid] at hy
        exact ⟨y, List.mem_append_right _ hy,
          List.forall_mem_cons.mpr ⟨hne y (by omega), hlog⟩, hafter⟩
      · simp only [not_forall, not_le, hit.elem] at hthis
        obtain ⟨d, hd, hlate⟩ := hthis
        obtain ⟨y, hy, hgone⟩ := hit.pop_new hv htop hd hlate
        obtain ⟨hlo, hhi, _⟩ := mem_newEntries hy
        obtain ⟨hlog, hafter⟩ := hrest.absent (by omega) hgone
        refine ⟨y, List.mem_append_left _ hy, List.forall_mem_cons.mpr ⟨hne y hlo, ?_⟩, ?_⟩
        · exact fun ey hey heq => hlog ey hey (congrArg TimerElem.id heq)
        · exact fun hmem => hafter y hmem rfl

/-! ### No timer is lost -/

/-- The entries with ids from `n` on have different ids, under which events are registered. -/
structure Fresh (n : ℕ) (r : Reactor) : Prop where
  le : n ≤ r.eventId
  distinct : Distinct n r.ptimer
  registered : ∀ y ∈ r.ptimer, n ≤ y.id → r.events y.id ≠ none

theorem Valid.fresh_eventId (hv : r.Valid) : Fresh r.eventId r where
  le := le_rfl
  distinct := distinct_of_lt hv.entry_lt
  registered y hy hle := absurd (hv.entry_lt y hy) hle.not_gt

/-- The entry that was looked at is the one that is popped when no new deadline is later. -/
theorem Iterated.top (hP : P.Stable)
    (hit : Iterated timers r x ex r') (htop : P.top r.ptimer = some x)
    (hnone : ∀ d ∈ given timers ex, d.deadline ≤ x.stamp) : P.top r'.ptimer = some x := by
  rw [hit.ptimer]
  refine hP.append htop fun y hy => ?_
  obtain ⟨-, -, d, hd, hstamp⟩ := mem_newEntries hy
  have := hnone d hd
  unfold TimerPriority
  omega

theorem Fresh.pop (h : Fresh n r) (hv : r.Valid)
    (hit : Iterated timers r x ex r') (htop : P.top r'.ptimer = some x) :
    Fresh n (r'.pop P) := by
  obtain ⟨hdistinct, hne⟩ := (hit.distinct hv h.le h.distinct).pop htop
  refine ⟨?_, hdistinct, fun y hy hle => ?_⟩
  · have : (r'.pop P).eventId = r.eventId + (given timers ex).length := hit.eventId
    have := h.le
    omega
  · have hyne : y.id ≠ x.id := fun hid => hne (hid ▸ hle) y hy hid
    have hmem : y ∈ r'.ptimer := P.mem_of_mem_pop hy
    rcases Nat.lt_or_ge y.id r.eventId with hlt | hge
    · rw [hit.ptimer] at hmem
      have hold : y ∈ r.ptimer := (List.mem_append.mp hmem).resolve_right fun hnew =>
        absurd (mem_newEntries hnew).1 hlt.not_ge
      have hsame : (r'.pop P).events y.id = r.events y.id := hit.old y.id hlt hyne
      rw [hsame]
      exact h.registered y hold hle
    · obtain ⟨delay, hdelay⟩ := hit.new y.id hge (hit.valid.entry_lt y hmem)
      have hsome : (r'.pop P).events y.id = some (Timer.new delay false) := hdelay
      simp [hsome]

/-- When no timer was registered with a deadline behind the entry its callback was called for,
every iteration pops the entry it looked at, and calls `HandleEvent` for a new one. -/
theorem Dispatch.kept (hP : P.Stable) (h : Dispatch P timers t r log r')
    (hfresh : Fresh n r) (hnone : NoneLater timers log) :
    (log.map Examined.elem ++ r'.ptimer).Perm (r.ptimer ++ added timers r.eventId log) ∧
      ∀ ex ∈ log, n ≤ ex.elem.id → ex.handled = true := by
  induction h with
  | stop r _ => exact ⟨by simp [added], by simp⟩
  | @next r r₁ r' x ex log hv htop hdue hit hrest ih =>
      obtain ⟨hthis, hnone⟩ := List.forall_mem_cons.mp hnone
      rw [hit.elem] at hthis
      have hx := P.mem_of_top htop
      have htop₁ := hit.top hP htop hthis
      obtain ⟨hperm, hhandled⟩ := ih (hfresh.pop hv hit htop₁) hnone
      have hid : (r₁.pop P).eventId = r.eventId + (given timers ex).length := hit.eventId
      have hpop : (r₁.pop P).ptimer =
          r.ptimer.erase x ++ newEntries r.eventId (given timers ex) := by
        rw [pop, P.pop_of_top htop₁, hit.ptimer, List.erase_append_left _ hx]
      refine ⟨?_, List.forall_mem_cons.mpr ⟨fun hle => ?_, hhandled⟩⟩
      · rw [hid, hpop, List.append_assoc] at hperm
        rw [List.map_cons, hit.elem, List.cons_append]
        exact (hperm.cons x).trans ((List.perm_cons_erase hx).symm.append_right _)
      · rw [hit.elem] at hle
        exact hit.handled.mpr (hfresh.registered x hx hle)

/-! ### The condition before the call -/

/-- The last entries of the events that can be called are not before the deadlines of the timers
their callbacks register. -/
def Covers (timers : ℕ → List NewTimer) (r : Reactor) : Prop :=
  ∀ x ∈ r.ptimer, Latest r x → Callable r x.id → ∀ d ∈ timers x.id, d.deadline ≤ x.stamp

/-- An event with an id drawn before, other than the one of the entry on top, has the same entries
behind an iteration that pops this one. -/
theorem Iterated.latest_iff {x y : TimerElem}
    (hit : Iterated timers r x ex r') (hx : x ∈ r.ptimer) (htop : P.top r'.ptimer = some x)
    (hy : y.id < r.eventId) (hne : y.id ≠ x.id) :
    (y ∈ (r'.pop P).ptimer ↔ y ∈ r.ptimer) ∧ (Latest (r'.pop P) y ↔ Latest r y) := by
  have hpop : (r'.pop P).ptimer =
      r.ptimer.erase x ++ newEntries r.eventId (given timers ex) := by
    rw [pop, P.pop_of_top htop, hit.ptimer, List.erase_append_left _ hx]
  have hmem : ∀ z : TimerElem, z.id = y.id → (z ∈ (r'.pop P).ptimer ↔ z ∈ r.ptimer) := by
    intro z hz
    have hzx : z ≠ x := fun heq => hne (by rw [← hz, heq])
    have hold : z ∉ newEntries r.eventId (given timers ex) := fun hnew => by
      have := (mem_newEntries hnew).1
      omega
    simp [hpop, List.mem_erase_of_ne hzx, hold]
  have hsame : (r'.pop P).events y.id = r.events y.id := hit.old y.id hy hne
  refine ⟨hmem y rfl, ?_⟩
  simp only [Latest, hsame]
  refine and_congr_right fun _ => ⟨fun h z hz hid => ?_, fun h z hz hid => ?_⟩
  · exact h z ((hmem z hid).mpr hz) hid
  · exact h z ((hmem z hid).mp hz) hid

/-- The entry on top is the last one of its event. -/
theorem Callable.latest_top (htop : P.top r.ptimer = some x)
    (hcall : Callable r x.id) : Latest r x := by
  obtain ⟨e, he, -⟩ := hcall
  exact ⟨by simp [he], fun y hy _ => Int.not_lt.mp (P.not_lt_of_top htop hy)⟩

/-- What an iteration registers is covered by the entry it looked at. -/
theorem Covers.given (hcov : Covers timers r)
    (htop : P.top r.ptimer = some x) (hit : Iterated timers r x ex r') :
    ∀ d ∈ Reactor.given timers ex, d.deadline ≤ x.stamp := by
  intro d hd
  cases hinv : ex.invoked with
  | false => simp [Reactor.given, hinv] at hd
  | true =>
      have hcall := hit.invoked.mp hinv
      rw [Reactor.given, if_pos hinv, hit.elem] at hd
      exact hcov x (P.mem_of_top htop) (Callable.latest_top htop hcall) hcall d hd

/-- Behind an iteration that pops the entry it looked at, the events that can be called are as
before, but for the one that was called. -/
theorem Covers.pop (hcov : Covers timers r) (hv : r.Valid)
    (hx : x ∈ r.ptimer) (hit : Iterated timers r x ex r') (htop : P.top r'.ptimer = some x) :
    Covers timers (r'.pop P) := by
  intro y hy hly hcall
  obtain ⟨hne, hcall⟩ := hit.callable hcall
  obtain ⟨e, he, -⟩ := id hcall
  obtain ⟨hmem, hlatest⟩ := hit.latest_iff hx htop (hv.event_lt y.id e he) hne
  exact hcov y (hmem.mp hy) (hlatest.mp hly) hcall

theorem Dispatch.noneLater (hP : P.Stable)
    (h : Dispatch P timers t r log r') (hcov : Covers timers r) : NoneLater timers log := by
  induction h with
  | stop r _ => simp [NoneLater]
  | @next r r₁ r' x ex log hv htop hdue hit _ ih =>
      have hthis := hcov.given htop hit
      have htop₁ := hit.top hP htop hthis
      refine List.forall_mem_cons.mpr ⟨hit.elem.symm ▸ hthis, ih ?_⟩
      exact hcov.pop hv (P.mem_of_top htop) hit htop₁

/-- When everything is due the loop comes to every event. -/
theorem Dispatch.covers (hP : P.Stable) (h : Dispatch P timers t r log r')
    (hnone : NoneLater timers log) (hall : ∀ x ∈ r.ptimer, x.stamp ≤ t) : Covers timers r := by
  induction h with
  | stop r hlater =>
      intro x hx
      cases htop : P.top r.ptimer with
      | none => simp [P.eq_nil_of_top htop] at hx
      | some y => exact absurd (hlater y htop) (Int.not_lt.mpr (hall y (P.mem_of_top htop)))
  | @next r r₁ r' x ex log hv htop hdue hit _ ih =>
      obtain ⟨hthis, hnone⟩ := List.forall_mem_cons.mp hnone
      rw [hit.elem] at hthis
      have hx := P.mem_of_top htop
      have htop₁ := hit.top hP htop hthis
      intro y hy hly hcall d hd
      obtain ⟨e, he, hhandle⟩ := id hcall
      by_cases hid : y.id = x.id
      · have hinv : ex.invoked = true := hit.invoked.mpr (hid ▸ hcall)
        have hgiven : d ∈ Reactor.given timers ex := by
          rw [Reactor.given, if_pos hinv, hit.elem, ← hid]
          exact hd
        exact (hthis d hgiven).trans (hly.2 x hx hid.symm)
      · have hlt := hv.event_lt y.id e he
        obtain ⟨hmem, hlatest⟩ := hit.latest_iff hx htop₁ hlt hid
        have hdue₁ : ∀ z ∈ (r₁.pop P).ptimer, z.stamp ≤ t := by
          intro z hz
          have hz : z ∈ r.ptimer ++ newEntries r.eventId (Reactor.given timers ex) :=
            hit.ptimer ▸ P.mem_of_mem_pop hz
          rcases List.mem_append.mp hz with hz | hz
          · exact hall z hz
          · obtain ⟨-, -, d', hd', hstamp⟩ := mem_newEntries hz
            exact hstamp ▸ (hthis d' hd').trans hdue
        have hcall₁ : Callable (r₁.pop P) y.id := ⟨e, (hit.old y.id hlt hid).trans he, hhandle⟩
        exact ih hnone hdue₁ y (hmem.mpr hy) (hlatest.mpr hly) hcall₁ d hd

/-- Some entry is not due, which holds back all the others; or the events that can be called and
register timers have their last entries at the reactor time itself, and their callbacks register
the timers at this time and without delay. -/
def Punctual (timers : ℕ → List NewTimer) (t : ℤ) (r : Reactor) : Prop :=
  (∃ y ∈ r.ptimer, t < y.stamp) ∨
    ∀ x ∈ r.ptimer, Latest r x → Callable r x.id →
      ∀ d ∈ timers x.id, x.stamp = t ∧ d.now = t ∧ d.delay = 0

/-- Timers that are registered when the reactor time has passed are covered only at that time. -/
theorem covers_iff (hall : ∀ x ∈ r.ptimer, x.stamp ≤ t)
    (hlate : ∀ i, ∀ d ∈ timers i, t ≤ d.now ∧ 0 ≤ d.delay) :
    Covers timers r ↔ ∀ x ∈ r.ptimer, Latest r x → Callable r x.id →
      ∀ d ∈ timers x.id, x.stamp = t ∧ d.now = t ∧ d.delay = 0 := by
  refine forall₂_congr fun x hx => forall₂_congr fun _ _ => forall₂_congr fun d hd => ?_
  obtain ⟨hnow, hdelay⟩ := hlate x.id d hd
  have hdue := hall x hx
  unfold NewTimer.deadline
  constructor
  · intro hle
    exact ⟨by omega, by omega, by omega⟩
  · rintro ⟨hstamp, hnow, hdelay⟩
    omega

/-- **When the timers that callbacks add are kept.**  In every registry reached by calls, a call
whose callbacks register any timers, at the reactor time or later and with delays that are not
negative, returns, and it keeps them exactly when some entry is not due, or no callback registers
timers but at the very deadline it is called for and without delay.  As in a binary heap, where a
new element moves up past smaller ones only, an equal deadline does not take the place of the
top. -/
theorem timersKept_iff (P : Top TimerPriority) (hP : P.Stable) (calls : List ReactorCall)
    (r : Reactor) (hrun : run step init calls = .ok r) (t : ℤ) (timers : ℕ → List NewTimer)
    (hlate : ∀ i, ∀ d ∈ timers i, t ≤ d.now ∧ 0 ≤ d.delay) :
    ∃ n r' log, (∀ k, r.notifyTimer P (registering timers) t (n + k + 1) = .ok (r', log)) ∧
      (TimersKept r.ptimer (added timers r.eventId log) log r'.ptimer ↔ Punctual timers t r) := by
  have hv := valid_of_run hrun
  have hids : ∀ i, Callable r i → i ∈ Finset.range r.eventId := by
    rintro i ⟨e, he, -⟩
    exact Finset.mem_range.mpr (hv.event_lt i e he)
  obtain ⟨n, r', log, hcall, hdis⟩ := exists_dispatch (P := P) (t := t) _ hv hids
  have hkept : TimersKept r.ptimer (added timers r.eventId log) log r'.ptimer ↔
      NoneLater timers log := by
    refine ⟨fun hkept => ?_, fun hnone => ?_⟩
    · by_contra hlater
      obtain ⟨y, hy, hlog, hafter⟩ := hdis.exists_lost hlater
      rcases hkept.kept y hy with ⟨ex, hex, helem, -⟩ | hmem
      · exact hlog ex hex helem
      · exact hafter hmem
    · obtain ⟨hperm, hhandled⟩ := hdis.kept hP hv.fresh_eventId hnone
      refine ⟨hperm, fun y hy => ?_⟩
      rcases List.mem_append.mp (hperm.mem_iff.mpr (List.mem_append_right _ hy)) with hmem | hmem
      · obtain ⟨ex, hex, rfl⟩ := List.mem_map.mp hmem
        exact Or.inl ⟨ex, hex, rfl, hhandled ex hex (le_of_mem_added hy)⟩
      · exact Or.inr hmem
  refine ⟨n, r', log, hcall, hkept.trans ?_⟩
  by_cases hheld : ∃ y ∈ r.ptimer, t < y.stamp
  · obtain ⟨y, hy, hlater⟩ := id hheld
    have hlog : log = [] := by
      have hnil := (hcall 0).symm.trans (notifyTimer_of_later _ hy hlater)
      exact congrArg Prod.snd (Except.ok.inj hnil)
    simp [NoneLater, hlog, Punctual, hheld]
  · have hall : ∀ x ∈ r.ptimer, x.stamp ≤ t := fun x hx =>
      Int.not_lt.mp fun hlater => hheld ⟨x, hx, hlater⟩
    rw [Punctual, or_iff_right hheld, ← covers_iff hall hlate]
    exact ⟨fun hnone => hdis.covers hP hnone hall, hdis.noneLater hP⟩

/-- An event with a timeout at time 10, tied to an object that is alive. -/
def oneTimeout : List ReactorCall :=
  [.add (Event.new (-1) true { timeout := true } 10) true 0, .tie 0 true]

/-- At time 10 its callback registers two timers without delay, which are kept: the loop looks at
them next. -/
theorem timersKept_at_deadline :
    ∃ r r' log fuel, run step init oneTimeout = .ok r ∧ r.ptimer = [⟨0, 10⟩] ∧
      r.notifyTimer (Top.ofKey TimerElem.stamp) (registering fun _ => [⟨0, 10⟩, ⟨0, 10⟩]) 10
        fuel = .ok (r', log) ∧
      TimersKept r.ptimer [⟨1, 10⟩, ⟨2, 10⟩] log r'.ptimer := by
  obtain ⟨n, r', log, hcall, hiff⟩ := timersKept_iff _ (Top.stable_ofKey TimerElem.stamp)
    oneTimeout _ rfl 10 (fun _ => [⟨0, 10⟩, ⟨0, 10⟩]) (fun _ => by decide)
  refine ⟨_, r', log, n + 4 + 1, rfl, rfl, hcall 4, ?_⟩
  have hlog : log = [⟨⟨0, 10⟩, true, true⟩, ⟨⟨1, 10⟩, true, false⟩, ⟨⟨2, 10⟩, true, false⟩] :=
    Except.ok.inj (congrArg (Except.map Prod.snd) (hcall 4)).symm
  subst hlog
  refine hiff.mpr (Or.inr fun x hx _ _ => ?_)
  obtain rfl : x = ⟨0, 10⟩ := List.mem_singleton.mp hx
  decide

/-- The callback registers a timer without delay one unit of time after the deadline it is called
for.  `pop` takes the entry of the new timer, and the loop looks at the old entry twice. -/
theorem timer_lost :
    ∃ r r' log, run step init oneTimeout = .ok r ∧ r.ptimer = [⟨0, 10⟩] ∧
      r.notifyTimer (Top.ofKey TimerElem.stamp) (registering fun _ => [⟨0, 11⟩]) 10 3 =
        .ok (r', log) ∧
      log = [⟨⟨0, 10⟩, true, true⟩, ⟨⟨0, 10⟩, false, false⟩] ∧ r'.ptimer = [] ∧
      added (fun _ => [⟨0, 11⟩]) r.eventId log = [⟨1, 11⟩] ∧
      ¬ TimersKept r.ptimer [⟨1, 11⟩] log r'.ptimer := by
  refine ⟨_, _, _, rfl, rfl, rfl, rfl, rfl, rfl, fun hkept => ?_⟩
  rcases hkept.kept ⟨1, 11⟩ (by decide) with ⟨ex, hex, helem, -⟩ | hmem
  · revert ex
    decide
  · cases hmem

end Reactor

/-! ## The time to wait -/

/-- `POLL_TIME_MICROSECONDS`. -/
def pollTimeMicroseconds : Int32 := 1000000

/-- `GetWaitTime`, at time `now`. -/
def getWaitTime (P : Top TimerPriority) (ptimer : List TimerElem) (now : ℤ) : Int32 :=
  match P.top ptimer with
  | none => pollTimeMicroseconds
  | some top =>
    -- the cast to `std::int32_t`
    let time := Int32.ofInt (top.stamp - now)
    if time ≤ 0 then 1 else if time < pollTimeMicroseconds then time else pollTimeMicroseconds

theorem getWaitTime_toInt {P : Top TimerPriority} {q : List TimerElem} {top : TimerElem}
    (htop : P.top q = some top) (now : ℤ) :
    (getWaitTime P q now).toInt =
      if (top.stamp - now).bmod (2 ^ 32) ≤ 0 then 1
      else min ((top.stamp - now).bmod (2 ^ 32)) 1000000 := by
  have hcast : (Int32.ofInt (top.stamp - now)).toInt = (top.stamp - now).bmod (2 ^ 32) :=
    Int32.toInt_ofInt
  have hpoll : pollTimeMicroseconds.toInt = 1000000 := by decide
  simp only [getWaitTime, htop, Int32.le_iff_toInt_le, Int32.lt_iff_toInt_lt, hcast, hpoll,
    Int32.toInt_zero]
  split
  · rfl
  split
  · rw [hcast]
    omega
  · rw [hpoll]
    omega

/-- **When the time to wait is right.**  It is one microsecond for a deadline that is not in the
future, and the time to the deadline, a second at the most, otherwise, exactly when the lower 32
bits of the difference, taken as a signed number, are no more than one in the first case, and a
second or more in the second case when the difference is. -/
theorem getWaitTime_iff (P : Top TimerPriority) (q : List TimerElem) (top : TimerElem)
    (htop : P.top q = some top) (now : ℤ) :
    (getWaitTime P q now).toInt =
        (if top.stamp ≤ now then 1 else min (top.stamp - now) 1000000) ↔
      (top.stamp - now ≤ 0 → (top.stamp - now).bmod (2 ^ 32) ≤ 1) ∧
        (1000000 ≤ top.stamp - now → 1000000 ≤ (top.stamp - now).bmod (2 ^ 32)) := by
  rw [getWaitTime_toInt htop]
  have hsmall : 0 < top.stamp - now → top.stamp - now < 1000000 →
      (top.stamp - now).bmod (2 ^ 32) = top.stamp - now := fun h₁ h₂ =>
    Int.bmod_eq_of_le (by omega) (by omega)
  generalize (top.stamp - now).bmod (2 ^ 32) = time at hsmall ⊢
  split <;> split <;> omega

/-- A deadline in half a second. -/
theorem getWaitTime_half_second :
    (getWaitTime (Top.ofKey TimerElem.stamp) [⟨0, 500000⟩] 0).toInt = 500000 :=
  ((getWaitTime_iff (Top.ofKey TimerElem.stamp) [⟨0, 500000⟩] ⟨0, 500000⟩ rfl 0).mpr
    ⟨by decide, by decide⟩).trans (by decide)

/-- A deadline in `2 ^ 31` microseconds, not quite 36 minutes.  The time to wait is one
microsecond. -/
theorem getWaitTime_spins :
    (getWaitTime (Top.ofKey TimerElem.stamp) [⟨0, 2 ^ 31⟩] 0).toInt = 1 ∧
      ¬ (2 ^ 31 : ℤ) ≤ 0 ∧ min ((2 ^ 31 : ℤ) - 0) 1000000 = 1000000 := by
  decide

end Hare.Io
