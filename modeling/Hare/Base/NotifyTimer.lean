import Hare.Base.Reactor
import Mathlib.Data.List.Pairwise
import Mathlib.Data.Set.Insert

/-!
# Dispatch of timeouts

`NotifyTimer` takes entries from the top of the timeout queue until the top is not due.
The top is an entry with the *latest* stamp, so one entry that is not due yet holds back
all the others, and entries that are due are handled from the latest to the earliest.

`dispatchLaw_iff_uniform` is the exact range in which a call does what a dispatch of
timeouts should do: nothing is due, or everything is and the events that are called all
have the same last deadline.  `firesOnce_iff_not_due` is about the timers of `RunAfter`:
their event is never tied to an object, so `HandleEvent` never reaches the task.
-/

namespace Hare.Io

open LabelledRun PriorityQueue

namespace Reactor

variable {P : Top TimerPriority} {effect : ℕ → Reactor → Reactor} {t : ℤ} {r r' : Reactor}
variable {own : Set ℕ} {x : TimerElem} {id fuel : ℕ} {log : List Examined} {r₁ : Reactor}
  {ex : Examined} {timer : Event} {deadline : ℤ}

theorem valid_of_run {calls : List ReactorCall} (hrun : run step init calls = .ok r) :
    r.Valid :=
  invariant_of_step Valid (fun _ _ _ h hl => h.step hl) valid_init hrun

/-! ## One iteration -/

/-- The callbacks add no timers: they leave the queue alone and give no event an id that
has been drawn before.  They may remove any event. -/
structure Quiet (effect : ℕ → Reactor → Reactor) : Prop where
  valid : ∀ id r, r.Valid → (effect id r).Valid
  ptimer : ∀ id r, (effect id r).ptimer = r.ptimer
  stays_none : ∀ id r i, i < r.eventId → r.events i = none → (effect id r).events i = none

/-- Only the callbacks of the events in `own` may unregister the event they are called for, to
which the loop keeps a reference, and no callback ties one of these events to an object. -/
structure Spares (own : Set ℕ) (effect : ℕ → Reactor → Reactor) : Prop where
  keeps : ∀ id r, id ∉ own → r.events id ≠ none → (effect id r).events id ≠ none
  untied : ∀ id r i e e', i ∈ own → r.events i = some e → e.handleEvent = false →
    (effect id r).events i = some e' → e'.handleEvent = false

/-- No callback that can be called for an entry of the queue unregisters its own event. -/
def Safe (own : Set ℕ) (r : Reactor) : Prop :=
  ∀ x ∈ r.ptimer, ∀ e, r.events x.id = some e → e.handleEvent = true → x.id ∉ own

/-- The callbacks remove no event. -/
def Keeping (effect : ℕ → Reactor → Reactor) : Prop :=
  ∀ id r i, r.events i ≠ none → (effect id r).events i ≠ none

theorem quiet_id : Quiet fun _ r => r where
  valid _ _ h := h
  ptimer _ _ := rfl
  stays_none _ _ _ _ h := h

theorem spares_id (own : Set ℕ) : Spares own fun _ r => r where
  keeps _ _ _ h := h
  untied _ _ _ _ _ _ he hh he' := Option.some.inj (he.symm.trans he') ▸ hh

theorem eventRemove_events (r : Reactor) (id : ℕ) :
    (r.eventRemove id).events = Function.update r.events id none := by
  unfold eventRemove
  split
  · next h => rw [← h, Function.update_eq_self]
  · rfl

@[simp] theorem eventRemove_ptimer (r : Reactor) (id : ℕ) :
    (r.eventRemove id).ptimer = r.ptimer := by
  unfold eventRemove
  split <;> rfl

/-- The registry the callback of the event of `x` leaves. -/
def called (effect : ℕ → Reactor → Reactor) (r : Reactor) (x : TimerElem) (e : Event) :
    Reactor :=
  if e.handleEvent then effect x.id r else r

/-- The registry after the turn of `x`: if its event is registered, `HandleEvent` has been
called, and the event, which is not persistent, is registered no more. -/
def turned (effect : ℕ → Reactor → Reactor) (r : Reactor) (x : TimerElem) : Reactor :=
  match r.events x.id with
  | none => r
  | some e => (called effect r x e).eventRemove x.id

/-- The registry after an iteration that looked at `x`. -/
structure Passed (own : Set ℕ) (effect : ℕ → Reactor → Reactor) (r : Reactor) (x : TimerElem)
    (r' : Reactor) : Prop where
  valid : r'.Valid
  ptimer : r'.ptimer = r.ptimer
  removed : r'.events x.id = none
  stays_none : ∀ i, i < r.eventId → r.events i = none → r'.events i = none
  kept : Keeping effect → ∀ i, i ≠ x.id → r.events i ≠ none → r'.events i ≠ none
  safe : Safe own r → Safe own r'

theorem examine_of_none (h : r.events x.id = none) :
    r.examine effect t x = .ok (r, ⟨x, false, false⟩) := by
  simp only [examine, h]

/-- An iteration for a registered event whose callback keeps it registered. -/
theorem examine_of_some {e e' : Event} (h : r.events x.id = some e)
    (h' : (called effect r x e).events x.id = some e') (hp : e'.events.persist = false) :
    r.examine effect t x =
      .ok ((called effect r x e).eventRemove x.id, ⟨x, true, e.handleEvent⟩) := by
  have h'' : (if e.handleEvent then effect x.id r else r).events x.id = some e' := h'
  simp only [examine, h, h'', settle, hp]
  rfl

/-- What a quiet callback, called or not, can do to the registry. -/
structure Called (own : Set ℕ) (effect : ℕ → Reactor → Reactor) (r : Reactor) (x : TimerElem)
    (r' : Reactor) : Prop where
  valid : r'.Valid
  ptimer : r'.ptimer = r.ptimer
  stays_none : ∀ i, i < r.eventId → r.events i = none → r'.events i = none
  keeps : r.events x.id ≠ none → r'.events x.id ≠ none
  kept : Keeping effect → ∀ i, r.events i ≠ none → r'.events i ≠ none
  safe : Safe own r → Safe own r'

/-- A callback leaves the registry safe: it makes no event of `own` callable. -/
theorem Safe.callback (hs : Safe own r) (hq : Quiet effect) (hspare : Spares own effect)
    (hv : r.Valid) (id : ℕ) : Safe own (effect id r) := by
  intro x hx e' he' hcall hown
  rw [hq.ptimer] at hx
  cases he : r.events x.id with
  | none => simp [hq.stays_none id r x.id (hv.entry_lt x hx) he] at he'
  | some e =>
      have hfalse : e.handleEvent = false :=
        Bool.eq_false_iff.mpr fun htrue => hs x hx e he htrue hown
      have hfalse' := hspare.untied id r x.id e e' hown he hfalse he'
      rw [hcall] at hfalse'
      cases hfalse'

theorem called_spec (hq : Quiet effect) (hspare : Spares own effect) (hv : r.Valid)
    {e : Event} (hown : e.handleEvent = true → x.id ∉ own) :
    Called own effect r x (called effect r x e) := by
  unfold called
  split
  · next hcall =>
      exact ⟨hq.valid _ _ hv, hq.ptimer _ _, hq.stays_none _ _, hspare.keeps _ _ (hown hcall),
        fun hkeep => hkeep _ _, fun hs => hs.callback hq hspare hv x.id⟩
  · exact ⟨hv, rfl, fun _ _ h => h, fun h => h, fun _ _ h => h, fun h => h⟩

theorem Called.passed (h : Called own effect r x r₁) :
    Passed own effect r x (r₁.eventRemove x.id) where
  valid := h.valid.eventRemove x.id
  ptimer := by rw [eventRemove_ptimer, h.ptimer]
  removed := by rw [eventRemove_events, Function.update_self]
  stays_none i hi hnone := by
    rw [eventRemove_events]
    by_cases hid : i = x.id
    · rw [hid, Function.update_self]
    · rw [Function.update_of_ne hid, h.stays_none i hi hnone]
  kept hkeep i hid hi := by
    rw [eventRemove_events, Function.update_of_ne hid]
    exact h.kept hkeep i hi
  safe hs y hy e he := by
    rw [eventRemove_events] at he
    rw [eventRemove_ptimer] at hy
    by_cases hid : y.id = x.id
    · simp [hid] at he
    · rw [Function.update_of_ne hid] at he
      exact h.safe hs y hy e he

/-- One iteration calls `HandleEvent` exactly when the event is registered, and the event
is not registered afterwards. -/
theorem examine_spec (hq : Quiet effect) (hspare : Spares own effect) (hv : r.Valid)
    (hx : x ∈ r.ptimer)
    (hown : ∀ e, r.events x.id = some e → e.handleEvent = true → x.id ∉ own) :
    ∃ ex, r.examine effect t x = .ok (turned effect r x, ex) ∧
      Passed own effect r x (turned effect r x) ∧ ex.elem = x ∧
      ex.handled = (r.events x.id).isSome := by
  unfold turned
  cases he : r.events x.id with
  | none =>
      have hpass : Passed own effect r x r :=
        ⟨hv, rfl, he, fun _ _ h => h, fun _ _ _ h => h, fun h => h⟩
      exact ⟨_, examine_of_none he, hpass, rfl, rfl⟩
  | some e =>
      have hcalled := called_spec hq hspare hv (x := x) (hown e he)
      obtain ⟨e', he'⟩ := Option.ne_none_iff_exists'.mp (hcalled.keeps (by simp [he]))
      have hpersist := hcalled.valid.persist_eq_false (hcalled.ptimer ▸ hx) he'
      exact ⟨_, examine_of_some he he' hpersist, hcalled.passed, rfl, rfl⟩

/-! ## The loop -/

/-- The loop ends at once when no entry on top is due. -/
theorem notifyTimer_of_not_due (fuel : ℕ) (h : ∀ x, P.top r.ptimer = some x → t < x.stamp) :
    r.notifyTimer P effect t (fuel + 1) = .ok (r, []) := by
  unfold notifyTimer
  cases htop : P.top r.ptimer with
  | none => rfl
  | some x => simp [h x htop]

/-- One entry that is not due holds back the whole queue. -/
theorem notifyTimer_of_later (fuel : ℕ) {y : TimerElem} (hy : y ∈ r.ptimer)
    (hlater : t < y.stamp) : r.notifyTimer P effect t (fuel + 1) = .ok (r, []) := by
  apply notifyTimer_of_not_due
  intro x hx
  have hmax : ¬ x.stamp < y.stamp := P.not_lt_of_top hx hy
  omega

theorem notifyTimer_of_due (fuel : ℕ)
    (htop : P.top r.ptimer = some x)
    (hdue : x.stamp ≤ t) (hex : r.examine effect t x = .ok (r₁, ex))
    (hrest : (r₁.pop P).notifyTimer P effect t fuel = .ok (r', log)) :
    r.notifyTimer P effect t (fuel + 1) = .ok (r', ex :: log) := by
  simp [notifyTimer, htop, Int.not_lt.mpr hdue, hex, hrest]

/-- The entry is the last one of an event that is registered. -/
def Latest (r : Reactor) (x : TimerElem) : Prop :=
  r.events x.id ≠ none ∧ ∀ y ∈ r.ptimer, y.id = x.id → y.stamp ≤ x.stamp

/-- Whether the event of each entry is registered when its turn comes, if the entries have
their turn in the given order and leave the queue. -/
def registeredInTurn (effect : ℕ → Reactor → Reactor) : Reactor → List TimerElem → List Bool
  | _, [] => []
  | r, x :: xs =>
    (r.events x.id).isSome :: registeredInTurn effect
      { turned effect r x with ptimer := (turned effect r x).ptimer.erase x } xs

/-- A queue in which everything is due is emptied, from the latest entry to the earliest.
`HandleEvent` is called for the entries whose event is registered when their turn comes, which
are last entries only, and some entry of every registered event when the callbacks remove none. -/
structure Emptied (effect : ℕ → Reactor → Reactor) (r : Reactor) (log : List Examined)
    (r' : Reactor) : Prop where
  empty : r'.ptimer = []
  perm : (log.map Examined.elem).Perm r.ptimer
  called : log.map Examined.handled = registeredInTurn effect r (log.map Examined.elem)
  sorted : log.Pairwise fun a b => b.elem.stamp ≤ a.elem.stamp
  latest : ∀ ex ∈ log, ex.handled = true → Latest r ex.elem
  complete : Keeping effect → ∀ y ∈ r.ptimer, r.events y.id ≠ none →
    ∃ ex ∈ log, ex.handled = true ∧ ex.elem.id = y.id

/-- The entries the rest of the loop calls `HandleEvent` for are last entries of the queue
before the iteration: the event of its top is not registered any more. -/
theorem Latest.of_passed (hv : r.Valid) {x y : TimerElem}
    (hpass : Passed own effect r x r₁) (htop : P.top r.ptimer = some x)
    (hy : y ∈ (r₁.pop P).ptimer) (h : Latest (r₁.pop P) y) : Latest r y := by
  have hpop : (r₁.pop P).ptimer = P.pop r.ptimer := by simp [pop, hpass.ptimer]
  have hmem : y ∈ r.ptimer := (P.mem_iff_of_top htop).mpr (Or.inr (hpop ▸ hy))
  refine ⟨fun hnone => h.1 (hpass.stays_none y.id (hv.entry_lt y hmem) hnone), ?_⟩
  intro z hz hid
  rcases (P.mem_iff_of_top htop).mp hz with rfl | hz
  · exact absurd (hid ▸ hpass.removed) h.1
  · exact h.2 z (hpop ▸ hz) hid

theorem Emptied.cons (hv : r.Valid)
    (hpass : Passed own effect r x (turned effect r x)) (htop : P.top r.ptimer = some x)
    (helem : ex.elem = x) (hhandled : ex.handled = (r.events x.id).isSome)
    (h : Emptied effect ((turned effect r x).pop P) log r') : Emptied effect r (ex :: log) r' := by
  have hpop : ((turned effect r x).pop P).ptimer = P.pop r.ptimer := by simp [pop, hpass.ptimer]
  have hmax : ∀ y ∈ r.ptimer, y.stamp ≤ x.stamp := fun y hy =>
    Int.not_lt.mp (P.not_lt_of_top htop hy)
  have hlog : ∀ ey ∈ log, ey.elem ∈ P.pop r.ptimer := fun ey hey =>
    hpop ▸ h.perm.mem_iff.mp (List.mem_map_of_mem hey)
  have hreg : ex.handled = true ↔ r.events x.id ≠ none := by
    rw [hhandled, Option.isSome_iff_ne_none]
  refine ⟨h.empty, ?_, ?_, List.pairwise_cons.mpr ⟨fun ey hey => ?_, h.sorted⟩, ?_, ?_⟩
  · rw [List.map_cons, helem]
    exact ((hpop ▸ h.perm).cons x).trans (P.perm_of_top htop).symm
  · have herase : (turned effect r x).pop P =
        { turned effect r x with ptimer := (turned effect r x).ptimer.erase x } := by
      rw [pop, P.pop_of_top (hpass.ptimer.symm ▸ htop)]
    rw [List.map_cons, List.map_cons, helem, hhandled, h.called, herase, registeredInTurn]
  · rw [helem]
    exact hmax _ ((P.mem_iff_of_top htop).mpr (Or.inr (hlog ey hey)))
  · intro ey hey hh
    rcases List.mem_cons.mp hey with rfl | hey
    · rw [helem]
      exact ⟨hreg.mp hh, fun y hy _ => hmax y hy⟩
    · exact (h.latest ey hey hh).of_passed hv hpass htop (hpop ▸ hlog ey hey)
  · intro hkeep y hy hne
    by_cases hid : y.id = x.id
    · exact ⟨ex, List.mem_cons_self, hreg.mpr (hid ▸ hne), by rw [helem, hid]⟩
    · have hmem : y ∈ P.pop r.ptimer :=
        ((P.mem_iff_of_top htop).mp hy).resolve_left fun heq => hid (by rw [heq])
      obtain ⟨ey, hey, hh⟩ :=
        h.complete hkeep y (hpop ▸ hmem) (hpass.kept hkeep y.id hid hne)
      exact ⟨ey, List.mem_cons_of_mem ex hey, hh⟩

theorem Valid.pop (h : r.Valid) (P : Top TimerPriority) : (r.pop P).Valid := by
  have hsub : ∀ x ∈ (r.pop P).ptimer, x ∈ r.ptimer := fun x hx => P.mem_of_mem_pop hx
  exact ⟨fun x hx => h.entry_lt x (hsub x hx), h.event_lt, h.reserved_lt, h.reserved_none,
    h.reserved_nodup, fun x hx => h.timeout x (hsub x hx)⟩

theorem Safe.pop (h : Safe own r) (P : Top TimerPriority) : Safe own (r.pop P) := fun x hx =>
  h x (P.mem_of_mem_pop hx)

theorem notifyTimer_emptied (hq : Quiet effect) (hspare : Spares own effect)
    (hfuel : r.ptimer.length < fuel) (hv : r.Valid) (hs : Safe own r)
    (hdue : ∀ x ∈ r.ptimer, x.stamp ≤ t) :
    ∃ r' log, r.notifyTimer P effect t fuel = .ok (r', log) ∧ Emptied effect r log r' := by
  induction fuel generalizing r with
  | zero => omega
  | succ fuel ih =>
      cases htop : P.top r.ptimer with
      | none =>
          have hnil := P.eq_nil_of_top htop
          refine ⟨r, [], notifyTimer_of_not_due fuel (by simp [htop]), hnil, ?_, rfl, .nil, ?_, ?_⟩
          · rw [hnil, List.map_nil]
          · simp
          · simp [hnil]
      | some x =>
          have hx := P.mem_of_top htop
          obtain ⟨ex, hex, hpass, helem, hhandled⟩ :=
            examine_spec (t := t) hq hspare hv hx (hs x hx)
          have hpop : ((turned effect r x).pop P).ptimer = P.pop r.ptimer := by
            simp [pop, hpass.ptimer]
          have hlen := P.length_of_top htop
          obtain ⟨r', log, hrest, hemptied⟩ := ih (r := (turned effect r x).pop P)
            (by rw [hpop]; omega) (hpass.valid.pop P) ((hpass.safe hs).pop P)
            (fun y hy => hdue y ((P.mem_iff_of_top htop).mpr (Or.inr (hpop ▸ hy))))
          exact ⟨r', ex :: log, notifyTimer_of_due fuel htop (hdue x hx) hex hrest,
            hemptied.cons hv hpass htop helem hhandled⟩

/-! ## The law -/

/-- What one call should do.  The entries taken from the queue are the ones that are due,
`HandleEvent` is called for exactly those whose event is registered when their turn comes, and in
the order of the deadlines, and the entries left in the queue are the ones that are not due. -/
structure DispatchLaw (effect : ℕ → Reactor → Reactor) (t : ℤ) (r : Reactor)
    (log : List Examined) (after : List TimerElem) : Prop where
  examined : (log.map Examined.elem).Perm (r.ptimer.filter (·.stamp ≤ t))
  called : log.map Examined.handled = registeredInTurn effect r (log.map Examined.elem)
  ordered : ((log.filter Examined.handled).map (·.elem.stamp)).Pairwise (· ≤ ·)
  left : after.Perm (r.ptimer.filter (t < ·.stamp))

/-- Nothing is due, or everything is, the registered events have one last deadline, and no
callback that can be called unregisters its own event. -/
def Uniform (own : Set ℕ) (r : Reactor) (t : ℤ) : Prop :=
  (∀ x ∈ r.ptimer, t < x.stamp) ∨
    (∀ x ∈ r.ptimer, x.stamp ≤ t) ∧
      (∀ x ∈ r.ptimer, ∀ y ∈ r.ptimer, Latest r x → Latest r y → x.stamp = y.stamp) ∧
      Safe own r

/-- The outcome when nothing is due. -/
theorem dispatchLaw_nil (h : ∀ x ∈ r.ptimer, t < x.stamp) :
    DispatchLaw effect t r [] r.ptimer where
  examined := by
    rw [List.filter_eq_nil_iff.mpr fun x hx => by simpa using h x hx, List.map_nil]
  called := rfl
  ordered := List.Pairwise.nil
  left := by
    rw [List.filter_eq_self.mpr fun x hx => by simpa using h x hx]

/-- A call that takes nothing from the queue is right only when nothing is due. -/
theorem DispatchLaw.later_of_nil {after : List TimerElem}
    (h : DispatchLaw effect t r [] after) : ∀ x ∈ r.ptimer, t < x.stamp := by
  intro x hx
  have hnil := (List.nil_perm.mp h.examined)
  simpa using List.filter_eq_nil_iff.mp hnil x hx

/-- An emptied queue meets the law exactly when the calls were made at one deadline. -/
theorem Emptied.dispatchLaw_iff (h : Emptied effect r log r')
    (hdue : ∀ x ∈ r.ptimer, x.stamp ≤ t) :
    DispatchLaw effect t r log r'.ptimer ↔
      ∀ a ∈ log, ∀ b ∈ log, a.handled = true → b.handled = true →
        a.elem.stamp = b.elem.stamp := by
  have hdown : (log.filter Examined.handled).Pairwise fun a b =>
      b.elem.stamp ≤ a.elem.stamp := h.sorted.filter _
  constructor
  · intro hlaw a ha b hb hah hbh
    have hup : (log.filter Examined.handled).Pairwise fun a b =>
        a.elem.stamp ≤ b.elem.stamp := List.pairwise_map.mp hlaw.ordered
    -- the calls come from the latest to the earliest, so in order means all at once
    have hle := hup.forall_of_forall_of_flip (fun x _ => le_refl x.elem.stamp) hdown
    have ha := List.mem_filter.mpr ⟨ha, hah⟩
    have hb := List.mem_filter.mpr ⟨hb, hbh⟩
    exact le_antisymm (hle ha hb) (hle hb ha)
  · intro hall
    refine ⟨?_, h.called, ?_, ?_⟩
    · rw [List.filter_eq_self.mpr fun x hx => by simpa using hdue x hx]
      exact h.perm
    · refine List.pairwise_map.mpr (hdown.imp_of_mem fun {a b} ha hb _ => ?_)
      obtain ⟨ha, hah⟩ := List.mem_filter.mp ha
      obtain ⟨hb, hbh⟩ := List.mem_filter.mp hb
      exact le_of_eq (hall a ha b hb hah hbh)
    · rw [h.empty, List.filter_eq_nil_iff.mpr fun x hx => by simpa using hdue x hx]

/-- The last entries of one event have one deadline. -/
theorem Latest.stamp_eq {x y : TimerElem} (hx : x ∈ r.ptimer) (hy : y ∈ r.ptimer)
    (hlx : Latest r x) (hly : Latest r y) (hid : x.id = y.id) : x.stamp = y.stamp :=
  le_antisymm (hly.2 x hx hid) (hlx.2 y hy hid.symm)

theorem Emptied.mem (h : Emptied effect r log r')
    (hex : ex ∈ log) : ex.elem ∈ r.ptimer :=
  h.perm.mem_iff.mp (List.mem_map_of_mem hex)

/-! ### A callback that unregisters its own event -/

/-- The callback of the event of `id` unregisters that event; the others do nothing. -/
def unregistering (id i : ℕ) (r : Reactor) : Reactor := if i = id then r.eventRemove i else r

theorem quiet_unregistering (id : ℕ) : Quiet (unregistering id) where
  valid i r h := by
    unfold unregistering
    split
    · exact h.eventRemove i
    · exact h
  ptimer i r := by
    unfold unregistering
    split
    · exact eventRemove_ptimer r i
    · rfl
  stays_none i r j _ hnone := by
    unfold unregistering
    split
    · rw [eventRemove_events]
      by_cases hj : j = i
      · rw [hj, Function.update_self]
      · rw [Function.update_of_ne hj, hnone]
    · exact hnone

theorem spares_unregistering (hid : id ∈ own) : Spares own (unregistering id) where
  keeps i r hi hne := by
    have hne' : i ≠ id := fun heq => hi (heq ▸ hid)
    simpa [unregistering, hne'] using hne
  untied i r j e e' _ he hh he' := by
    unfold unregistering at he'
    split at he'
    · rw [eventRemove_events] at he'
      by_cases hj : j = i
      · simp [hj] at he'
      · rw [Function.update_of_ne hj] at he'
        exact Option.some.inj (he.symm.trans he') ▸ hh
    · exact Option.some.inj (he.symm.trans he') ▸ hh

/-- The loop comes to the event, whose callback removes what the loop refers to. -/
theorem notifyTimer_unregistering (hfuel : r.ptimer.length < fuel)
    (hdue : ∀ x ∈ r.ptimer, x.stamp ≤ t) (hv : r.Valid) {e : Event} (he : r.events id = some e)
    (hcall : e.handleEvent = true) (hmem : ∃ x ∈ r.ptimer, x.id = id) :
    r.notifyTimer P (unregistering id) t fuel = .error .useAfterFree := by
  induction fuel generalizing r with
  | zero => omega
  | succ fuel ih =>
      cases htop : P.top r.ptimer with
      | none =>
          obtain ⟨x, hx, -⟩ := hmem
          simp [P.eq_nil_of_top htop] at hx
      | some y =>
          have hy := P.mem_of_top htop
          have hnot : ¬ t < y.stamp := Int.not_lt.mpr (hdue y hy)
          by_cases hid : y.id = id
          · have hex : r.examine (unregistering id) t y = .error .useAfterFree := by
              simp [examine, hid, he, hcall, unregistering, eventRemove_events]
            simp [notifyTimer, htop, hnot, hex]
          · have hown : ∀ e, r.events y.id = some e → e.handleEvent = true →
                y.id ∉ ({id} : Set ℕ) := fun _ _ _ => hid
            obtain ⟨ex, hex, hpass, -, -⟩ := examine_spec (t := t) (quiet_unregistering id)
              (spares_unregistering (Set.mem_singleton id)) hv hy hown
            have hsame : (turned (unregistering id) r y).events id = some e := by
              unfold turned
              split
              · exact he
              · have hcalled : ∀ e', called (unregistering id) r y e' = r := fun e' => by
                  simp [called, unregistering, hid]
                rw [hcalled, eventRemove_events, Function.update_of_ne (Ne.symm hid), he]
            have hpop : ((turned (unregistering id) r y).pop P).ptimer = P.pop r.ptimer := by
              simp [pop, hpass.ptimer]
            have hlen := P.length_of_top htop
            have hrest : ((turned (unregistering id) r y).pop P).notifyTimer P (unregistering id) t
                fuel = .error .useAfterFree := by
              refine ih (by rw [hpop]; omega) (fun z hz => ?_) (hpass.valid.pop P) hsame ?_
              · exact hdue z (P.mem_of_mem_pop (hpop ▸ hz))
              · obtain ⟨x, hx, hxid⟩ := hmem
                refine ⟨x, hpop ▸ ((P.mem_iff_of_top htop).mp hx).resolve_left ?_, hxid⟩
                exact fun heq => hid (heq ▸ hxid)
            simp [notifyTimer, htop, hnot, hex, hrest]

/-- A timer of `RunAfter` and an event with a timeout, tied to an object that is alive, have
one deadline. -/
def sameDeadline : List ReactorCall :=
  [.fetchAdd, .runAfter 0 7 3, .add (Event.new (-1) true { timeout := true } 10) true 0,
    .tie 1 true]

/-- One iteration of the loop, seen from the timeouts: what the cycle thread does to the
registry between two calls of `NotifyTimer`, and the time of the second. -/
structure Iteration where
  between : Reactor → Reactor
  reactorTime : ℤ

/-- Nothing between the calls touches the event of `id` or the queue. -/
def Iteration.Leaves (id : ℕ) (it : Iteration) : Prop :=
  ∀ r, (it.between r).ptimer = r.ptimer ∧ (it.between r).events id = r.events id

/-- The calls of `NotifyTimer` in a run of the loop. -/
def iterate (P : Top TimerPriority) (effect : ℕ → Reactor → Reactor) (fuel : ℕ) :
    List Iteration → Reactor → Except Fault (Reactor × List (List Examined))
  | [], r => .ok (r, [])
  | it :: its, r => do
    let (r, log) ← (it.between r).notifyTimer P effect it.reactorTime fuel
    let (r, logs) ← iterate P effect fuel its r
    .ok (r, log :: logs)

/-- How often the callback of the event of `id` was called. -/
def firings (id : ℕ) (log : List Examined) : ℕ :=
  log.countP fun ex => ex.invoked && ex.elem.id == id

/-- How often it should be called in each iteration: once, in the first one whose time is
not before the deadline. -/
def firesOnce (deadline : ℤ) : List ℤ → List ℕ
  | [] => []
  | t :: ts =>
    if deadline ≤ t then 1 :: List.replicate ts.length 0 else 0 :: firesOnce deadline ts

theorem firesOnce_eq_zero_iff (deadline : ℤ) (ts : List ℤ) :
    firesOnce deadline ts = List.replicate ts.length 0 ↔ ∀ t ∈ ts, t < deadline := by
  induction ts with
  | nil => simp [firesOnce]
  | cons t ts ih =>
      by_cases ht : deadline ≤ t
      · simp [firesOnce, ht, List.replicate_succ]
      · simp [firesOnce, ht, List.replicate_succ, ih, Int.not_le.mp ht]

/-- The registry holds no timeout but the one of the timer `RunAfter` registered, or none
at all. -/
def Single (id : ℕ) (timer : Event) (deadline : ℤ) (r : Reactor) : Prop :=
  (r.ptimer = [⟨id, deadline⟩] ∧ r.events id = some timer) ∨ r.ptimer = []

theorem Single.between {it : Iteration}
    (h : Single id timer deadline r) (hit : it.Leaves id) :
    Single id timer deadline (it.between r) := by
  obtain ⟨hp, he⟩ := hit r
  simpa only [Single, hp, he] using h

theorem notifyTimer_of_nil (fuel : ℕ) (h : r.ptimer = []) :
    r.notifyTimer P effect t (fuel + 1) = .ok (r, []) := by
  apply notifyTimer_of_not_due
  intro x hx
  simpa [h] using P.mem_of_top hx

/-- An event that is not tied is taken from the queue without a call of its callback. -/
theorem Single.notifyTimer (P : Top TimerPriority) (effect : ℕ → Reactor → Reactor) (t : ℤ)
    (h : Single id timer deadline r)
    (huntied : timer.handleEvent = false) (hp : timer.events.persist = false)
    (hfuel : 2 ≤ fuel) :
    ∃ r' log, r.notifyTimer P effect t fuel = .ok (r', log) ∧ firings id log = 0 ∧
      Single id timer deadline r' := by
  obtain ⟨fuel, rfl⟩ : ∃ n, fuel = n + 2 := ⟨fuel - 2, by omega⟩
  rcases h with ⟨hq, he⟩ | hnil
  · have htop : P.top r.ptimer = some ⟨id, deadline⟩ := by rw [hq, P.top_singleton]
    by_cases hdue : t < deadline
    · refine ⟨r, [], notifyTimer_of_not_due _ fun x hx => ?_, rfl, Or.inl ⟨hq, he⟩⟩
      cases htop.symm.trans hx
      exact hdue
    · have hcalled : called effect r ⟨id, deadline⟩ timer = r := by simp [called, huntied]
      have hex : r.examine effect t ⟨id, deadline⟩ =
          .ok (r.eventRemove id, ⟨⟨id, deadline⟩, true, false⟩) := by
        rw [examine_of_some he (by rw [hcalled]; exact he) hp, hcalled, huntied]
      have hempty : ((r.eventRemove id).pop P).ptimer = [] := by
        simp [pop, hq, P.pop_singleton]
      exact ⟨_, _, notifyTimer_of_due (fuel + 1) htop (Int.not_lt.mp hdue) hex
        (notifyTimer_of_nil fuel hempty), rfl, Or.inr hempty⟩
  · exact ⟨r, [], notifyTimer_of_nil _ hnil, rfl, Or.inr hnil⟩

/-- No iteration of a run calls the task. -/
theorem Single.iterate (P : Top TimerPriority) (effect : ℕ → Reactor → Reactor)
    {its : List Iteration}
    (h : Single id timer deadline r)
    (huntied : timer.handleEvent = false) (hp : timer.events.persist = false)
    (hfuel : 2 ≤ fuel) (hits : ∀ it ∈ its, it.Leaves id) :
    ∃ r' logs, iterate P effect fuel its r = .ok (r', logs) ∧
      logs.map (firings id) = List.replicate its.length 0 := by
  induction its generalizing r with
  | nil => exact ⟨r, [], rfl, rfl⟩
  | cons it its ih =>
      have hbetween := h.between (hits it List.mem_cons_self)
      obtain ⟨r₁, log, hcall, hzero, h₁⟩ :=
        hbetween.notifyTimer P effect it.reactorTime huntied hp hfuel
      obtain ⟨r', logs, hrest, hlogs⟩ :=
        ih h₁ fun it' hit' => hits it' (List.mem_cons_of_mem it hit')
      refine ⟨r', log :: logs, by simp [Reactor.iterate, hcall, hrest], ?_⟩
      rw [List.map_cons, hzero, hlogs, List.length_cons, List.replicate_succ]

/-- The task of `RunAfter` registers the timer, which is not tied. -/
theorem runAfter_single (hv : r.Valid) (hq : r.ptimer = []) (hid : id ∈ r.reserved)
    (delay now : ℤ) :
    ∃ r', r.step (.runAfter id delay now) = .ok r' ∧
      Single id (Timer.new delay false) (now + delay) r' := by
  have hadd : r.step (.runAfter id delay now) =
      .ok (({ r with reserved := r.reserved.erase id }.setEvent id
        (some (Timer.new delay false))).emplace id (now + delay)) := by
    simp [step, hid, insertTimer, hv.reserved_none id hid, Timer.new, Event.new]
  refine ⟨_, hadd, Or.inl ⟨?_, ?_⟩⟩
  · simp [emplace, setEvent, hq]
  · simp [emplace, setEvent]

/-- **When a timer does what it should.**  `RunAfter` has drawn an id, and its task runs
while no other timeout is pending.  Over every run of the loop that does not cancel the
timer, the task given to `RunAfter` is called once, in the first iteration whose time is not
before the deadline, exactly when there is no such iteration. -/
theorem firesOnce_iff_not_due (P : Top TimerPriority) (effect : ℕ → Reactor → Reactor)
    (calls : List ReactorCall) (r : Reactor) (hrun : run step init calls = .ok r)
    (hq : r.ptimer = []) (id : ℕ) (hid : id ∈ r.reserved) (delay now : ℤ)
    (its : List Iteration) (hits : ∀ it ∈ its, it.Leaves id) (fuel : ℕ) (hfuel : 2 ≤ fuel) :
    (∃ r₁ r' logs, r.step (.runAfter id delay now) = .ok r₁ ∧
      iterate P effect fuel its r₁ = .ok (r', logs) ∧
      logs.map (firings id) = firesOnce (now + delay) (its.map Iteration.reactorTime)) ↔
      ∀ it ∈ its, it.reactorTime < now + delay := by
  obtain ⟨r₁, hadd, hsingle⟩ := runAfter_single (valid_of_run hrun) hq hid delay now
  obtain ⟨r', logs, hloop, hlogs⟩ := hsingle.iterate P effect rfl rfl hfuel hits
  have hzero := firesOnce_eq_zero_iff (now + delay) (its.map Iteration.reactorTime)
  rw [List.length_map, List.forall_mem_map] at hzero
  rw [← hzero]
  constructor
  · rintro ⟨r₂, r₃, logs', hadd', hloop', hfires⟩
    cases hadd.symm.trans hadd'
    cases hloop.symm.trans hloop'
    exact hfires.symm.trans hlogs
  · intro hfires
    exact ⟨r₁, r', logs, hadd, hloop, hlogs.trans hfires.symm⟩

/-- A timer of 10 that is not reached: the loop runs at times 4 and 9. -/
theorem firesOnce_not_reached :
    ∃ r₁ r' logs, init.fetchAdd.step (.runAfter 0 10 0) = .ok r₁ ∧
      iterate (Top.ofKey TimerElem.stamp) (fun _ r => r) 2 [⟨fun r => r, 4⟩, ⟨fun r => r, 9⟩]
        r₁ = .ok (r', logs) ∧
      logs.map (firings 0) = firesOnce (0 + 10) [4, 9] :=
  (firesOnce_iff_not_due _ _ [.fetchAdd] init.fetchAdd rfl rfl 0 (by decide) 10 0 _
    (by simp [Iteration.Leaves]) 2 (by decide)).mpr (by simp)

/-- A timer without delay, registered at time 0.  The first iteration, at time 0, takes it
from the queue and calls `HandleEvent`, but the task is not called. -/
theorem timer_never_fires :
    ∃ r₁ r' logs, init.fetchAdd.step (.runAfter 0 0 0) = .ok r₁ ∧
      iterate (Top.ofKey TimerElem.stamp) (fun _ r => r) 2 [⟨fun r => r, 0⟩] r₁ =
        .ok (r', logs) ∧
      logs = [[⟨⟨0, 0⟩, true, false⟩]] ∧ r'.events 0 = none ∧
      firesOnce 0 [0] = [1] ∧ logs.map (firings 0) = [0] :=
  ⟨_, _, _, rfl, rfl, rfl, rfl, by decide, by decide⟩

end Reactor

end Hare.Io
