import Hare.Lib.BoundedLoop
import Hare.Lib.OrderedMap
import Hare.Net.Stages

/-!
# Stopping a worker

`IOPool::Stop` gives the cycle of each item a task that goes through the sessions of the item and
closes them.  `ForceClose` of a session that is connected calls `HandleClose`, and this the
callback which the server has installed: it erases the session from the table the loop is going
through, at once, because it is on the cycle thread.  The iterator of the loop is at the erased
entry then.  So the task gets through the table only if no session of it has to be closed.

The connect callback of a session is code of the user, and an argument here: it can do anything to
the item, and need not return.

`PoolItem.Shows` connects the table with the worker of `Hare.Net.Session`: closing a session does
the same to both, and between two tasks of the worker all sessions of its table are to be closed
(`PoolItem.Shows.active`).  So the tables of `OpenSessions` are those the task finds.
-/

namespace Hare.Net

open LabelledRun BoundedLoop

/-- `ForceClose` closes the session. -/
def Session.active (s : Session) : Bool :=
  match s.state with
  | .connected | .disconnecting => true
  | .connecting | .disconnected => false

theorem Session.active_iff {s : Session} :
    s.active = true ↔ s.state = .connected ∨ s.state = .disconnecting := by
  rw [active]
  cases s.state <;> simp

/-- A worker, as far as the task of `Stop` touches it. -/
structure PoolItem where
  /-- The sessions by descriptor. -/
  sessions : OrderedMap ℕ Session
  /-- `Exit` of the cycle has been called. -/
  exited : Bool

namespace PoolItem

/-- The callback of `NewSession` for a session that is destroyed. -/
def destroy (item : PoolItem) (fd : ℕ) : Except Fault PoolItem :=
  if fd ∈ item.sessions.keys then .ok { item with sessions := item.sessions.erase fd }
  else .error .assertFailed

/-- `HandleClose`. -/
def handleClose (connect : ℕ → PoolItem → Except Fault PoolItem) (item : PoolItem) (fd : ℕ) :
    Except Fault PoolItem := do
  let item ← connect fd { item with sessions := item.sessions.adjust fd Session.close }
  item.destroy fd

/-- `ForceClose`, through the pointer in the table. -/
def forceClose (connect : ℕ → PoolItem → Except Fault PoolItem) (item : PoolItem) (fd : ℕ) :
    Except Fault PoolItem :=
  match item.sessions.find? fd with
  | none => .error .useAfterFree
  | some session => if session.active then item.handleClose connect fd else .ok item

/-- The state of the loop. -/
structure Closing where
  iter : Option ℕ
  item : PoolItem
  /-- The sessions `ForceClose` has been called on. -/
  closed : List ℕ

/-- A round of the loop: advancing an iterator whose entry has been erased is undefined. -/
def closeStep (connect : ℕ → PoolItem → Except Fault PoolItem) (s : Closing) :
    Except Fault (Closing ⊕ Closing) :=
  match s.iter with
  | none => .ok (.inr s)
  | some fd => do
    let item ← s.item.forceClose connect fd
    match item.sessions.next fd with
    | none => .error .useAfterFree
    | some iter => .ok (.inl ⟨iter, item, s.closed ++ [fd]⟩)

/-- The task of `Stop`: the sessions `ForceClose` has been called on, and the item. -/
def stop (fuel : ℕ) (connect : ℕ → PoolItem → Except Fault PoolItem) (item : PoolItem) :
    Except Fault (List ℕ × PoolItem) := do
  let s ← loop .diverges (closeStep connect) fuel ⟨item.sessions.begin, item, []⟩
  pure (s.closed, ⟨.empty, true⟩)

/-- The task returns, and has called `ForceClose` on each session once. -/
def ClosesEach (connect : ℕ → PoolItem → Except Fault PoolItem) (item : PoolItem) : Prop :=
  ∃ fuel closed item', item.stop fuel connect = .ok (closed, item') ∧ closed.Nodup ∧
    ∀ fd, fd ∈ closed ↔ fd ∈ item.sessions.keys

variable {connect : ℕ → PoolItem → Except Fault PoolItem} {item : PoolItem} {s : Closing} {fd : ℕ}

/-! ## One round -/

/-- A session that has been closed is not in the table any more, whatever the callback does. -/
theorem not_mem_of_handleClose {item' : PoolItem}
    (h : item.handleClose connect fd = .ok item') : fd ∉ item'.sessions.keys := by
  rw [handleClose] at h
  obtain ⟨called, -, h⟩ := bind_eq_ok h
  rw [destroy] at h
  split at h
  case isTrue =>
    cases h
    exact called.sessions.not_mem_keys_erase fd
  case isFalse => cases h

/-- The round that closes a session does not get to the next one. -/
theorem closeStep_active {session : Session} (hiter : s.iter = some fd)
    (hfind : s.item.sessions.find? fd = some session) (hact : session.active = true)
    (r : Closing ⊕ Closing) : closeStep connect s ≠ .ok r := by
  intro h
  rw [closeStep, hiter] at h
  simp only [forceClose, hfind, if_pos hact] at h
  obtain ⟨item', hc, h⟩ := bind_eq_ok h
  rw [OrderedMap.next_eq_none (not_mem_of_handleClose hc)] at h
  cases h

/-- The round of any other session advances. -/
theorem closeStep_inactive {session : Session} {before rest : List ℕ} (hiter : s.iter = some fd)
    (hfind : s.item.sessions.find? fd = some session) (hact : ¬ session.active = true)
    (hkeys : s.item.sessions.keys = before ++ fd :: rest) :
    closeStep connect s = .ok (.inl ⟨rest.head?, s.item, s.closed ++ [fd]⟩) := by
  rw [closeStep, hiter]
  simp only [forceClose, hfind, if_neg hact, ok_bind, OrderedMap.next_eq hkeys]

/-! ## The loop -/

/-- The loop is at the beginning of `rest`, and has not changed the item. -/
structure At (item : PoolItem) (rest : List ℕ) (s : Closing) : Prop where
  item_eq : s.item = item
  keys_eq : item.sessions.keys = s.closed ++ rest
  iter_eq : s.iter = rest.head?

theorem at_begin (item : PoolItem) :
    At item item.sessions.keys ⟨item.sessions.begin, item, []⟩ := ⟨rfl, rfl, rfl⟩

/-- The session the loop is at. -/
theorem At.exists_find? {rest : List ℕ} (h : At item (fd :: rest) s) :
    ∃ session, s.item.sessions.find? fd = some session := by
  refine Option.isSome_iff_exists.mp (OrderedMap.isSome_find?.mpr ?_)
  rw [h.item_eq, h.keys_eq]
  exact List.mem_append_right _ List.mem_cons_self

theorem At.closeStep {rest : List ℕ} {session : Session} (h : At item (fd :: rest) s)
    (hfind : s.item.sessions.find? fd = some session) (hact : ¬ session.active = true)
    (connect : ℕ → PoolItem → Except Fault PoolItem) :
    closeStep connect s = .ok (.inl ⟨rest.head?, s.item, s.closed ++ [fd]⟩) ∧
      At item rest ⟨rest.head?, s.item, s.closed ++ [fd]⟩ := by
  refine ⟨closeStep_inactive h.iter_eq hfind hact (h.item_eq ▸ h.keys_eq), h.item_eq, ?_, rfl⟩
  rw [h.keys_eq, List.append_assoc, List.singleton_append]

/-- A session to be closed stops the loop. -/
theorem loop_ne_ok_of_active {session : Session} (hfind : item.sessions.find? fd = some session)
    (hact : session.active = true) (fuel : ℕ) (r : Closing) :
    loop .diverges (closeStep connect) fuel ⟨item.sessions.begin, item, []⟩ ≠ .ok r := by
  -- the session is ahead of the loop until the loop gets to it
  refine loop_ne_ok (I := fun s => ∃ rest, At item rest s ∧ fd ∈ rest) ?_ ?_ fuel r
  · rintro s r ⟨rest, hat, hfd⟩ hr
    cases rest with
    | nil => cases hfd
    | cons k rest =>
        obtain ⟨here, hhere⟩ := hat.exists_find?
        by_cases hk : here.active = true
        · exact absurd hr (closeStep_active hat.iter_eq hhere hk r)
        · obtain ⟨hstep, hat'⟩ := hat.closeStep hhere hk connect
          rw [hstep] at hr
          cases hr
          refine ⟨_, rfl, rest, hat', (List.mem_cons.mp hfd).resolve_left ?_⟩
          rintro rfl
          rw [hat.item_eq, hfind] at hhere
          cases hhere
          exact hk hact
  · refine ⟨_, at_begin item, OrderedMap.isSome_find?.mp ?_⟩
    rw [hfind]
    rfl

/-- Without such a session it gets to the end. -/
theorem loop_eq_of_inactive {rest : List ℕ} {fuel : ℕ}
    (hact : ∀ fd session, item.sessions.find? fd = some session → ¬ session.active = true)
    (hat : At item rest s) (hfuel : rest.length < fuel) :
    loop .diverges (closeStep connect) fuel s = .ok ⟨none, item, item.sessions.keys⟩ := by
  induction rest generalizing s fuel with
  | nil =>
      obtain ⟨fuel, rfl⟩ : ∃ k, fuel = k + 1 := Nat.exists_eq_succ_of_ne_zero (by omega)
      obtain ⟨iter, item', closed⟩ := s
      obtain ⟨rfl, hkeys, rfl⟩ := hat
      rw [loop, hkeys, List.append_nil]
      rfl
  | cons fd rest ih =>
      obtain ⟨fuel, rfl⟩ : ∃ k, fuel = k + 1 := Nat.exists_eq_succ_of_ne_zero (by omega)
      obtain ⟨session, hfind⟩ := hat.exists_find?
      obtain ⟨hstep, hat'⟩ := hat.closeStep hfind (hact fd session (hat.item_eq ▸ hfind)) connect
      rw [loop, hstep]
      exact ih hat' (by simpa using hfuel)

/-! ## The task -/

/-- **The task gets through the table** exactly when none of the sessions has to be closed. -/
theorem closesEach_iff :
    ClosesEach connect item ↔
      ∀ fd session, item.sessions.find? fd = some session → ¬ session.active = true := by
  constructor
  · rintro ⟨fuel, closed, item', hstop, -⟩ fd session hfind hact
    obtain ⟨r, hr, -⟩ := bind_eq_ok hstop
    exact loop_ne_ok_of_active hfind hact fuel r hr
  · intro hact
    refine ⟨item.sessions.keys.length + 1, item.sessions.keys, ⟨.empty, true⟩, ?_,
      item.sessions.nodup_keys, fun fd => Iff.rfl⟩
    rw [stop, loop_eq_of_inactive hact (at_begin item) (Nat.lt_succ_self _)]
    rfl

/-- **Sessions that are connected or disconnecting** are closed, each once, exactly when there are
none. -/
theorem stop_closesEach_iff (connect : ℕ → PoolItem → Except Fault PoolItem) (item : PoolItem)
    (hactive : ∀ e ∈ item.sessions.entries,
      e.2.state = .connected ∨ e.2.state = .disconnecting) :
    ClosesEach connect item ↔ item.sessions.entries = [] := by
  rw [closesEach_iff]
  constructor
  · intro h
    refine List.eq_nil_iff_forall_not_mem.mpr fun e he => ?_
    obtain ⟨session, hfind⟩ := Option.isSome_iff_exists.mp
      (OrderedMap.isSome_find?.mpr (OrderedMap.mem_keys he))
    exact h e.1 session hfind (Session.active_iff.mpr (hactive _ (OrderedMap.mem_of_find? hfind)))
  · intro hnil fd session hfind
    have := OrderedMap.mem_of_find? hfind
    rw [hnil] at this
    cases this

/-- The item of a worker that serves nobody, and one with a session that is being closed and
another that is not. -/
theorem stop_idle_not_active :
    ClosesEach (fun _ item => .ok item) ⟨.empty, false⟩ ∧
      ¬ ClosesEach (fun _ item => .ok item)
        ⟨⟨[(3, { Session.new with state := .disconnecting }),
          (5, { Session.new with state := .connected })], by simp⟩, false⟩ := by
  constructor
  · exact (stop_closesEach_iff _ ⟨.empty, false⟩ (by simp [OrderedMap.empty])).mpr rfl
  · intro h
    exact List.cons_ne_nil _ _ ((stop_closesEach_iff _ _ (by simp)).mp h)

/-- A worker with one session, and a callback that does nothing: the session is closed, erased, and
the loop goes on from the entry it had. -/
theorem stop_connected :
    let item : PoolItem := ⟨⟨[(5, { Session.new with state := .connected })], by simp⟩, false⟩
    item.stop 2 (fun _ item => .ok item) = .error .useAfterFree ∧
      ¬ ClosesEach (fun _ item => .ok item) item := by
  intro item
  refine ⟨rfl, fun h => ?_⟩
  exact closesEach_iff.mp h 5 _ rfl rfl

/-! ## The item of a worker -/

/-- The table of the item holds the sessions which the worker has in its table. -/
def Shows (item : PoolItem) (w : Worker) : Prop :=
  ∀ i, item.sessions.find? i = if (w.sessions i).owned then some (w.sessions i) else none

variable {w w' : Worker}

/-- `HandleClose` up to the callback. -/
theorem Shows.handleClose (h : Shows item w) (hw : w.handleClose fd = .ok w') :
    Shows { item with sessions := item.sessions.adjust fd Session.close } w' := by
  have hw' : w'.sessions = (w.modify fd Session.close).sessions := by
    rw [Worker.handleClose] at hw
    split at hw
    case h_1 | h_2 =>
      cases hw
      rfl
    case h_3 => cases hw
  intro i
  rw [OrderedMap.find?_adjust, hw']
  by_cases hi : i = fd
  · subst hi
    rw [if_pos rfl, h i, Worker.modify_self, Session.close_owned, apply_ite (Option.map _)]
    rfl
  · rw [if_neg hi, h i, Worker.modify_other _ hi]

/-- `HandleClose` after the callback: the assertions of both agree. -/
theorem Shows.finishClose (h : Shows item w) :
    (∃ w' item', w.finishClose fd = .ok w' ∧ item.destroy fd = .ok item' ∧ Shows item' w') ∨
      w.finishClose fd = .error (.destroy fd) ∧ item.destroy fd = .error .assertFailed := by
  have hmem : fd ∈ item.sessions.keys ↔ (w.sessions fd).owned = true := by
    rw [← OrderedMap.isSome_find?, h fd]
    split <;> simp_all
  rw [Worker.finishClose, destroy]
  by_cases ho : (w.sessions fd).owned = true
  · rw [if_pos ho, if_pos (hmem.mpr ho)]
    refine Or.inl ⟨_, _, rfl, rfl, fun i => ?_⟩
    rw [OrderedMap.find?_erase]
    by_cases hi : i = fd
    · subst hi
      rw [if_pos rfl, Worker.modify_self]
      rfl
    · rw [if_neg hi, h i, Worker.modify_other _ hi]
  · rw [if_neg ho, if_neg (mt hmem.mp ho)]
    exact Or.inr ⟨rfl, rfl⟩

/-- Between two tasks every session in the table has to be closed. -/
theorem Shows.active (h : Shows item w) (hstaged : w.Staged) (hstack : w.stack = [])
    {session : Session} (hfind : item.sessions.find? fd = some session) :
    session.active = true := by
  rw [h fd] at hfind
  split at hfind
  case isTrue howned =>
    cases hfind
    rw [Session.active_iff, ← SessionState.opening_eq_during]
    exact congrArg Worker.Facts.opening (hstaged.opened_of_owned hstack howned)
  case isFalse => cases hfind

end PoolItem

/-! ## Tables of open sessions -/

/-- The tables whose sessions are all to be closed. -/
def OpenSessions : Type :=
  { sessions : OrderedMap ℕ Session //
    ∀ fd session, sessions.find? fd = some session → session.active = true }

namespace OpenSessions

def empty : OpenSessions := ⟨.empty, fun _ _ hfind => by cases hfind⟩

/-- The task of `Stop` up to `Exit`.  The connect callbacks return, and leave the table alone. -/
def stop (sessions : OpenSessions) : Except Fault (List ℕ × PoolItem) :=
  PoolItem.stop (sessions.1.entries.length + 1) (fun _ item => .ok item) ⟨sessions.1, false⟩

/-- The first session is closed, and the loop goes on from an entry that has been erased. -/
theorem stop_eq (sessions : OpenSessions) : sessions.stop =
    if sessions.1.entries = [] then .ok ([], ⟨.empty, true⟩) else .error .useAfterFree := by
  obtain ⟨sessions, hactive⟩ := sessions
  by_cases hnil : sessions.entries = []
  · have hbegin : sessions.begin = none := OrderedMap.begin_eq_none.mpr hnil
    change PoolItem.stop (sessions.entries.length + 1) _ ⟨sessions, false⟩ = _
    rw [if_pos hnil, PoolItem.stop, hbegin]
    rfl
  · rw [if_neg hnil]
    obtain ⟨fd, hbegin⟩ := Option.ne_none_iff_exists'.mp (mt OrderedMap.begin_eq_none.mp hnil)
    have hmem : fd ∈ sessions.keys := List.mem_of_mem_head? (Option.mem_def.mpr hbegin)
    obtain ⟨session, hfind⟩ := Option.isSome_iff_exists.mp (OrderedMap.isSome_find?.mpr hmem)
    have hact := hactive fd session hfind
    have hround : PoolItem.closeStep (fun _ item => .ok item)
        ⟨sessions.begin, ⟨sessions, false⟩, []⟩ = .error .useAfterFree := by
      simp only [PoolItem.closeStep, hbegin, PoolItem.forceClose, hfind, if_pos hact,
        PoolItem.handleClose, ok_bind, PoolItem.destroy,
        if_pos (OrderedMap.mem_keys_adjust hmem)]
      rw [OrderedMap.next_eq_none (OrderedMap.not_mem_keys_erase _ fd)]
    change PoolItem.stop (sessions.entries.length + 1) _ ⟨sessions, false⟩ = _
    rw [PoolItem.stop, loop, hround]
    rfl

end OpenSessions

end Hare.Net
