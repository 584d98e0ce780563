import Hare.Base.Fault
import Hare.Lib.LabelledRun
import Hare.Net.Acceptor
import Mathlib.Data.List.Rotate

/-!
# The pool of workers

An `IOPool` is started with a number of workers, hands them out in turn, and is stopped.  The
position of the next worker survives `Stop`, although the pool can be started with fewer workers
afterwards.  So a pool hands out its workers in turn as long as no `Start` finds a position that is
too large for it (`roundRobin_iff`).

A server makes a pool, starts it once and destroys it: its pool is the `IOPool` of
`Hare.Net.Acceptor`, which cannot be out of range (`Runs`).
-/

namespace Hare.Net.IOPool

open LabelledRun

/-- A pool.  The items are pointers, numbered in the order in which they are made. -/
structure State where
  items : List ℕ
  last : ℕ
  threadNbr : ℕ
  isRunning : Bool
  /-- How many items have been made. -/
  made : ℕ
  deriving DecidableEq, Repr

namespace State

/-- The constructor. -/
def new : State := ⟨[], 0, 0, false, 0⟩

/-- `Start` does not return false. -/
def starts (p : State) (threadNbr : ℕ) : Bool := !(threadNbr == 0 || p.isRunning)

/-- `Start`. -/
def start (p : State) (threadNbr : ℕ) : State :=
  if p.starts threadNbr then
    { p with
      items := List.range' p.made threadNbr
      threadNbr
      isRunning := true
      made := p.made + threadNbr }
  else p

/-- `Stop`, of the pool itself. -/
def stop (p : State) : State := { p with items := [], threadNbr := 0, isRunning := false }

/-- `GetNextItem`. -/
def getNextItem (p : State) : Except Fault (Option ℕ × State) :=
  if p.isRunning then
    match p.items[p.last]? with
    | some item => .ok (some item, { p with last := (p.last + 1) % p.threadNbr })
    | none => .error .outOfBounds
  else .ok (none, p)

/-- Successive calls of `GetNextItem`, with what they return. -/
def nexts : ℕ → State → Except Fault (List (Option ℕ) × State)
  | 0, p => .ok ([], p)
  | k + 1, p => do
    let (item, p) ← p.getNextItem
    let (items, p) ← nexts k p
    pure (item :: items, p)

inductive Call
  | start (threadNbr : ℕ)
  | stop
  | getNextItem
  deriving DecidableEq, Repr

def step (p : State) : Call → Except Fault State
  | .start n => .ok (p.start n)
  | .stop => .ok p.stop
  | .getNextItem => do
    let (_, p) ← p.getNextItem
    pure p

/-- The next item is one of the items, and as many successive ones as there are threads are all
the items, each once. -/
def RoundRobin (p : State) : Prop :=
  (∃ item ∈ p.items, ∃ p', p.getNextItem = .ok (some item, p')) ∧
    ∃ (items : List ℕ) (p' : State), nexts p.threadNbr p = .ok (items.map some, p') ∧
      items.Perm p.items ∧ items.Nodup

/-- A call does not start the pool with a position that is out of range. -/
def Positioned (p : State) : Call → Prop
  | .start n => p.starts n = true → p.last < n
  | .stop | .getNextItem => True

instance (p : State) (c : Call) : Decidable (p.Positioned c) := by
  cases c <;> unfold Positioned <;> infer_instance

/-- The invariant: the items are distinct, and the position of a running pool is one of them. -/
structure InRange (p : State) : Prop where
  nodup : p.items.Nodup
  length_eq : p.items.length = p.threadNbr
  last_lt : p.isRunning = true → p.last < p.threadNbr

variable {p : State}

theorem inRange_new : InRange new where
  nodup := List.nodup_nil
  length_eq := rfl
  last_lt h := nomatch h

theorem getNextItem_eq (h : p.InRange) (hrun : p.isRunning = true) :
    ∃ hlt : p.last < p.items.length, p.getNextItem =
      .ok (some p.items[p.last], { p with last := (p.last + 1) % p.threadNbr }) := by
  have hlt : p.last < p.items.length := h.length_eq ▸ h.last_lt hrun
  refine ⟨hlt, ?_⟩
  rw [getNextItem, if_pos hrun, List.getElem?_eq_getElem hlt]

theorem InRange.next (h : p.InRange) (hrun : p.isRunning = true) :
    InRange { p with last := (p.last + 1) % p.threadNbr } where
  nodup := h.nodup
  length_eq := h.length_eq
  last_lt _ := Nat.mod_lt _ (Nat.zero_lt_of_lt (h.last_lt hrun))

theorem rotate_last (h : p.InRange) (hlt : p.last < p.items.length) :
    ∃ rest, p.items.rotate p.last = p.items[p.last] :: rest ∧
      p.items.rotate ((p.last + 1) % p.threadNbr) = rest ++ [p.items[p.last]] := by
  refine ⟨p.items.drop (p.last + 1) ++ p.items.take p.last, ?_, ?_⟩
  · rw [List.rotate_eq_drop_append_take hlt.le, List.drop_eq_getElem_cons hlt, List.cons_append]
  · rw [← h.length_eq, List.rotate_mod, List.rotate_eq_drop_append_take hlt,
      List.take_succ_eq_append_getElem hlt, List.append_assoc]

/-- **Successive calls return the items from the position on.** -/
theorem nexts_eq {k : ℕ} (h : p.InRange) (hrun : p.isRunning = true) (hk : k ≤ p.threadNbr) :
    ∃ p', nexts k p = .ok (((p.items.rotate p.last).take k).map some, p') := by
  induction k generalizing p with
  | zero => exact ⟨p, rfl⟩
  | succ k ih =>
      obtain ⟨hlt, hnext⟩ := getNextItem_eq h hrun
      obtain ⟨rest, hrot, hrot'⟩ := rotate_last h hlt
      obtain ⟨p', hp'⟩ := ih (h.next hrun) hrun (Nat.le_of_succ_le hk)
      have hlen : k ≤ rest.length := by
        have := congrArg List.length hrot
        rw [List.length_rotate, h.length_eq, List.length_cons] at this
        omega
      refine ⟨p', ?_⟩
      rw [nexts, hnext, ok_bind]
      dsimp only
      rw [hp', ok_bind, hrot, hrot', List.take_succ_cons, List.take_append_of_le_length hlen]
      rfl

theorem InRange.roundRobin (h : p.InRange) (hrun : p.isRunning = true) : p.RoundRobin := by
  obtain ⟨hlt, hnext⟩ := getNextItem_eq h hrun
  obtain ⟨p', hp'⟩ := nexts_eq h hrun le_rfl
  rw [List.take_of_length_le (by rw [List.length_rotate, h.length_eq])] at hp'
  exact ⟨⟨_, List.getElem_mem hlt, _, hnext⟩, _, p', hp', List.rotate_perm _ _,
    List.nodup_rotate.mpr h.nodup⟩

theorem not_roundRobin (hrun : p.isRunning = true) (hlast : p.items.length ≤ p.last) :
    ¬ p.RoundRobin := by
  rintro ⟨⟨item, -, p', hp'⟩, -⟩
  rw [getNextItem, if_pos hrun, List.getElem?_eq_none hlast] at hp'
  cases hp'

theorem start_eq {n : ℕ} (h : p.starts n = true) :
    p.start n = { p with
      items := List.range' p.made n
      threadNbr := n
      isRunning := true
      made := p.made + n } := if_pos h

theorem InRange.start {n : ℕ} (h : p.InRange) (hn : p.starts n = true → p.last < n) :
    (p.start n).InRange := by
  by_cases hs : p.starts n = true
  · rw [start_eq hs]
    exact ⟨List.nodup_range', List.length_range', fun _ => hn hs⟩
  · rw [State.start, if_neg hs]
    exact h

/-- A call on a pool in range succeeds and leaves it in range. -/
theorem InRange.step {c : Call} (h : p.InRange) (hc : p.Positioned c) :
    ∃ p', p.step c = .ok p' ∧ p'.InRange := by
  cases c with
  | start n => exact ⟨_, rfl, h.start hc⟩
  | stop => exact ⟨_, rfl, List.nodup_nil, rfl, fun h => nomatch h⟩
  | getNextItem =>
      by_cases hrun : p.isRunning = true
      · obtain ⟨hlt, hnext⟩ := getNextItem_eq h hrun
        exact ⟨_, by rw [State.step, hnext]; rfl, h.next hrun⟩
      · exact ⟨p, by rw [State.step, getNextItem, if_neg hrun]; rfl, h⟩

/-- **The workers are handed out in turn**, at every moment of a sequence of calls, exactly when no
call starts the pool with fewer workers than the position it was left at. -/
theorem roundRobin_iff (calls : List Call) :
    (∀ ks, ks <+: calls → ∃ p, run step new ks = .ok p ∧ (p.isRunning = true → p.RoundRobin)) ↔
      Meets step Positioned new calls := by
  refine simulates_iff (t := ()) (fun _ _ => ()) (fun p _ => InRange p)
    (fun p _ => isRunning p = true → RoundRobin p) ?_ ?_ ?_ inRange_new
  · intro p _ c h hc
    exact h.step hc
  · intro p _ h
    exact h.roundRobin
  · intro p _ c p' h hc hp' hgood
    -- only a start can leave the position out of range
    cases c with
    | start n =>
        cases hp'
        obtain ⟨hs, hlast⟩ := Classical.not_imp.mp hc
        rw [start_eq hs] at hgood
        refine not_roundRobin rfl ?_ (hgood rfl)
        rw [List.length_range']
        exact Nat.le_of_not_lt hlast
    | stop => exact hc trivial
    | getNextItem => exact hc trivial

/-- A pool of three workers, of which two have been handed out, is stopped and started with one:
the next position is behind its end. -/
theorem getNextItem_restarted :
    ∃ p, run step new [.start 3, .getNextItem, .getNextItem, .stop, .start 1] = .ok p ∧
      p.isRunning = true ∧ p.items.length = 1 ∧ p.getNextItem = .error .outOfBounds :=
  ⟨_, rfl, rfl, rfl, rfl⟩

/-! ## The pool of a server -/

/-- A pool that is running, as the server sees it. -/
structure Runs (p : State) (q : IOPool) : Prop where
  inRange : p.InRange
  isRunning : p.isRunning = true
  length_eq : q.items.length = p.threadNbr
  last_eq : q.last = p.last

/-- A pool that has been started once is a pool of the server. -/
theorem runs_start {n : ℕ} (hn : 0 < n) (items : List Bool) (hlen : items.length = n) :
    Runs (new.start n) ⟨items, 0, hlen ▸ hn⟩ := by
  have hs : new.starts n = true := by
    simp [starts, new]
    omega
  refine ⟨inRange_new.start fun _ => hn, ?_, ?_, ?_⟩ <;> rw [start_eq hs]
  · exact hlen
  · rfl

/-- The server's `getNextItem` is the pool's. -/
theorem Runs.getNextItem {q : IOPool} (h : Runs p q) :
    ∃ item p', p.getNextItem = .ok (some item, p') ∧ p.items[q.getNextItem.1]? = some item ∧
      Runs p' q.getNextItem.2 := by
  obtain ⟨hlt, hnext⟩ := getNextItem_eq h.inRange h.isRunning
  refine ⟨_, _, hnext, ?_, h.inRange.next h.isRunning, h.isRunning, h.length_eq, ?_⟩
  · exact (congrArg (p.items[·]?) h.last_eq).trans (List.getElem?_eq_getElem hlt)
  · exact congrArg₂ (fun last n => (last + 1) % n) h.last_eq h.length_eq

end State

end Hare.Net.IOPool
