import Hare.Net.Acceptor
import Hare.Net.Pointers

/-!
# A server and its tables

A `Worker` knows by a flag which sessions its table holds.  The table of the source is a map from
descriptors to sessions, and a descriptor is used again: it is free when the session that had it has
been destroyed, and the kernel may give it to the next connection while workers are still busy with
the old one.  Here are the server and its workers with those tables, in which nothing but the
descriptor is looked up.

The tables never mix up two connections.  The reason is that an entry is a pointer: as long as a
session is in a table its descriptor is not free.  So each worker of a server does what a `Worker`
does (`Server.Inv.reached`), and the assertions on the tables do not fail.

Left out are the start of the pool and `Stop`, and a server without a new-session callback, which
closes the descriptor of a session that has not been destroyed.  A task that has been called
keeps its pointer to the end of the batch in the source, and not so long here.
-/

namespace Hare.Net

open LabelledRun Io

variable {A : Type}

/-- A server: the side of the acceptor, and for each item of the pool its worker and its table.
The flag `owned` of the sessions of `workers` is not used. -/
structure Server (A : Type) where
  serve : Serve A
  workers : ℕ → Worker
  /-- `sessions` of each item, by descriptor. -/
  table : ℕ → ℕ → Option ℕ

/-- A step of a server. -/
inductive ServerLabel (A : Type)
  /-- The acceptor hands a connection to `NewSession`. -/
  | accept (fd : ℕ) (addr : A)
  /-- A step of a worker. -/
  | work (k : ℕ) (l : WorkerLabel)

/-- Why a step of a server is not taken. -/
inductive ServerHalt
  | acceptor (e : AcceptHalt)
  | worker (k : ℕ) (e : Halt)
  /-- The kernel does not return the descriptor, or there is nobody to make the call. -/
  | disabled
  deriving DecidableEq, Repr

/-- What a step does to the table of a worker. -/
inductive TableOp
  | insert (i : ℕ)
  | erase (i : ℕ)
  deriving DecidableEq, Repr

/-- The worker with other flags. -/
def Worker.withOwned (w : Worker) (owned : ℕ → Bool) : Worker :=
  { w with sessions := fun i => { w.sessions i with owned := owned i } }

/-- The step calls the task of `NewSession`, or ends `HandleClose`. -/
def Worker.tableOp (w : Worker) : WorkerLabel → Option TableOp
  | .start _ =>
    match w.stack, w.loop.functions with
    | [], ⟨_, .newSession i⟩ :: _ => some (.insert i)
    | _, _ => none
  | .resume =>
    match w.stack with
    | .closed i :: _ => some (.erase i)
    | _ => none
  | _ => none

namespace Server

def init (pool : IOPool) : Server A where
  serve := ⟨true, pool, 0, []⟩
  workers _ := Worker.init
  table _ _ := none

/-- `Fd` of a session. -/
def fd (s : Server A) (i : ℕ) : Option ℕ := s.serve.sessions[i]?.map Served.fd

/-- `sessions.find` with the descriptor of a session. -/
def find (s : Server A) (k i : ℕ) : Option ℕ := (s.fd i).bind (s.table k)

/-- The worker of an item: a session is owned if the table has a pointer to it. -/
def view (s : Server A) (k : ℕ) : Worker :=
  (s.workers k).withOwned fun i => s.find k i == some i

def put (s : Server A) (k : ℕ) (w : Worker) : Server A :=
  { s with workers := Function.update s.workers k w }

/-- The entry at the descriptor of a session is set or erased. -/
def setEntry (s : Server A) (k i : ℕ) (entry : Option ℕ) : Server A :=
  { s with table := fun k' fd => if k' = k ∧ s.fd i = some fd then entry else s.table k' fd }

/-- The descriptor belongs to a session that has not been destroyed. -/
def isOpen (s : Server A) (fd : ℕ) : Bool :=
  s.serve.sessions.zipIdx.any fun x => x.1.fd == fd && (s.view x.1.item).alive x.2

/-- `NewSession`, up to the end of its `RunInCycle`. -/
def accept (s : Server A) (fd : ℕ) (addr : A) : Except ServerHalt (Server A) :=
  if s.isOpen fd then .error .disabled
  else
    match s.serve.newSession fd ⟨some addr⟩ with
    | .error e => .error (.acceptor e)
    | .ok (serve, _) =>
      let item := s.serve.pool.getNextItem.1
      match (s.view item).step (.newSession s.serve.sessionId) with
      | .error e => .error (.worker item e)
      | .ok w => .ok ({ s with serve }.put item w)

/-- The task of `NewSession`. -/
def insert (s : Server A) (k i : ℕ) : Except ServerHalt (Server A) :=
  match (s.view k).stepLoop .start with
  | .error e => .error (.worker k e)
  | .ok w =>
    if (s.find k i).isSome then .error (.worker k (.newSession i))
    else .ok ((s.setEntry k i (some i)).put k (w.enter [.user, .establish i]))

/-- The end of `HandleClose`, with the callback for a session that is destroyed. -/
def erase (s : Server A) (k i : ℕ) : Except ServerHalt (Server A) :=
  if (s.find k i).isNone then .error (.worker k (.destroy i))
  else
    let w := { s.view k with stack := (s.view k).stack.tail }
    .ok ((s.setEntry k i none).put k (w.modify i fun s => { s with registered := false }))

/-- A step that does nothing to the table. -/
def pass (s : Server A) (k : ℕ) (l : WorkerLabel) : Except ServerHalt (Server A) :=
  match (s.view k).step l with
  | .error e => .error (.worker k e)
  | .ok w => .ok (s.put k w)

def work (s : Server A) (k : ℕ) (l : WorkerLabel) : Except ServerHalt (Server A) :=
  match (s.view k).tableOp l with
  | some (.insert i) => s.insert k i
  | some (.erase i) => s.erase k i
  | none => s.pass k l

/-- Sessions are made by the acceptor only, and a call on another thread needs a pointer. -/
def allowed (s : Server A) (k : ℕ) : WorkerLabel → Bool
  | .newSession _ | .call (.newSession _) => false
  | .sendPush i _ => (s.view k).alive i
  | _ => true

def step (s : Server A) : ServerLabel A → Except ServerHalt (Server A)
  | .accept fd addr => s.accept fd addr
  | .work k l => if s.allowed k l then s.work k l else .error .disabled

/-- The calls of `Shutdown` on other threads set the state of sessions that are still open. -/
def Prompt (s : Server A) : ServerLabel A → Prop
  | .accept _ _ => True
  | .work k l => (s.view k).Prompt l

instance (s : Server A) (l : ServerLabel A) : Decidable (s.Prompt l) :=
  match l with
  | .accept _ _ => isTrue trivial
  | .work k l => inferInstanceAs (Decidable ((s.view k).Prompt l))

/-! ## Tables -/

section Tables

variable {s : Server A} {k k' i j : ℕ} {w w' : Worker}

theorem fd_setEntry (entry : Option ℕ) : (s.setEntry k i entry).fd = s.fd := rfl

theorem find_setEntry (entry : Option ℕ) : (s.setEntry k i entry).find k j =
    if s.fd j = s.fd i ∧ s.fd j ≠ none then entry else s.find k j := by
  rw [find, fd_setEntry, find]
  cases hj : s.fd j with
  | none => simp
  | some f => simp [setEntry, eq_comm]

theorem find_setEntry_other (hk : k' ≠ k) (entry : Option ℕ) :
    (s.setEntry k i entry).find k' j = s.find k' j := by
  rw [find, fd_setEntry, find]
  simp only [setEntry, hk, false_and, if_false]

/-- A session is put where no other one was. -/
theorem owned_insert (hfd : s.fd i ≠ none) (hnone : s.find k i = none) (j : ℕ) :
    ((s.setEntry k i (some i)).find k j == some j) =
      if j = i then true else s.find k j == some j := by
  rw [find_setEntry]
  by_cases hji : j = i
  · simp [hji, hfd]
  · by_cases heq : s.fd j = s.fd i
    · have hj : s.find k j = none := by rw [find, heq]; exact hnone
      simp [heq, hfd, hji, hj, Ne.symm hji]
    · simp [heq, hji]

/-- A session is taken from where it was. -/
theorem owned_erase (hsome : s.find k i = some i) (j : ℕ) :
    ((s.setEntry k i none).find k j == some j) = if j = i then false else s.find k j == some j := by
  have hfd : s.fd i ≠ none := by
    intro hnone
    simp [find, hnone] at hsome
  rw [find_setEntry]
  by_cases hji : j = i
  · simp [hji, hfd]
  · by_cases heq : s.fd j = s.fd i
    · have hj : s.find k j = some i := by rw [find, heq]; exact hsome
      simp [heq, hfd, hji, hj, Ne.symm hji]
    · simp [heq, hji]

theorem withOwned_eq {owned : ℕ → Bool} (hloop : w'.loop = w.loop) (hactive : w'.active = w.active)
    (hstack : w'.stack = w.stack)
    (hsessions : ∀ i, w'.sessions i = { w.sessions i with owned := owned i }) :
    w.withOwned owned = w' := by
  have hall : w'.sessions = fun i => { w.sessions i with owned := owned i } := funext hsessions
  cases w
  cases w'
  simp_all [Worker.withOwned]

theorem view_put (h : ∀ i, (w.sessions i).owned = (s.find k i == some i)) :
    (s.put k w).view k = w := by
  have hfind : (s.put k w).find = s.find := rfl
  rw [view, hfind, put]
  dsimp only
  rw [Function.update_self]
  refine withOwned_eq rfl rfl rfl fun i => ?_
  rw [← h i]

theorem view_put_other (hk : k' ≠ k) : (s.put k w).view k' = s.view k' := by
  have hfind : (s.put k w).find = s.find := rfl
  rw [view, hfind, put]
  dsimp only
  rw [Function.update_of_ne hk]
  rfl

end Tables

/-! ## Steps -/

section Steps

variable {s s' : Server A} {k k' i j : ℕ} {w w' : Worker} {l : WorkerLabel} {fd : ℕ} {x : Served A}
  {addr : A} {pool : IOPool}

/-- A step of a worker that does nothing to the table leaves the flags alone. -/
theorem owned_of_pass (hin : w.loop.InOrder) (hprompt : w.Prompt l) (hop : w.tableOp l = none)
    (hnew : ∀ i, l ≠ .newSession i ∧ l ≠ .call (.newSession i)) (hs : w.step l = .ok w') (i : ℕ) :
    (w'.sessions i).owned = (w.sessions i).owned ∧
      (w'.sessions i).created = (w.sessions i).created := by
  change (w'.facts i).owned = (w.facts i).owned ∧ (w'.facts i).created = (w.facts i).created
  rcases Worker.step_turn hin hprompt hs with hsame | ⟨j, f, hturn, hfacts⟩
  · rw [hsame]
    exact ⟨rfl, rfl⟩
  · rw [hfacts]
    by_cases hij : i = j
    · subst hij
      rw [Function.update_self]
      cases hturn with
      | accept => exact absurd rfl (hnew i).1
      | adopt => exact absurd rfl (hnew i).2
      | begin hstack hfun => simp [Worker.tableOp, hstack, hfun] at hop
      | connect | close => exact ⟨rfl, rfl⟩
      | finish hstack => simp [Worker.tableOp, hstack] at hop
    · rw [Function.update_of_ne hij]
      exact ⟨rfl, rfl⟩

/-- What holds in every state. -/
structure Inv (s : Server A) : Prop where
  /-- Each worker is one that knows its sessions by flags. -/
  reached : ∀ k, ∃ ls, Meets Worker.step Worker.Prompt Worker.init ls ∧
    run Worker.step Worker.init ls = .ok (s.view k)
  ids : s.serve.sessionId = s.serve.sessions.length
  created : ∀ k i, ((s.view k).sessions i).created = true →
    ∃ x, s.serve.sessions[i]? = some x ∧ x.item = k
  table : ∀ k fd i, s.table k fd = some i →
    ∃ x, s.serve.sessions[i]? = some x ∧ x.item = k ∧ x.fd = fd
  unique : ∀ i j x y, s.serve.sessions[i]? = some x → s.serve.sessions[j]? = some y →
    (s.view x.item).alive i = true → (s.view y.item).alive j = true → x.fd = y.fd → i = j

theorem Inv.inOrder (I : s.Inv) (k : ℕ) : (s.view k).loop.InOrder := by
  obtain ⟨ls, -, hls⟩ := I.reached k
  exact Worker.inOrder_of_run hls

theorem Inv.staged (I : s.Inv) (k : ℕ) : (s.view k).Staged := by
  obtain ⟨ls, hprompt, hls⟩ := I.reached k
  exact Worker.staged_of_run hprompt hls

theorem inv_init (pool : IOPool) : (init pool : Server A).Inv where
  reached k := by
    refine ⟨[], trivial, congrArg Except.ok (withOwned_eq rfl rfl rfl fun i => ?_).symm⟩
    rfl
  ids := rfl
  created k i h := by cases h
  table k fd i h := by cases h
  unique i j x y h := by simp [init] at h

theorem find_eq_some (hx : s.serve.sessions[i]? = some x) :
    s.find k i = s.table k x.fd := by
  simp [find, fd, hx]

theorem view_owned : ((s.view k).sessions i).owned = true ↔ s.find k i = some i := by
  simp [view, Worker.withOwned]

/-- A session that is queued finds no entry at its descriptor: an entry is a pointer to the session
that has the descriptor. -/
theorem Inv.find_of_task (I : s.Inv) (htask : .newSession i ∈ (s.view k).tasks) :
    s.find k i = none ∧ s.fd i ≠ none := by
  have hqueued := (I.staged k).queued htask
  have hnot : ((s.view k).sessions i).owned = false := congrArg Worker.Facts.owned hqueued
  have halive : (s.view k).alive i = true :=
    Worker.alive_iff.mpr (.inr (.inr (.inl ⟨_, htask, rfl⟩)))
  obtain ⟨x, hx, rfl⟩ := I.created k i (congrArg Worker.Facts.created hqueued)
  refine ⟨?_, by simp [fd, hx]⟩
  rw [find_eq_some hx]
  by_contra hne
  obtain ⟨j, hj⟩ := Option.ne_none_iff_exists'.mp hne
  obtain ⟨y, hy, hitem, hfd⟩ := I.table _ _ _ hj
  have hown : ((s.view x.item).sessions j).owned = true := by
    rw [view_owned, find_eq_some hy, hfd]
    exact hj
  have hij : i = j := I.unique i j x y hx hy halive
    (hitem ▸ Worker.alive_iff.mpr (.inl hown)) hfd.symm
  rw [hij, hown] at hnot
  cases hnot

theorem Inv.find_of_closed (I : s.Inv) (hclosed : .closed i ∈ (s.view k).stack) :
    s.find k i = some i :=
  view_owned.mp (congrArg Worker.Facts.owned ((I.staged k).closing hclosed))

/-- The server after a step of the worker of item `k`, which does what a worker with flags does. -/
structure Works (s : Server A) (k : ℕ) (l : WorkerLabel) (s' : Server A) : Prop where
  step : (s.view k).step l = .ok (s'.view k)
  other : ∀ k', k' ≠ k → s'.view k' = s.view k'
  serve : s'.serve = s.serve
  created : ∀ i, ((s'.view k).sessions i).created = ((s.view k).sessions i).created
  table : ∀ k' fd i, s'.table k' fd = some i → s.table k' fd = some i ∨
    k' = k ∧ s.fd i = some fd ∧ .newSession i ∈ (s.view k).tasks

theorem works_pass (I : s.Inv) (hprompt : (s.view k).Prompt l) (hop : (s.view k).tableOp l = none)
    (hnew : ∀ i, l ≠ .newSession i ∧ l ≠ .call (.newSession i)) (hs : s.pass k l = .ok s') :
    Works s k l s' := by
  unfold pass at hs
  split at hs
  · cases hs
  · next w hstep =>
      cases hs
      have hsame := owned_of_pass (I.inOrder k) hprompt hop hnew hstep
      have hview : (s.put k w).view k = w := view_put fun i => (hsame i).1
      refine ⟨by rw [hview, hstep], fun k' hk => view_put_other hk, rfl, fun i => ?_,
        fun k' fd i hi => .inl hi⟩
      rw [hview]
      exact (hsame i).2

/-- The entry at the descriptor of one session, and its flag, are changed. -/
theorem works_setEntry {entry : Option ℕ} {owned : Bool} (hs : (s.view k).step l = .ok w')
    (hentry : ∀ j, entry = some j → j = i ∧ .newSession i ∈ (s.view k).tasks)
    (howned : ∀ j, ((s.setEntry k i entry).find k j == some j) =
      if j = i then owned else s.find k j == some j)
    (hloop : w'.loop = w.loop) (hactive : w'.active = w.active) (hstack : w'.stack = w.stack)
    (hself : w'.sessions i = { w.sessions i with owned })
    (hothers : ∀ j, j ≠ i → w'.sessions j = (s.view k).sessions j ∧
      w.sessions j = (s.view k).sessions j)
    (hcreated : (w.sessions i).created = ((s.view k).sessions i).created) :
    Works s k l ((s.setEntry k i entry).put k w) := by
  have hview : ((s.setEntry k i entry).put k w).view k = w' := by
    rw [view, put]
    dsimp only
    rw [Function.update_self]
    refine withOwned_eq hloop hactive hstack fun j => ?_
    have hfind : ((s.setEntry k i entry).put k w).find k j = (s.setEntry k i entry).find k j := rfl
    dsimp only
    rw [← put, hfind, howned j]
    by_cases hj : j = i
    · subst hj
      rw [if_pos rfl]
      exact hself
    · rw [if_neg hj, (hothers j hj).1, (hothers j hj).2]
      rfl
  refine ⟨hview ▸ hs, fun k' hk => ?_, rfl, fun j => ?_, fun k' fd j hj => ?_⟩
  · rw [view_put_other hk]
    simp only [view, find_setEntry_other hk]
    rfl
  · rw [hview]
    by_cases hj : j = i
    · rw [hj, hself]
      exact hcreated
    · rw [(hothers j hj).1]
  · have hentry' : (if k' = k ∧ s.fd i = some fd then entry else s.table k' fd) = some j := hj
    split at hentry'
    · next hat =>
        obtain ⟨rfl, htask⟩ := hentry j hentry'
        exact .inr ⟨hat.1, hat.2, htask⟩
    · exact .inl hentry'

theorem tableOp_insert (h : w.tableOp l = some (.insert i)) : ∃ accept ticket functions,
    l = .start accept ∧ w.stack = [] ∧
      w.loop.functions = ⟨ticket, .newSession i⟩ :: functions := by
  unfold Worker.tableOp at h
  split at h
  · split at h
    · next hstack hfun =>
        cases h
        exact ⟨_, _, _, rfl, hstack, hfun⟩
    · cases h
  · split at h <;> cases h
  · cases h

theorem tableOp_erase (h : w.tableOp l = some (.erase i)) :
    l = .resume ∧ ∃ stack, w.stack = .closed i :: stack := by
  unfold Worker.tableOp at h
  split at h
  · split at h <;> cases h
  · split at h
    · next hstack =>
        cases h
        exact ⟨rfl, _, hstack⟩
    · cases h
  · cases h

theorem sessions_stepLoop {k : LoopLabel Task} (hs : w.stepLoop k = .ok w') :
    w'.sessions = w.sessions := by
  rcases w.stepLoop_cases k with ⟨r, hr⟩ | ⟨loop, -, hok⟩
  · rw [hr] at hs
    cases hs
  · rw [hok] at hs
    cases hs
    rfl

/-- The task of `NewSession` does with the table what it does with the flags. -/
theorem works_insert (I : s.Inv) (hop : (s.view k).tableOp l = some (.insert i))
    (hs : s.insert k i = .ok s') : Works s k l s' := by
  obtain ⟨accept, ticket, functions, rfl, hstack, hfun⟩ := tableOp_insert hop
  have htask : .newSession i ∈ (s.view k).tasks := by simp [Worker.tasks, hfun]
  obtain ⟨hnone, hfd⟩ := I.find_of_task htask
  unfold insert at hs
  split at hs
  · cases hs
  · next w hloop =>
      rw [if_neg (by simp [hnone])] at hs
      cases hs
      have hsessions := sessions_stepLoop hloop
      have hnot : (w.sessions i).owned = false := by
        rw [hsessions]
        exact congrArg Worker.Facts.owned ((I.staged k).queued htask)
      have hstep : (s.view k).step (.start accept) =
          .ok ((w.modify i fun s => { s with owned := true }).enter [.user, .establish i]) := by
        simp [Worker.step, hstack, hfun, hloop, Worker.perform, Worker.newSession, hnot]
      refine works_setEntry hstep (fun j hj => ?_) (owned_insert hfd hnone) rfl rfl rfl ?_
        (fun j hj => ?_) ?_
      · cases hj
        exact ⟨rfl, htask⟩
      · simp [Worker.enter]
      · rw [← hsessions]
        exact ⟨by simp [Worker.enter, Worker.modify_other w hj], rfl⟩
      · rw [← hsessions]
        rfl

/-- The end of `HandleClose` does with the table what it does with the flags. -/
theorem works_erase (I : s.Inv) (hop : (s.view k).tableOp l = some (.erase i))
    (hs : s.erase k i = .ok s') : Works s k l s' := by
  obtain ⟨rfl, stack, hstack⟩ := tableOp_erase hop
  have hmem : .closed i ∈ (s.view k).stack := by simp [hstack]
  have hsome := I.find_of_closed hmem
  rw [erase, if_neg (by simp [hsome]), hstack] at hs
  cases hs
  have hstep : (s.view k).step .resume = .ok (({ s.view k with stack } : Worker).modify i
      fun s => { s with registered := false, owned := false }) := by
    have howned : ((s.view k).sessions i).owned = true := view_owned.mpr hsome
    simp [Worker.step, Worker.resume, hstack, Worker.finishClose, howned]
  refine works_setEntry hstep (fun j hj => by cases hj) (owned_erase hsome) rfl rfl rfl ?_
    (fun j hj => ?_) ?_
  · simp
  · exact ⟨Worker.modify_other _ hj _, Worker.modify_other _ hj _⟩
  · simp

theorem works_of_work (I : s.Inv) (hprompt : (s.view k).Prompt l)
    (hallowed : s.allowed k l = true) (hs : s.work k l = .ok s') : Works s k l s' := by
  unfold work at hs
  split at hs
  · next i hop => exact works_insert I hop hs
  · next i hop => exact works_erase I hop hs
  · next hop =>
      refine works_pass I hprompt hop (fun i => ?_) hs
      constructor <;> rintro rfl <;> cases hallowed

/-- A step that is not taken is not taken with flags either. -/
theorem step_of_work_error {e : ServerHalt} (I : s.Inv) (hs : s.work k l = .error e) :
    ∃ e', e = .worker k e' ∧ (s.view k).step l = .error e' := by
  unfold work at hs
  split at hs
  · next i hop =>
      obtain ⟨accept, ticket, functions, rfl, hstack, hfun⟩ := tableOp_insert hop
      have htask : .newSession i ∈ (s.view k).tasks := by simp [Worker.tasks, hfun]
      unfold insert at hs
      split at hs
      · next e' hloop =>
          cases hs
          exact ⟨e', rfl, by simp [Worker.step, hstack, hfun, hloop]⟩
      · rw [if_neg (by simp [(I.find_of_task htask).1])] at hs
        cases hs
  · next i hop =>
      obtain ⟨rfl, stack, hstack⟩ := tableOp_erase hop
      have hsome := I.find_of_closed (k := k) (i := i) (by simp [hstack])
      rw [erase, if_neg (by simp [hsome])] at hs
      cases hs
  · unfold pass at hs
    split at hs <;> cases hs
    next e' hstep => exact ⟨e', rfl, hstep⟩

/-- A call on another thread has its own pointer. -/
theorem alive_of_makes (hallowed : s.allowed k l = true) (hmakes : Worker.makes l = some i) :
    (s.view k).alive i = true := by
  unfold Worker.makes at hmakes
  split at hmakes
  · cases hallowed
  · cases hallowed
  · cases hmakes
    exact hallowed
  · cases hmakes

/-- **A step of a worker keeps the invariant.** -/
theorem Inv.work (I : s.Inv) (hprompt : (s.view k).Prompt l) (hallowed : s.allowed k l = true)
    (hs : s.work k l = .ok s') : s'.Inv := by
  have hworks := works_of_work I hprompt hallowed hs
  have hcreated : ∀ k' i, ((s'.view k').sessions i).created = ((s.view k').sessions i).created := by
    intro k' i
    by_cases hk : k' = k
    · rw [hk]
      exact hworks.created i
    · rw [hworks.other k' hk]
  have halive : ∀ k' i, (s'.view k').alive i = true → (s.view k').alive i = true := by
    intro k' i hi
    by_cases hk : k' = k
    · subst hk
      rcases Worker.alive_of_step (I.inOrder k') (I.staged k') hworks.step hi with hold | hmakes
      · exact hold
      · exact alive_of_makes hallowed hmakes
    · rwa [hworks.other k' hk] at hi
  refine ⟨fun k' => ?_, ?_, fun k' i hi => ?_, fun k' fd i hi => ?_, ?_⟩
  · by_cases hk : k' = k
    · subst hk
      obtain ⟨ls, hmeets, hls⟩ := I.reached k'
      refine ⟨ls ++ [l], hmeets.concat hls hprompt, ?_⟩
      rw [run_append hls, run_cons_ok hworks.step, run_nil]
    · rw [hworks.other k' hk]
      exact I.reached k'
  · rw [hworks.serve]
    exact I.ids
  · rw [hcreated] at hi
    rw [hworks.serve]
    exact I.created k' i hi
  · rw [hworks.serve]
    rcases hworks.table k' fd i hi with hold | ⟨rfl, hfd, htask⟩
    · exact I.table k' fd i hold
    · obtain ⟨x, hx, hitem⟩ :=
        I.created k' i (congrArg Worker.Facts.created ((I.staged k').queued htask))
      refine ⟨x, hx, hitem, ?_⟩
      simpa [Server.fd, hx] using hfd
  · intro i j x y hx hy hi hj
    rw [hworks.serve] at hx hy
    exact I.unique i j x y hx hy (halive _ _ hi) (halive _ _ hj)

/-- The session that `NewSession` makes. -/
def next (s : Server A) (fd : ℕ) (addr : A) : Served A :=
  ⟨fd, ⟨some addr⟩, s.serve.sessionId, s.serve.pool.last⟩

/-- The side of the acceptor after `NewSession`. -/
def handed (s : Server A) (fd : ℕ) (addr : A) : Serve A :=
  { s.serve with
    pool := s.serve.pool.getNextItem.2
    sessionId := s.serve.sessionId + 1
    sessions := s.serve.sessions ++ [s.next fd addr] }

/-- What `NewSession` does. -/
theorem accept_cases (hs : s.accept fd addr = .ok s') :
    s.isOpen fd = false ∧ ∃ w,
      (s.view s.serve.pool.last).step (.newSession s.serve.sessionId) = .ok w ∧
      s' = ({ s with serve := s.handed fd addr } : Server A).put s.serve.pool.last w := by
  unfold accept at hs
  split at hs
  · cases hs
  · next hopen =>
      refine ⟨by simpa using hopen, ?_⟩
      unfold Serve.newSession at hs
      split at hs
      · cases hs
      · next serve peer hserve =>
          dsimp only at hs
          split at hs
          · cases hs
          · next w hstep =>
              cases hs
              refine ⟨w, hstep, ?_⟩
              split at hserve
              · dsimp only at hserve
                split at hserve <;> cases hserve
                rfl
              · cases hserve

theorem sessions_append {x y : Served A} (hx : s.serve.sessions[i]? = some x) :
    (s.serve.sessions ++ [y])[i]? = some x := by
  rw [List.getElem?_append_left (List.getElem?_eq_some_iff.mp hx).1]
  exact hx

/-- `NewSession` of the session `i` marks it as made. -/
theorem owned_of_newSession (hs : w.step (.newSession i) = .ok w') (j : ℕ) :
    (w'.sessions j).owned = (w.sessions j).owned ∧
      ((w'.sessions j).created = true → (w.sessions j).created = true ∨ j = i) := by
  change (w'.facts j).owned = (w.facts j).owned ∧
    ((w'.facts j).created = true → (w.facts j).created = true ∨ j = i)
  rcases Worker.turns_newSession hs with hsame | ⟨i', f, hturn, hfacts⟩
  · rw [hsame]
    exact ⟨rfl, .inl⟩
  · rw [hfacts]
    by_cases hj : j = i'
    · subst hj
      rw [Function.update_self]
      cases hturn with
      | accept => exact ⟨rfl, fun _ => .inr rfl⟩
      | close hopen hl => exact absurd rfl (hl i).1
    · rw [Function.update_of_ne hj]
      exact ⟨rfl, .inl⟩

/-- An entry never points to a session that is yet to be made. -/
theorem Inv.owned_append (I : s.Inv) (serve : Serve A)
    (hserve : serve.sessions = s.serve.sessions ++ [x]) (k j : ℕ) :
    (({ s with serve } : Server A).find k j == some j) = (s.find k j == some j) := by
  rcases lt_trichotomy j s.serve.sessions.length with hlt | rfl | hgt
  · have hfd : ({ s with serve } : Server A).fd j = s.fd j := by
      simp only [Server.fd, hserve, List.getElem?_append_left hlt]
    simp only [find, hfd]
  · have hold : s.find k s.serve.sessions.length = none := by simp [find, Server.fd]
    have hnew : ({ s with serve } : Server A).find k s.serve.sessions.length = s.table k x.fd := by
      simp [find, Server.fd, hserve]
    have hne : s.table k x.fd ≠ some s.serve.sessions.length := by
      intro heq
      obtain ⟨y, hy, -⟩ := I.table _ _ _ heq
      simp at hy
    rw [hold, hnew]
    simpa using hne
  · have hfd : ({ s with serve } : Server A).fd j = s.fd j := by
      simp only [Server.fd, hserve]
      rw [List.getElem?_eq_none (by simp; omega), List.getElem?_eq_none hgt.le]
    simp only [find, hfd]

theorem not_isOpen (hopen : s.isOpen fd = false)
    (hx : s.serve.sessions[i]? = some x) (halive : (s.view x.item).alive i = true) : x.fd ≠ fd := by
  intro hfd
  have hmem : (x, i) ∈ s.serve.sessions.zipIdx := List.mk_mem_zipIdx_iff_getElem?.mpr hx
  simp only [isOpen, List.any_eq_false] at hopen
  exact hopen _ hmem (by simp [hfd, halive])

/-- The server after `NewSession`. -/
structure Accepts (s : Server A) (fd : ℕ) (addr : A) (s' : Server A) : Prop where
  free : s.isOpen fd = false
  step : (s.view s.serve.pool.last).step (.newSession s.serve.sessionId) =
    .ok (s'.view s.serve.pool.last)
  other : ∀ k, k ≠ s.serve.pool.last → s'.view k = s.view k
  sessions : s'.serve.sessions = s.serve.sessions ++ [s.next fd addr]
  sessionId : s'.serve.sessionId = s.serve.sessionId + 1
  pool : s'.serve.pool = s.serve.pool.getNextItem.2
  table : s'.table = s.table

theorem Inv.accepts (I : s.Inv) (hs : s.accept fd addr = .ok s') :
    Accepts s fd addr s' := by
  obtain ⟨hopen, w, hstep, rfl⟩ := accept_cases hs
  have hflags := I.owned_append (s.handed fd addr) rfl
  refine ⟨hopen, ?_, fun k hk => ?_, rfl, rfl, rfl, rfl⟩
  · rw [view_put fun i => ?_, hstep]
    rw [(owned_of_newSession hstep i).1, hflags]
    rfl
  · rw [view_put_other hk]
    simp only [view, hflags]

/-- Where a session of the new server comes from. -/
theorem Accepts.session (h : Accepts s fd addr s')
    (hx : s'.serve.sessions[i]? = some x) :
    s.serve.sessions[i]? = some x ∨ i = s.serve.sessions.length ∧ x = s.next fd addr := by
  rw [h.sessions] at hx
  rcases lt_trichotomy i s.serve.sessions.length with hlt | rfl | hgt
  · exact .inl (by rwa [List.getElem?_append_left hlt] at hx)
  · exact .inr ⟨rfl, by simpa using hx.symm⟩
  · rw [List.getElem?_eq_none (by simp; omega)] at hx
    cases hx

/-- **`NewSession` keeps the invariant.** -/
theorem Inv.accept (I : s.Inv) (hs : s.accept fd addr = .ok s') : s'.Inv := by
  have h := I.accepts hs
  have hnew := owned_of_newSession h.step
  have halive : ∀ k i, (s'.view k).alive i = true →
      (s.view k).alive i = true ∨ i = s.serve.sessionId := by
    intro k i hi
    by_cases hk : k = s.serve.pool.last
    · subst hk
      rcases Worker.alive_of_step (I.inOrder _) (I.staged _) h.step hi with hold | hmakes
      · exact .inl hold
      · exact .inr (Option.some.inj hmakes).symm
    · rw [h.other k hk] at hi
      exact .inl hi
  refine ⟨fun k => ?_, ?_, fun k i hi => ?_, fun k fd i hi => ?_, ?_⟩
  · by_cases hk : k = s.serve.pool.last
    · subst hk
      obtain ⟨ls, hmeets, hls⟩ := I.reached s.serve.pool.last
      have hprompt : (s.view s.serve.pool.last).Prompt (.newSession s.serve.sessionId) := trivial
      exact ⟨ls ++ [_], hmeets.concat hls hprompt,
        by rw [run_append hls, run_cons_ok h.step, run_nil]⟩
    · rw [h.other k hk]
      exact I.reached k
  · rw [h.sessionId, h.sessions, I.ids, List.length_append, List.length_singleton]
  · rw [h.sessions]
    by_cases hk : k = s.serve.pool.last
    · subst hk
      rcases (hnew i).2 hi with hold | rfl
      · obtain ⟨x, hx, hitem⟩ := I.created _ i hold
        exact ⟨x, sessions_append hx, hitem⟩
      · exact ⟨s.next fd addr, by simp [I.ids], rfl⟩
    · rw [h.other k hk] at hi
      obtain ⟨x, hx, hitem⟩ := I.created k i hi
      exact ⟨x, sessions_append hx, hitem⟩
  · rw [h.table] at hi
    obtain ⟨x, hx, hitem, hfd⟩ := I.table k fd i hi
    exact ⟨x, h.sessions ▸ sessions_append hx, hitem, hfd⟩
  · -- The descriptor of the new session is not that of a session which is referred to.
    have hfresh : ∀ j y, s.serve.sessions[j]? = some y → (s'.view y.item).alive j = true →
        y.fd ≠ fd := by
      intro j y hy hj
      refine not_isOpen h.free hy ((halive _ j hj).resolve_right ?_)
      rintro rfl
      simp [I.ids] at hy
    intro i j x y hx hy hi hj hfd
    rcases h.session hx with hx | ⟨rfl, rfl⟩ <;> rcases h.session hy with hy | ⟨rfl, rfl⟩
    · refine I.unique i j x y hx hy ((halive _ i hi).resolve_right ?_)
        ((halive _ j hj).resolve_right ?_) hfd
      · rintro rfl
        simp [I.ids] at hx
      · rintro rfl
        simp [I.ids] at hy
    · exact absurd hfd (hfresh i x hx hi)
    · exact absurd hfd.symm (hfresh j y hy hj)
    · rfl

theorem Inv.step {l : ServerLabel A} (I : s.Inv) (hprompt : s.Prompt l) (hs : s.step l = .ok s') :
    s'.Inv := by
  cases l with
  | accept fd addr => exact I.accept hs
  | work k l =>
      simp only [Server.step] at hs
      split at hs
      · next hallowed => exact I.work hprompt hallowed hs
      · cases hs

theorem inv_of_run {ls : List (ServerLabel A)}
    (hprompt : Meets Server.step Prompt (init pool) ls)
    (hrun : run Server.step (init pool) ls = .ok s) : s.Inv :=
  invariant Inv (fun _ _ _ => Inv.step) (inv_init pool) hprompt hrun

/-- No step ends with an assertion of a stage. -/
theorem Inv.not_asserted {l : ServerLabel A} {e : Halt} (I : s.Inv)
    (hs : s.step l = .error (.worker k e)) : Worker.asserted e = false := by
  cases l with
  | accept fd addr =>
      simp only [Server.step, Server.accept] at hs
      split at hs
      · cases hs
      · split at hs
        · cases hs
        · split at hs <;> cases hs
          next hstep => exact Worker.step_ne_assert (I.staged _) hstep
  | work k l =>
      simp only [Server.step] at hs
      split at hs
      · obtain ⟨e', heq, hstep⟩ := step_of_work_error I hs
        cases heq
        exact Worker.step_ne_assert (I.staged k) hstep
      · cases hs

/-! ## The order of the workers -/

/-- The workers take the connections in turn, beginning with that of the pool. -/
structure InTurn (pool : IOPool) (s : Server A) : Prop where
  items : s.serve.pool.items = pool.items
  last : s.serve.pool.last = (pool.last + s.serve.sessions.length) % pool.items.length
  placed : ∀ i x, s.serve.sessions[i]? = some x →
    x.id = i ∧ x.item = (pool.last + i) % pool.items.length

theorem inTurn_init (pool : IOPool) : (init pool : Server A).InTurn pool where
  items := rfl
  last := (Nat.mod_eq_of_lt pool.last_lt).symm
  placed i x hx := by simp [init] at hx

theorem InTurn.step {l : ServerLabel A} (I : s.Inv) (h : s.InTurn pool)
    (hprompt : s.Prompt l) (hs : s.step l = .ok s') : s'.InTurn pool := by
  cases l with
  | accept fd addr =>
      have ha := I.accepts hs
      refine ⟨by rw [ha.pool]; exact h.items, ?_, fun i x hx => ?_⟩
      · rw [ha.pool, ha.sessions, List.length_append, List.length_singleton, ← Nat.add_assoc,
          IOPool.getNextItem]
        dsimp only
        rw [h.items, h.last, Nat.mod_add_mod]
      · rcases ha.session hx with hx | ⟨rfl, rfl⟩
        · exact h.placed i x hx
        · exact ⟨I.ids, h.last⟩
  | work k l =>
      simp only [Server.step] at hs
      split at hs
      · next hallowed =>
          have hserve := (works_of_work I hprompt hallowed hs).serve
          exact ⟨hserve ▸ h.items, hserve ▸ h.last, hserve ▸ h.placed⟩
      · cases hs

theorem inTurn_of_run {ls : List (ServerLabel A)}
    (hprompt : Meets Server.step Prompt (init pool) ls)
    (hrun : run Server.step (init pool) ls = .ok s) : s.InTurn pool := by
  have hboth : s.Inv ∧ s.InTurn pool :=
    invariant (fun s => s.Inv ∧ s.InTurn pool)
      (fun _ _ _ h hc hs => ⟨h.1.step hc hs, h.2.step h.1 hc hs⟩)
      ⟨inv_init pool, inTurn_init pool⟩ hprompt hrun
  exact hboth.2

end Steps

/-- What should hold of a server. -/
structure Sound (pool : IOPool) (s : Server A) : Prop where
  /-- The workers take the connections in turn. -/
  placed : ∀ i x, s.serve.sessions[i]? = some x →
    x.id = i ∧ x.item = (pool.last + i) % pool.items.length
  /-- An entry is a pointer to a session of the worker that has the descriptor. -/
  entry : ∀ k fd i, s.table k fd = some i →
    ∃ x, s.serve.sessions[i]? = some x ∧ x.item = k ∧ x.fd = fd ∧ (s.view k).alive i = true
  /-- A session that is open is found under its descriptor. -/
  found : ∀ i x, s.serve.sessions[i]? = some x →
    ((s.view x.item).sessions i).state = .connected ∨
      ((s.view x.item).sessions i).state = .disconnecting → s.table x.item x.fd = some i
  /-- Sessions that have not been destroyed have different descriptors. -/
  unique : ∀ i j x y, s.serve.sessions[i]? = some x → s.serve.sessions[j]? = some y →
    (s.view x.item).alive i = true → (s.view y.item).alive j = true → x.fd = y.fd → i = j
  /-- Each worker is one that knows its sessions by flags. -/
  reached : ∀ k, ∃ ks, run Worker.step Worker.init ks = .ok (s.view k)

theorem sound_of_run {pool : IOPool} {ls : List (ServerLabel A)} {s : Server A}
    (hprompt : Meets step Prompt (init pool) ls) (hrun : run step (init pool) ls = .ok s) :
    s.Sound pool where
  placed := (inTurn_of_run hprompt hrun).placed
  entry k fd i hi := by
    obtain ⟨x, hx, hitem, hfd⟩ := (inv_of_run hprompt hrun).table k fd i hi
    have howned : ((s.view k).sessions i).owned = true := by
      rw [view_owned, find_eq_some hx, hfd]
      exact hi
    exact ⟨x, hx, hitem, hfd, Worker.alive_iff.mpr (.inl howned)⟩
  found i x hx hopen := by
    have hduring := SessionState.opening_eq_during.mpr hopen
    have howned : ((s.view x.item).sessions i).owned = true :=
      congrArg Worker.Facts.owned (((inv_of_run hprompt hrun).staged x.item).opened hduring)
    rw [view_owned, find_eq_some hx] at howned
    exact howned
  unique := (inv_of_run hprompt hrun).unique
  reached k := ((inv_of_run hprompt hrun).reached k).imp fun _ h => h.2

end Server

/-- **The tables of a server.**  However the acceptor and the workers are interleaved, whatever the
user does and whichever free descriptors the kernel returns, the assertions on the tables and that
of `ConnectEstablished` do not fail, and every state that is reached is sound, as long as the calls
of `Shutdown` on other threads set the state of sessions that are still open. -/
theorem server_sound (pool : IOPool) (ls : List (ServerLabel A))
    (hprompt : Meets Server.step Server.Prompt (Server.init pool) ls) :
    (∀ k e, run Server.step (Server.init pool : Server A) ls = .error (.worker k e) →
      Worker.asserted e = false) ∧
    ∀ s, run Server.step (Server.init pool : Server A) ls = .ok s → s.Sound pool := by
  refine ⟨fun k e herr => ?_, fun s hrun => Server.sound_of_run hprompt hrun⟩
  obtain ⟨ks, l, s, hpre, hrun, hs⟩ := exists_of_run_error herr
  have hks := hprompt.of_isPrefix ((List.prefix_append ks [l]).trans hpre)
  exact (Server.inv_of_run hks hrun).not_asserted hs

/-- A connection with descriptor 5 is closed by its peer, and the next one gets the descriptor
again. -/
def reuse : List (ServerLabel Unit) :=
  let first : List WorkerLabel :=
    [.cycle .exec, .cycle .loop, .poll false [], .cycle .swap, .start 0, .resume, .resume,
      .resume, .resume, .cycle .loop, .poll false [.session 0 { read := true }], .dispatch,
      .read 0, .resume, .resume, .resume]
  let second : List WorkerLabel := [.cycle .swap, .start 0, .resume, .resume, .resume, .resume]
  .accept 5 () :: first.map (.work 0) ++ .accept 5 () :: second.map (.work 0)

/-- The second connection is found under the descriptor of the first. -/
theorem server_sound_reuse :
    ∃ s, run Server.step (Server.init ⟨[true], 0, by decide⟩) reuse = .ok s ∧
      s.table 0 5 = some 1 ∧ s.Sound ⟨[true], 0, by decide⟩ := by
  have hrun : (run Server.step (Server.init ⟨[true], 0, by decide⟩) reuse).map
      (fun s => s.table 0 5) = .ok (some 1) := by decide +kernel
  obtain ⟨s, hs, htable⟩ := map_eq_ok hrun
  exact ⟨s, hs, htable, (server_sound _ _ (by decide +kernel)).2 s hs⟩

end Hare.Net
