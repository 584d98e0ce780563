import Mathlib.Data.Nat.Notation

/-!
# The acceptor of a server

`Acceptor::EventCallback` accepts in a loop until `accept` fails, and hands every connection
to `TcpServe::NewSession` together with the address of its peer.  All iterations share one
`HostAddress`.  `NewSession` moves it into the session it makes, and the move leaves a null
pointer behind: the next `Socket::Accept` asserts that the pointer is not null.

`drains_iff` says that a backlog is drained exactly when it holds at most one connection.

The functions are modelled with the calls of `NewSession` they have made, because those count
also when an assertion or an exception ends the callback.
-/

namespace Hare.Net

variable {A : Type}

/-- An object that owns an address of type `A`, or a null pointer. -/
structure HostAddress (A : Type) where
  in_ : Option A
  deriving DecidableEq, Repr

/-- `HostAddress(HostAddress&&)`: the new object, and what is left of the other one.  The
pointers are swapped, and that of the new object is null before. -/
def HostAddress.move (another : HostAddress A) : HostAddress A × HostAddress A :=
  (⟨another.in_⟩, ⟨none⟩)

/-- An error of `accept`. -/
inductive Errno
  | again
  | connaborted
  | intr
  | proto
  | perm
  | mfile
  /-- Every other error: `socket_op::Accept` throws. -/
  | unexpected
  deriving DecidableEq, Repr

/-- Why a callback does not return. -/
inductive AcceptHalt
  /-- The assertion of `Socket::Accept` on the address. -/
  | nullAddress
  /-- The assertion of `NewSession` that the server is running. -/
  | notStarted
  /-- The exception of the constructor of `TcpSession` for a worker without a cycle. -/
  | nullCycle
  /-- The exception of `socket_op::Accept`. -/
  | acceptFailed
  deriving DecidableEq, Repr

/-- An assertion has failed. -/
def AcceptHalt.asserts : AcceptHalt → Bool
  | nullAddress | notStarted => true
  | nullCycle | acceptFailed => false

/-- A running `IOPool`: for each worker, whether its thread has made its cycle. -/
structure IOPool where
  items : List Bool
  last : ℕ
  last_lt : last < items.length

namespace IOPool

/-- `GetNextItem`: the index of the item, and the pool afterwards. -/
def getNextItem (p : IOPool) : ℕ × IOPool :=
  (p.last,
    { p with
      last := (p.last + 1) % p.items.length
      last_lt := Nat.mod_lt _ (Nat.lt_of_le_of_lt (Nat.zero_le _) p.last_lt) })

/-- The item has a cycle. -/
def hasCycle (p : IOPool) (i : ℕ) : Bool := p.items.getD i false

end IOPool

/-- A session made by `NewSession`. -/
structure Served (A : Type) where
  fd : ℕ
  peer : HostAddress A
  /-- The number in its name. -/
  id : ℕ
  /-- The worker it belongs to. -/
  item : ℕ
  deriving DecidableEq, Repr

structure Serve (A : Type) where
  started : Bool
  pool : IOPool
  sessionId : ℕ
  /-- The sessions handed to the workers. -/
  sessions : List (Served A)

/-- `TcpServe::NewSession`: the server, and what is left of the address. -/
def Serve.newSession (s : Serve A) (fd : ℕ) (address : HostAddress A) :
    Except AcceptHalt (Serve A × HostAddress A) :=
  if s.started then
    let (item, pool) := s.pool.getNextItem
    let (peer, address) := address.move
    if s.pool.hasCycle item then
      .ok ({ s with
        pool
        sessionId := s.sessionId + 1
        sessions := s.sessions ++ [⟨fd, peer, s.sessionId, item⟩] }, address)
    else
      .error .nullCycle
  else
    .error .notStarted

/-- A listening socket. -/
structure Listener (A : Type) where
  /-- The connections `accept` returns before it fails, each with the address of its peer. -/
  pending : List (ℕ × A)
  /-- The error it fails with then. -/
  errno : Errno
  /-- The connections that wait for a descriptor. -/
  waiting : List A

/-- The state of `EventCallback`. -/
structure Accepting (A : Type) where
  serve : Serve A
  peerAddr : HostAddress A
  /-- The calls of `NewSession`, with the address each has been given. -/
  handed : List (ℕ × HostAddress A)
  /-- The descriptors closed because there is no callback. -/
  closed : List ℕ
  accepted : Bool

/-- `Socket::Accept` of a connection: the object is given the address of the peer. -/
def HostAddress.accept (peerAddr : HostAddress A) (addr : A) :
    Except AcceptHalt (HostAddress A) :=
  match peerAddr.in_ with
  | some _ => .ok ⟨some addr⟩
  | none => .error .nullAddress

namespace Acceptor

/-- The loop of `EventCallback`, with a callback or without one. -/
def acceptLoop (newSession : Bool) (s : Accepting A) :
    List (ℕ × A) → Accepting A × Option AcceptHalt
  | [] => (s, none)
  | (fd, addr) :: pending =>
    match s.peerAddr.accept addr with
    | .error e => (s, some e)
    | .ok peerAddr =>
      if newSession then
        let s := { s with handed := s.handed ++ [(fd, peerAddr)] }
        match s.serve.newSession fd peerAddr with
        | .error e => (s, some e)
        | .ok (serve, peerAddr) =>
          acceptLoop newSession { s with serve, peerAddr, accepted := true } pending
      else
        acceptLoop newSession
          { s with peerAddr, closed := s.closed ++ [fd], accepted := true } pending

/-- The state in which the callback enters its loop. -/
def entered (any : A) (serve : Serve A) : Accepting A := ⟨serve, ⟨some any⟩, [], [], false⟩

/-- `EventCallback`: the connections that still wait, and the state in which it returns or
is ended.  Without a descriptor to spare it gives up the idle one to refuse a connection. -/
def eventCallback (newSession : Bool) (any : A) (serve : Serve A) (read : Bool)
    (l : Listener A) : List A × Accepting A × Option AcceptHalt :=
  if read then
    match acceptLoop newSession (entered any serve) l.pending with
    | (s, some e) => (l.waiting, s, some e)
    | (s, none) =>
      if l.errno = .unexpected then (l.waiting, s, some .acceptFailed)
      else if !s.accepted && l.errno = .mfile then (l.waiting.tail, s, none)
      else (l.waiting, s, none)
  else
    (l.waiting, entered any serve, none)

/-- What should hold of a callback with `EVENT_READ` and `NewSession` installed: every pending
connection is handed over with the address of its peer, and no assertion fails. -/
structure Drains (any : A) (serve : Serve A) (l : Listener A) : Prop where
  handed : (eventCallback true any serve true l).2.1.handed =
    l.pending.map fun (fd, addr) => (fd, ⟨some addr⟩)
  asserted : ∀ e, (eventCallback true any serve true l).2.2 = some e → e.asserts = false

/-! ## The loop -/

/-- `NewSession` leaves no address behind. -/
theorem newSession_moves {s s' : Serve A} {fd : ℕ} {address address' : HostAddress A}
    (h : s.newSession fd address = .ok (s', address')) : address'.in_ = none := by
  unfold Serve.newSession at h
  split at h
  · simp only at h
    split at h <;> cases h
    rfl
  · cases h

/-- The loop fails the assertion of `Socket::Accept` once the address has been moved. -/
theorem acceptLoop_of_null {s : Accepting A} (hnull : s.peerAddr.in_ = none) (c : ℕ × A)
    (pending : List (ℕ × A)) (newSession : Bool) :
    acceptLoop newSession s (c :: pending) = (s, some .nullAddress) := by
  simp [acceptLoop, HostAddress.accept, hnull]

/-- **What the loop does.**  The first connection is handed to `NewSession`.  If `NewSession`
returns, the second one fails the assertion. -/
theorem acceptLoop_cons {s : Accepting A} {any : A} (haddr : s.peerAddr.in_ = some any)
    (c : ℕ × A) (pending : List (ℕ × A)) :
    (acceptLoop true s (c :: pending)).1.handed = s.handed ++ [(c.1, ⟨some c.2⟩)] ∧
      (acceptLoop true s (c :: pending)).2 =
        match s.serve.newSession c.1 ⟨some c.2⟩ with
        | .error e => some e
        | .ok _ => if pending = [] then none else some .nullAddress := by
  obtain ⟨fd, addr⟩ := c
  simp only [acceptLoop, HostAddress.accept, haddr, if_true]
  cases hnew : s.serve.newSession fd ⟨some addr⟩ with
  | error e => exact ⟨rfl, rfl⟩
  | ok r =>
      obtain ⟨serve, peerAddr⟩ := r
      cases pending with
      | nil => exact ⟨rfl, rfl⟩
      | cons c' pending =>
          simp only
          rw [acceptLoop_of_null (newSession_moves hnew)]
          exact ⟨rfl, rfl⟩

/-- `NewSession` fails no assertion exactly when the server is running. -/
theorem newSession_asserts (s : Serve A) (fd : ℕ) (address : HostAddress A) :
    (∀ e, s.newSession fd address = .error e → e.asserts = false) ↔ s.started = true := by
  unfold Serve.newSession
  split
  · next hstarted =>
      simp only
      split <;> simp [hstarted, AcceptHalt.asserts]
  · next hstarted => simpa [AcceptHalt.asserts] using hstarted

/-! ## The callback -/

/-- After its loop the callback hands nothing over and makes no assertion. -/
theorem drains_iff_acceptLoop (any : A) (serve : Serve A) (l : Listener A) :
    Drains any serve l ↔
      (acceptLoop true (entered any serve) l.pending).1.handed =
          l.pending.map (fun (fd, addr) => (fd, ⟨some addr⟩)) ∧
        ∀ e, (acceptLoop true (entered any serve) l.pending).2 = some e → e.asserts = false := by
  have hloop : (eventCallback true any serve true l).2.1.handed =
        (acceptLoop true (entered any serve) l.pending).1.handed ∧
      ((∀ e, (eventCallback true any serve true l).2.2 = some e → e.asserts = false) ↔
        ∀ e, (acceptLoop true (entered any serve) l.pending).2 = some e → e.asserts = false) := by
    simp only [eventCallback, if_true]
    split
    · next h =>
        rw [h]
        exact ⟨rfl, Iff.rfl⟩
    · next h =>
        rw [h]
        split
        · simp [AcceptHalt.asserts]
        · split <;> simp
  rw [← hloop.1, ← hloop.2]
  exact ⟨fun ⟨hh, ha⟩ => ⟨hh, ha⟩, fun ⟨hh, ha⟩ => ⟨hh, ha⟩⟩

/-- **When a backlog is drained.**  The callback hands every pending connection to
`NewSession` with the address of its peer and fails no assertion exactly when there is at
most one of them, and the server is running if there is one. -/
theorem drains_iff (any : A) (serve : Serve A) (l : Listener A) :
    Drains any serve l ↔ l.pending.length ≤ 1 ∧ (l.pending ≠ [] → serve.started = true) := by
  rw [drains_iff_acceptLoop]
  match l.pending with
  | [] => simp [acceptLoop, entered]
  | [c] =>
      obtain ⟨hcalls, hout⟩ := acceptLoop_cons (s := entered any serve) rfl c []
      have hnew := newSession_asserts serve c.1 ⟨some c.2⟩
      rw [hcalls, hout]
      change _ ∧ (∀ e, (match serve.newSession c.1 ⟨some c.2⟩ with
        | .error e => some e
        | .ok _ => none) = some e → e.asserts = false) ↔ _
      cases hs : serve.newSession c.1 ⟨some c.2⟩ <;> simp_all [entered]
  | c :: c' :: pending =>
      obtain ⟨hcalls, -⟩ := acceptLoop_cons (s := entered any serve) rfl c (c' :: pending)
      rw [hcalls]
      simp [entered]

/-- A running server with one worker, and two pending connections: the first is handed over,
and the second fails the assertion of `Socket::Accept`. -/
theorem second_connection_asserts :
    let r := eventCallback true 0 ⟨true, ⟨[true], 0, by decide⟩, 0, []⟩ true
      ⟨[(5, 105), (6, 106)], .again, []⟩
    (r.2.1.handed, r.2.1.serve.sessions, r.2.2) =
      ([(5, ⟨some 105⟩)], [⟨5, ⟨some 105⟩, 0, 0⟩], some .nullAddress) := by
  decide

end Acceptor

end Hare.Net
