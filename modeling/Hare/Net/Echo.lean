import Hare.Net.Session
import Hare.Net.Store

/-!
# An echo session

The echo server hands everything a session reads back to it: its read callback calls
`TcpSession::Append` with the in-buffer.  A byte then passes through three buffers: the
in-buffer, a temporary one that a task of the cycle holds, and the out-buffer.  This module puts
the buffers of `Hare.Net.Store` under the code of one such session and follows the bytes.

`HandleRead`, `HandleWrite`, `HandleClose` and `Append` are those of `Hare.Net.Session`, with the
buffers in place of the bytes they hold.  The event of a session asks for reading and writing, so
no reactor reports it as closed, and that branch of the callback is left out.

The session is on its cycle thread throughout: reports of the reactor and tasks come one after the
other, in any order and number.  What the socket does is a part of the labels: how many bytes it
says to have, what a read finds, how many bytes a write is rid of.
-/

namespace Hare.Net

open LabelledRun

/-- The largest `std::size_t`, which `-1` becomes. -/
def sizeMax : ℕ := 2 ^ 64 - 1

def maxReadDefault : ℕ := 4096

/-- The buffers of a session, and those its tasks hold. -/
inductive BufferName
  | outBuffer
  | inBuffer
  | tmp (k : ℕ)
  deriving DecidableEq, Repr

/-- The tasks of a session: that of `Append`, with its buffer, and the write callback. -/
inductive EchoTask
  | append (k : ℕ)
  | written
  deriving DecidableEq, Repr

structure Echo where
  store : Store BufferName
  state : SessionState
  /-- The event is part of the cycle. -/
  registered : Bool
  reading : Bool
  writing : Bool
  highWaterMark : ℕ
  /-- The tasks in the queue of the cycle. -/
  pending : List EchoTask
  /-- The tasks taken out of the queue and still to be run. -/
  batch : List EchoTask
  /-- The tasks that have been run and not been destroyed yet. -/
  finished : List EchoTask
  /-- How many temporary buffers have been made. -/
  made : ℕ
  /-- The session has not been destroyed. -/
  alive : Bool
  /-- How often the user has been told that the session is closed. -/
  closes : ℕ
  /-- The bytes that reads have found. -/
  received : List UInt8
  /-- The bytes the socket has taken. -/
  accepted : List UInt8

namespace Echo

/-- A session whose connection is established.  Its event asks for both directions. -/
def init (highWaterMark : ℕ) : Echo where
  store := (Store.init.new .outBuffer).new .inBuffer
  state := .connected
  registered := true
  reading := true
  writing := true
  highWaterMark
  pending := []
  batch := []
  finished := []
  made := 0
  alive := true
  closes := 0
  received := []
  accepted := []

/-- `TcpSession::HandleClose`.  The user only writes to the log; the server drops its pointer. -/
def handleClose (s : Echo) : Except Fault Echo :=
  if s.state = .connected ∨ s.state = .disconnecting then
    .ok { s with
      state := .disconnected
      reading := false
      writing := false
      registered := false
      closes := s.closes + 1 }
  else .error .assertFailed

def forceClose (s : Echo) : Except Fault Echo :=
  if s.state = .connected ∨ s.state = .disconnecting then s.handleClose else .ok s

/-- `TcpSession::HandleWrite`.  A failed write is the answer 0, which is not an error. -/
def handleWrite (s : Echo) (accept : ℕ) : Except Fault Echo :=
  if s.writing then do
    let (taken, store) ← s.store.write .outBuffer sizeMax accept
    let out ← store.get .outBuffer
    let s := { s with store, accepted := s.accepted ++ taken }
    let s := if out.size = 0 then { s with writing := false, pending := s.pending ++ [.written] }
      else s
    if s.state = .disconnecting then s.handleClose else pure s
  else .ok s

/-- `TcpSession::Append`, called with the in-buffer. -/
def append (s : Echo) : Except Fault Echo :=
  if s.state = .connected then do
    let store ← (s.store.new (.tmp s.made)).append (.tmp s.made) .inBuffer
    pure { s with store, pending := s.pending ++ [.append s.made], made := s.made + 1 }
  else .ok s

/-- `TcpSession::HandleRead`, with the callback of the echo server. -/
def handleRead (s : Echo) (available : ℕ) (arrived : Option (List UInt8)) :
    Except Fault Echo := do
  let (n, store) ← s.store.read .inBuffer maxReadDefault available sizeMax arrived
  if n = 0 then ({ s with store } : Echo).handleClose
  else ({ s with store, received := s.received ++ (arrived.getD []).take n } : Echo).append

/-- The first part of `TcpSession::HandleCallback`. -/
def callRead (s : Echo) : Option (ℕ × Option (List UInt8)) → Except Fault Echo
  | some (available, arrived) => s.handleRead available arrived
  | none => .ok s

/-- The second part. -/
def callWrite (s : Echo) : Option ℕ → Except Fault Echo
  | some accept => s.handleWrite accept
  | none => .ok s

/-- The task of `Append` behind its first call: what the out-buffer held decides. -/
def afterAppend (s : Echo) (outSize accept : ℕ) : Except Fault Echo :=
  if outSize = 0 then ({ s with writing := true } : Echo).handleWrite accept
  else if outSize > s.highWaterMark ∧ s.highWaterMark ≠ 0 then s.forceClose
  else .ok s

/-- Run the next task of the batch. -/
def runTask (s : Echo) (accept : ℕ) : Except Fault Echo :=
  match s.batch with
  | [] => .ok s
  | .written :: batch => .ok { s with batch, finished := s.finished ++ [.written] }
  | .append k :: batch => do
    let out ← s.store.get .outBuffer
    let store ← s.store.append .outBuffer (.tmp k)
    ({ s with store, batch, finished := s.finished ++ [.append k] } : Echo).afterAppend
      out.size accept

/-- Destroy the first task that has been run. -/
def dropTask (s : Echo) : Except Fault Echo :=
  match s.finished with
  | [] => .ok s
  | .written :: finished => .ok { s with finished }
  | .append k :: finished => do
    let store ← s.store.destroy (.tmp k)
    pure { s with store, finished }

/-- `TcpSession::~TcpSession`. -/
def free (s : Echo) : Except Fault Echo :=
  if s.state = .disconnected then do
    let store ← s.store.destroy .inBuffer
    let store ← store.destroy .outBuffer
    pure { s with store, alive := false }
  else .error .assertFailed

/-- No tasks are being run. -/
def Idle (s : Echo) : Prop := s.batch = [] ∧ s.finished = []

instance (s : Echo) : Decidable s.Idle := inferInstanceAs (Decidable (_ ∧ _))

end Echo

/-- What happens next to the session. -/
inductive EchoLabel where
  /-- The reactor reports the event, for reading or for writing or for both. -/
  | event (read : Option (ℕ × Option (List UInt8))) (write : Option ℕ)
  /-- `Cycle::DoPendingFunctions` takes the tasks out of the queue. -/
  | swap
  /-- It runs the next one. -/
  | task (accept : ℕ)
  /-- It destroys the tasks it has run. -/
  | drop
  /-- The last pointer to the session goes. -/
  | free

namespace Echo

/-- A report reaches an event of the cycle between two batches; tasks are run one after the
other and destroyed when all have been run; the session goes when neither the server nor a task
points to it. -/
def step (s : Echo) : EchoLabel → Except Fault Echo
  | .event read write =>
    if s.alive ∧ s.registered ∧ s.Idle then do
      let s ← s.callRead read
      s.callWrite write
    else .ok s
  | .swap => if s.Idle then .ok { s with batch := s.pending, pending := [] } else .ok s
  | .task accept => s.runTask accept
  | .drop => if s.batch = [] then s.dropTask else .ok s
  | .free =>
    if s.alive ∧ ¬ s.registered ∧ s.Idle ∧ s.pending = [] then s.free else .ok s

/-- No buffer call of the step goes wrong: a read gets its room, the out-buffer has no spares
when bytes are put behind others, and no write deletes its `head`. -/
def Gentle (s : Echo) : EchoLabel → Prop
  | .event read write => s.alive ∧ s.registered ∧ s.Idle →
    (∀ r ∈ read, s.store.Safe (.read .inBuffer maxReadDefault r.1 sizeMax r.2)) ∧
    ∀ accept ∈ write, ∀ t ∈ (s.callRead read).toOption, t.writing →
      t.store.Safe (.write .outBuffer sizeMax accept)
  | .task accept => ∀ k ∈ s.batch.head?.bind fun | .append k => some k | .written => none,
    s.store.Safe (.append .outBuffer (.tmp k)) ∧
    ∀ store ∈ (s.store.append .outBuffer (.tmp k)).toOption,
      (∃ out ∈ s.store.buffers .outBuffer, out.size = 0) →
      store.Safe (.write .outBuffer sizeMax accept)
  | _ => True

instance (s : Echo) : ∀ label, Decidable (s.Gentle label)
  | .event _ _ | .swap | .task _ | .drop | .free => by
    unfold Gentle
    infer_instance

/-! ## The invariant -/

/-- The temporary buffers that tasks hold. -/
def keys (tasks : List EchoTask) : List ℕ :=
  tasks.filterMap fun | .append k => some k | .written => none

@[simp] theorem keys_append (ts us : List EchoTask) : keys (ts ++ us) = keys ts ++ keys us :=
  List.filterMap_append
@[simp] theorem keys_nil : keys [] = [] := rfl
@[simp] theorem keys_cons_append (k : ℕ) (ts : List EchoTask) :
    keys (.append k :: ts) = k :: keys ts := rfl
@[simp] theorem keys_cons_written (ts : List EchoTask) : keys (.written :: ts) = keys ts := rfl

/-- The bytes the session holds, in the order in which they are to go out. -/
def held (s : Echo) : List UInt8 :=
  s.store.bytes .outBuffer ++ (keys (s.batch ++ s.pending)).flatMap fun k => s.store.bytes (.tmp k)

/-- The strings of the buffers while the session exists. -/
structure Inv (s : Echo) (c : BufferName → Option (List UInt8)) (ring : BufferName → List ℕ) :
    Prop where
  rep : s.store.Rep c ring
  alive : s.alive = true
  out : (c .outBuffer).isSome
  empty : c .inBuffer = some []
  tmps : ∀ k, (c (.tmp k)).isSome ↔ k ∈ keys (s.finished ++ s.batch ++ s.pending)
  spent : ∀ k ∈ keys s.finished, c (.tmp k) = some []
  nodup : (keys (s.finished ++ s.batch ++ s.pending)).Nodup
  fresh : ∀ k ∈ keys (s.finished ++ s.batch ++ s.pending), k < s.made
  law : s.accepted ++ ((c .outBuffer).getD [] ++
    (keys (s.batch ++ s.pending)).flatMap fun k => (c (.tmp k)).getD []) = s.received
  state : s.registered = true ∧ s.state = .connected ∧ s.closes = 0 ∨
    s.registered = false ∧ s.state = .disconnected ∧ s.closes = 1
  interest : s.registered = true → c .outBuffer ≠ some [] → s.writing = true

variable {s : Echo} {c : BufferName → Option (List UInt8)} {ring : BufferName → List ℕ}
  {store : Store BufferName} {ring' : BufferName → List ℕ}

namespace Inv

theorem init (highWaterMark : ℕ) : ∃ c ring, (Echo.init highWaterMark).Inv c ring := by
  obtain ⟨-, ring₁, R₁⟩ := Store.Rep.init.new (i := BufferName.outBuffer) rfl
  obtain ⟨-, ring₂, R₂⟩ := R₁.new (i := .inBuffer) (Store.new_buffers_of_ne (by decide))
  exact ⟨_, ring₂, R₂, rfl, rfl, rfl, by simp [Echo.init], by simp [Echo.init],
    by simp [Echo.init], by simp [Echo.init], rfl, Or.inl ⟨rfl, rfl, rfl⟩, fun _ _ => rfl⟩

theorem held_eq (I : s.Inv c ring) : s.accepted ++ s.held = s.received := by
  rw [held, I.rep.bytes_eq, ← I.law]
  simp [I.rep.bytes_eq]

/-- Closing a session that is open. -/
theorem handleClose (I : s.Inv c ring) (hreg : s.registered = true) :
    ∃ s', s.handleClose = .ok s' ∧ s'.Inv c ring := by
  obtain ⟨-, hstate, hcloses⟩ := I.state.resolve_right fun h => by simp [hreg] at h
  refine ⟨_, if_pos (Or.inl hstate), I.rep, I.alive, I.out, I.empty, I.tmps, I.spent, I.nodup,
    I.fresh, I.law, Or.inr ⟨rfl, rfl, by simp [hcloses]⟩, by simp⟩

theorem forceClose (I : s.Inv c ring) : ∃ s', s.forceClose = .ok s' ∧ s'.Inv c ring := by
  rcases I.state with ⟨hreg, hstate, -⟩ | ⟨-, hstate, -⟩
  · obtain ⟨s', hclose, I'⟩ := I.handleClose hreg
    exact ⟨s', by rw [Echo.forceClose, if_pos (Or.inl hstate), hclose], I'⟩
  · exact ⟨s, by rw [Echo.forceClose, if_neg (by simp [hstate])], I⟩

/-- Another string in the out-buffer, with the bytes that are gone accepted. -/
theorem wrote {x taken : List UInt8}
    (I : s.Inv c ring) (hx : c .outBuffer = some x) (hpre : taken <+: x)
    (hwriting : s.writing = true)
    (R : store.Rep (Function.update c .outBuffer (some (x.drop taken.length))) ring') :
    Inv { s with store, accepted := s.accepted ++ taken }
      (Function.update c .outBuffer (some (x.drop taken.length))) ring' where
  rep := R
  alive := I.alive
  out := by simp
  empty := by simp [I.empty]
  tmps := by simpa using I.tmps
  spent := by simpa using I.spent
  nodup := I.nodup
  fresh := I.fresh
  law := by
    have hlaw := I.law
    rw [hx, Option.getD_some, ← List.prefix_iff_eq_append.mp hpre] at hlaw
    simpa using hlaw
  state := I.state
  interest _ _ := hwriting

/-- The write callback is queued and no more interest shown once the out-buffer is empty. -/
theorem quiet (I : s.Inv c ring) (hout : c .outBuffer = some []) :
    Inv { s with writing := false, pending := s.pending ++ [.written] } c ring where
  rep := I.rep
  alive := I.alive
  out := I.out
  empty := I.empty
  tmps := by simpa using I.tmps
  spent := I.spent
  nodup := by simpa using I.nodup
  fresh := by simpa using I.fresh
  law := by simpa using I.law
  state := I.state
  interest _ hne := absurd hout hne

/-- Writing takes bytes from the out-buffer to the socket. -/
theorem handleWrite (accept : ℕ) (I : s.Inv c ring)
    (hsafe : s.writing = true → s.store.Safe (.write .outBuffer sizeMax accept)) :
    ∃ s' c' ring', s.handleWrite accept = .ok s' ∧ s'.Inv c' ring' := by
  by_cases hwriting : s.writing = true
  · obtain ⟨x, taken, store, ring', hx, hrun, hpre, -, -, -, R⟩ := I.rep.write (hsafe hwriting)
    obtain ⟨out, hout, hsize⟩ := R.exists_buffer (Function.update_self _ _ _)
    have I' := I.wrote hx hpre hwriting R
    have hstate : s.state ≠ .disconnecting := by
      rcases I.state with ⟨-, h, -⟩ | ⟨-, h, -⟩ <;> simp [h]
    by_cases hempty : out.size = 0
    · have hnil : x.drop taken.length = [] := List.length_eq_zero_iff.mp (hsize ▸ hempty)
      refine ⟨_, _, ring', ?_, I'.quiet (by simp [hnil])⟩
      simp [Echo.handleWrite, hwriting, hrun, Store.get_of_some hout, hempty, hstate]
    · refine ⟨_, _, ring', ?_, I'⟩
      simp [Echo.handleWrite, hwriting, hrun, Store.get_of_some hout, hempty, hstate]
  · exact ⟨s, c, ring, by rw [Echo.handleWrite, if_neg hwriting], I⟩

/-- A temporary buffer that has not been made is not held by a task. -/
theorem made_not_mem (I : s.Inv c ring) :
    s.made ∉ keys (s.finished ++ s.batch ++ s.pending) := fun hm =>
  Nat.lt_irrefl _ (I.fresh _ hm)

/-- Another temporary buffer, behind all others. -/
theorem queued {x : List UInt8} {c' : BufferName → Option (List UInt8)}
    (I : s.Inv c ring)
    (R : store.Rep c' ring') (hin : c' .inBuffer = some []) (hout : c' .outBuffer = c .outBuffer)
    (hnew : c' (.tmp s.made) = some x) (hold : ∀ k, k ≠ s.made → c' (.tmp k) = c (.tmp k)) :
    Inv { s with
      store, received := s.received ++ x, pending := s.pending ++ [.append s.made],
      made := s.made + 1 } c' ring' where
  rep := R
  alive := I.alive
  out := hout ▸ I.out
  empty := hin
  tmps k := by
    have hmem : k ∈ keys (s.finished ++ s.batch ++ (s.pending ++ [.append s.made])) ↔
        k ∈ keys (s.finished ++ s.batch ++ s.pending) ∨ k = s.made := by
      simp [or_assoc]
    rw [hmem, ← I.tmps]
    by_cases hk : k = s.made
    · simp [hk, hnew]
    · simp [hk, hold k hk]
  spent k hk := by
    rw [hold k, I.spent k hk]
    rintro rfl
    exact I.made_not_mem (by simp [hk])
  nodup := by
    have hkeys : keys (s.finished ++ s.batch ++ (s.pending ++ [.append s.made])) =
        keys (s.finished ++ s.batch ++ s.pending) ++ [s.made] := by simp
    rw [hkeys, List.nodup_append]
    refine ⟨I.nodup, List.nodup_singleton _, fun a ha b hb hab => ?_⟩
    rw [hab, List.mem_singleton.mp hb] at ha
    exact I.made_not_mem ha
  fresh k hk := by
    have hor : k ∈ keys (s.finished ++ s.batch ++ s.pending) ∨ k = s.made := by
      simpa [or_assoc] using hk
    rcases hor with hk | rfl
    · exact Nat.lt_succ_of_lt (I.fresh k hk)
    · exact Nat.lt_succ_self _
  law := by
    have hsame : ((keys (s.batch ++ s.pending)).flatMap fun k => (c' (.tmp k)).getD []) =
        (keys (s.batch ++ s.pending)).flatMap fun k => (c (.tmp k)).getD [] := by
      refine List.flatMap_congr fun k hk => ?_
      rw [hold k]
      rintro rfl
      refine I.made_not_mem ?_
      rw [List.append_assoc, keys_append]
      exact List.mem_append_right _ hk
    have hkeys : keys (s.batch ++ (s.pending ++ [.append s.made])) =
        keys (s.batch ++ s.pending) ++ [s.made] := by simp
    simp only [hkeys, List.flatMap_append, hsame, hout, List.flatMap_singleton, hnew,
      Option.getD_some, ← I.law, List.append_assoc]
  state := I.state
  interest hreg hne := I.interest hreg (hout ▸ hne)

/-- What has been read leaves the in-buffer for a temporary one. -/
theorem append {x : List UInt8} {ring₁ : BufferName → List ℕ}
    (I : s.Inv c ring) (hconn : s.state = .connected) (hlen : x.length < 2 ^ 64)
    (R : store.Rep (Function.update c .inBuffer (some x)) ring₁) :
    ∃ s' c' ring', ({ s with store, received := s.received ++ x } : Echo).append = .ok s' ∧
      s'.Inv c' ring' := by
  have hnone : c (.tmp s.made) = none := by
    rw [← Option.not_isSome_iff_eq_none, I.tmps]
    exact I.made_not_mem
  obtain ⟨-, ring₂, R₂⟩ := R.new (i := .tmp s.made) (R.buffers_eq_none (by simpa using hnone))
  obtain ⟨a, ha, hasize⟩ := R₂.exists_buffer (Function.update_self _ _ _)
  obtain ⟨b, hb, hbsize⟩ := R₂.exists_buffer (i := .inBuffer) (x := x) (by simp)
  have hsafe : (store.new (.tmp s.made)).Safe (.append (.tmp s.made) .inBuffer) := by
    refine ⟨a, ha, b, hb, Or.inr ⟨?_, Or.inl hasize⟩⟩
    simp only [Buffer.size] at hasize hbsize
    rw [hasize, hbsize]
    simpa using hlen
  obtain ⟨y, z, store', ring', hy, hz, hrun, R'⟩ := R₂.append (by simp) hsafe
  obtain rfl : [] = y := by simpa using hy
  obtain rfl : x = z := by simpa using hz
  refine ⟨_, _, ring', ?_,
    I.queued (x := x) R' (by simp) (by simp) (by simp) fun k hk => by simp [hk]⟩
  simp [Echo.append, hconn, hrun]

/-- Reading from the socket. -/
theorem handleRead {available : ℕ} {arrived : Option (List UInt8)} (I : s.Inv c ring)
    (hreg : s.registered = true)
    (hsafe : s.store.Safe (.read .inBuffer maxReadDefault available sizeMax arrived)) :
    ∃ s' c' ring', s.handleRead available arrived = .ok s' ∧ s'.Inv c' ring' := by
  obtain ⟨-, hconn, -⟩ := I.state.resolve_right fun h => by simp [hreg] at h
  have hlen : (arrived.getD []).length < 2 ^ 64 := by
    obtain ⟨b, -, hmem, -⟩ := hsafe
    omega
  obtain ⟨x, n, store, ring₁, hx, hrun, hn, -, R⟩ := I.rep.read hsafe
  obtain rfl : [] = x := Option.some.inj (I.empty.symm.trans hx)
  rw [List.nil_append] at R
  by_cases hzero : n = 0
  · -- the in-buffer may have got blocks, and nothing in them
    subst hzero
    rw [List.take_zero, ← I.empty, Function.update_eq_self] at R
    have I' : Inv { s with store } c ring₁ := ⟨R, I.alive, I.out, I.empty, I.tmps, I.spent,
      I.nodup, I.fresh, I.law, I.state, I.interest⟩
    obtain ⟨s', hclose, I''⟩ := I'.handleClose hreg
    exact ⟨s', c, ring₁, by simp [Echo.handleRead, hrun, hclose], I''⟩
  · obtain ⟨s', c', ring', happend, I'⟩ := I.append hconn
      (by rw [List.length_take]; omega) R
    exact ⟨s', c', ring', by simp [Echo.handleRead, hrun, hzero, happend], I'⟩

/-- The strings of other temporary buffers. -/
theorem flatMap_update {k : ℕ} {o : Option (List UInt8)} {ks : List ℕ} (hk : k ∉ ks) :
    (ks.flatMap fun j => (Function.update c (.tmp k) o (.tmp j)).getD []) =
      ks.flatMap fun j => (c (.tmp j)).getD [] := by
  refine List.flatMap_congr fun j hj => ?_
  have hjk : j ≠ k := fun h => hk (h ▸ hj)
  simp [hjk]

/-- Bytes go from the first task of the batch to the end of the out-buffer. -/
theorem appended {k : ℕ} {batch : List EchoTask} {x y : List UInt8}
    (I : s.Inv c ring) (hbatch : s.batch = .append k :: batch)
    (hx : c .outBuffer = some x) (hy : c (.tmp k) = some y)
    (R : store.Rep (Function.update (Function.update c .outBuffer (some (x ++ y))) (.tmp k)
      (some [])) ring') (writing : Bool) (hwriting : s.registered = true → writing = true) :
    Inv { s with store, batch, finished := s.finished ++ [.append k], writing }
      (Function.update (Function.update c .outBuffer (some (x ++ y))) (.tmp k) (some []))
      ring' := by
  have hkeys : keys (s.finished ++ [.append k] ++ batch ++ s.pending) =
      keys (s.finished ++ s.batch ++ s.pending) := by simp [hbatch]
  have hnot : k ∉ keys (batch ++ s.pending) := by
    have hnodup := I.nodup
    rw [List.append_assoc, keys_append, hbatch, List.cons_append, keys_cons_append] at hnodup
    exact (List.nodup_cons.mp (List.nodup_append.mp hnodup).2.1).1
  refine ⟨R, I.alive, by simp, by simp [I.empty], fun j => ?_, fun j hj => ?_, hkeys ▸ I.nodup,
    hkeys ▸ I.fresh, ?_, I.state, fun hreg _ => hwriting hreg⟩
  · rw [hkeys, ← I.tmps]
    by_cases hj : j = k
    · simp [hj, hy]
    · simp [hj]
  · by_cases hjk : j = k
    · simp [hjk]
    · simp only [keys_append, keys_cons_append, keys_nil, List.mem_append, List.mem_singleton, hjk,
        or_false] at hj
      simpa [hjk] using I.spent j hj
  · have hlaw := I.law
    rw [hbatch, List.cons_append, keys_cons_append, List.flatMap_cons, hx, hy] at hlaw
    simp only [flatMap_update hnot]
    simpa using hlaw

/-- A task is run. -/
theorem runTask {accept : ℕ} (I : s.Inv c ring) (hgentle : s.Gentle (.task accept)) :
    ∃ s' c' ring', s.runTask accept = .ok s' ∧ s'.Inv c' ring' := by
  match hbatch : s.batch with
  | [] => exact ⟨s, c, ring, by simp [Echo.runTask, hbatch], I⟩
  | .written :: batch =>
      refine ⟨{ s with batch, finished := s.finished ++ [.written] }, c, ring,
        by simp only [Echo.runTask, hbatch], I.rep, I.alive, I.out, I.empty, ?_,
        ?_, ?_, ?_, ?_, I.state, I.interest⟩
      · simpa [hbatch] using I.tmps
      · simpa using I.spent
      · simpa [hbatch] using I.nodup
      · simpa [hbatch] using I.fresh
      · simpa [hbatch] using I.law
  | .append k :: batch =>
      obtain ⟨hsafe, hwrite⟩ := hgentle k (by simp [hbatch])
      obtain ⟨x, y, store, ring', hx, hy, hrun, R⟩ := I.rep.append (by simp) hsafe
      obtain ⟨out, hout, hsize⟩ := I.rep.exists_buffer hx
      have hstep : s.runTask accept = ({ s with store, batch, finished := s.finished ++
          [.append k] } : Echo).afterAppend out.size accept := by
        simp [Echo.runTask, hbatch, Store.get_of_some hout, hrun]
      rw [hstep]
      by_cases hzero : out.size = 0
      · have I' := I.appended hbatch hx hy R true fun _ => rfl
        obtain ⟨s', c', ring'', hdone, I''⟩ := I'.handleWrite accept fun _ =>
          hwrite store (by simp [hrun, Except.toOption]) ⟨out, hout, hzero⟩
        exact ⟨s', c', ring'', by rw [Echo.afterAppend, if_pos hzero, hdone], I''⟩
      · have hne : c .outBuffer ≠ some [] := by
          rintro heq
          rw [hx, Option.some.injEq] at heq
          exact hzero (by simp [hsize, heq])
        have I' := I.appended hbatch hx hy R s.writing fun hreg => I.interest hreg hne
        by_cases hhigh : out.size > s.highWaterMark ∧ s.highWaterMark ≠ 0
        · obtain ⟨s', hclose, I''⟩ := I'.forceClose
          exact ⟨s', _, ring', by rw [Echo.afterAppend, if_neg hzero, if_pos hhigh, hclose], I''⟩
        · exact ⟨_, _, ring', by rw [Echo.afterAppend, if_neg hzero, if_neg hhigh], I'⟩

/-- A task is destroyed, and the buffer it holds. -/
theorem dropTask (I : s.Inv c ring) : ∃ s' c' ring', s.dropTask = .ok s' ∧ s'.Inv c' ring' := by
  match hfinished : s.finished with
  | [] => exact ⟨s, c, ring, by simp [Echo.dropTask, hfinished], I⟩
  | .written :: finished =>
      refine ⟨{ s with finished }, c, ring, by simp only [Echo.dropTask, hfinished], I.rep,
        I.alive, I.out, I.empty, ?_, ?_, ?_, ?_, I.law, I.state, I.interest⟩
      · simpa [hfinished] using I.tmps
      · simpa [hfinished] using I.spent
      · simpa [hfinished] using I.nodup
      · simpa [hfinished] using I.fresh
  | .append k :: finished =>
      have hspent := I.spent k (by simp [hfinished])
      obtain ⟨b, hb, -⟩ := I.rep.exists_buffer hspent
      obtain ⟨x, store, ring', -, hrun, R⟩ := I.rep.destroy (i := .tmp k)
        (Option.isSome_iff_exists.mpr ⟨b, hb⟩)
      have hkeys : keys (s.finished ++ s.batch ++ s.pending) =
          k :: keys (finished ++ s.batch ++ s.pending) := by simp [hfinished]
      have hnodup := I.nodup
      rw [hkeys, List.nodup_cons] at hnodup
      have hne : ∀ j ∈ keys (finished ++ s.batch ++ s.pending), j ≠ k := fun j hj h =>
        hnodup.1 (h ▸ hj)
      refine ⟨{ s with store, finished }, _, ring', ?_, R, I.alive, by simpa using I.out,
        by simpa using I.empty, fun j => ?_, fun j hj => ?_, hnodup.2, fun j hj => ?_, ?_, I.state,
        by simpa using I.interest⟩
      · simp [Echo.dropTask, hfinished, hrun]
      · by_cases hj : j = k
        · simpa [hj] using hnodup.1
        · have := I.tmps j
          rw [hkeys, List.mem_cons] at this
          simp [this, hj]
      · have hjk := hne j (by simp [hj])
        simpa [hjk] using I.spent j (by simp [hfinished, hj])
      · exact I.fresh j (by rw [hkeys]; exact List.mem_cons_of_mem k hj)
      · have hnot : k ∉ keys (s.batch ++ s.pending) := fun hk => hnodup.1 (by
          rw [List.append_assoc, keys_append]
          exact List.mem_append_right _ hk)
        simp only [flatMap_update hnot]
        simpa using I.law

end Inv

/-- The session is gone, and all its memory. -/
structure Gone (s : Echo) : Prop where
  alive : s.alive = false
  registered : s.registered = false
  tasks : s.pending = [] ∧ s.batch = [] ∧ s.finished = []
  law : s.accepted <+: s.received
  closes : s.closes = 1
  live : ∀ p, s.store.heap.live p = false

/-- The session is destroyed. -/
theorem Inv.free (I : s.Inv c ring) (hreg : s.registered = false) (hidle : s.Idle)
    (hpending : s.pending = []) : ∃ s', s.free = .ok s' ∧ s'.Gone := by
  obtain ⟨-, hstate, hcloses⟩ := I.state.resolve_left fun h => by simp [hreg] at h
  obtain ⟨b, hb, -⟩ := I.rep.exists_buffer I.empty
  obtain ⟨-, store₁, ring₁, -, hrun₁, R₁⟩ := I.rep.destroy (i := .inBuffer)
    (Option.isSome_iff_exists.mpr ⟨b, hb⟩)
  obtain ⟨x, hx⟩ := Option.isSome_iff_exists.mp I.out
  obtain ⟨o, ho, -⟩ := R₁.exists_buffer (i := .outBuffer) (x := x) (by simpa using hx)
  obtain ⟨-, store₂, ring₂, -, hrun₂, R₂⟩ := R₁.destroy (i := .outBuffer)
    (Option.isSome_iff_exists.mpr ⟨o, ho⟩)
  refine ⟨{ s with store := store₂, alive := false }, ?_, rfl, hreg, ⟨hpending, hidle⟩, ?_,
    hcloses, R₂.live_eq_false fun i => ?_⟩
  · simp [Echo.free, hstate, hrun₁, hrun₂]
  · rw [← I.law]
    exact List.prefix_append _ _
  · match i with
    | .outBuffer => simp
    | .inBuffer => simp
    | .tmp k =>
        have htmp := I.tmps k
        simpa [hidle.1, hidle.2, hpending] using htmp

/-- A session that is gone stays gone. -/
theorem Gone.step (G : s.Gone) (label : EchoLabel) : ∃ s', s.step label = .ok s' ∧ s'.Gone := by
  obtain ⟨hpending, hbatch, hfinished⟩ := G.tasks
  cases label with
  | event read write => exact ⟨s, if_neg (by simp [G.alive]), G⟩
  | swap =>
      exact ⟨_, if_pos ⟨hbatch, hfinished⟩, G.alive, G.registered, ⟨rfl, hpending, hfinished⟩,
        G.law, G.closes, G.live⟩
  | task accept => exact ⟨s, by simp [Echo.step, Echo.runTask, hbatch], G⟩
  | drop => exact ⟨s, by simp [Echo.step, Echo.dropTask, hfinished, hbatch], G⟩
  | free => exact ⟨s, if_neg (by simp [G.alive]), G⟩

/-- A report of the reactor. -/
theorem Inv.event {read : Option (ℕ × Option (List UInt8))} {write : Option ℕ} (I : s.Inv c ring)
    (hreg : s.registered = true)
    (hread : ∀ r ∈ read, s.store.Safe (.read .inBuffer maxReadDefault r.1 sizeMax r.2))
    (hwrite : ∀ accept ∈ write, ∀ t ∈ (s.callRead read).toOption, t.writing = true →
      t.store.Safe (.write .outBuffer sizeMax accept)) :
    ∃ s' c' ring', (s.callRead read >>= fun t => t.callWrite write) = .ok s' ∧
      s'.Inv c' ring' := by
  obtain ⟨t, c₁, ring₁, hrun, I₁⟩ : ∃ t c₁ ring₁, s.callRead read = .ok t ∧ t.Inv c₁ ring₁ := by
    cases read with
    | none => exact ⟨s, c, ring, rfl, I⟩
    | some r => exact I.handleRead hreg (hread r rfl)
  rw [hrun, ok_bind]
  cases write with
  | none => exact ⟨t, c₁, ring₁, rfl, I₁⟩
  | some accept =>
      exact I₁.handleWrite accept (hwrite accept rfl t (by simp [hrun, Except.toOption]))

/-- The session exists, or it is gone. -/
def Good (s : Echo) : Prop := (∃ c ring, s.Inv c ring) ∨ s.Gone

/-- One step in which no buffer call goes wrong. -/
theorem Good.step {label : EchoLabel} (hgood : s.Good) (hgentle : s.Gentle label) :
    ∃ s', s.step label = .ok s' ∧ s'.Good := by
  rcases hgood with ⟨c, ring, I⟩ | G
  · cases label with
    | event read write =>
        by_cases hcond : s.alive = true ∧ s.registered = true ∧ s.Idle
        · obtain ⟨hread, hwrite⟩ := hgentle hcond
          obtain ⟨s', c', ring', hrun, I'⟩ := I.event hcond.2.1 hread hwrite
          exact ⟨s', by rw [Echo.step, if_pos hcond, hrun], Or.inl ⟨c', ring', I'⟩⟩
        · exact ⟨s, if_neg hcond, Or.inl ⟨c, ring, I⟩⟩
    | swap =>
        by_cases hidle : s.Idle
        · refine ⟨_, if_pos hidle, Or.inl ⟨c, ring, I.rep, I.alive, I.out, I.empty, ?_, I.spent, ?_,
            ?_, ?_, I.state, I.interest⟩⟩
          · simpa [hidle.1] using I.tmps
          · simpa [hidle.1] using I.nodup
          · simpa [hidle.1] using I.fresh
          · simpa [hidle.1] using I.law
        · exact ⟨s, if_neg hidle, Or.inl ⟨c, ring, I⟩⟩
    | task accept =>
        obtain ⟨s', c', ring', hrun, I'⟩ := I.runTask hgentle
        exact ⟨s', hrun, Or.inl ⟨c', ring', I'⟩⟩
    | drop =>
        by_cases hbatch : s.batch = []
        · obtain ⟨s', c', ring', hrun, I'⟩ := I.dropTask
          exact ⟨s', by rw [Echo.step, if_pos hbatch, hrun], Or.inl ⟨c', ring', I'⟩⟩
        · exact ⟨s, if_neg hbatch, Or.inl ⟨c, ring, I⟩⟩
    | free =>
        by_cases hcond : s.alive = true ∧ ¬ s.registered = true ∧ s.Idle ∧ s.pending = []
        · obtain ⟨s', hrun, G⟩ := I.free (by simpa using hcond.2.1) hcond.2.2.1 hcond.2.2.2
          exact ⟨s', by rw [Echo.step, if_pos hcond, hrun], Or.inr G⟩
        · exact ⟨s, if_neg hcond, Or.inl ⟨c, ring, I⟩⟩
  · obtain ⟨s', hrun, G'⟩ := G.step label
    exact ⟨s', hrun, Or.inr G'⟩

end Echo

/-- **What is echoed.**  In whatever order reports and tasks come and however little the socket
takes at a time, the bytes it has taken and the bytes the session holds are those it has received,
in their order; as long as the event is part of the cycle it asks to write while bytes wait in the
out-buffer; the user is told of the end at most once; and when the session is gone, so is every
node it had. -/
theorem echo_conserves {highWaterMark : ℕ} {labels : List EchoLabel}
    (hgentle : Meets Echo.step Echo.Gentle (Echo.init highWaterMark) labels) :
    ∃ s, run Echo.step (Echo.init highWaterMark) labels = .ok s ∧
      (s.alive = true → s.accepted ++ s.held = s.received) ∧
      (s.registered = true → s.store.bytes .outBuffer ≠ [] → s.writing = true) ∧
      s.closes ≤ 1 ∧
      (s.alive = false → s.accepted <+: s.received ∧ ∀ p, s.store.heap.live p = false) := by
  obtain ⟨s, hrun, hgood⟩ := simulates (fun _ _ => ()) (fun s (_ : Unit) => s.Good)
    (fun s _ label hgood hcond => hgood.step hcond) (t := ())
    (Or.inl (Echo.Inv.init highWaterMark)) hgentle
  refine ⟨s, hrun, ?_⟩
  rcases hgood with ⟨c, ring, I⟩ | G
  · refine ⟨fun _ => I.held_eq, fun hreg hne => I.interest hreg fun heq => ?_, ?_,
      fun hdead => ?_⟩
    · rw [I.rep.bytes_eq, heq] at hne
      exact hne rfl
    · rcases I.state with ⟨-, -, h⟩ | ⟨-, -, h⟩ <;> omega
    · rw [I.alive] at hdead
      cases hdead
  · refine ⟨fun halive => ?_, fun hreg => ?_, G.closes.le, fun _ => ⟨G.law, G.live⟩⟩
    · rw [G.alive] at halive
      cases halive
    · rw [G.registered] at hreg
      cases hreg

/-- Five bytes come, two of them go out with the task and three later; the peer closes. -/
theorem echo_conserves_five : ∃ s, run Echo.step (Echo.init defaultHighWater)
    [.event (some (5, some [1, 2, 3, 4, 5])) none, .swap, .task 2, .drop, .event none (some 9),
      .event (some (0, some [])) none, .swap, .task 0, .drop, .free] = .ok s ∧
      (s.alive = true → s.accepted ++ s.held = s.received) ∧
      (s.registered = true → s.store.bytes .outBuffer ≠ [] → s.writing = true) ∧
      s.closes ≤ 1 ∧
      (s.alive = false → s.accepted <+: s.received ∧ ∀ p, s.store.heap.live p = false) :=
  echo_conserves (by decide +kernel)

end Hare.Net
