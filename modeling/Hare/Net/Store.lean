import Hare.Net.Kept

/-!
# Programs over several buffers

A program makes buffers, calls their functions and destroys them; all of them share one heap.
Seen from outside a buffer is a byte string: `Does` says what each call is for, what it does to the
strings and what it returns.  `run_refines` is the connection: a program whose calls are `Safe` and
`Apt` returns, does to the buffers what it does to the strings, and every node of the heap belongs
to exactly one buffer that still exists.

`Safe` excludes the calls that go wrong: an addition that slides a block, a draining that
deletes `head`, a joining that drops spares, a read that never gets the room it asks for, and the
move constructor, which follows a null pointer.  `Apt` excludes those that do less than they are
for: `Remove` never copies a byte into the caller's array, and a write may offer empty blocks only.
-/

namespace Hare.Net

open LabelledRun Ownership

variable {ι : Type}

/-- Buffers by name, over one heap. -/
structure Store (ι : Type) where
  heap : Heap
  buffers : ι → Option Buffer

/-- The functions of a buffer.  `accept` is what the socket takes of a write; `available` is what
it says to have and `arrived` what a read finds, `none` when the system call fails. -/
inductive Call (ι : Type) where
  | new (i : ι)
  | destroy (i : ι)
  | clearAll (i : ι)
  | skip (i : ι) (n : ℕ)
  | add (i : ι) (payload : Payload)
  | remove (i : ι) (dest : List UInt8) (n : ℕ)
  | append (i j : ι)
  | move (i j : ι)
  /-- Buffer `i` is made from buffer `j` by the move constructor. -/
  | moveNew (i j : ι)
  | write (i : ι) (howmuch accept : ℕ)
  | read (i : ι) (maxRead available howmuch : ℕ) (arrived : Option (List UInt8))

/-- What a call returns; for a write, the bytes that went out. -/
inductive Reply where
  | done
  | added (ok : Bool)
  | removed (n : ℕ) (dest : List UInt8)
  | written (taken : List UInt8)
  | received (n : ℕ)
  deriving DecidableEq, Repr

namespace Store

/-- No buffer has been made. -/
def init : Store ι := ⟨Heap.init, fun _ => none⟩

/-- Calls on a buffer that does not exist any more use it after its destruction. -/
def get (s : Store ι) (i : ι) : Except Fault Buffer :=
  match s.buffers i with
  | some b => .ok b
  | none => .error .useAfterFree

theorem get_of_some {s : Store ι} {i : ι} {b : Buffer} (hb : s.buffers i = some b) :
    s.get i = .ok b := by
  simp [get, hb]

/-- The bytes of a buffer, along its window. -/
def bytes (s : Store ι) (i : ι) : List UInt8 :=
  match s.buffers i with
  | none => []
  | some b =>
    match b.cacheChain.walk s.heap with
    | .ok win => s.heap.content win
    | .error _ => []

variable [DecidableEq ι]

/-- Store a buffer back. -/
def put (s : Store ι) (h : Heap) (i : ι) (b : Option Buffer) : Store ι :=
  ⟨h, Function.update s.buffers i b⟩

theorem put_self {s : Store ι} {i : ι} {b : Option Buffer} (hb : s.buffers i = b) :
    s.put s.heap i b = s := by
  simp [put, ← hb]

/-- `Buffer::Buffer`. -/
def new (s : Store ι) (i : ι) : Store ι :=
  let (h, b) := Buffer.new s.heap
  s.put h i b

theorem new_buffers_of_ne {s : Store ι} {i j : ι} (hij : j ≠ i) :
    (s.new i).buffers j = s.buffers j :=
  Function.update_of_ne hij _ _

/-- `Buffer::~Buffer`. -/
def destroy (s : Store ι) (i : ι) : Except Fault (Store ι) := do
  let b ← s.get i
  let h ← b.destroy s.heap
  pure (s.put h i none)

def clearAll (s : Store ι) (i : ι) : Except Fault (Store ι) := do
  let b ← s.get i
  let (h, b) ← b.clearAll s.heap
  pure (s.put h i b)

def skip (s : Store ι) (i : ι) (n : ℕ) : Except Fault (Store ι) := do
  let b ← s.get i
  let (h, b) ← b.skip s.heap n
  pure (s.put h i b)

def add (s : Store ι) (i : ι) (payload : Payload) : Except Fault (Bool × Store ι) := do
  let b ← s.get i
  let (ok, h, b) ← b.add s.heap payload.bytes
  pure (ok, s.put h i b)

def remove (s : Store ι) (i : ι) (dest : List UInt8) (n : ℕ) :
    Except Fault (ℕ × List UInt8 × Store ι) := do
  let b ← s.get i
  let (k, dest, h, b) ← b.remove s.heap dest n
  pure (k, dest, s.put h i b)

def append (s : Store ι) (i j : ι) : Except Fault (Store ι) := do
  let a ← s.get i
  let b ← s.get j
  -- a buffer is not appended to itself
  if i = j then pure s
  else do
    let (h, a, b) ← a.append s.heap b
    pure ((s.put h i a).put h j b)

def move (s : Store ι) (i j : ι) : Except Fault (Store ι) := do
  let a ← s.get i
  let b ← s.get j
  pure ((s.put s.heap i b).put s.heap j a)

/-- `Buffer(Buffer&&)`, which calls `Move` before there is anything to swap with. -/
def moveNew (s : Store ι) (_ j : ι) : Except Fault (Store ι) := do
  let _ ← s.get j
  throw .nullPointer

def write (s : Store ι) (i : ι) (howmuch accept : ℕ) : Except Fault (List UInt8 × Store ι) := do
  let b ← s.get i
  let (taken, h, b) ← b.write s.heap howmuch accept
  pure (taken, s.put h i b)

/-- The loop that is to allocate ends at once or never, so that one round of it is enough. -/
def read (s : Store ι) (i : ι) (maxRead available howmuch : ℕ) (arrived : Option (List UInt8)) :
    Except Fault (ℕ × Store ι) := do
  let b ← s.get i
  let (k, h, b) ← b.read 1 s.heap maxRead available howmuch arrived
  pure (k, s.put h i b)

/-- One call. -/
def step (s : Store ι) : Call ι → Except Fault (Reply × Store ι)
  | .new i => .ok (.done, s.new i)
  | .destroy i => do pure (.done, ← s.destroy i)
  | .clearAll i => do pure (.done, ← s.clearAll i)
  | .skip i n => do pure (.done, ← s.skip i n)
  | .add i payload => do
    let (ok, s) ← s.add i payload
    pure (.added ok, s)
  | .remove i dest n => do
    let (k, dest, s) ← s.remove i dest n
    pure (.removed k dest, s)
  | .append i j => do pure (.done, ← s.append i j)
  | .move i j => do pure (.done, ← s.move i j)
  | .moveNew i j => do pure (.done, ← s.moveNew i j)
  | .write i howmuch accept => do
    let (taken, s) ← s.write i howmuch accept
    pure (.written taken, s)
  | .read i maxRead available howmuch arrived => do
    let (k, s) ← s.read i maxRead available howmuch arrived
    pure (.received k, s)

/-- One call, its reply aside. -/
def next (s : Store ι) (call : Call ι) : Except Fault (Store ι) := (s.step call).map Prod.snd

/-- The calls of a program, with their replies. -/
def run (s : Store ι) : List (Call ι) → Except Fault (List Reply × Store ι)
  | [] => .ok ([], s)
  | call :: calls => do
    let (reply, s) ← s.step call
    let (replies, s) ← run s calls
    pure (reply :: replies, s)

end Store

/-! ## Byte strings -/

section Strings
variable [DecidableEq ι]

/-- What a call is to do to the byte strings `c`, and what it is to return.  A removal copies the
bytes it takes off to the front of the array.  A write takes some beginning of the string, which is
not empty if the socket accepts anything; a read gets at least what it asks for, as far as that has
arrived. -/
inductive Does (c : ι → Option (List UInt8)) :
    Call ι → Reply → (ι → Option (List UInt8)) → Prop
  | new {i} : c i = none → Does c (.new i) .done (Function.update c i (some []))
  | destroy {i x} : c i = some x → Does c (.destroy i) .done (Function.update c i none)
  | clearAll {i x} : c i = some x → Does c (.clearAll i) .done (Function.update c i (some []))
  | skip {i x n} : c i = some x →
    Does c (.skip i n) .done (Function.update c i (some (x.drop n)))
  | add {i x payload} : c i = some x → x.length + payload.bytes.length ≤ maxSize →
    Does c (.add i payload) (.added true) (Function.update c i (some (x ++ payload.bytes)))
  | refuse {i x payload} : c i = some x → maxSize < x.length + payload.bytes.length →
    Does c (.add i payload) (.added false) c
  | remove {i x dest n} : c i = some x → Does c (.remove i dest n)
    (.removed (min n x.length) (x.take n ++ dest.drop (min n x.length)))
    (Function.update c i (some (x.drop n)))
  | append {i j x y} : i ≠ j → c i = some x → c j = some y → Does c (.append i j) .done
    (Function.update (Function.update c i (some (x ++ y))) j (some []))
  | itself {i x} : c i = some x → Does c (.append i i) .done c
  | move {i j x y} : c i = some x → c j = some y → Does c (.move i j) .done
    (Function.update (Function.update c i (some y)) j (some x))
  | moveNew {i j y} : c i = none → c j = some y → Does c (.moveNew i j) .done
    (Function.update (Function.update c i (some y)) j (some []))
  | write {i x howmuch accept taken} : c i = some x → taken <+: x → taken.length ≤ accept →
    (howmuch ≠ 0 → taken.length ≤ howmuch) → (x ≠ [] → accept ≠ 0 → taken ≠ []) →
    Does c (.write i howmuch accept) (.written taken)
      (Function.update c i (some (x.drop taken.length)))
  | read {i x maxRead available howmuch arrived k} : c i = some x →
    k ≤ (arrived.getD []).length →
    min (arrived.getD []).length (Buffer.request maxRead available howmuch) ≤ k →
    Does c (.read i maxRead available howmuch arrived) (.received k)
      (Function.update c i (some (x ++ (arrived.getD []).take k)))

/-- The calls of a program on byte strings. -/
inductive DoesAll : (ι → Option (List UInt8)) → List (Call ι) → List Reply →
    (ι → Option (List UInt8)) → Prop
  | nil {c} : DoesAll c [] [] c
  | cons {c c' c'' call calls reply replies} : Does c call reply c' →
    DoesAll c' calls replies c'' → DoesAll c (call :: calls) (reply :: replies) c''

end Strings

/-! ## The calls that go right -/

/-- The `head` of the resulting buffer has not been deleted. -/
def HeadLives (r : Except Fault (Heap × Buffer)) : Prop :=
  ∀ h b, r = .ok (h, b) → h.live b.cacheChain.head = true

instance : ∀ r, Decidable (HeadLives r)
  | .ok (h, b) => decidable_of_iff (h.live b.cacheChain.head = true) <| by
      constructor
      · rintro hlive h' b' heq
        cases heq
        exact hlive
      · exact fun hkeeps => hkeeps h b rfl
  | .error _ => isTrue fun _ _ heq => by cases heq

/-- The call is made on buffers that exist, with sizes that can be counted; it slides no block,
deletes no `head`, drops no spares and gets the room it asks for.  It is not the move
constructor. -/
def Store.Safe [DecidableEq ι] (s : Store ι) : Call ι → Prop
  | .new i => s.buffers i = none
  | .destroy i => (s.buffers i).isSome
  | .clearAll i => (s.buffers i).isSome
  | .skip i n => ∃ b ∈ s.buffers i, HeadLives (b.skip s.heap n)
  | .add i payload => ∃ b ∈ s.buffers i, b.totalLen + payload.bytes.length < 2 ^ 64 ∧
    ∀ c ∈ s.heap.cache b.cacheChain.write, ¬ c.Slides payload.bytes.length
  | .remove i dest n => ∃ b ∈ s.buffers i, min n b.totalLen ≤ dest.length ∧
    HeadLives ((b.remove s.heap dest n).map fun r => r.2.2)
  | .append i j => ∃ a ∈ s.buffers i, ∃ b ∈ s.buffers j, i = j ∨
    a.totalLen + b.totalLen < 2 ^ 64 ∧ (a.totalLen = 0 ∨ b.totalLen = 0 ∨
      s.heap.next a.cacheChain.write = a.cacheChain.read)
  | .move i j => (s.buffers i).isSome ∧ (s.buffers j).isSome
  | .moveNew _ _ => False
  | .write i howmuch accept => ∃ b ∈ s.buffers i,
    HeadLives ((b.write s.heap howmuch accept).map Prod.snd)
  | .read i maxRead available howmuch arrived => ∃ b ∈ s.buffers i,
    b.totalLen + (arrived.getD []).length < 2 ^ 64 ∧
    (b.cacheChain.fastExpand 1 s.heap (Buffer.request maxRead available howmuch)).isOk

instance [DecidableEq ι] (s : Store ι) : ∀ call, Decidable (s.Safe call)
  | .new _ | .destroy _ | .clearAll _ | .skip _ _ | .add _ _ | .remove _ _ _ | .append _ _
  | .move _ _ | .moveNew _ _ | .write _ _ _ | .read _ _ _ _ _ => by
    unfold Store.Safe
    infer_instance

/-- What is to be removed is in the array already, and a write offers some byte if there is one. -/
def Store.Apt (s : Store ι) : Call ι → Prop
  | .remove i dest n => dest.take (min n (s.bytes i).length) = (s.bytes i).take n
  | .write i howmuch _ => ∀ b ∈ s.buffers i, b.totalLen ≠ 0 →
    ∀ iov ∈ (b.offer s.heap howmuch).toOption, iov.flatten ≠ []
  | _ => True

instance (s : Store ι) : ∀ call, Decidable (s.Apt call)
  | .new _ | .destroy _ | .clearAll _ | .skip _ _ | .add _ _ | .remove _ _ _ | .append _ _
  | .move _ _ | .moveNew _ _ | .write _ _ _ | .read _ _ _ _ _ => by
    unfold Store.Apt
    infer_instance

theorem exists_of_isOk {α : Type} {r : Except Fault α} (hok : r.isOk = true) :
    ∃ a, r = .ok a := by
  cases r with
  | ok a => exact ⟨a, rfl⟩
  | error e => cases hok

/-! ## Representation -/

/-- A buffer and the string it keeps, or neither. -/
def Slot (h : Heap) : Option Buffer → Option (List UInt8) → List ℕ → Prop
  | none, none, ring => ring = []
  | some b, some x, ring => Kept h b ring x
  | _, _, _ => False

/-- The strings of the buffers, and the nodes of each; no node is without an owner. -/
structure Store.Rep (s : Store ι) (c : ι → Option (List UInt8)) (ring : ι → List ℕ) : Prop where
  slot : ∀ i, Slot s.heap (s.buffers i) (c i) (ring i)
  owned : Owned {p | s.heap.live p = true} fun i => {p | p ∈ ring i}

theorem Kept.slot {h : Heap} {b : Buffer} {ring : List ℕ} {x : List UInt8} (K : Kept h b ring x) :
    Slot h (some b) (some x) ring := K

theorem Slot.frame {h h' : Heap} {ob : Option Buffer} {ox : Option (List UInt8)}
    {ring given taken : List ℕ} (S : Slot h ob ox ring) (E : Exchange h h' given taken)
    (hdis : ∀ p ∈ ring, p ∉ given) : Slot h' ob ox ring := by
  match ob, ox, S with
  | none, none, S => exact S
  | some b, some x, S => exact Kept.frame S E hdis

namespace Store.Rep

variable {s : Store ι} {c : ι → Option (List UInt8)} {ring : ι → List ℕ} {i j : ι} {b : Buffer}

theorem init : Rep (Store.init : Store ι) (fun _ => none) fun _ => [] :=
  ⟨fun _ => rfl, by simp, fun p => by simp [Store.init, Heap.init]⟩

/-- A buffer that exists keeps a string. -/
theorem kept (R : s.Rep c ring) (hb : s.buffers i = some b) :
    ∃ x, c i = some x ∧ Kept s.heap b (ring i) x := by
  have S := R.slot i
  rw [hb] at S
  cases hc : c i with
  | none => exact (hc ▸ S : Slot s.heap (some b) none (ring i)).elim
  | some x => exact ⟨x, rfl, (hc ▸ S : Slot s.heap (some b) (some x) (ring i))⟩

/-- A buffer that does not exist keeps nothing. -/
theorem vacant (R : s.Rep c ring) (hb : s.buffers i = none) : c i = none ∧ ring i = [] := by
  have S := R.slot i
  rw [hb] at S
  cases hc : c i with
  | none => exact ⟨rfl, (hc ▸ S : Slot s.heap none none (ring i))⟩
  | some x => exact (hc ▸ S : Slot s.heap none (some x) (ring i)).elim

/-- A string is kept by a buffer that exists and counts it. -/
theorem exists_buffer {x : List UInt8} (R : s.Rep c ring) (hc : c i = some x) :
    ∃ b, s.buffers i = some b ∧ b.size = x.length := by
  cases hb : s.buffers i with
  | none =>
      rw [(R.vacant hb).1] at hc
      cases hc
  | some b =>
      obtain ⟨y, hy, K⟩ := R.kept hb
      obtain rfl := Option.some.inj (hy.symm.trans hc)
      exact ⟨b, rfl, K.size_eq⟩

theorem buffers_eq_none (R : s.Rep c ring) (hc : c i = none) : s.buffers i = none := by
  cases hb : s.buffers i with
  | none => rfl
  | some b =>
      obtain ⟨x, hx, -⟩ := R.kept hb
      rw [hc] at hx
      cases hx

/-- The strings can be read off the heap. -/
theorem bytes_eq (R : s.Rep c ring) (i : ι) : s.bytes i = (c i).getD [] := by
  cases hb : s.buffers i with
  | none => simp [Store.bytes, hb, (R.vacant hb).1]
  | some b =>
      obtain ⟨x, hc, K⟩ := R.kept hb
      obtain ⟨win, spare, -, S⟩ := K.carries
      simp [Store.bytes, hb, hc, S.chain.window.walk_eq, S.content_eq]

theorem disjoint (R : s.Rep c ring) (hij : i ≠ j) : ∀ p ∈ ring i, p ∉ ring j :=
  fun _ hp hp' => hij (R.owned.unique hp hp')

/-- Once no buffer exists, no node does. -/
theorem live_eq_false (R : s.Rep c ring) (hnone : ∀ i, c i = none) (p : ℕ) :
    s.heap.live p = false := by
  have hall := R.owned.all p
  have hempty : ∀ i, ring i = [] := fun i => (R.vacant (R.buffers_eq_none (hnone i))).2
  simpa [hempty] using hall

variable [DecidableEq ι]

/-- One buffer is exchanged for another. -/
theorem put {h' : Heap} {taken : List ℕ} {ob : Option Buffer} {ox : Option (List UInt8)}
    (R : s.Rep c ring) (E : Exchange s.heap h' (ring i) taken) (S : Slot h' ob ox taken) :
    (s.put h' i ob).Rep (Function.update c i ox) (Function.update ring i taken) := by
  refine ⟨fun j => ?_, E.owned R.owned⟩
  by_cases hj : j = i
  · subst hj
    simpa [Store.put] using S
  · simp only [Store.put, Function.update_of_ne hj]
    exact (R.slot j).frame E (R.disjoint hj)

/-- Two buffers are exchanged for others. -/
theorem put_two {h' : Heap} {taken taken' : List ℕ} {a b : Buffer} {x y : List UInt8}
    (R : s.Rep c ring) (hij : i ≠ j) (E : Exchange s.heap h' (ring i ++ ring j) (taken ++ taken'))
    (A : Kept h' a taken x) (B : Kept h' b taken' y) (hdis : ∀ p ∈ taken, p ∉ taken') :
    ((s.put h' i a).put h' j b).Rep (Function.update (Function.update c i (some x)) j (some y))
      (Function.update (Function.update ring i taken) j taken') := by
  refine ⟨fun k => ?_, E.owned_two hij R.owned hdis⟩
  by_cases hkj : k = j
  · subst hkj
    simpa [Store.put] using B.slot
  by_cases hki : k = i
  · subst hki
    simpa [Store.put, hkj] using A.slot
  simp only [Store.put, Function.update_of_ne hkj, Function.update_of_ne hki]
  refine (R.slot k).frame E fun p hp hp' => ?_
  exact (List.mem_append.mp hp').elim (R.disjoint hki p hp) (R.disjoint hkj p hp)

/-! ## Calls -/

theorem new (R : s.Rep c ring) (hsafe : s.Safe (.new i)) :
    c i = none ∧ ∃ ring', (s.new i).Rep (Function.update c i (some [])) ring' := by
  obtain ⟨hc, hring⟩ := R.vacant hsafe
  obtain ⟨h', b, hnew, K, E, -⟩ := Buffer.new_kept s.heap
  have hrun : s.new i = s.put h' i b := by rw [Store.new, hnew]
  rw [hrun]
  exact ⟨hc, _, R.put (hring ▸ E) K.slot⟩

theorem destroy (R : s.Rep c ring) (hsafe : s.Safe (.destroy i)) :
    ∃ x s' ring', c i = some x ∧ s.destroy i = .ok s' ∧
      s'.Rep (Function.update c i none) ring' := by
  obtain ⟨b, hb⟩ := Option.isSome_iff_exists.mp hsafe
  obtain ⟨x, hc, K⟩ := R.kept hb
  obtain ⟨h', hrun, E⟩ := K.destroy
  have R' : (s.put h' i none).Rep (Function.update c i none) _ := R.put E rfl
  refine ⟨x, _, _, hc, ?_, R'⟩
  simp [Store.destroy, get_of_some hb, hrun]

theorem clearAll (R : s.Rep c ring) (hsafe : s.Safe (.clearAll i)) :
    ∃ x s' ring', c i = some x ∧ s.clearAll i = .ok s' ∧
      s'.Rep (Function.update c i (some [])) ring' := by
  obtain ⟨b, hb⟩ := Option.isSome_iff_exists.mp hsafe
  obtain ⟨x, hc, K⟩ := R.kept hb
  obtain ⟨h', b', ring', hrun, K', E⟩ := K.clearAll
  refine ⟨x, _, _, hc, ?_, R.put E K'.slot⟩
  simp [Store.clearAll, get_of_some hb, hrun]

theorem skip {n : ℕ} (R : s.Rep c ring) (hsafe : s.Safe (.skip i n)) :
    ∃ x s' ring', c i = some x ∧ s.skip i n = .ok s' ∧
      s'.Rep (Function.update c i (some (x.drop n))) ring' := by
  obtain ⟨b, hb, hhead⟩ := hsafe
  obtain ⟨x, hc, K⟩ := R.kept hb
  obtain ⟨h', b', ring', hrun, K', E⟩ := K.skip hhead
  refine ⟨x, _, _, hc, ?_, R.put E K'.slot⟩
  simp [Store.skip, get_of_some hb, hrun]

theorem add {payload : Payload} (R : s.Rep c ring) (hsafe : s.Safe (.add i payload)) :
    ∃ x s', c i = some x ∧
      (x.length + payload.bytes.length ≤ maxSize ∧ s.add i payload = .ok (true, s') ∧
          (∃ ring', s'.Rep (Function.update c i (some (x ++ payload.bytes))) ring') ∨
        maxSize < x.length + payload.bytes.length ∧ s.add i payload = .ok (false, s') ∧
          s' = s) := by
  obtain ⟨b, hb, hmem, hslide⟩ := hsafe
  obtain ⟨x, hc, K⟩ := R.kept hb
  rw [K.size_eq] at hmem
  by_cases hcap : x.length + payload.bytes.length ≤ maxSize
  · obtain ⟨h', b', ring', hrun, K', E⟩ := K.add payload.fits hcap hslide
    refine ⟨x, _, hc, Or.inl ⟨hcap, ?_, _, R.put E K'.slot⟩⟩
    simp [Store.add, get_of_some hb, hrun]
  · have hrun : b.add s.heap payload.bytes = .ok (false, s.heap, b) :=
      Buffer.add_refused (by rw [K.size_eq, Nat.mod_eq_of_lt hmem]; exact hcap)
    refine ⟨x, s, hc, Or.inr ⟨Nat.not_le.mp hcap, ?_, rfl⟩⟩
    simp [Store.add, get_of_some hb, hrun, put_self hb]

theorem remove {dest : List UInt8} {n : ℕ} (R : s.Rep c ring)
    (hsafe : s.Safe (.remove i dest n)) :
    ∃ x s' ring', c i = some x ∧ s.remove i dest n = .ok (min n x.length, dest, s') ∧
      (s.Apt (.remove i dest n) → dest = x.take n ++ dest.drop (min n x.length)) ∧
      s'.Rep (Function.update c i (some (x.drop n))) ring' := by
  obtain ⟨b, hb, hdest, hhead⟩ := hsafe
  obtain ⟨x, hc, K⟩ := R.kept hb
  rw [K.size_eq] at hdest
  obtain ⟨h', b', ring', hrun, K', E⟩ := K.remove hdest fun k d h' b' hrun =>
    hhead h' b' (by rw [hrun]; rfl)
  refine ⟨x, _, _, hc, ?_, fun hapt => ?_, R.put E K'.slot⟩
  · simp [Store.remove, get_of_some hb, hrun]
  · rw [Store.Apt, R.bytes_eq, hc, Option.getD_some] at hapt
    rw [← hapt, List.take_append_drop]

theorem append (R : s.Rep c ring) (hij : i ≠ j) (hsafe : s.Safe (.append i j)) :
    ∃ x y s' ring', c i = some x ∧ c j = some y ∧ s.append i j = .ok s' ∧
      s'.Rep (Function.update (Function.update c i (some (x ++ y))) j (some [])) ring' := by
  obtain ⟨a, ha, b, hb, hcond⟩ := hsafe
  obtain ⟨x, hx, A⟩ := R.kept ha
  obtain ⟨y, hy, B⟩ := R.kept hb
  obtain ⟨hmem, hspare⟩ := hcond.resolve_left hij
  rw [A.size_eq, B.size_eq, List.length_eq_zero_iff, List.length_eq_zero_iff] at hspare
  rw [A.size_eq, B.size_eq] at hmem
  obtain ⟨h', a', b', ra, rb, hrun, A', B', hdis, E⟩ := A.append B (R.disjoint hij) hmem hspare
  refine ⟨x, y, _, _, hx, hy, ?_, R.put_two hij E A' B' hdis⟩
  simp [Store.append, get_of_some ha, get_of_some hb, hij, hrun]

theorem append_self (R : s.Rep c ring) (hsafe : s.Safe (.append i i)) :
    ∃ x, c i = some x ∧ s.append i i = .ok s := by
  obtain ⟨a, ha, -⟩ := hsafe
  obtain ⟨x, hx, -⟩ := R.kept ha
  exact ⟨x, hx, by simp [Store.append, get_of_some ha]⟩

theorem move (R : s.Rep c ring) (hsafe : s.Safe (.move i j)) :
    ∃ x y s' ring', c i = some x ∧ c j = some y ∧ s.move i j = .ok s' ∧
      s'.Rep (Function.update (Function.update c i (some y)) j (some x)) ring' := by
  obtain ⟨a, ha⟩ := Option.isSome_iff_exists.mp hsafe.1
  obtain ⟨b, hb⟩ := Option.isSome_iff_exists.mp hsafe.2
  obtain ⟨x, hx, A⟩ := R.kept ha
  obtain ⟨y, hy, B⟩ := R.kept hb
  have hrun : s.move i j = .ok ((s.put s.heap i b).put s.heap j a) := by
    simp [Store.move, get_of_some ha, get_of_some hb]
  by_cases hij : i = j
  · subst hij
    obtain rfl := Option.some.inj (ha.symm.trans hb)
    rw [put_self ha, put_self ha] at hrun
    refine ⟨x, y, s, ring, hx, hy, hrun, ?_⟩
    rw [Function.update_idem, ← hx, Function.update_eq_self]
    exact R
  · have E : Exchange s.heap s.heap (ring i ++ ring j) (ring j ++ ring i) := by
      refine .same (fun p hp => ?_) fun p => by simp [or_comm]
      exact (List.mem_append.mp hp).elim A.live_of_mem B.live_of_mem
    exact ⟨x, y, _, _, hx, hy, hrun, R.put_two hij E B A (R.disjoint (Ne.symm hij))⟩

theorem write {howmuch accept : ℕ} (R : s.Rep c ring) (hsafe : s.Safe (.write i howmuch accept)) :
    ∃ x taken s' ring', c i = some x ∧ s.write i howmuch accept = .ok (taken, s') ∧
      taken <+: x ∧ taken.length ≤ accept ∧ (howmuch ≠ 0 → taken.length ≤ howmuch) ∧
      (s.Apt (.write i howmuch accept) → x ≠ [] → accept ≠ 0 → taken ≠ []) ∧
      s'.Rep (Function.update c i (some (x.drop taken.length))) ring' := by
  obtain ⟨b, hb, hhead⟩ := hsafe
  obtain ⟨x, hc, K⟩ := R.kept hb
  obtain ⟨taken, h', b', ring', hrun, hpre, haccept, hmuch, ⟨iov, hoffer, htaken⟩, -, K', E⟩ :=
    K.write howmuch accept fun t h' b' hrun => hhead h' b' (by rw [hrun]; rfl)
  refine ⟨x, taken, _, _, hc, ?_, hpre, haccept, hmuch, fun hapt hne haccept => ?_,
    R.put E K'.slot⟩
  · simp [Store.write, get_of_some hb, hrun]
  · have hlen : b.totalLen ≠ 0 := by
      rw [K.size_eq]
      exact List.length_eq_zero_iff.not.mpr hne
    have hiov : iov.flatten ≠ [] := hapt b hb hlen iov (by rw [hoffer]; rfl)
    rw [htaken, ne_eq, List.take_eq_nil_iff, not_or]
    exact ⟨haccept, hiov⟩

theorem read {maxRead available howmuch : ℕ} {arrived : Option (List UInt8)} (R : s.Rep c ring)
    (hsafe : s.Safe (.read i maxRead available howmuch arrived)) :
    ∃ x k s' ring', c i = some x ∧ s.read i maxRead available howmuch arrived = .ok (k, s') ∧
      k ≤ (arrived.getD []).length ∧
      min (arrived.getD []).length (Buffer.request maxRead available howmuch) ≤ k ∧
      s'.Rep (Function.update c i (some (x ++ (arrived.getD []).take k))) ring' := by
  obtain ⟨b, hb, hmem, hok⟩ := hsafe
  obtain ⟨x, hc, K⟩ := R.kept hb
  rw [K.size_eq] at hmem
  obtain ⟨r, hexp⟩ := exists_of_isOk hok
  obtain ⟨k, h', b', ring', hrun, hk, hk', K', E⟩ := K.read hexp arrived hmem
  refine ⟨x, k, _, _, hc, ?_, hk, hk', R.put E K'.slot⟩
  simp [Store.read, get_of_some hb, hrun]

/-- **One call** that is safe and apt returns, does to the buffers what it does to the strings, and
leaves every node with one owner. -/
theorem step (R : s.Rep c ring) {call : Call ι} (hsafe : s.Safe call) (hapt : s.Apt call) :
    ∃ reply s' c' ring', s.step call = .ok (reply, s') ∧ Does c call reply c' ∧
      s'.Rep c' ring' := by
  cases call with
  | new i =>
      obtain ⟨hc, ring', R'⟩ := R.new hsafe
      exact ⟨.done, _, _, ring', rfl, .new hc, R'⟩
  | destroy i =>
      obtain ⟨x, s', ring', hc, hrun, R'⟩ := R.destroy hsafe
      exact ⟨.done, s', _, ring', by simp [Store.step, hrun], .destroy hc, R'⟩
  | clearAll i =>
      obtain ⟨x, s', ring', hc, hrun, R'⟩ := R.clearAll hsafe
      exact ⟨.done, s', _, ring', by simp [Store.step, hrun], .clearAll hc, R'⟩
  | skip i n =>
      obtain ⟨x, s', ring', hc, hrun, R'⟩ := R.skip hsafe
      exact ⟨.done, s', _, ring', by simp [Store.step, hrun], .skip hc, R'⟩
  | add i payload =>
      obtain ⟨x, s', hc, ⟨hcap, hrun, ring', R'⟩ | ⟨hcap, hrun, rfl⟩⟩ := R.add hsafe
      · exact ⟨.added true, s', _, ring', by simp [Store.step, hrun], .add hc hcap, R'⟩
      · exact ⟨.added false, s', c, ring, by simp [Store.step, hrun], .refuse hc hcap, R⟩
  | remove i dest n =>
      obtain ⟨x, s', ring', hc, hrun, hdest, R'⟩ := R.remove hsafe
      refine ⟨.removed _ _, s', _, ring', ?_, .remove hc, R'⟩
      rw [← hdest hapt]
      simp [Store.step, hrun]
  | append i j =>
      by_cases hij : i = j
      · subst hij
        obtain ⟨x, hx, hrun⟩ := R.append_self hsafe
        exact ⟨.done, s, c, ring, by simp [Store.step, hrun], .itself hx, R⟩
      · obtain ⟨x, y, s', ring', hx, hy, hrun, R'⟩ := R.append hij hsafe
        exact ⟨.done, s', _, ring', by simp [Store.step, hrun], .append hij hx hy, R'⟩
  | move i j =>
      obtain ⟨x, y, s', ring', hx, hy, hrun, R'⟩ := R.move hsafe
      exact ⟨.done, s', _, ring', by simp [Store.step, hrun], .move hx hy, R'⟩
  | moveNew i j => exact hsafe.elim
  | write i howmuch accept =>
      obtain ⟨x, taken, s', ring', hc, hrun, hpre, haccept, hmuch, hsome, R'⟩ := R.write hsafe
      exact ⟨.written taken, s', _, ring', by simp [Store.step, hrun],
        .write hc hpre haccept hmuch (hsome hapt), R'⟩
  | read i maxRead available howmuch arrived =>
      obtain ⟨x, k, s', ring', hc, hrun, hk, hk', R'⟩ := R.read hsafe
      exact ⟨.received k, s', _, ring', by simp [Store.step, hrun], .read hc hk hk', R'⟩

/-- A program whose calls are safe and apt, from any store. -/
theorem run {calls : List (Call ι)} (R : s.Rep c ring)
    (hsafe : Meets Store.next (fun s call => s.Safe call ∧ s.Apt call) s calls) :
    ∃ replies s' c' ring', s.run calls = .ok (replies, s') ∧ DoesAll c calls replies c' ∧
      s'.Rep c' ring' := by
  induction calls generalizing s c ring with
  | nil => exact ⟨[], s, c, ring, rfl, .nil, R⟩
  | cons call calls ih =>
      obtain ⟨reply, s₁, c₁, ring₁, hstep, hdoes, R₁⟩ := R.step hsafe.1.1 hsafe.1.2
      obtain ⟨replies, s', c', ring', hrun, hall, R'⟩ :=
        ih R₁ (hsafe.2 s₁ (by rw [Store.next, hstep]; rfl))
      refine ⟨reply :: replies, s', c', ring', ?_, .cons hdoes hall, R'⟩
      simp [Store.run, hstep, hrun]

end Store.Rep

section Programs
variable [DecidableEq ι]

/-- The move constructor follows a null pointer. -/
theorem Store.step_moveNew {s : Store ι} {i j : ι} (hj : (s.buffers j).isSome) :
    s.step (.moveNew i j) = .error .nullPointer := by
  obtain ⟨b, hb⟩ := Option.isSome_iff_exists.mp hj
  rw [Store.step, Store.moveNew, get_of_some hb]
  rfl

/-- **Every program of safe and apt calls** over any number of buffers returns; its replies are
those of the same calls on byte strings; every buffer holds its string in nodes of its own, and once
all buffers are destroyed no node is left. -/
theorem run_refines {calls : List (Call ι)}
    (hsafe : Meets Store.next (fun s call => s.Safe call ∧ s.Apt call) Store.init calls) :
    ∃ replies s c ring, Store.init.run calls = .ok (replies, s) ∧
      DoesAll (fun _ => none) calls replies c ∧ s.Rep c ring ∧
      ((∀ i, c i = none) → ∀ p, s.heap.live p = false) := by
  obtain ⟨replies, s, c, ring, hrun, hdoes, R⟩ := Store.Rep.init.run hsafe
  exact ⟨replies, s, c, ring, hrun, hdoes, R, R.live_eq_false⟩

end Programs

/-- Two buffers: bytes are added, read, handed over, partly written, and one is removed that the
array has already. -/
theorem run_refines_program : ∃ replies s c ring, Store.init.run
    [.new 0, .new 1, .add 0 ⟨[1, 2, 3], by decide⟩, .read 0 4096 2 0 (some [4, 5]), .append 1 0,
      .write 1 0 2, .remove 1 [3] 1, .destroy 0, .destroy 1] = .ok (replies, s) ∧
    DoesAll (fun _ => none) [.new 0, .new 1, .add 0 ⟨[1, 2, 3], by decide⟩,
      .read 0 4096 2 0 (some [4, 5]), .append 1 0, .write 1 0 2, .remove 1 [3] 1, .destroy 0,
      .destroy 1] replies c ∧ s.Rep c ring ∧
    ((∀ i : ℕ, c i = none) → ∀ p, s.heap.live p = false) :=
  run_refines (by decide +kernel)

end Hare.Net
