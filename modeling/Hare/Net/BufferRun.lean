import Hare.Net.Add
import Hare.Net.Splice

/-!
# Runs of one buffer

One owner creates a buffer and calls `Buffer.add`, `Buffer.skip` and `Buffer.clearAll` on
it.  What the buffer is for is a queue of bytes (`fifoStep`); the model of the code refines
it exactly along the runs whose calls are `Safe`.  Two things can go wrong:

* an addition for which `Cache.realign` slides the content of the write block to its
  front: the copy that follows leaves the block;
* a call that starts from `head` after the clean-up in `CacheList.drain` has deleted it.
-/

namespace Hare.Net

open LinkedRing LabelledRun Window

/-- A buffer and the heap its nodes live in. -/
structure Owner where
  heap : Heap
  buffer : Buffer

/-- The calls of the owner. -/
inductive BufferCall
  | add (payload : Payload)
  | skip (n : ℕ)
  | clearAll

namespace Owner

def init : Owner := ⟨(Buffer.new Heap.init).1, (Buffer.new Heap.init).2⟩

def step (s : Owner) : BufferCall → Except Fault Owner
  | .add payload => do
    let (_, h, b) ← s.buffer.add s.heap payload.bytes
    pure ⟨h, b⟩
  | .skip n => do
    let (h, b) ← s.buffer.skip s.heap n
    pure ⟨h, b⟩
  | .clearAll => do
    let (h, b) ← s.buffer.clearAll s.heap
    pure ⟨h, b⟩

end Owner

/-- What the calls mean for a queue of bytes with a cap. -/
def fifoStep (content : List UInt8) : BufferCall → List UInt8
  | .add payload =>
    if content.length + payload.bytes.length ≤ maxSize then content ++ payload.bytes else content
  | .skip n => content.drop n
  | .clearAll => []

/-- The number of unread bytes of a node. -/
def Heap.readableSize (h : Heap) (p : ℕ) : ℕ := (h.cache p).elim 0 Cache.readableSize

/-- The storage invariant: the cursors of every block are in order and its capacity is the
length of its array, the size is the sum over the window, and the window holds the
content. -/
structure Stores (s : Owner) (content : List UInt8) : Prop where
  blocks : ∀ p c, s.heap.live p = true → s.heap.cache p = some c →
    c.misalign ≤ c.size ∧ c.size ≤ c.capacity ∧ c.capacity = c.ptr.length
  window : ∃ win, s.buffer.cacheChain.walk s.heap = .ok win ∧
    s.buffer.size = (win.map s.heap.readableSize).sum ∧ s.heap.content win = content

/-- The call neither slides a block nor starts from a deleted node. -/
def Safe (s : Owner) : BufferCall → Prop
  | .add payload => s.buffer.size + payload.bytes.length ≤ maxSize →
    ∀ c, s.heap.cache s.buffer.cacheChain.write = some c → ¬ c.Slides payload.bytes.length
  | .skip n => s.buffer.size ≤ n → s.heap.live s.buffer.cacheChain.head = true
  | .clearAll => s.heap.live s.buffer.cacheChain.head = true

/-- The invariant of the runs: the buffer holds the content, its ring is all there is in
the heap, and `head` was once allocated. -/
structure Owner.Inv (s : Owner) (win spare : List ℕ) (content : List UInt8) : Prop where
  holds : Holds s.heap s.buffer win content
  chain : Chain s.heap s.buffer.cacheChain win spare
  cap : content.length ≤ maxSize
  owned : ∀ p, s.heap.live p = true ↔ p ∈ win ++ spare
  head : s.buffer.cacheChain.head < s.heap.brk

namespace Owner.Inv

variable {s : Owner} {win spare : List ℕ} {content : List UInt8}

theorem init : Owner.init.Inv [0] [] [] := by
  obtain ⟨h', b, hnew, C, H, E, hhead, -⟩ := Buffer.new_spec Heap.init
  have hinit : Owner.init = ⟨h', b⟩ := by simp [Owner.init, hnew]
  rw [hinit]
  refine ⟨H, C, by simp, ?_, ?_⟩
  · intro p
    simp only
    rw [E.live]
    simp [Heap.init]
  · have hlive := C.live_of_mem (List.mem_cons_self (a := Heap.init.brk))
    rw [hhead]
    exact Heap.lt_brk hlive

/-- An exchange of the ring leaves nothing else in the heap. -/
theorem owned_exchange (I : s.Inv win spare content) {h' : Heap} {ring' : List ℕ}
    (E : Exchange s.heap h' (win ++ spare) ring') (p : ℕ) : h'.live p = true ↔ p ∈ ring' := by
  rw [E.live, I.owned]
  tauto

theorem size_eq (I : s.Inv win spare content) : s.buffer.totalLen = content.length := by
  have hcap := I.cap
  rw [I.holds.size_eq]
  exact Nat.mod_eq_of_lt (by simp only [maxSize] at hcap; omega)

/-- The test of an addition does not wrap. -/
theorem sum_eq (I : s.Inv win spare content) (payload : Payload) :
    (s.buffer.totalLen + payload.bytes.length) % 2 ^ 64 =
      s.buffer.totalLen + payload.bytes.length := by
  have hcap := I.cap
  have hfits := payload.fits
  rw [I.size_eq]
  exact Nat.mod_eq_of_lt (by simp only [maxSize, ptrdiffMax] at *; omega)

/-- The owner observes the storage invariant. -/
theorem stores (I : s.Inv win spare content) : Stores s content := by
  refine ⟨?_, win, I.chain.window.walk_eq, ?_, I.holds.content_eq⟩
  · intro p c hp hc
    have hv := I.chain.valid_of_mem ((I.owned p).mp hp) hc
    exact ⟨hv.misalign_le, hv.size_le, hv.capacity_eq⟩
  · have hlen : ∀ p ∈ win, s.heap.readableSize p = (s.heap.readable p).length := by
      intro p hp
      rw [Heap.readableSize, Heap.readable]
      cases hc : s.heap.cache p with
      | none => rfl
      | some c => exact (I.chain.window.valid p hp c hc).length_readable.symm
    rw [Buffer.size, I.size_eq, ← I.holds.content_eq, Heap.content, List.length_flatMap,
      List.map_congr_left hlen]

/-! ## Steps -/

theorem add (I : s.Inv win spare content) {payload : Payload}
    (hsafe : Safe s (.add payload)) : ∃ s' win' spare', s.step (.add payload) = .ok s' ∧
      s'.Inv win' spare' (fifoStep content (.add payload)) ∧ win ++ spare ⊆ win' ++ spare' ∧
      s'.buffer.cacheChain.head = s.buffer.cacheChain.head := by
  have hsum := I.sum_eq payload
  by_cases hcap : content.length + payload.bytes.length ≤ maxSize
  · obtain ⟨h', b', win', spare', hrun, H, C, E, hsub, hhead, -⟩ :=
      I.holds.add_spec I.chain payload.fits (by rwa [hsum, I.size_eq])
        (hsafe (by rwa [Buffer.size, I.size_eq]))
    refine ⟨⟨h', b'⟩, win', spare', by simp [Owner.step, hrun], ?_, hsub, hhead⟩
    rw [fifoStep, if_pos hcap]
    refine ⟨H, C, by rwa [List.length_append], I.owned_exchange E, ?_⟩
    rw [hhead]
    exact I.head.trans_le E.brk
  · have hrun := Buffer.add_refused (h := s.heap) (by rwa [hsum, I.size_eq] : ¬ _ ≤ maxSize)
    refine ⟨s, win, spare, by simp [Owner.step, hrun], ?_, List.Subset.refl _, rfl⟩
    rw [fifoStep, if_neg hcap]
    exact I

theorem clearAll (I : s.Inv win spare content)
    (hlive : s.heap.live s.buffer.cacheChain.head = true) :
    ∃ s', s.step .clearAll = .ok s' ∧ s'.Inv [s.buffer.cacheChain.head] [] [] ∧
      s'.buffer.cacheChain.head = s.buffer.cacheChain.head := by
  obtain ⟨h', hrun, C, hread, E⟩ := I.chain.reset_spec ((I.owned _).mp hlive)
  refine ⟨⟨h', ⟨_, 0⟩⟩, by simp [Owner.step, Buffer.clearAll_eq hrun],
    ⟨⟨C.window, by simp [hread], rfl, Or.inl rfl⟩, C, by simp, ?_, ?_⟩, rfl⟩
  · exact I.owned_exchange (by simpa using E)
  · exact I.head.trans_le E.brk

theorem step_skip_of_le {n : ℕ} (hn : s.buffer.size ≤ n) : s.step (.skip n) = s.step .clearAll := by
  simp only [Owner.step, Buffer.skip_of_le hn]

theorem skip_of_lt (I : s.Inv win spare content) {n : ℕ} (hn : n < s.buffer.size) :
    ∃ h' idx post kept dead,
      Drained s.heap s.buffer.cacheChain win n h' idx post kept dead ∧
      content ≠ [] ∧
      s.step (.skip n) = .ok ⟨h', ⟨s.buffer.cacheChain.trimmed idx dead.length,
        s.buffer.totalLen - n⟩⟩ ∧
      Owner.Inv ⟨h', ⟨s.buffer.cacheChain.trimmed idx dead.length,
        s.buffer.totalLen - n⟩⟩ (idx :: post) (spare ++ kept) (content.drop n) := by
  have hn' : n < content.length := by rwa [← I.size_eq]
  have hne : content ≠ [] := by
    rintro rfl
    simp at hn'
  obtain ⟨h', idx, post, kept, dead, hrun, D, H⟩ := I.holds.drain_spec hne hn.le
  refine ⟨h', idx, post, kept, dead, D, hne, ?_, H,
    D.chain I.chain, ?_, I.owned_exchange (D.exchange I.chain), ?_⟩
  · simp [Owner.step, Buffer.skip_of_lt hn hrun]
  · have hcap := I.cap
    rw [List.length_drop]
    omega
  · exact I.head.trans_le D.brk.ge

/-- One safe call. -/
theorem step (I : s.Inv win spare content) {call : BufferCall} (hsafe : Safe s call) :
    ∃ s' win' spare', s.step call = .ok s' ∧ s'.Inv win' spare' (fifoStep content call) := by
  cases call with
  | add payload =>
      obtain ⟨s', win', spare', hrun, I', -⟩ := I.add hsafe
      exact ⟨s', win', spare', hrun, I'⟩
  | clearAll =>
      obtain ⟨s', hrun, I', -⟩ := I.clearAll hsafe
      exact ⟨s', _, _, hrun, I'⟩
  | skip n =>
      rcases Nat.lt_or_ge n s.buffer.size with hlt | hge
      · obtain ⟨h', idx, post, kept, dead, -, -, hrun, I'⟩ := I.skip_of_lt hlt
        exact ⟨_, _, _, hrun, I'⟩
      · obtain ⟨s', hrun, I', -⟩ := I.clearAll (hsafe hge)
        have hall : content.drop n = [] := by
          rw [List.drop_eq_nil_iff, ← I.size_eq]
          exact hge
        exact ⟨s', _, _, by rw [step_skip_of_le hge, hrun], by rwa [fifoStep, hall]⟩

theorem clearAll_of_dead (I : s.Inv win spare content)
    (hdead : ¬ s.heap.live s.buffer.cacheChain.head = true) :
    s.step .clearAll = .error .useAfterFree := by
  have hreset := CacheList.reset_of_dead (Bool.not_eq_true _ ▸ hdead) (Nat.zero_lt_of_lt I.head)
  simp [Owner.step, Buffer.clearAll, hreset]

theorem add_of_slides (I : s.Inv win spare content) {payload : Payload}
    (hsafe : ¬ Safe s (.add payload)) : s.step (.add payload) = .error .outOfBounds := by
  simp only [Safe, Classical.not_imp, not_forall, not_not] at hsafe
  obtain ⟨hcap, c, hc, hslide⟩ := hsafe
  have hsum := I.sum_eq payload
  simp [Owner.step, I.holds.add_of_slides (by rwa [hsum]) hc hslide]

/-- A call that is not safe does not return. -/
theorem stops (I : s.Inv win spare content) {call : BufferCall} (hsafe : ¬ Safe s call) :
    ∃ fault, s.step call = .error fault := by
  cases call with
  | add payload => exact ⟨_, I.add_of_slides hsafe⟩
  | clearAll => exact ⟨_, I.clearAll_of_dead hsafe⟩
  | skip n =>
      simp only [Safe, Classical.not_imp] at hsafe
      exact ⟨_, by rw [step_skip_of_le hsafe.1, I.clearAll_of_dead hsafe.2]⟩

end Owner.Inv

/-- **A buffer is a queue of bytes along exactly the safe runs.**  The storage invariant
holds after every call of a run from a new buffer if and only if every call, in the state
it is made in, is safe. -/
theorem stores_iff_safe (calls : List BufferCall) :
    (∀ ks, ks <+: calls → ∃ s, run Owner.step Owner.init ks = .ok s ∧
      Stores s (ks.foldl fifoStep [])) ↔ Meets Owner.step Safe Owner.init calls := by
  refine simulates_iff fifoStep (fun s content => ∃ win spare, s.Inv win spare content) Stores
    ?_ ?_ ?_ ⟨_, _, Owner.Inv.init⟩
  · rintro s content call ⟨win, spare, I⟩ hsafe
    obtain ⟨s', win', spare', hrun, I'⟩ := I.step hsafe
    exact ⟨s', hrun, win', spare', I'⟩
  · rintro s content ⟨win, spare, I⟩
    exact I.stores
  · rintro s content call s' ⟨win, spare, I⟩ hsafe hrun
    obtain ⟨fault, hstop⟩ := I.stops hsafe
    rw [hrun] at hstop
    cases hstop

/-- Three thousand bytes, of which two thousand are skipped, leave a block with a short
content behind a long gap; two thousand more slide it. -/
theorem add_after_skip_overruns : run Owner.step Owner.init
    [.add (.zeros 3000 (by decide)), .skip 2000, .add (.zeros 2000 (by decide))] =
      .error .outOfBounds :=
  stopped_eq_some.mp (by decide +kernel)

/-! ## The pointers of the chain -/

/-- The chain of the buffer owns a ring. -/
def OnRing (s : Owner) : Prop := ∃ ns, OwnsRing s.heap s.buffer.cacheChain ns

/-- The call neither slides a block nor deletes `head`. -/
def KeepsHead (s : Owner) : BufferCall → Prop
  | .add payload => Safe s (.add payload)
  | .skip n => n < s.buffer.size → ¬ TrimsHead s.heap s.buffer.cacheChain n
  | .clearAll => True

namespace Owner.Inv

variable {s : Owner} {win spare : List ℕ} {content : List UInt8}

/-- One call that keeps `head`. -/
theorem step_keepsHead (I : s.Inv win spare content)
    (hhead : s.buffer.cacheChain.head ∈ win ++ spare) {call : BufferCall}
    (hkeep : KeepsHead s call) :
    ∃ s' win' spare', s.step call = .ok s' ∧ s'.Inv win' spare' (fifoStep content call) ∧
      s'.buffer.cacheChain.head ∈ win' ++ spare' := by
  have hlive := I.chain.live_of_mem hhead
  cases call with
  | add payload =>
      obtain ⟨s', win', spare', hrun, I', hsub, hsame⟩ := I.add hkeep
      exact ⟨s', win', spare', hrun, I', hsame ▸ hsub hhead⟩
  | clearAll =>
      obtain ⟨s', hrun, I', hsame⟩ := I.clearAll hlive
      exact ⟨s', _, _, hrun, I', by simp [hsame]⟩
  | skip n =>
      rcases Nat.lt_or_ge n s.buffer.size with hlt | hge
      · obtain ⟨h', idx, post, kept, dead, D, hne, hrun, I'⟩ := I.skip_of_lt hlt
        refine ⟨_, _, _, hrun, I', ?_⟩
        rw [← I'.owned, D.live]
        exact ⟨hlive, fun hd => hkeep hlt ((D.head_mem_dead_iff I.holds hne).mp hd)⟩
      · have hsafe : Safe s (.skip n) := fun _ => hlive
        obtain ⟨s', win', spare', hrun, I'⟩ := I.step hsafe
        refine ⟨s', win', spare', hrun, I', ?_⟩
        obtain ⟨s'', hclear, I'', hsame⟩ := I.clearAll hlive
        rw [step_skip_of_le hge, hclear, Except.ok.injEq] at hrun
        subst hrun
        rw [← I'.owned, I''.owned, hsame]
        simp

/-- A call that does not keep `head` does not return, or returns without `head`. -/
theorem not_onRing (I : s.Inv win spare content) {call : BufferCall} {s' : Owner}
    (hkeep : ¬ KeepsHead s call) (hrun : s.step call = .ok s') : ¬ OnRing s' := by
  cases call with
  | add payload =>
      rw [I.add_of_slides hkeep] at hrun
      cases hrun
  | clearAll => exact absurd trivial hkeep
  | skip n =>
      simp only [KeepsHead, Classical.not_imp, not_not] at hkeep
      obtain ⟨hlt, htrim⟩ := hkeep
      obtain ⟨h', idx, post, kept, dead, D, hne, hrun', -⟩ := I.skip_of_lt hlt
      rw [hrun', Except.ok.injEq] at hrun
      subst hrun
      rintro ⟨ns, O⟩
      exact ((D.live _).mp (O.live _ O.head)).2 ((D.head_mem_dead_iff I.holds hne).mpr htrim)

end Owner.Inv

/-- **The chain holds on to its nodes along exactly the runs that keep `head`.** -/
theorem onRing_iff_keepsHead (calls : List BufferCall) :
    (∀ ks, ks <+: calls → ∃ s, run Owner.step Owner.init ks = .ok s ∧ OnRing s) ↔
      Meets Owner.step KeepsHead Owner.init calls := by
  refine simulates_iff fifoStep (fun s content => ∃ win spare, s.Inv win spare content ∧
    s.buffer.cacheChain.head ∈ win ++ spare) (fun s _ => OnRing s) ?_ ?_ ?_ (t := [])
    ⟨_, _, Owner.Inv.init, ?_⟩
  · rintro s content call ⟨win, spare, I, hhead⟩ hkeep
    obtain ⟨s', win', spare', hrun, I', hhead'⟩ := I.step_keepsHead hhead hkeep
    exact ⟨s', hrun, win', spare', I', hhead'⟩
  · rintro s content ⟨win, spare, I, hhead⟩
    exact ⟨_, I.chain.ownsRing hhead⟩
  · rintro s content call s' ⟨win, spare, I, -⟩ hkeep hrun
    exact I.not_onRing hkeep hrun
  · decide

/-- A deleted `head` is on no ring of live nodes. -/
theorem not_onRing_of_dead {r : Except Fault Owner}
    (h : r.map (fun s => s.heap.live s.buffer.cacheChain.head) = .ok false) :
    ∃ s, r = .ok s ∧ s.heap.live s.buffer.cacheChain.head = false ∧ ¬ OnRing s := by
  obtain ⟨s, hr, hdead⟩ := map_eq_ok h
  refine ⟨s, hr, hdead, ?_⟩
  rintro ⟨ns, O⟩
  rw [O.live _ O.head] at hdead
  cases hdead

/-- Two blocks, the first skipped, then sixteen more: the ring has seventeen nodes and starts
behind `head`.  Skipping the first two of them passes `head` and deletes it. -/
theorem skip_deletes_head : ∃ s, run Owner.step Owner.init
    ([.add (.zeros 2049 (by decide)), .add (.zeros 2049 (by decide)), .skip 2049] ++
      List.replicate 16 (.add (.zeros 2049 (by decide))) ++ [.skip 4098]) = .ok s ∧
    s.heap.live s.buffer.cacheChain.head = false ∧ ¬ OnRing s :=
  not_onRing_of_dead (by decide +kernel)

end Hare.Net
