import Hare.Lib.BoundedLoop
import Hare.Net.Chain
import Mathlib.Data.List.Infix

/-!
# Iterators over a buffer

A `BufferIterator` is a node and an index into the array of its block.  `operator++` counts the
index up and goes to the next node when it is *greater* than the size of the block, so each block
has one position more than it has bytes, the one behind its last byte; `operator--` takes the same
positions back.  Of the last block this position is `End()`.

So the iterator can be moved forth and back, but between two blocks it stops at a position whose
byte is not part of the content.  If the block is full, there is no such byte in its array.

Moved-from iterators, which have no implementation any more, are left out.
-/

namespace Hare.Net

open LinkedRing LabelledRun BoundedLoop

/-- `BufferIteratorImpl`, without the pointer to the list. -/
structure BufferIterator where
  iter : ℕ
  currIndex : ℕ
  deriving DecidableEq, Repr

namespace BufferIterator

/-- `operator*`. -/
def deref (h : Heap) (i : BufferIterator) : Except Fault UInt8 := do
  let c ← h.block i.iter
  match c.ptr[i.currIndex]? with
  | some x => pure x
  | none => throw .outOfBounds

/-- The first part of `operator++`: the iterator is at `End()`. -/
def atEnd (h : Heap) (l : CacheList) (i : BufferIterator) : Except Fault Bool :=
  if i.iter = l.write then do
    let c ← h.block l.write
    pure (decide (i.currIndex = c.size))
  else pure false

/-- The first part of `operator--`: the iterator is at `Begin()`. -/
def atBegin (h : Heap) (l : CacheList) (i : BufferIterator) : Except Fault Bool :=
  if i.iter = l.read then do
    let c ← h.block l.read
    pure (decide (i.currIndex = c.misalign))
  else pure false

/-- `operator++`. -/
def next (h : Heap) (l : CacheList) (i : BufferIterator) : Except Fault BufferIterator := do
  if ← i.atEnd h l then pure i
  else do
    let c ← h.block i.iter
    if i.currIndex + 1 > c.size then do
      let nx ← h.getNext i.iter
      let c ← h.block nx
      pure ⟨nx, c.misalign⟩
    else pure ⟨i.iter, i.currIndex + 1⟩

/-- `operator--`. -/
def prev (h : Heap) (l : CacheList) (i : BufferIterator) : Except Fault BufferIterator := do
  if ← i.atBegin h l then pure i
  else do
    let c ← h.block i.iter
    if i.currIndex = 0 ∨ i.currIndex - 1 < c.misalign then do
      let pv ← h.getPrev i.iter
      let c ← h.block pv
      pure ⟨pv, c.size⟩
    else pure ⟨i.iter, i.currIndex - 1⟩

/-- `operator++`, a number of times. -/
def advance (h : Heap) (l : CacheList) : ℕ → BufferIterator → Except Fault BufferIterator
  | 0, i => .ok i
  | n + 1, i => i.next h l >>= advance h l n

end BufferIterator

namespace Buffer

/-- `Buffer::Begin`. -/
def iterBegin (h : Heap) (b : Buffer) : Except Fault BufferIterator := do
  let c ← h.block b.cacheChain.read
  pure ⟨b.cacheChain.read, c.misalign⟩

/-- `Buffer::End`. -/
def iterEnd (h : Heap) (b : Buffer) : Except Fault BufferIterator := do
  let c ← h.block b.cacheChain.write
  pure ⟨b.cacheChain.write, c.size⟩

/-- A round of a loop from `Begin()` to `End()` that collects the bytes. -/
def traverseStep (h : Heap) (b : Buffer) (s : BufferIterator × List UInt8) :
    Except Fault ((BufferIterator × List UInt8) ⊕ List UInt8) := do
  let e ← b.iterEnd h
  if s.1 = e then pure (.inr s.2)
  else do
    let x ← s.1.deref h
    let i ← s.1.next h b.cacheChain
    pure (.inl (i, s.2 ++ [x]))

/-- The loop: one byte for each increment. -/
def traverse (fuel : ℕ) (h : Heap) (b : Buffer) : Except Fault (List UInt8) := do
  let i ← b.iterBegin h
  loop .diverges (b.traverseStep h) fuel (i, [])

end Buffer

/-- The indices an iterator takes in a block. -/
def Cache.places (c : Cache) : List ℕ := List.range' c.misalign (c.size + 1 - c.misalign)

namespace Heap

/-- The positions in the blocks of a list of nodes. -/
def positions (h : Heap) (ns : List ℕ) : List BufferIterator :=
  ns.flatMap fun p => ((h.cache p).elim [] Cache.places).map (BufferIterator.mk p)

/-- The byte at a position, if the array is that long. -/
def peek (h : Heap) (i : BufferIterator) : Option UInt8 :=
  (h.cache i.iter).bind fun c => c.ptr[i.currIndex]?

/-- What is read at the positions before the last. -/
def stream (h : Heap) (ns : List ℕ) : List (Option UInt8) := (h.positions ns).dropLast.map h.peek

end Heap

variable {h : Heap} {l : CacheList} {b : Buffer} {win spare ns : List ℕ} {content : List UInt8}
  {p q : ℕ} {c d : Cache} {i j s e : BufferIterator} {ps : List BufferIterator}

/-! ## Neighbours -/

/-- `next` leads from the first to the second and `prev` back. -/
def Neighbours (h : Heap) (l : CacheList) (i j : BufferIterator) : Prop :=
  i.next h l = .ok j ∧ j.prev h l = .ok i

theorem atEnd_eq (hp : h.live p = true) (hc : h.cache p = some c) (k : ℕ) :
    BufferIterator.atEnd h l ⟨p, k⟩ = .ok (decide (p = l.write ∧ k = c.size)) := by
  rw [BufferIterator.atEnd]
  by_cases hw : p = l.write
  · subst hw
    simp [Heap.block_of_cache hp hc]
  · simp [hw]

theorem atBegin_eq (hp : h.live p = true) (hc : h.cache p = some c) (k : ℕ) :
    BufferIterator.atBegin h l ⟨p, k⟩ = .ok (decide (p = l.read ∧ k = c.misalign)) := by
  rw [BufferIterator.atBegin]
  by_cases hr : p = l.read
  · subst hr
    simp [Heap.block_of_cache hp hc]
  · simp [hr]

/-- Two positions of one block. -/
theorem neighbours_inside (hp : h.live p = true) (hc : h.cache p = some c) {k : ℕ}
    (hlo : c.misalign ≤ k) (hhi : k < c.size) : Neighbours h l ⟨p, k⟩ ⟨p, k + 1⟩ := by
  constructor
  · have hend : ¬ (p = l.write ∧ k = c.size) := fun h => hhi.ne h.2
    rw [BufferIterator.next, atEnd_eq hp hc]
    simp only [hend, decide_false, ok_bind, Bool.false_eq_true, if_false,
      Heap.block_of_cache hp hc]
    exact if_neg (Nat.not_lt.mpr (Nat.succ_le_of_lt hhi))
  · have hbegin : ¬ (p = l.read ∧ k + 1 = c.misalign) := fun h => by omega
    simp [BufferIterator.prev, atBegin_eq hp hc, hbegin, Heap.block_of_cache hp hc,
      Nat.not_lt.mpr hlo]

/-- The last position of a block and the first of the next. -/
theorem neighbours_across (hp : h.live p = true) (hq : h.live q = true)
    (hlink : Link h.next h.prev p q) (hc : h.cache p = some c) (hd : h.cache q = some d)
    (hw : p ≠ l.write) (hr : q ≠ l.read) :
    Neighbours h l ⟨p, c.size⟩ ⟨q, d.misalign⟩ := by
  obtain ⟨hnext, hprev⟩ := hlink
  constructor
  · simp [BufferIterator.next, atEnd_eq hp hc, hw, Heap.block_of_cache hp hc,
      Heap.getNext_of_live hp, hnext, Heap.block_of_cache hq hd]
  · simp [BufferIterator.prev, atBegin_eq hq hd, hr, Heap.block_of_cache hq hd,
      Heap.getPrev_of_live hq, hprev, Heap.block_of_cache hp hc]

/-! ## Tracks -/

/-- A list of positions that `next` and `prev` lead through. -/
structure Track (h : Heap) (l : CacheList) (s : BufferIterator) (ps : List BufferIterator)
    (e : BufferIterator) : Prop where
  first : ps.head? = some s
  last : ps.getLast? = some e
  nodup : ps.Nodup
  linked : ps.IsChain (Neighbours h l)
  stays : e.next h l = .ok e

namespace Track

variable {n : ℕ}

theorem getElem_zero (T : Track h l s ps e) : ps[0]? = some s := by
  rw [← List.head?_eq_getElem?]
  exact T.first

theorem length_pos (T : Track h l s ps e) : 0 < ps.length :=
  List.length_pos_of_mem (List.mem_of_head? T.first)

/-- A position before the last has a next one. -/
theorem getElem_succ (T : Track h l s ps e) (hi : ps[n]? = some i) (hn : n + 1 < ps.length) :
    ∃ j, ps[n + 1]? = some j ∧ Neighbours h l i j := by
  obtain ⟨hlt, rfl⟩ := List.getElem?_eq_some_iff.mp hi
  exact ⟨_, List.getElem?_eq_getElem hn, List.isChain_iff_getElem.mp T.linked n hn⟩

/-- The last position is the only one at the end. -/
theorem eq_last_iff (T : Track h l s ps e) (hi : ps[n]? = some i) :
    i = e ↔ n + 1 = ps.length := by
  obtain ⟨hlt, rfl⟩ := List.getElem?_eq_some_iff.mp hi
  have hpos := T.length_pos
  have hlast := T.last
  rw [List.getLast?_eq_getElem?] at hlast
  obtain ⟨hlt', rfl⟩ := List.getElem?_eq_some_iff.mp hlast
  rw [T.nodup.getElem_inj_iff]
  omega

theorem eq_first_iff (T : Track h l s ps e) (hi : ps[n]? = some i) : i = s ↔ n = 0 := by
  obtain ⟨hlt, rfl⟩ := List.getElem?_eq_some_iff.mp hi
  obtain ⟨hlt', rfl⟩ := List.getElem?_eq_some_iff.mp T.getElem_zero
  rw [T.nodup.getElem_inj_iff]

/-- A position behind the first has one before it. -/
theorem getElem_pred (T : Track h l s ps e) (hi : ps[n + 1]? = some i) :
    ∃ j, ps[n]? = some j ∧ Neighbours h l j i := by
  obtain ⟨hlt, rfl⟩ := List.getElem?_eq_some_iff.mp hi
  exact ⟨_, List.getElem?_eq_getElem (Nat.lt_of_succ_lt hlt),
    List.isChain_iff_getElem.mp T.linked n hlt⟩

/-- Increments lead through the positions and then stay at the last. -/
theorem advance_eq (T : Track h l s ps e) (m : ℕ) (hi : ps[n]? = some i) :
    ∃ j, BufferIterator.advance h l m i = .ok j ∧ ps[min (n + m) (ps.length - 1)]? = some j := by
  have hlt := (List.getElem?_eq_some_iff.mp hi).1
  induction m generalizing n i with
  | zero =>
      refine ⟨i, rfl, ?_⟩
      rw [Nat.add_zero, Nat.min_eq_left (by omega)]
      exact hi
  | succ m ih =>
      rw [BufferIterator.advance]
      by_cases hn : n + 1 < ps.length
      · obtain ⟨i', hi', hnext, -⟩ := T.getElem_succ hi hn
        obtain ⟨j, hj, hget⟩ := ih hi' hn
        refine ⟨j, by rw [hnext, ok_bind, hj], ?_⟩
        rwa [← Nat.add_assoc, Nat.add_right_comm]
      · have hlast : n + 1 = ps.length := by omega
        obtain rfl := (T.eq_last_iff hi).mpr hlast
        obtain ⟨j, hj, hget⟩ := ih hi hlt
        refine ⟨j, by rw [T.stays, ok_bind, hj], ?_⟩
        rw [Nat.min_eq_right (by omega)] at hget ⊢
        exact hget

end Track

/-! ## The positions of a window -/

theorem Cache.Valid.places_eq (hv : c.Valid) :
    c.places = List.range' c.misalign (c.size - c.misalign) ++ [c.size] := by
  have hle := hv.misalign_le
  rw [Cache.places, Nat.succ_sub hle, List.range'_concat]
  congr 2
  omega

namespace Heap

theorem positions_cons (hc : h.cache p = some c) :
    h.positions (p :: ns) = c.places.map (BufferIterator.mk p) ++ h.positions ns := by
  simp [positions, hc]

theorem head_positions (hc : h.cache p = some c) (hv : c.Valid) :
    (h.positions (p :: ns)).head? = some ⟨p, c.misalign⟩ := by
  have hle := hv.misalign_le
  rw [positions_cons hc, List.head?_append, List.head?_map, Cache.places, List.head?_range',
    if_neg (by omega)]
  rfl

/-- The last position of a block. -/
theorem getLast_places (hv : c.Valid) (p : ℕ) :
    (c.places.map (BufferIterator.mk p)).getLast? = some ⟨p, c.size⟩ := by
  rw [hv.places_eq, List.map_append, List.map_singleton, List.getLast?_concat]

theorem getLast_positions : ∀ {ns : List ℕ} {p : ℕ}, ns.getLast? = some p → h.cache p = some c →
    c.Valid → (h.positions ns).getLast? = some ⟨p, c.size⟩ := by
  intro ns p hlast hc hv
  obtain ⟨ms, rfl⟩ := List.getLast?_eq_some_iff.mp hlast
  rw [positions, List.flatMap_append, List.getLast?_append]
  simp only [List.flatMap_cons, List.flatMap_nil, List.append_nil, hc, Option.elim_some]
  rw [getLast_places hv p]
  rfl

theorem iter_of_mem_positions (hi : i ∈ h.positions ns) : i.iter ∈ ns := by
  obtain ⟨p, hp, hi⟩ := List.mem_flatMap.mp hi
  obtain ⟨k, -, rfl⟩ := List.mem_map.mp hi
  exact hp

theorem nodup_positions (hd : ns.Nodup) : (h.positions ns).Nodup := by
  refine List.nodup_flatMap.mpr ⟨fun p _ => ?_, hd.imp fun {p q} hpq => ?_⟩
  · refine List.Nodup.map (fun _ _ heq => (BufferIterator.mk.inj heq).2) ?_
    cases h.cache p with
    | none => exact List.nodup_nil
    | some c => exact List.nodup_range'
  · intro i hi hi'
    obtain ⟨k, -, rfl⟩ := List.mem_map.mp hi
    obtain ⟨k', -, heq⟩ := List.mem_map.mp hi'
    exact hpq (congrArg BufferIterator.iter heq).symm

/-- The positions of a block follow each other. -/
theorem linked_places (hp : h.live p = true) (hc : h.cache p = some c) :
    (c.places.map (BufferIterator.mk p)).IsChain (Neighbours h l) := by
  rw [List.isChain_map, List.isChain_iff_getElem]
  intro n hn
  have hlen : n + 1 < c.size + 1 - c.misalign := by simpa [Cache.places] using hn
  simp only [Cache.places, List.getElem_range', Nat.one_mul]
  exact neighbours_inside hp hc (by omega) (by omega)

/-- The positions of a path of nodes follow each other. -/
theorem linked_positions : ∀ {ns : List ℕ}, Linked h.next h.prev ns →
    (∀ p ∈ ns, h.live p = true) → (∀ p ∈ ns, ∃ c, h.cache p = some c ∧ c.Valid) →
    (∀ p ∈ ns.dropLast, p ≠ l.write) → (∀ p ∈ ns.tail, p ≠ l.read) →
    (h.positions ns).IsChain (Neighbours h l) := by
  intro ns
  induction ns with
  | nil => exact fun _ _ _ _ _ => List.isChain_nil
  | cons p ns ih =>
      intro hlink hlive hblock hw hr
      have hp := hlive p List.mem_cons_self
      obtain ⟨c, hc, hv⟩ := hblock p List.mem_cons_self
      rw [positions_cons hc]
      cases ns with
      | nil => simpa [positions] using linked_places hp hc
      | cons q ns =>
          obtain ⟨hpq, hrest⟩ := linked_cons_cons.mp hlink
          have hq := hlive q (by simp)
          obtain ⟨d, hd, hvd⟩ := hblock q (by simp)
          refine List.isChain_append.mpr ⟨linked_places hp hc, ?_, ?_⟩
          · exact ih hrest (fun r hr => hlive r (List.mem_cons_of_mem p hr))
              (fun r hr => hblock r (List.mem_cons_of_mem p hr))
              (fun r hr => hw r (by simp [hr])) fun r hr' => hr r (List.mem_of_mem_tail hr')
          · intro x hx y hy
            rw [getLast_places hv] at hx
            rw [head_positions hd hvd] at hy
            cases hx
            cases hy
            exact neighbours_across hp hq hpq hc hd (hw p (by simp)) (hr q (by simp))

/-- Each block has one position more than bytes. -/
theorem length_positions : ∀ {ns : List ℕ}, (∀ p ∈ ns, ∃ c, h.cache p = some c ∧ c.Valid) →
    (h.positions ns).length = (h.content ns).length + ns.length := by
  intro ns
  induction ns with
  | nil => exact fun _ => rfl
  | cons p ns ih =>
      intro hblock
      obtain ⟨c, hc, hv⟩ := hblock p List.mem_cons_self
      have hle := hv.misalign_le
      have hrest := ih fun q hq => hblock q (List.mem_cons_of_mem p hq)
      rw [positions_cons hc, List.length_append, hrest, content_cons, readable_of_cache hc,
        List.length_append, hv.length_readable, hv.readableSize_eq, List.length_map, Cache.places,
        List.length_range', List.length_cons]
      omega

/-- In one block the bytes at the positions before the last are the content. -/
theorem stream_singleton (hc : h.cache p = some c) (hv : c.Valid) :
    h.stream [p] = c.readable.map some := by
  have hcap := hv.capacity_eq
  have hsize := hv.size_le
  have hmis := hv.misalign_le
  rw [stream, positions_cons hc, hv.places_eq, positions, List.flatMap_nil, List.append_nil,
    List.map_append, List.map_singleton, List.dropLast_concat, List.map_map]
  refine List.ext_getElem (by simp [hv.length_readable, hv.readableSize_eq]) fun n hn hn' => ?_
  have hlt : n < c.size - c.misalign := by simpa using hn
  have hin : c.misalign + n < c.ptr.length := by omega
  simp [peek, hc, Cache.readable, List.getElem?_eq_getElem hin]

end Heap

/-- A node with a block that is live is dereferenced without a fault, if the array is that
long. -/
theorem deref_eq (hp : h.live i.iter = true) (hc : h.cache i.iter = some c) :
    i.deref h = match h.peek i with
      | some x => .ok x
      | none => .error .outOfBounds := by
  rw [BufferIterator.deref, Heap.block_of_cache hp hc, Heap.peek, hc]
  cases hx : c.ptr[i.currIndex]? with
  | none =>
      simp [hx]
      rfl
  | some x => simp [hx]

namespace Carries

/-- With a block at the write node every node of the window has one. -/
theorem block_of_write (S : Carries h b win spare content) (hw : h.cache b.cacheChain.write ≠ none)
    {p : ℕ} (hp : p ∈ win) : ∃ c, h.cache p = some c ∧ c.Valid := by
  obtain ⟨c, hc⟩ : ∃ c, h.cache p = some c := by
    by_cases hpw : p = b.cacheChain.write
    · exact Option.ne_none_iff_exists'.mp (hpw ▸ hw)
    · exact S.blocks p hp (Or.inl hpw)
  exact ⟨c, hc, S.chain.window.valid p hp c hc⟩

/-- A buffer that is not empty has a block at the write node. -/
theorem write_ne_none (S : Carries h b win spare content) (hne : content ≠ []) :
    h.cache b.cacheChain.write ≠ none := by
  obtain ⟨c, hc⟩ := S.blocks _ S.chain.window.write_mem (Or.inr hne)
  simp [hc]

/-- **The positions of the window** are a track from `Begin()` to `End()`. -/
theorem track (S : Carries h b win spare content) (hw : h.cache b.cacheChain.write ≠ none) :
    ∃ s e, b.iterBegin h = .ok s ∧ b.iterEnd h = .ok e ∧
      Track h b.cacheChain s (h.positions win) e := by
  have W := S.chain.window
  obtain ⟨c, hc, hv⟩ := S.block_of_write hw W.read_mem
  obtain ⟨d, hd, hvd⟩ := S.block_of_write hw W.write_mem
  have hr := W.live _ W.read_mem
  have hwr := W.live _ W.write_mem
  refine ⟨⟨b.cacheChain.read, c.misalign⟩, ⟨b.cacheChain.write, d.size⟩, ?_, ?_, ?_, ?_, ?_, ?_, ?_⟩
  · simp [Buffer.iterBegin, Heap.block_of_cache hr hc]
  · simp [Buffer.iterEnd, Heap.block_of_cache hwr hd]
  · obtain ⟨ns, rfl⟩ := List.head?_eq_some_iff.mp W.first
    exact Heap.head_positions hc hv
  · exact Heap.getLast_positions W.last hd hvd
  · exact Heap.nodup_positions W.nodup
  · refine Heap.linked_positions W.linked W.live (fun p hp => S.block_of_write hw hp) ?_ ?_
    · exact fun p hp => ne_of_mem_dropLast W.nodup W.last hp
    · rintro p hp rfl
      obtain ⟨ns, rfl⟩ := List.head?_eq_some_iff.mp W.first
      exact (List.nodup_cons.mp W.nodup).1 hp
  · simp [BufferIterator.next, atEnd_eq hwr hd]

/-- **`next` and `prev` are inverse.**  Take a chain whose blocks are there, of any number and
misalignment, some of them possibly empty, and a position that increments from `Begin()` lead to.
Unless it is `End()`, a decrement takes an increment back; unless it is `Begin()`, an increment
takes a decrement back. -/
theorem next_prev (S : Carries h b win spare content) (hw : h.cache b.cacheChain.write ≠ none) :
    ∃ s e, b.iterBegin h = .ok s ∧ b.iterEnd h = .ok e ∧
      ∀ n p, BufferIterator.advance h b.cacheChain n s = .ok p →
        (p ≠ e → (p.next h b.cacheChain >>= BufferIterator.prev h b.cacheChain) = .ok p) ∧
        (p ≠ s → (p.prev h b.cacheChain >>= BufferIterator.next h b.cacheChain) = .ok p) := by
  obtain ⟨s, e, hs, he, T⟩ := S.track hw
  refine ⟨s, e, hs, he, fun n p hp => ?_⟩
  obtain ⟨p', hp', hget⟩ := T.advance_eq n T.getElem_zero
  cases hp.symm.trans hp'
  have hlt := (List.getElem?_eq_some_iff.mp hget).1
  generalize min (0 + n) ((h.positions win).length - 1) = k at hget hlt
  refine ⟨fun hne => ?_, fun hne => ?_⟩
  · have hk : k + 1 ≠ (h.positions win).length := fun hk => hne ((T.eq_last_iff hget).mpr hk)
    obtain ⟨q, -, hnext, hprev⟩ := T.getElem_succ hget (by omega)
    rw [hnext, ok_bind, hprev]
  · have hk : k ≠ 0 := fun hk => hne ((T.eq_first_iff hget).mpr hk)
    obtain ⟨k, rfl⟩ : ∃ m, k = m + 1 := ⟨k - 1, by omega⟩
    obtain ⟨q, -, hnext, hprev⟩ := T.getElem_pred hget
    rw [hprev, ok_bind, hnext]

end Carries

/-- The positions of a buffer of two blocks and a spare, the first block misaligned. -/
theorem next_prev_firstBuffer : ∃ s e, firstBuffer.iterBegin twoRings = .ok s ∧
    firstBuffer.iterEnd twoRings = .ok e ∧
      ∀ n p, BufferIterator.advance twoRings firstBuffer.cacheChain n s = .ok p →
        (p ≠ e → (p.next twoRings firstBuffer.cacheChain >>=
          BufferIterator.prev twoRings firstBuffer.cacheChain) = .ok p) ∧
        (p ≠ s → (p.prev twoRings firstBuffer.cacheChain >>=
          BufferIterator.next twoRings firstBuffer.cacheChain) = .ok p) :=
  carries_firstBuffer.next_prev (by decide)

/-! ## Iteration -/

namespace Heap

theorem getElem_stream {n : ℕ} (hi : (h.positions win)[n]? = some i)
    (hn : n + 1 < (h.positions win).length) : (h.stream win)[n]? = some (h.peek i) := by
  rw [stream, List.getElem?_map, List.getElem?_dropLast, if_pos (by omega), hi]
  rfl

theorem length_stream (h : Heap) (win : List ℕ) :
    (h.stream win).length = (h.positions win).length - 1 := by
  rw [stream, List.length_map, List.length_dropLast]

end Heap

/-- Where the iteration is with `k` increments to go, and what it has collected. -/
def Underway (h : Heap) (win : List ℕ) (k : ℕ) (x : BufferIterator × List UInt8) : Prop :=
  (h.positions win)[x.2.length]? = some x.1 ∧ x.2.map some <+: h.stream win ∧
    k + x.2.length = (h.stream win).length

/-- How the iteration ends. -/
def Collects (h : Heap) (win : List ℕ) (r : Except Fault (List UInt8)) : Prop :=
  (∃ t, r = .ok t ∧ t.map some = h.stream win) ∨ (r = .error .outOfBounds ∧ none ∈ h.stream win)

namespace Carries

/-- What is read at a position before the last. -/
theorem deref_track (S : Carries h b win spare content) (hw : h.cache b.cacheChain.write ≠ none)
    {n : ℕ} (hi : (h.positions win)[n]? = some i) :
    i.deref h = match h.peek i with
      | some x => .ok x
      | none => .error .outOfBounds := by
  have hmem := Heap.iter_of_mem_positions (List.mem_of_getElem? hi)
  obtain ⟨c, hc, -⟩ := S.block_of_write hw hmem
  exact deref_eq (S.chain.window.live _ hmem) hc

/-- A round of the iteration. -/
theorem traverseStep_turn (S : Carries h b win spare content)
    (hw : h.cache b.cacheChain.write ≠ none) (k : ℕ) (x : BufferIterator × List UInt8)
    (hx : Underway h win k x) :
    Turn (Underway h win) (Collects h win) k (b.traverseStep h x) := by
  obtain ⟨s, e, -, he, T⟩ := S.track hw
  obtain ⟨i, out⟩ := x
  obtain ⟨hi, hout, hk⟩ := hx
  have hpos := T.length_pos
  have hlen := h.length_stream win
  dsimp only at hi hout hk
  rw [Buffer.traverseStep, he]
  simp only [ok_bind, T.eq_last_iff hi]
  split
  · next hend =>
      refine .done (.inl ⟨out, rfl, ?_⟩)
      exact hout.eq_of_length (by rw [List.length_map]; omega)
  · next hend =>
      have hlt := (List.getElem?_eq_some_iff.mp hi).1
      have hnext : out.length + 1 < (h.positions win).length := by omega
      obtain ⟨j, hj, hij, -⟩ := T.getElem_succ hi hnext
      have hstream := Heap.getElem_stream hi hnext
      rw [S.deref_track hw hi]
      cases hpeek : h.peek i with
      | none => exact .fail (.inr ⟨rfl, hpeek ▸ List.mem_of_getElem? hstream⟩)
      | some x =>
          simp only [ok_bind, hij]
          have hdec : k - 1 < k := by omega
          refine .next hdec ⟨by simpa using hj, ?_, ?_⟩
          · have hget : (h.stream win)[(out.map some).length]? = some (some x) := by
              rw [List.length_map, hstream, hpeek]
            obtain ⟨hin, heq⟩ := List.getElem?_eq_some_iff.mp hget
            rw [List.map_append, List.map_singleton, ← heq]
            exact List.concat_get_prefix hout hin
          · simp only [List.length_append, List.length_singleton]
            omega

/-- **What iteration delivers**: the bytes at all positions before the last, if all of them can be
read. -/
theorem traverse_eq_ok_iff (S : Carries h b win spare content)
    (hw : h.cache b.cacheChain.write ≠ none) (t : List UInt8) :
    (∃ fuel, b.traverse fuel h = .ok t) ↔ h.stream win = t.map some := by
  obtain ⟨s, e, hs, -, T⟩ := S.track hw
  have hinit : Underway h win (h.stream win).length (s, []) :=
    ⟨T.getElem_zero, List.nil_prefix, rfl⟩
  have heq (fuel : ℕ) : b.traverse fuel h = loop .diverges (b.traverseStep h) fuel (s, []) := by
    rw [Buffer.traverse, hs, ok_bind]
  constructor
  · rintro ⟨fuel, hrun⟩
    rw [heq] at hrun
    rcases loop_cases (S.traverseStep_turn hw) hinit fuel with hbad | ⟨t', heq', ht'⟩ | ⟨hbad, -⟩
    · cases hrun.symm.trans hbad
    · cases hrun.symm.trans heq'
      exact ht'.symm
    · cases hrun.symm.trans hbad
  · intro ht
    refine ⟨(h.stream win).length + 1, ?_⟩
    rw [heq]
    rcases loop_spec (S.traverseStep_turn hw) hinit (Nat.lt_succ_self _) with
      ⟨t', heq', ht'⟩ | ⟨-, hnone⟩
    · rw [heq', List.map_injective_iff.mpr (Option.some_injective UInt8) (ht'.trans ht)]
    · rw [ht] at hnone
      simp at hnone

/-- In a window of one node all positions before the last have a byte, and it is content. -/
theorem stream_of_single (S : Carries h b [p] spare content)
    (hw : h.cache b.cacheChain.write ≠ none) : h.stream [p] = content.map some := by
  obtain ⟨c, hc, hv⟩ := S.block_of_write hw List.mem_cons_self
  rw [Heap.stream_singleton hc hv, ← S.content_eq, Heap.content_cons, Heap.readable_of_cache hc,
    Heap.content_nil, List.append_nil]

/-- The read and the write node are the same exactly when the window is one node. -/
theorem read_eq_write_iff (S : Carries h b win spare content) :
    b.cacheChain.read = b.cacheChain.write ↔ win.length = 1 := by
  have W := S.chain.window
  obtain ⟨ns, rfl⟩ := List.head?_eq_some_iff.mp W.first
  have hlast := W.last
  cases ns with
  | nil => simpa using hlast
  | cons q ns =>
      have hmem : b.cacheChain.write ∈ q :: ns := by
        rw [List.getLast?_cons_cons] at hlast
        exact List.mem_of_getLast? hlast
      have hne : b.cacheChain.read ≠ b.cacheChain.write := by
        intro heq
        exact (List.nodup_cons.mp W.nodup).1 (heq ▸ hmem)
      simp [hne]

/-- **When iteration yields the content.**  A loop from `Begin()` to `End()` over a buffer that is
not empty ends after one increment for each byte, having read the content, exactly when the
content lies in one block. -/
theorem traverse_iff (S : Carries h b win spare content) (hne : content ≠ []) :
    (∃ fuel, b.traverse fuel h = .ok content) ↔ b.cacheChain.read = b.cacheChain.write := by
  have hw := S.write_ne_none hne
  rw [S.traverse_eq_ok_iff hw, S.read_eq_write_iff]
  constructor
  · intro hstream
    have hlen := congrArg List.length hstream
    rw [Heap.length_stream, Heap.length_positions fun p hp => S.block_of_write hw hp, S.content_eq,
      List.length_map] at hlen
    have hpos := List.length_pos_of_mem S.chain.window.read_mem
    omega
  · intro hone
    obtain ⟨p, rfl⟩ := List.length_eq_one_iff.mp hone
    exact S.stream_of_single hw

end Carries

/-- A buffer of one block. -/
theorem traverse_secondBuffer : ∃ fuel, secondBuffer.traverse fuel twoRings = .ok [7, 8] :=
  (carries_secondBuffer.traverse_iff (by simp)).mpr rfl

/-- A buffer of two blocks.  The first is full, so behind its last byte there is none to read;
the loop gets there after three increments. -/
theorem traverse_firstBuffer :
    (∀ fuel t, firstBuffer.traverse fuel twoRings ≠ .ok t) ∧
      BufferIterator.advance twoRings firstBuffer.cacheChain 3 ⟨0, 1⟩ = .ok ⟨0, 4⟩ ∧
      twoRings.peek ⟨0, 4⟩ = none := by
  refine ⟨fun fuel t hrun => ?_, rfl, by decide⟩
  match fuel with
  | 0 | 1 | 2 | 3 => cases hrun
  | fuel + 4 => cases hrun

end Hare.Net
