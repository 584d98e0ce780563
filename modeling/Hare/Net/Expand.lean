import Hare.Net.Add

/-!
# Making room for a read

`CacheList.fastExpand` offers the blocks from `write` to the end of the ring to a scattering
read.  It first counts what the blocks at hand can take, and then inserts new blocks for the
rest of the request.  The second loop tests the rest and never reduces it, so it ends only when
it is not entered.
-/

namespace Hare.Net

open LinkedRing LabelledRun

variable {h h' : Heap} {l l' : CacheList} {win spare : List ℕ} {n : ℕ}

/-- The free bytes of a block, if there is one. -/
def roomOf (b : Option Cache) : ℕ := b.elim 0 Cache.writeableSize

/-- The free bytes of a node. -/
def Heap.writeable (h : Heap) (p : ℕ) : ℕ := roomOf (h.cache p)

theorem Heap.writeable_of_cache {p : ℕ} {c : Cache} (hc : h.cache p = some c) :
    h.writeable p = c.writeableSize := by
  simp [Heap.writeable, roomOf, hc]

theorem map_roomOf (ns : List ℕ) : (ns.map h.cache).map roomOf = ns.map h.writeable :=
  List.map_map

theorem none_not_mem_map {ns : List ℕ} :
    none ∉ ns.map h.cache ↔ ∀ p ∈ ns, ∃ c, h.cache p = some c := by
  simp [List.mem_map, Option.ne_none_iff_exists']

/-! ## The first loop -/

section Reuse
variable {read : ℕ}

/-- The first loop takes the free bytes of all blocks up to the last off the request. -/
theorem reuseLoop_eq : ∀ {ns : List ℕ} {p fuel size cnt w : ℕ}, ns.length < fuel →
    Linked h.next h.prev (p :: ns) → (∀ q ∈ ns, q ≠ read) →
    (p :: ns).getLast? = some w → h.next w = read → (∀ q ∈ p :: ns, h.live q = true) →
    (∀ q ∈ p :: ns, ∃ c, h.cache q = some c) →
    CacheList.reuseLoop h read fuel size p cnt =
      .ok (size - ((p :: ns).map h.writeable).sum, w, cnt + ns.length + 1) := by
  intro ns
  induction ns with
  | nil =>
      intro p fuel size cnt w hfuel _ _ hlast hnext hlive hblock
      obtain ⟨fuel, rfl⟩ : ∃ k, fuel = k + 1 := ⟨fuel - 1, by omega⟩
      obtain ⟨c, hc⟩ := hblock p List.mem_cons_self
      have hp := hlive p List.mem_cons_self
      obtain rfl : p = w := by simpa using hlast
      rw [CacheList.reuseLoop, Heap.block_of_cache hp hc]
      simp [Heap.getNext_of_live hp, hnext, Heap.writeable_of_cache hc]
      omega
  | cons r ns ih =>
      intro p fuel size cnt w hfuel hlink hne hlast hnext hlive hblock
      obtain ⟨fuel, rfl⟩ : ∃ k, fuel = k + 1 := ⟨fuel - 1, by omega⟩
      obtain ⟨c, hc⟩ := hblock p List.mem_cons_self
      have hp := hlive p List.mem_cons_self
      obtain ⟨⟨hpr, -⟩, hrest⟩ := linked_cons_cons.mp hlink
      rw [CacheList.reuseLoop, Heap.block_of_cache hp hc]
      simp only [ok_bind, Heap.getNext_of_live hp, hpr, if_neg (hne r List.mem_cons_self)]
      rw [ih (by simpa using hfuel) hrest (fun q hq => hne q (List.mem_cons_of_mem r hq))
        (by simpa using hlast) hnext (fun q hq => hlive q (List.mem_cons_of_mem p hq))
        fun q hq => hblock q (List.mem_cons_of_mem p hq)]
      simp only [List.map_cons, List.sum_cons, List.length_cons, Heap.writeable_of_cache hc,
        Except.ok.injEq, Prod.mk.injEq, true_and]
      omega

/-- The first loop looks into every block. -/
theorem reuseLoop_of_missing : ∀ {ns : List ℕ} {p fuel size cnt : ℕ}, ns.length < fuel →
    Linked h.next h.prev (p :: ns) → (∀ q ∈ ns, q ≠ read) →
    (∀ q ∈ p :: ns, h.live q = true) → (∃ q ∈ p :: ns, h.cache q = none) →
    CacheList.reuseLoop h read fuel size p cnt = .error .nullPointer := by
  intro ns
  induction ns with
  | nil =>
      rintro p fuel size cnt hfuel - - hlive ⟨q, hq, hnone⟩
      obtain ⟨fuel, rfl⟩ : ∃ k, fuel = k + 1 := ⟨fuel - 1, by omega⟩
      obtain rfl := List.mem_singleton.mp hq
      rw [CacheList.reuseLoop, Heap.block, Heap.getCache_of_live (hlive q hq), hnone]
      rfl
  | cons r ns ih =>
      rintro p fuel size cnt hfuel hlink hne hlive ⟨q, hq, hnone⟩
      obtain ⟨fuel, rfl⟩ : ∃ k, fuel = k + 1 := ⟨fuel - 1, by omega⟩
      have hp := hlive p List.mem_cons_self
      obtain ⟨⟨hpr, -⟩, hrest⟩ := linked_cons_cons.mp hlink
      cases hc : h.cache p with
      | none =>
          rw [CacheList.reuseLoop, Heap.block, Heap.getCache_of_live hp, hc]
          rfl
      | some c =>
          have hqr : q ∈ r :: ns := (List.mem_cons.mp hq).resolve_left fun hqp => by
            rw [hqp, hc] at hnone
            cases hnone
          rw [CacheList.reuseLoop, Heap.block_of_cache hp hc]
          simp only [ok_bind, Heap.getNext_of_live hp, hpr, if_neg (hne r List.mem_cons_self)]
          exact ih (by simpa using hfuel) hrest (fun q hq => hne q (List.mem_cons_of_mem r hq))
            (fun q hq => hlive q (List.mem_cons_of_mem p hq)) ⟨q, hqr, hnone⟩

end Reuse

/-! ## The second loop -/

theorem min_maxToAlloc_le (n : ℕ) : min (roundUp n) CacheList.maxToAlloc ≤ ptrdiffMax :=
  (min_le_right _ _).trans (by decide)

/-- **The second loop never ends once it is entered**: each round finds the request as it
was. -/
theorem allocLoop_diverges {size : ℕ} (hsize : 0 < size) : ∀ (fuel : ℕ) {h : Heap} {l : CacheList}
    {index cnt : ℕ}, h.live index = true → h.live (h.next index) = true →
    CacheList.allocLoop size fuel h l index cnt = .error .diverges := by
  intro fuel
  induction fuel with
  | zero => intros; rfl
  | succ fuel ih =>
      intro h l index cnt hi hnx
      have hib : index ≠ h.brk := (Heap.lt_brk hi).ne
      have hnb : h.next index ≠ h.brk := (Heap.lt_brk hnx).ne
      rw [CacheList.allocLoop, if_pos hsize]
      simp only [Cache.new_eq (min_maxToAlloc_le size), ok_bind, Heap.setCache, Heap.setPrev,
        Heap.setNext, Heap.getNext, Heap.deref, Heap.alloc, Heap.withCache, Heap.withPrev,
        Heap.withNext, Function.update_self, if_true, Function.update_of_ne hib,
        Function.update_of_ne hnb, hi, hnx]
      refine ih ?_ ?_
      · simp
      · simp [hib.symm, hnb, hnx]

/-- Nothing is left of the request. -/
theorem allocLoop_zero (fuel : ℕ) {index cnt : ℕ} :
    CacheList.allocLoop 0 (fuel + 1) h l index cnt = .ok (h, l, cnt) := by
  simp [CacheList.allocLoop]

/-! ## The call -/

/-- The room of the block at the write node, for a request of `n` bytes: a node without a block
gets one. -/
def firstRoom (n : ℕ) (b : Option Cache) : ℕ :=
  b.elim (min (roundUp n) CacheList.maxToAlloc) Cache.writeableSize

/-- Before the first loop: the write node is vacant and has a block. -/
structure Ready (h : Heap) (l : CacheList) (win spare : List ℕ) (n : ℕ) (h' : Heap)
    (l' : CacheList) (win' spare' : List ℕ) : Prop where
  chain : Chain h' l' win' spare'
  content : h'.content win' = h.content win
  first : ∃ c, h'.cache l'.write = some c ∧ c.size = 0
  blocks : ∃ b, atHand h l spare = b :: spare'.map h'.cache ∧ h'.writeable l'.write = firstRoom n b
  front : ∀ p ∈ win'.dropLast, p ∈ win ∧ h'.cache p = h.cache p ∧ (p = l.write → h.readable p ≠ [])
  grows : win ++ spare ⊆ win' ++ spare'
  frame : Exchange h h' (win ++ spare) (win' ++ spare')
  head : l'.head = l.head

theorem Vacated.mem_front {win' spare' : List ℕ} (V : Vacated h l win spare h' l' win' spare')
    (C : Chain h l win spare) {p : ℕ} (hp : p ∈ win'.dropLast) :
    p ∈ win ∧ h'.cache p = h.cache p ∧ (p = l.write → h.readable p ≠ []) := by
  refine ⟨?_, V.kept p hp, ?_⟩ <;> rcases V.front with ⟨hwin, hread⟩ | ⟨hwin, hread⟩
  · exact List.dropLast_subset win (hwin ▸ hp)
  · simpa [hwin] using hp
  · rintro rfl
    exact absurd rfl (ne_of_mem_dropLast C.window.nodup C.window.last (hwin ▸ hp))
  · rintro rfl
    exact hread

/-- The call is its two loops, on a chain that is ready. -/
theorem Chain.fastExpand_eq (C : Chain h l win spare) (n : ℕ) :
    ∃ h' l' win' spare', Ready h l win spare n h' l' win' spare' ∧ ∀ fuel, l.fastExpand fuel h n =
      (CacheList.reuseLoop h' l'.read h'.brk n l'.write 0 >>= fun r =>
        CacheList.allocLoop r.1 fuel h' l' r.2.1 r.2.2) := by
  obtain ⟨h', l', win', spare', hrun, V⟩ := C.getNextWrite_vacated
  have W := V.chain.window
  have hw := W.live l'.write W.write_mem
  cases hc : h'.cache l'.write with
  | some c =>
      refine ⟨h', l', win', spare', ⟨V.chain, V.content, ⟨c, hc, V.size c hc⟩, ⟨some c, ?_, ?_⟩,
        fun p => V.mem_front C, V.grows, V.frame, V.head⟩, fun fuel => ?_⟩
      · rw [← V.blocks, List.map_cons, hc]
      · rw [Heap.writeable_of_cache hc]
        rfl
      · rw [CacheList.fastExpand, hrun]
        simp only [ok_bind, Heap.getCache_of_live hw, hc]
        rfl
  | none =>
      have hfits := min_maxToAlloc_le n
      have hv := Cache.valid_new hfits
      have hspare : spare'.map (h'.withCache l'.write
          ⟨List.replicate (min (roundUp n) CacheList.maxToAlloc) 0, 0,
            min (roundUp n) CacheList.maxToAlloc, 0⟩).cache = spare'.map h'.cache := by
        refine List.map_congr_left fun p hp => Function.update_of_ne ?_ _ _
        rintro rfl
        exact (List.nodup_append.mp V.chain.nodup).2.2 _ W.write_mem _ hp rfl
      have hself := fun c => (Function.update_self l'.write (some c) h'.cache)
      refine ⟨h'.withCache l'.write ⟨_, _, _, _⟩, l', win', spare', ⟨V.chain.withCache hv, ?_,
        ⟨_, hself _, rfl⟩, ⟨none, ?_, ?_⟩, fun p hp => ?_, V.grows, V.frame.trans
          (Exchange.of_withCache (fun p => V.chain.live_of_mem) V.chain.write_mem _), V.head⟩,
        fun fuel => ?_⟩
      · rw [W.content_withCache, ← V.content, W.content_eq, hv.readable_eq]
        simp [Heap.readable, hc]
      · rw [hspare, ← V.blocks, List.map_cons, hc]
      · rw [Heap.writeable_of_cache (hself _), hv.writeableSize_eq]
        rfl
      · obtain ⟨hwin, hcache, hread⟩ := V.mem_front C hp
        exact ⟨hwin, (W.cache_withCache hp).trans hcache, hread⟩
      · rw [CacheList.fastExpand, hrun]
        simp only [ok_bind, Heap.getCache_of_live hw, hc, Cache.new_eq hfits,
          Heap.setCache_of_live hw]

/-- What the call leaves behind: vacant blocks from `write` to the end of the ring, with room
for the request. -/
structure Expanded (h : Heap) (l : CacheList) (win spare : List ℕ) (n : ℕ) (h' : Heap)
    (l' : CacheList) (win' spare' : List ℕ) : Prop extends
    Ready h l win spare n h' l' win' spare' where
  blank : ∀ p ∈ l'.write :: spare', ∃ c, h'.cache p = some c ∧ c.Valid ∧ c.size = 0
  room : n ≤ ((l'.write :: spare').map h'.writeable).sum

/-- The blocks at hand, the first of them possibly still to be allocated, take `n` bytes, and
none behind the first is missing. -/
def CanExpand (h : Heap) (l : CacheList) (spare : List ℕ) (n : ℕ) : Prop :=
  ∃ b bs, atHand h l spare = b :: bs ∧ none ∉ bs ∧ n ≤ firstRoom n b + (bs.map roomOf).sum

section Call
variable {win' spare' : List ℕ}

namespace Ready

theorem mem (R : Ready h l win spare n h' l' win' spare') {p : ℕ} (hp : p ∈ l'.write :: spare') :
    p ∈ win' ++ spare' :=
  (List.mem_cons.mp hp).elim (fun hw => hw ▸ R.chain.write_mem) (List.mem_append_right win')

/-- The nodes from `write` to the end of the ring, where `read` follows. -/
theorem arc (R : Ready h l win spare n h' l' win' spare') :
    (l'.write :: spare').Nodup ∧ Linked h'.next h'.prev (l'.write :: spare') ∧
      (∀ q ∈ spare', q ≠ l'.read) ∧
      ∃ w, (l'.write :: spare').getLast? = some w ∧ h'.next w = l'.read := by
  have W := R.chain.window
  have hsplit : win' ++ spare' = win'.dropLast ++ (l'.write :: spare') := by
    conv_lhs => rw [← List.dropLast_append_getLast? l'.write W.last]
    simp
  have hd := R.chain.nodup
  have hlink := R.chain.ring.linked
  have hclosed := R.chain.ring.closed
  rw [List.head?_append, W.first] at hclosed
  obtain ⟨w, hw⟩ : ∃ w, (l'.write :: spare').getLast? = some w :=
    ⟨_, List.getLast?_eq_some_getLast (by simp)⟩
  have hlast : (win' ++ spare').getLast? = some w := by
    rw [hsplit, List.getLast?_append_of_ne_nil _ (by simp), hw]
  refine ⟨?_, ?_, ?_, w, hw, (hclosed w hlast l'.read rfl).1⟩
  · rw [hsplit] at hd
    exact (List.nodup_append.mp hd).2.1
  · rw [hsplit] at hlink
    exact (linked_append.mp hlink).2.1
  · rintro q hq rfl
    exact (List.nodup_append.mp hd).2.2 _ W.read_mem _ hq rfl

theorem length_lt (R : Ready h l win spare n h' l' win' spare') : spare'.length < h'.brk := by
  have hlen := Heap.length_le_brk R.arc.1 fun p hp => R.chain.live_of_mem (R.mem hp)
  exact Nat.lt_of_succ_le hlen

/-- The condition on the blocks at hand, in the chain that is ready. -/
theorem room_of_canExpand (R : Ready h l win spare n h' l' win' spare')
    (hcan : CanExpand h l spare n) : (∀ p ∈ spare', ∃ c, h'.cache p = some c) ∧
      n ≤ ((l'.write :: spare').map h'.writeable).sum := by
  obtain ⟨b, hb, hroom⟩ := R.blocks
  obtain ⟨b', bs, hbs, hmem, hle⟩ := hcan
  obtain ⟨rfl, rfl⟩ := List.cons_eq_cons.mp (hb.symm.trans hbs)
  refine ⟨none_not_mem_map.mp hmem, ?_⟩
  rwa [List.map_cons, List.sum_cons, hroom, ← map_roomOf]

/-- Every node from `write` on has a block when no spare lacks one. -/
theorem blocks_arc (R : Ready h l win spare n h' l' win' spare')
    (hb : ∀ p ∈ spare', ∃ c, h'.cache p = some c) :
    ∀ p ∈ l'.write :: spare', ∃ c, h'.cache p = some c := by
  intro p hp
  rcases List.mem_cons.mp hp with rfl | hp
  · exact R.first.imp fun _ h => h.1
  · exact hb p hp

/-- All blocks are there: the first loop leaves what they do not take. -/
theorem reuseLoop_eq (R : Ready h l win spare n h' l' win' spare')
    (hb : ∀ p ∈ spare', ∃ c, h'.cache p = some c) :
    ∃ w ∈ l'.write :: spare', h'.next w = l'.read ∧
      CacheList.reuseLoop h' l'.read h'.brk n l'.write 0 =
        .ok (n - ((l'.write :: spare').map h'.writeable).sum, w, spare'.length + 1) := by
  obtain ⟨-, hlink, hne, w, hw, hnext⟩ := R.arc
  refine ⟨w, List.mem_of_getLast? hw, hnext, ?_⟩
  rw [Net.reuseLoop_eq R.length_lt hlink hne hw hnext
    (fun p hp => R.chain.live_of_mem (R.mem hp)) (R.blocks_arc hb), Nat.zero_add]

/-- A chain with enough room is expanded. -/
theorem expanded (R : Ready h l win spare n h' l' win' spare') (hcan : CanExpand h l spare n) :
    Expanded h l win spare n h' l' win' spare' := by
  obtain ⟨hb, hroom⟩ := R.room_of_canExpand hcan
  refine ⟨R, fun p hp => ?_, hroom⟩
  obtain ⟨c, hc⟩ := R.blocks_arc hb p hp
  refine ⟨c, hc, R.chain.valid_of_mem (R.mem hp) hc, ?_⟩
  rcases List.mem_cons.mp hp with rfl | hp
  · obtain ⟨d, hd, hsize⟩ := R.first
    exact Option.some.inj (hd.symm.trans hc) ▸ hsize
  · exact (R.chain.cleared p hp c hc).2

end Ready

end Call

/-- **Enough room at hand**: the call returns, with any positive fuel. -/
theorem Chain.fastExpand_of_canExpand (C : Chain h l win spare) (hcan : CanExpand h l spare n) :
    ∃ h' l' win' spare', Expanded h l win spare n h' l' win' spare' ∧
      ∀ fuel, l.fastExpand (fuel + 1) h n = .ok (h', l', spare'.length + 1) := by
  obtain ⟨h', l', win', spare', R, hrun⟩ := C.fastExpand_eq n
  obtain ⟨hb, hroom⟩ := R.room_of_canExpand hcan
  obtain ⟨w, -, -, hloop⟩ := R.reuseLoop_eq hb
  refine ⟨h', l', win', spare', R.expanded hcan, fun fuel => ?_⟩
  rw [hrun, hloop, Nat.sub_eq_zero_of_le hroom, ok_bind, allocLoop_zero]

/-- **Too little room**: the call never returns. -/
theorem Chain.fastExpand_diverges (C : Chain h l win spare) {b : Option Cache}
    {bs : List (Option Cache)} (hbs : atHand h l spare = b :: bs) (hmem : none ∉ bs)
    (hlt : firstRoom n b + (bs.map roomOf).sum < n) (fuel : ℕ) :
    l.fastExpand fuel h n = .error .diverges := by
  obtain ⟨h', l', win', spare', R, hrun⟩ := C.fastExpand_eq n
  obtain ⟨b', hb', hroom⟩ := R.blocks
  obtain ⟨rfl, rfl⟩ := List.cons_eq_cons.mp (hb'.symm.trans hbs)
  obtain ⟨w, hw, hnext, hloop⟩ := R.reuseLoop_eq (none_not_mem_map.mp hmem)
  have hread := R.chain.live_of_mem R.chain.read_mem
  rw [hrun, hloop]
  refine allocLoop_diverges ?_ fuel (R.chain.live_of_mem (R.mem hw)) (by rwa [hnext])
  rw [List.map_cons, List.sum_cons, hroom, ← map_roomOf]
  omega

/-- A missing block is dereferenced. -/
theorem Chain.fastExpand_of_missing (C : Chain h l win spare) {b : Option Cache}
    {bs : List (Option Cache)} (hbs : atHand h l spare = b :: bs) (hmem : none ∈ bs) (fuel : ℕ) :
    l.fastExpand fuel h n = .error .nullPointer := by
  obtain ⟨h', l', win', spare', R, hrun⟩ := C.fastExpand_eq n
  obtain ⟨b', hb', -⟩ := R.blocks
  obtain ⟨rfl, rfl⟩ := List.cons_eq_cons.mp (hb'.symm.trans hbs)
  obtain ⟨q, hq, hnone⟩ := List.mem_map.mp hmem
  obtain ⟨-, hlink, hne, -⟩ := R.arc
  rw [hrun, reuseLoop_of_missing R.length_lt hlink hne
    (fun p hp => R.chain.live_of_mem (R.mem hp)) ⟨q, List.mem_cons_of_mem _ hq, hnone⟩]
  rfl

/-- The call returns in no other case. -/
theorem Chain.canExpand_of_ok (C : Chain h l win spare) {fuel : ℕ} {r : Heap × CacheList × ℕ}
    (hrun : l.fastExpand fuel h n = .ok r) : CanExpand h l spare n := by
  obtain ⟨h', l', win', spare', R, -⟩ := C.fastExpand_eq n
  obtain ⟨b, hb, -⟩ := R.blocks
  by_cases hmem : none ∈ spare'.map h'.cache
  · rw [C.fastExpand_of_missing hb hmem] at hrun
    cases hrun
  · refine ⟨b, _, hb, hmem, ?_⟩
    by_contra hlt
    rw [C.fastExpand_diverges hb hmem (Nat.not_le.mp hlt)] at hrun
    cases hrun

/-- What a call that returns has done. -/
theorem Chain.expanded_of_ok (C : Chain h l win spare) {fuel : ℕ} {r : Heap × CacheList × ℕ}
    (hrun : l.fastExpand fuel h n = .ok r) : ∃ h' l' win' spare',
      Expanded h l win spare n h' l' win' spare' ∧ r = (h', l', spare'.length + 1) := by
  have hcan := C.canExpand_of_ok hrun
  obtain ⟨h', l', win', spare', R, heq⟩ := C.fastExpand_eq n
  obtain ⟨hb, hroom⟩ := R.room_of_canExpand hcan
  obtain ⟨w, -, -, hloop⟩ := R.reuseLoop_eq hb
  rw [heq, hloop, Nat.sub_eq_zero_of_le hroom, ok_bind] at hrun
  cases fuel with
  | zero => cases hrun
  | succ fuel =>
      rw [allocLoop_zero, Except.ok.injEq] at hrun
      exact ⟨h', l', win', spare', R.expanded hcan, hrun.symm⟩

/-- What the call is meant to do: the `cnt` nodes from `write` on hold nothing and have room for
`n` bytes, and the node count has grown by the number of nodes that are new. -/
def Expands (h : Heap) (l : CacheList) (n : ℕ) (h' : Heap) (l' : CacheList) (cnt : ℕ) : Prop :=
  (∀ p ∈ List.iterate h'.next l'.write cnt, h'.readable p = []) ∧
    n ≤ ((List.iterate h'.next l'.write cnt).map h'.writeable).sum ∧
    ∃ new : List ℕ, new.Nodup ∧ (∀ p, p ∈ new ↔ h'.live p = true ∧ h.live p = false) ∧
      l'.nodeSize = l.nodeSize + new.length

theorem Expanded.expands {win' spare' : List ℕ} (E : Expanded h l win spare n h' l' win' spare')
    (C : Chain h l win spare) : Expands h l n h' l' (spare'.length + 1) := by
  rw [Expands, E.arc.2.1.iterate_eq]
  refine ⟨fun p hp => ?_, E.room, ?_⟩
  · obtain ⟨c, hc, hv, hsize⟩ := E.blank p hp
    refine Heap.readable_of_size fun d hd => ?_
    exact Option.some.inj (hc.symm.trans hd) ▸ ⟨hv, hsize⟩
  · rw [E.chain.count, C.count]
    exact E.frame.exists_new (fun p => C.live_of_mem) E.grows C.nodup E.chain.nodup

/-- **The call returns, having done what it is meant to, exactly when the blocks at hand have
room for the whole request.** -/
theorem fastExpand_iff (C : Chain h l win spare) (n : ℕ) :
    (∃ fuel h' l' cnt, l.fastExpand fuel h n = .ok (h', l', cnt) ∧ Expands h l n h' l' cnt) ↔
      CanExpand h l spare n := by
  constructor
  · rintro ⟨fuel, h', l', cnt, hrun, -⟩
    exact C.canExpand_of_ok hrun
  · intro hcan
    obtain ⟨h', l', win', spare', E, hrun⟩ := C.fastExpand_of_canExpand hcan
    exact ⟨1, h', l', _, hrun 0, E.expands C⟩

/-- Two bytes fit into the spare. -/
theorem fastExpand_iff_firstBuffer : ∃ fuel h' l' cnt,
    firstBuffer.cacheChain.fastExpand fuel twoRings 2 = .ok (h', l', cnt) ∧
      Expands twoRings firstBuffer.cacheChain 2 h' l' cnt :=
  (fastExpand_iff carries_firstBuffer.chain 2).mpr ⟨_, [], rfl, by simp, by decide⟩

/-- A request of more than 64 KiB on a new chain: the call allocates blocks for ever. -/
theorem fastExpand_new_diverges : ∃ h l, CacheList.new Heap.init = (h, l) ∧ Chain h l [0] [] ∧
    ∀ fuel, l.fastExpand fuel h 65537 = .error .diverges := by
  obtain ⟨h, hnew, C, hnone, -⟩ := CacheList.new_spec Heap.init
  have hhand : atHand h ⟨Heap.init.brk, Heap.init.brk, Heap.init.brk, 1⟩ [] = [none] := by
    simp [atHand, hnone]
  exact ⟨h, _, hnew, C, C.fastExpand_diverges hhand (by simp) (by decide)⟩

end Hare.Net
