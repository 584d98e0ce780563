import Hare.Net.Expand

/-!
# Reading from a socket into a buffer

`Buffer.read` makes room, offers the blocks from `write` to the end of the ring to `readv`, and
then counts the bytes that arrived with `CacheList.add`.  The vector is filled by the system and
counted by the buffer, each block after block; both stop in the same block.
-/

namespace Hare.Net

open LinkedRing LabelledRun

variable {h : Heap} {b : Buffer} {win spare : List ℕ} {content bytes : List UInt8}

/-! ## Storing -/

/-- The place a node offers. -/
def vecOf (h : Heap) (p : ℕ) : Buffer.IoVec := ⟨p, 0, h.writeable p⟩

/-- The block of a node is clear. -/
def Blank (h : Heap) (p : ℕ) : Prop := ∃ c, h.cache p = some c ∧ c.Valid ∧ c.size = 0

/-- The bytes lie at the beginning of clear blocks, in order. -/
def Filled (f : ℕ → Option Cache) : List ℕ → List UInt8 → Prop
  | [], bytes => bytes = []
  | p :: ps, bytes => ∃ c, f p = some c ∧ c.Valid ∧ c.size = 0 ∧ bytes.take c.capacity <+: c.ptr ∧
      Filled f ps (bytes.drop c.capacity)

theorem Cache.Valid.writeableSize_of_size {c : Cache} (hv : c.Valid) (hs : c.size = 0) :
    c.writeableSize = c.capacity := by
  rw [hv.writeableSize_eq, hs, Nat.sub_zero]

/-- A store at the beginning of a clear block. -/
theorem Cache.store_blank {c : Cache} (hv : c.Valid) (hs : c.size = 0)
    (h : bytes.length ≤ c.capacity) : ∃ c', c.store 0 bytes = .ok c' ∧ c'.Valid ∧ c'.size = 0 ∧
      c'.capacity = c.capacity ∧ bytes <+: c'.ptr := by
  have hin : 0 + bytes.length ≤ c.ptr.length := by rwa [Nat.zero_add, ← hv.capacity_eq]
  exact ⟨_, Cache.store_eq hin, Cache.valid_store hv hin, hs, rfl, by simp⟩

/-- The vector of the nodes of a path. -/
theorem vecsLoop_eq : ∀ {ns : List ℕ} {p : ℕ}, Linked h.next h.prev (p :: ns) →
    (∀ q ∈ p :: ns, h.live q = true) → (∀ q ∈ p :: ns, Blank h q) →
    Buffer.vecsLoop h (ns.length + 1) p = .ok ((p :: ns).map (vecOf h)) := by
  intro ns
  induction ns with
  | nil =>
      intro p _ hlive hblank
      obtain ⟨c, hc, -, hs⟩ := hblank p List.mem_cons_self
      have hp := hlive p List.mem_cons_self
      rw [List.length_nil, Buffer.vecsLoop, Heap.block_of_cache hp hc]
      simp [Heap.getNext_of_live hp, Buffer.vecsLoop, vecOf, Heap.writeable_of_cache hc, hs]
  | cons q ns ih =>
      intro p hlink hlive hblank
      obtain ⟨c, hc, -, hs⟩ := hblank p List.mem_cons_self
      have hp := hlive p List.mem_cons_self
      obtain ⟨⟨hpq, -⟩, hrest⟩ := linked_cons_cons.mp hlink
      rw [List.length_cons, Buffer.vecsLoop, Heap.block_of_cache hp hc]
      simp only [ok_bind, Heap.getNext_of_live hp, hpq]
      rw [ih hrest (fun r hr => hlive r (List.mem_cons_of_mem p hr))
        fun r hr => hblank r (List.mem_cons_of_mem p hr)]
      simp [vecOf, Heap.writeable_of_cache hc, hs]

/-- **Storing** bytes into clear blocks that have room for them. -/
theorem scatter_spec : ∀ {ns : List ℕ} {h : Heap} {bytes : List UInt8}, ns.Nodup →
    (∀ q ∈ ns, h.live q = true) → (∀ q ∈ ns, Blank h q) →
    bytes.length ≤ (ns.map h.writeable).sum →
    ∃ f, Buffer.scatter h (ns.map (vecOf h)) bytes = .ok { h with cache := f } ∧
      (∀ q, q ∉ ns → f q = h.cache q) ∧ Filled f ns bytes := by
  intro ns
  induction ns with
  | nil =>
      intro h bytes _ _ _ hroom
      exact ⟨h.cache, rfl, fun _ _ => rfl, List.length_eq_zero_iff.mp (Nat.le_zero.mp hroom)⟩
  | cons p ns ih =>
      intro h bytes hd hlive hblank hroom
      obtain ⟨c, hc, hv, hs⟩ := hblank p List.mem_cons_self
      have hp := hlive p List.mem_cons_self
      obtain ⟨hnot, hd'⟩ := List.nodup_cons.mp hd
      have hw := Heap.writeable_of_cache hc
      rw [hv.writeableSize_of_size hs] at hw
      have hle : (bytes.take c.capacity).length ≤ c.capacity := List.length_take_le _ _
      obtain ⟨c', hstore, hv', hs', hcap, hpre⟩ := Cache.store_blank hv hs hle
      have hother : ∀ q ∈ ns, (h.withCache p c').cache q = h.cache q := fun q hq => by
        have hqp : q ≠ p := fun hqp => hnot (hqp ▸ hq)
        simp [Heap.withCache, hqp]
      have hwrite : ∀ q ∈ ns, (h.withCache p c').writeable q = h.writeable q := fun q hq => by
        rw [Heap.writeable, hother q hq, Heap.writeable]
      have hvec : ns.map (vecOf (h.withCache p c')) = ns.map (vecOf h) :=
        List.map_congr_left fun q hq => by rw [vecOf, hwrite q hq, vecOf]
      rw [List.map_cons, List.sum_cons, hw] at hroom
      have hroom' : (bytes.drop c.capacity).length ≤
          (ns.map (h.withCache p c').writeable).sum := by
        rw [List.map_congr_left hwrite, List.length_drop]
        omega
      obtain ⟨f, hrun, hout, hfill⟩ := ih (h := h.withCache p c') hd'
        (fun q hq => hlive q (List.mem_cons_of_mem p hq))
        (fun q hq => by
          rw [Blank, hother q hq]
          exact hblank q (List.mem_cons_of_mem p hq))
        hroom'
      refine ⟨f, ?_, fun q hq => ?_, c', ?_, hv', hs', ?_, ?_⟩
      · rw [List.map_cons, Buffer.scatter]
        simp only [vecOf, hw, Heap.block_of_cache hp hc, ok_bind, hstore, Heap.setCache_of_live hp]
        exact hvec ▸ hrun
      · have hqp : q ≠ p := fun hqp => hq (hqp ▸ List.mem_cons_self)
        rw [hout q fun h => hq (List.mem_cons_of_mem p h)]
        simp [Heap.withCache, hqp]
      · rw [hout p hnot]
        simp [Heap.withCache]
      · rwa [hcap]
      · rwa [hcap]

/-! ## Counting -/

theorem Filled.blank {f : ℕ → Option Cache} : ∀ {ns : List ℕ} {bytes : List UInt8},
    Filled f ns bytes → ∀ q ∈ ns, ∃ c, f q = some c ∧ c.Valid ∧ c.size = 0 := by
  intro ns
  induction ns with
  | nil => simp
  | cons p ns ih =>
      rintro bytes ⟨c, hc, hv, hs, -, hrest⟩ q hq
      rcases List.mem_cons.mp hq with rfl | hq
      · exact ⟨c, hc, hv, hs⟩
      · exact ih hrest q hq

theorem Filled.congr {f g : ℕ → Option Cache} : ∀ {ns : List ℕ} {bytes : List UInt8},
    Filled f ns bytes → (∀ q ∈ ns, g q = f q) → Filled g ns bytes := by
  intro ns
  induction ns with
  | nil => exact fun h _ => h
  | cons p ns ih =>
      rintro bytes ⟨c, hc, hv, hs, hpre, hrest⟩ hg
      exact ⟨c, (hg p List.mem_cons_self).trans hc, hv, hs, hpre,
        ih hrest fun q hq => hg q (List.mem_cons_of_mem p hq)⟩

/-- Counting bytes at the beginning of a clear block. -/
theorem Cache.readable_add {c : Cache} {k : ℕ} (hv : c.Valid) (hs : c.size = 0)
    (hk : k ≤ c.capacity) : (c.add k).Valid ∧ (c.add k).readable = c.ptr.take k := by
  have hm := hv.misalign_le
  have hvalid : (c.add k).Valid := by
    refine ⟨?_, ?_, hv.capacity_eq, hv.fits⟩ <;> simp only [Cache.add] <;> omega
  refine ⟨hvalid, ?_⟩
  rw [hvalid.readable_eq]
  have hm' : c.misalign = 0 := by omega
  simp [Cache.add, hs, hm']

/-- What counting leaves behind: the blocks `f`, and the node `idx` where it stopped. -/
structure Counted (h : Heap) (ns : List ℕ) (bytes : List UInt8) (f : ℕ → Option Cache)
    (pre : List ℕ) (idx : ℕ) (post : List ℕ) : Prop where
  split : ns = pre ++ idx :: post
  other : ∀ q, q ∉ pre ++ [idx] → f q = h.cache q
  valid : ∀ q ∈ pre ++ [idx], ∃ c, f q = some c ∧ c.Valid
  content : Heap.content { h with cache := f } (pre ++ [idx]) = bytes

section Round
variable {read fuel p : ℕ} {c : Cache}

/-- The bytes end in the block. -/
theorem addLoop_here (hp : h.live p = true) (hc : h.cache p = some c) (hv : c.Valid)
    (hs : c.size = 0) (hle : bytes.length ≤ c.capacity)
    (hstop : bytes = [] ∨ bytes.length < c.capacity ∨ h.next p = read) :
    CacheList.addLoop read (fuel + 1) h bytes.length p =
      .ok (h.withCache p (c.add bytes.length), p) := by
  have hw := hv.writeableSize_of_size hs
  rw [CacheList.addLoop]
  by_cases hpos : bytes.length > 0
  · have hp' : (h.withCache p (c.add bytes.length)).live p = true := hp
    have hmin : min bytes.length c.writeableSize = bytes.length := by omega
    have hnot : ¬ ((c.add bytes.length).full = true ∧
        (h.withCache p (c.add bytes.length)).next p ≠ read) := by
      rintro ⟨hfull, hne⟩
      have hsize : bytes.length = c.capacity := by simpa [Cache.full, Cache.add, hs] using hfull
      rcases hstop with rfl | hlt | hnext
      · simp at hpos
      · omega
      · exact hne hnext
    simp only [if_pos hpos, Heap.block_of_cache hp hc, ok_bind, hmin, Heap.setCache_of_live hp,
      Heap.getNext_of_live hp', Nat.sub_self]
    rw [if_neg hnot]
    rfl
  · have hzero : bytes.length = 0 := by omega
    have hself : h.withCache p (c.add 0) = h := by
      have hadd : c.add 0 = c := rfl
      rw [hadd, Heap.withCache, ← hc, Function.update_eq_self]
    rw [if_neg hpos, hzero, hself]
    rfl

/-- The block is full and another one follows. -/
theorem addLoop_next (hp : h.live p = true) (hc : h.cache p = some c) (hv : c.Valid)
    (hs : c.size = 0) (hne : bytes ≠ []) (hle : c.capacity ≤ bytes.length)
    (hnext : h.next p ≠ read) :
    CacheList.addLoop read (fuel + 1) h bytes.length p =
      CacheList.addLoop read fuel (h.withCache p (c.add c.capacity))
        (bytes.drop c.capacity).length (h.next p) := by
  have hw := hv.writeableSize_of_size hs
  have hpos := List.length_pos_iff.mpr hne
  have hp' : (h.withCache p (c.add c.capacity)).live p = true := hp
  have hfull : (c.add c.capacity).full = true := by simp [Cache.full, Cache.add, hs]
  rw [CacheList.addLoop, if_pos hpos, Heap.block_of_cache hp hc, List.length_drop]
  simp only [ok_bind, hw, Nat.min_eq_right hle, Heap.setCache_of_live hp,
    Heap.getNext_of_live hp']
  rw [if_pos ⟨hfull, hnext⟩]
  rfl

/-- Counting ends where it started. -/
theorem counted_here {ns : List ℕ} (hv : c.Valid) (hs : c.size = 0)
    (hle : bytes.length ≤ c.capacity) (hpre : bytes <+: c.ptr) :
    Counted h (p :: ns) bytes (h.withCache p (c.add bytes.length)).cache [] p ns := by
  obtain ⟨hv', hread⟩ := Cache.readable_add hv hs hle
  have hself : (h.withCache p (c.add bytes.length)).cache p = some (c.add bytes.length) := by
    simp [Heap.withCache]
  refine ⟨rfl, fun q hq => ?_, fun q hq => ?_, ?_⟩
  · have hqp : q ≠ p := by simpa using hq
    simp [Heap.withCache, hqp]
  · obtain rfl : q = p := by simpa using hq
    exact ⟨_, hself, hv'⟩
  · change (h.withCache p (c.add bytes.length)).content [p] = bytes
    rw [Heap.content_cons, Heap.content_nil, List.append_nil, Heap.readable_of_cache hself, hread,
      ← List.prefix_iff_eq_take.mp hpre]

end Round

/-- **Counting** the bytes that lie in the blocks. -/
theorem addLoop_spec {read w : ℕ} : ∀ {ns : List ℕ} {h : Heap} {p fuel : ℕ} {bytes : List UInt8},
    ns.length < fuel → (p :: ns).Nodup → Linked h.next h.prev (p :: ns) →
    (∀ q ∈ ns, q ≠ read) → (p :: ns).getLast? = some w → h.next w = read →
    (∀ q ∈ p :: ns, h.live q = true) → Filled h.cache (p :: ns) bytes →
    ∃ f pre idx post,
      CacheList.addLoop read fuel h bytes.length p = .ok ({ h with cache := f }, idx) ∧
      Counted h (p :: ns) bytes f pre idx post := by
  intro ns
  induction ns with
  | nil =>
      rintro h p fuel bytes hfuel - - - hlast hnext hlive ⟨c, hc, hv, hs, hpre, hrest⟩
      obtain ⟨fuel, rfl⟩ : ∃ k, fuel = k + 1 := ⟨fuel - 1, by omega⟩
      obtain rfl : p = w := by simpa using hlast
      have hle : bytes.length ≤ c.capacity := List.drop_eq_nil_iff.mp hrest
      rw [List.take_of_length_le hle] at hpre
      exact ⟨_, [], p, [], addLoop_here (hlive p List.mem_cons_self) hc hv hs hle
        (Or.inr (Or.inr hnext)), counted_here hv hs hle hpre⟩
  | cons r ns ih =>
      rintro h p fuel bytes hfuel hd hlink hne hlast hnext hlive ⟨c, hc, hv, hs, hpre, hrest⟩
      obtain ⟨fuel, rfl⟩ : ∃ k, fuel = k + 1 := ⟨fuel - 1, by omega⟩
      have hp := hlive p List.mem_cons_self
      by_cases hstop : bytes = [] ∨ bytes.length < c.capacity
      · have hle : bytes.length ≤ c.capacity := by
          rcases hstop with rfl | hlt
          · exact Nat.zero_le _
          · exact hlt.le
        rw [List.take_of_length_le hle] at hpre
        exact ⟨_, [], p, r :: ns, addLoop_here hp hc hv hs hle (hstop.imp_right Or.inl),
          counted_here hv hs hle hpre⟩
      obtain ⟨hbytes, hle⟩ := not_or.mp hstop
      obtain ⟨hnot, hd'⟩ := List.nodup_cons.mp hd
      obtain ⟨⟨hpr, -⟩, hlink'⟩ := linked_cons_cons.mp hlink
      have hother : ∀ q, q ≠ p → (h.withCache p (c.add c.capacity)).cache q = h.cache q :=
        fun q hq => by simp [Heap.withCache, hq]
      have hfuel' : ns.length < fuel := by simpa using hfuel
      obtain ⟨f, pre, idx, post, hrun, K⟩ := ih (h := h.withCache p (c.add c.capacity)) hfuel' hd'
        hlink'
        (fun q hq => hne q (List.mem_cons_of_mem r hq)) (by simpa using hlast) hnext
        (fun q hq => hlive q (List.mem_cons_of_mem p hq))
        (hrest.congr fun q hq => hother q fun hqp => hnot (hqp ▸ hq))
      have hpre' : p ∉ pre ++ [idx] := fun hm => hnot (by
        rw [K.split, List.append_cons]
        exact List.mem_append_left post hm)
      obtain ⟨hv', hread⟩ := Cache.readable_add hv hs le_rfl
      have hfp : f p = some (c.add c.capacity) := by
        rw [K.other p hpre']
        simp [Heap.withCache]
      refine ⟨f, p :: pre, idx, post, ?_, by simp [K.split], fun q hq => ?_, fun q hq => ?_, ?_⟩
      · rw [addLoop_next hp hc hv hs hbytes (Nat.not_lt.mp hle) (hpr ▸ hne r List.mem_cons_self),
          hpr]
        exact hrun
      · obtain ⟨hqp, hq'⟩ := not_or.mp (List.mem_cons.not.mp hq)
        rw [K.other q hq', hother q hqp]
      · rcases List.mem_cons.mp hq with rfl | hq'
        · exact ⟨_, hfp, hv'⟩
        · exact K.valid q hq'
      · have hK : Heap.content { h with cache := f } (pre ++ [idx]) = bytes.drop c.capacity :=
          K.content
        have htake : c.ptr.take c.capacity = bytes.take c.capacity := by
          have hlen : (bytes.take c.capacity).length = c.capacity := by
            rw [List.length_take]
            omega
          rw [List.prefix_iff_eq_take.mp hpre, hlen]
        rw [List.cons_append, Heap.content_cons, hK, Heap.readable_of_cache hfp, hread, htake,
          List.take_append_drop]

/-! ## Reading -/

section Read
variable {l l₁ : CacheList} {h₁ : Heap} {win₁ spare₁ : List ℕ} {n : ℕ}
  {fuel maxRead available howmuch : ℕ}

theorem room_map_vecOf (ns : List ℕ) :
    Buffer.room (ns.map (vecOf h)) = (ns.map h.writeable).sum := by
  rw [Buffer.room, List.map_map]
  rfl

namespace Expanded

/-- The window before the nodes that were made ready. -/
theorem split (E : Expanded h l win spare n h₁ l₁ win₁ spare₁) :
    win₁ ++ spare₁ = win₁.dropLast ++ (l₁.write :: spare₁) := by
  conv_lhs => rw [← List.dropLast_append_getLast? l₁.write E.chain.window.last]
  simp

/-- The content lies before the nodes that were made ready. -/
theorem content_front (E : Expanded h l win spare n h₁ l₁ win₁ spare₁) :
    h₁.content win₁.dropLast = h.content win := by
  obtain ⟨c, hc, hv, hs⟩ := E.blank l₁.write List.mem_cons_self
  have hread : h₁.readable l₁.write = [] := Heap.readable_of_size fun d hd =>
    Option.some.inj (hc.symm.trans hd) ▸ ⟨hv, hs⟩
  rw [← E.content, E.chain.window.content_eq, hread, List.append_nil]

/-- The nodes before those that were made ready have the blocks they had. -/
theorem block_front (E : Expanded h b.cacheChain win spare n h₁ l₁ win₁ spare₁)
    (S : Carries h b win spare content) {p : ℕ} (hp : p ∈ win₁.dropLast) :
    ∃ c, h₁.cache p = some c := by
  obtain ⟨hwin, hcache, hread⟩ := E.front p hp
  rw [hcache]
  by_cases hpw : p = b.cacheChain.write
  · cases hc : h.cache p with
    | some c => exact ⟨c, rfl⟩
    | none => exact absurd (by simp [Heap.readable, hc]) (hread hpw)
  · exact S.blocks p hwin (Or.inl hpw)

/-- Once the bytes are stored and counted, they follow the content. -/
theorem carries (E : Expanded h b.cacheChain win spare n h₁ l₁ win₁ spare₁)
    (S : Carries h b win spare content) {f g : ℕ → Option Cache} {pre post : List ℕ} {idx : ℕ}
    (hout : ∀ q, q ∉ l₁.write :: spare₁ → f q = h₁.cache q)
    (hfill : ∀ q ∈ l₁.write :: spare₁, ∃ c, f q = some c ∧ c.Valid ∧ c.size = 0)
    (K : Counted { h₁ with cache := f } (l₁.write :: spare₁) bytes g pre idx post) :
    Carries { h₁ with cache := g } ⟨{ l₁ with write := idx }, content.length + bytes.length⟩
      (win₁.dropLast ++ (pre ++ [idx])) post (content ++ bytes) := by
  have hsplit : win₁ ++ spare₁ = win₁.dropLast ++ (pre ++ [idx]) ++ post := by
    rw [E.split, K.split]
    simp
  have hd := E.chain.nodup
  rw [hsplit] at hd
  have hfront : ∀ p ∈ win₁.dropLast, g p = h₁.cache p := by
    intro p hp
    have hd' := E.chain.nodup
    rw [E.split] at hd'
    have harc : p ∉ l₁.write :: spare₁ := fun hm => (List.nodup_append.mp hd').2.2 p hp p hm rfl
    have hpre : p ∉ pre ++ [idx] := fun hm => harc (by
      rw [K.split, List.append_cons]
      exact List.mem_append_left post hm)
    exact (K.other p hpre).trans (hout p harc)
  have hwin : ∀ p ∈ win₁.dropLast ++ (pre ++ [idx]), ∃ c, g p = some c ∧ c.Valid := by
    intro p hp
    rcases List.mem_append.mp hp with hp | hp
    · obtain ⟨c, hc⟩ := E.block_front S hp
      exact ⟨c, (hfront p hp).trans hc,
        E.chain.window.valid p (List.dropLast_subset win₁ hp) c hc⟩
    · exact K.valid p hp
  refine ⟨E.chain.resplit hsplit (by simp) ?_ ?_, ?_, by simp, fun p hp _ => ?_⟩
  · intro p hp c hc
    obtain ⟨d, hd, hv⟩ := hwin p hp
    exact Option.some.inj (hd.symm.trans hc) ▸ hv
  · intro p hp c hc
    have hpre : p ∉ pre ++ [idx] := fun hm =>
      (List.nodup_append.mp hd).2.2 p (List.mem_append_right _ hm) p hp rfl
    obtain ⟨d, hd, hv⟩ := hfill p (by
      rw [K.split]
      exact List.mem_append_right pre (List.mem_cons_of_mem idx hp))
    rw [K.other p hpre] at hc
    exact Option.some.inj (hd.symm.trans hc) ▸ hv
  · have hK : Heap.content { h₁ with cache := g } (pre ++ [idx]) = bytes := K.content
    rw [Heap.content_append, hK, Heap.content_congr hfront, E.content_front, S.content_eq]
  · exact (hwin p hp).imp fun _ h => h.1

end Expanded

/-- The room made is offered. -/
theorem prepareRead_eq
    (E : Expanded h b.cacheChain win spare (Buffer.request maxRead available howmuch) h₁ l₁ win₁
      spare₁)
    (hrun : b.cacheChain.fastExpand fuel h (Buffer.request maxRead available howmuch) =
      .ok (h₁, l₁, spare₁.length + 1)) :
    b.prepareRead fuel h maxRead available howmuch =
      .ok (h₁, l₁, (l₁.write :: spare₁).map (vecOf h₁)) := by
  rw [Buffer.prepareRead, hrun]
  simp only [ok_bind, vecsLoop_eq E.arc.2.1 (fun p hp => E.chain.live_of_mem (E.mem hp)) E.blank]
  rfl

/-- What arrives is stored and counted.  Where nothing does, counting stops at once. -/
theorem Expanded.read_spec {arrived : Option (List UInt8)}
    (E : Expanded h b.cacheChain win spare (Buffer.request maxRead available howmuch) h₁ l₁ win₁
      spare₁) (S : Carries h b win spare content)
    (hprep : b.prepareRead fuel h maxRead available howmuch =
      .ok (h₁, l₁, (l₁.write :: spare₁).map (vecOf h₁)))
    (hrec : Buffer.received ((l₁.write :: spare₁).map (vecOf h₁)) arrived = bytes) :
    ∃ h' l' size win' spare', b.read fuel h maxRead available howmuch arrived =
        .ok (bytes.length, h', ⟨l', size⟩) ∧
      (content.length + bytes.length < 2 ^ 64 ∨ bytes = [] →
        size = content.length + bytes.length) ∧
      Carries h' ⟨l', content.length + bytes.length⟩ win' spare' (content ++ bytes) ∧
      Exchange h h' (win ++ spare) (win' ++ spare') ∧ win ++ spare ⊆ win' ++ spare' ∧
      l'.head = b.cacheChain.head := by
  obtain ⟨hd, hlink, hne, w, hw, hnext⟩ := E.arc
  have hlive : ∀ p ∈ l₁.write :: spare₁, h₁.live p = true := fun p hp =>
    E.chain.live_of_mem (E.mem hp)
  have hroom : bytes.length ≤ ((l₁.write :: spare₁).map h₁.writeable).sum := by
    rw [← hrec, ← room_map_vecOf]
    exact List.length_take_le _ _
  obtain ⟨f, hscatter, hout, hfill⟩ := scatter_spec hd hlive E.blank hroom
  obtain ⟨g, pre, idx, post, size, hread, hsize, K⟩ : ∃ g pre idx post size,
      b.read fuel h maxRead available howmuch arrived =
        .ok (bytes.length, { h₁ with cache := g }, ⟨{ l₁ with write := idx }, size⟩) ∧
      (content.length + bytes.length < 2 ^ 64 ∨ bytes = [] →
        size = content.length + bytes.length) ∧
      Counted { h₁ with cache := f } (l₁.write :: spare₁) bytes g pre idx post := by
    by_cases hnil : bytes = []
    · subst hnil
      obtain ⟨c, hc, hv, hs⟩ := hfill.blank l₁.write List.mem_cons_self
      have hblank : Heap.readable { h₁ with cache := f } l₁.write = [] :=
        Heap.readable_of_size fun d hd => Option.some.inj (hc.symm.trans hd) ▸ ⟨hv, hs⟩
      refine ⟨f, [], l₁.write, spare₁, b.totalLen, ?_, fun _ => S.size_eq, rfl, fun _ _ => rfl,
        by simp [hc, hv], by simp [hblank]⟩
      rw [Buffer.read, hprep]
      simp only [ok_bind, hrec, hscatter]
      rfl
    · obtain ⟨g, pre, idx, post, hadd, K⟩ := addLoop_spec (h := { h₁ with cache := f })
        (Nat.lt_succ_of_lt E.length_lt) hd hlink hne hw hnext hlive hfill
      refine ⟨g, pre, idx, post, (b.totalLen + bytes.length) % 2 ^ 64, ?_, fun hmem => ?_, K⟩
      · rw [Buffer.read, hprep]
        simp only [ok_bind, hrec, hscatter, if_neg hnil, CacheList.add, hadd]
        rfl
      · rw [S.size_eq, Nat.mod_eq_of_lt (hmem.resolve_right hnil)]
  have hsplit : win₁ ++ spare₁ = win₁.dropLast ++ (pre ++ [idx]) ++ post := by
    rw [E.split, K.split]
    simp
  refine ⟨_, _, size, _, _, hread, hsize, E.carries S hout hfill.blank K, ?_,
    hsplit ▸ E.grows, E.head⟩
  rw [← hsplit]
  refine E.frame.trans (.recache (fun p => E.chain.live_of_mem) fun p hp => ?_)
  refine (K.other p fun hm => hp ?_).trans (hout p fun hm => hp (E.mem hm))
  rw [hsplit]
  exact List.mem_append_left post (List.mem_append_right _ hm)

/-- **What arrives is appended.**  Whenever room is made, `readv` is offered a vector; when it
fails or finds the end of the stream, nothing changes, and bytes that fit into the vector follow
the content. -/
theorem Carries.read_appends {fuel maxRead available howmuch : ℕ} {r : Heap × CacheList × ℕ}
    (S : Carries h b win spare content)
    (hexp : b.cacheChain.fastExpand fuel h (Buffer.request maxRead available howmuch) = .ok r) :
    ∃ h₁ l₁ vecs, b.prepareRead fuel h maxRead available howmuch = .ok (h₁, l₁, vecs) ∧
      (∀ arrived, arrived = none ∨ arrived = some [] → ∃ h' b' win' spare',
        b.read fuel h maxRead available howmuch arrived = .ok (0, h', b') ∧
          Carries h' b' win' spare' content) ∧
      ∀ bytes, bytes ≠ [] → bytes.length ≤ Buffer.room vecs →
        content.length + bytes.length < 2 ^ 64 → ∃ h' b' win' spare',
          b.read fuel h maxRead available howmuch (some bytes) = .ok (bytes.length, h', b') ∧
            Carries h' b' win' spare' (content ++ bytes) := by
  obtain ⟨h₁, l₁, win₁, spare₁, E, rfl⟩ := S.chain.expanded_of_ok hexp
  have hprep := prepareRead_eq E hexp
  refine ⟨h₁, l₁, _, hprep, fun arrived harr => ?_, fun bytes hbytes hroom hmem => ?_⟩
  · have hrec : Buffer.received ((l₁.write :: spare₁).map (vecOf h₁)) arrived = [] := by
      rcases harr with rfl | rfl <;> simp [Buffer.received]
    obtain ⟨h', l', size, win', spare', hread, hsize, S', -⟩ := E.read_spec S hprep hrec
    obtain rfl := hsize (Or.inr rfl)
    exact ⟨h', _, win', spare', hread, by simpa using S'⟩
  · have hrec : Buffer.received ((l₁.write :: spare₁).map (vecOf h₁)) (some bytes) = bytes :=
      List.take_of_length_le hroom
    obtain ⟨h', l', size, win', spare', hread, hsize, S', -⟩ := E.read_spec S hprep hrec
    obtain rfl := hsize (Or.inl hmem)
    exact ⟨h', _, win', spare', hread, S'⟩

/-- Two bytes arrive and go into the spare block. -/
theorem read_firstBuffer : ∃ h' b' win' spare',
    firstBuffer.read 1 twoRings 4096 2 0 (some [7, 8]) = .ok (2, h', b') ∧
      Carries h' b' win' spare' [2, 3, 4, 5, 6, 7, 8] := by
  have hcan : CanExpand twoRings firstBuffer.cacheChain [2] (Buffer.request 4096 2 0) :=
    ⟨_, [], rfl, by simp, by decide⟩
  obtain ⟨h₀, l₀, win₀, spare₀, -, hrun⟩ := carries_firstBuffer.chain.fastExpand_of_canExpand hcan
  obtain ⟨h₁, l₁, vecs, hprep, -, hdata⟩ := carries_firstBuffer.read_appends (hrun 0)
  have hvecs : (firstBuffer.prepareRead 1 twoRings 4096 2 0).map (fun r => r.2.2) =
      .ok [⟨2, 0, 2⟩] := by decide
  rw [hprep] at hvecs
  obtain rfl : vecs = [⟨2, 0, 2⟩] := Except.ok.inj hvecs
  exact hdata [7, 8] (by simp) (by decide) (by decide)

/-! ## The limit -/

/-- The bytes the blocks at hand can take, once there is room for a request of `n` bytes. -/
def roomFor (n : ℕ) : List (Option Cache) → ℕ
  | [] => 0
  | b :: bs => firstRoom n b + (bs.map roomOf).sum

theorem Expanded.room_vecs (E : Expanded h l win spare n h₁ l₁ win₁ spare₁) :
    Buffer.room ((l₁.write :: spare₁).map (vecOf h₁)) = roomFor n (atHand h l spare) := by
  obtain ⟨c, hhand, hfirst⟩ := E.blocks
  rw [room_map_vecOf, List.map_cons, List.sum_cons, hfirst, hhand, roomFor, map_roomOf]

/-- The buffer holds the content and `bytes` behind it. -/
def Appended (content bytes : List UInt8) (h : Heap) (b : Buffer) : Prop :=
  ∃ win, b.cacheChain.walk h = .ok win ∧ h.content win = content ++ bytes

theorem Appended.unique {bytes' : List UInt8} (hb : Appended content bytes h b)
    (hb' : Appended content bytes' h b) : bytes = bytes' := by
  obtain ⟨win, hwalk, hcontent⟩ := hb
  obtain ⟨win', hwalk', hcontent'⟩ := hb'
  obtain rfl := Except.ok.inj (hwalk.symm.trans hwalk')
  exact List.append_cancel_left (hcontent.symm.trans hcontent')

/-- A read takes all the bytes the blocks at hand have room for. -/
theorem Carries.read_takes {r : Heap × CacheList × ℕ}
    (S : Carries h b win spare content)
    (hexp : b.cacheChain.fastExpand fuel h (Buffer.request maxRead available howmuch) = .ok r)
    (bytes : List UInt8) :
    ∃ count h' b', b.read fuel h maxRead available howmuch (some bytes) = .ok (count, h', b') ∧
      Appended content (bytes.take (roomFor (Buffer.request maxRead available howmuch)
        (atHand h b.cacheChain spare))) h' b' := by
  obtain ⟨h₁, l₁, win₁, spare₁, E, rfl⟩ := S.chain.expanded_of_ok hexp
  have hprep := prepareRead_eq E hexp
  have hrec : Buffer.received ((l₁.write :: spare₁).map (vecOf h₁)) (some bytes) =
      bytes.take (Buffer.room ((l₁.write :: spare₁).map (vecOf h₁))) := rfl
  rw [← E.room_vecs]
  obtain ⟨h', l', size, win', spare', hread, -, S', -⟩ := E.read_spec S hprep hrec
  exact ⟨_, h', _, hread, win', S'.chain.window.walk_eq, S'.content_eq⟩

/-- **When a read keeps to its limit.**  Whatever the socket says to have and whatever it has, a
read appends no more than `howmuch` bytes exactly when there are no more, when the blocks at hand
have no room for more, or when the read never ends for want of blocks. -/
theorem Carries.read_limit_iff (S : Carries h b win spare content)
    (maxRead available howmuch : ℕ) (bytes : List UInt8) :
    (∀ fuel count h' b',
        b.read fuel h maxRead available howmuch (some bytes) = .ok (count, h', b') →
        ∃ tail, Appended content tail h' b' ∧ tail.length ≤ howmuch) ↔
      bytes.length ≤ howmuch ∨
        roomFor (Buffer.request maxRead available howmuch) (atHand h b.cacheChain spare) ≤ howmuch ∨
        ¬ CanExpand h b.cacheChain spare (Buffer.request maxRead available howmuch) := by
  constructor
  · intro hall
    by_contra hcon
    simp only [not_or, not_le, not_not] at hcon
    obtain ⟨hbytes, hroom, hcan⟩ := hcon
    obtain ⟨h₁, l₁, win₁, spare₁, -, hexp⟩ := S.chain.fastExpand_of_canExpand hcan
    obtain ⟨count, h', b', hread, happ⟩ := S.read_takes (hexp 0) bytes
    obtain ⟨tail, htail, hle⟩ := hall 1 count h' b' hread
    rw [htail.unique happ, List.length_take] at hle
    omega
  · intro hcond fuel count h' b' hread
    cases hexp : b.cacheChain.fastExpand fuel h (Buffer.request maxRead available howmuch) with
    | error e =>
        rw [Buffer.read, Buffer.prepareRead, hexp] at hread
        cases hread
    | ok r =>
        obtain ⟨count', h'', b'', hread', happ⟩ := S.read_takes hexp bytes
        cases hread.symm.trans hread'
        refine ⟨_, happ, ?_⟩
        have hcan := S.chain.canExpand_of_ok hexp
        rw [List.length_take]
        rcases hcond with hle | hle | hnot
        · omega
        · omega
        · exact absurd hcan hnot

/-- A read of at most two bytes into the spare block, which has room for two. -/
theorem read_limit_firstBuffer : ∃ count h' b',
    firstBuffer.read 1 twoRings 4096 3 2 (some [7, 8, 9]) = .ok (count, h', b') ∧
      ∃ tail, Appended [2, 3, 4, 5, 6] tail h' b' ∧ tail.length ≤ 2 := by
  obtain ⟨⟨count, h', b'⟩, hread⟩ :
      ∃ r, firstBuffer.read 1 twoRings 4096 3 2 (some [7, 8, 9]) = .ok r := ⟨_, rfl⟩
  exact ⟨count, h', b', hread, (carries_firstBuffer.read_limit_iff 4096 3 2 [7, 8, 9]).mpr
    (Or.inr (Or.inl (by decide))) 1 count h' b' hread⟩

/-- A read of at most one byte into a new buffer, from a socket that has 4096: the block
allocated for the byte takes them all. -/
theorem read_exceeds_limit : ∃ h b, Buffer.new Heap.init = (h, b) ∧ Carries h b [0] [] [] ∧
    ∃ count h' b' tail,
      b.read 1 h 4096 4096 1 (some (List.replicate 4096 7)) = .ok (count, h', b') ∧
        Appended [] tail h' b' ∧ tail.length = 4096 := by
  obtain ⟨h, b, hnew, C, H, -, -, hnone⟩ := Buffer.new_spec Heap.init
  have S : Carries h b [0] [] [] := H.carries C (by decide)
  have hhand : atHand h b.cacheChain [] = [none] := by simp [atHand, hnone]
  have hcan : CanExpand h b.cacheChain [] (Buffer.request 4096 4096 1) :=
    ⟨none, [], hhand, by simp, by decide⟩
  obtain ⟨h₁, l₁, win₁, spare₁, -, hexp⟩ := C.fastExpand_of_canExpand hcan
  obtain ⟨count, h', b', hread, happ⟩ := S.read_takes (hexp 0) (List.replicate 4096 7)
  refine ⟨h, b, hnew, S, count, h', b', _, hread, happ, ?_⟩
  have hroom : roomFor (Buffer.request 4096 4096 1) [none] = 4096 := by decide
  rw [hhand, hroom, List.length_take, List.length_replicate, Nat.min_self]

end Read

end Hare.Net
