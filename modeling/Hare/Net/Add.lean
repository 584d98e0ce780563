import Hare.Net.Chain

/-!
# Adding to a chain

`Buffer.add` first makes sure that the write node has room.  It may reuse the block as it
is, step to a spare, or insert a node; a node stepped to always gets a new block.  Each of
these leaves the content alone and no empty block behind.  The remaining possibility, that
the block's content is moved to its front, ends outside the block.
-/

namespace Hare.Net

open LinkedRing LabelledRun

variable {h h' : Heap} {l l' : CacheList} {b : Buffer} {win spare win' spare' : List ℕ}
  {content bytes : List UInt8}

/-! ## Making room -/

/-- A chain survives another block for its write node. -/
theorem Chain.withCache {c : Cache} (C : Chain h l win spare) (hc : c.Valid) :
    Chain (h.withCache l.write c) l win spare := by
  refine C.recache ?_ ?_
  · intro p hp d hd
    by_cases hpw : p = l.write
    · simp only [hpw, Function.update_self, Option.some.injEq] at hd
      exact hd ▸ hc
    · rw [Function.update_of_ne hpw] at hd
      exact C.window.valid p hp d hd
  · intro p hp d hd
    have hpw : p ≠ l.write := by
      rintro rfl
      exact (List.nodup_append.mp C.nodup).2.2 _ C.window.write_mem _ hp rfl
    rw [Function.update_of_ne hpw] at hd
    exact C.cleared p hp d hd

/-- The content of a window ends with the bytes of the write node. -/
theorem Window.content_eq (W : Window h l win) :
    h.content win = h.content win.dropLast ++ h.readable l.write := by
  conv_lhs => rw [← List.dropLast_append_getLast? l.write W.last]
  simp

/-- Another block for the write node leaves the others alone. -/
theorem Window.cache_withCache {c : Cache} (W : Window h l win) {p : ℕ} (hp : p ∈ win.dropLast) :
    (h.withCache l.write c).cache p = h.cache p :=
  Function.update_of_ne (ne_of_mem_dropLast W.nodup W.last hp) _ _

/-- Another block for the write node changes the end of the content. -/
theorem Window.content_withCache {c : Cache} (W : Window h l win) :
    (h.withCache l.write c).content win = h.content win.dropLast ++ c.readable := by
  conv_lhs => rw [← List.dropLast_append_getLast? l.write W.last]
  rw [Heap.content_append, Heap.content_congr fun p hp => W.cache_withCache hp]
  simp [Heap.readable, Heap.withCache]

/-- The blocks at hand for new bytes: that of the node they go to, once it is vacant, and those
of the spares behind it. -/
def atHand (h : Heap) (l : CacheList) (spare : List ℕ) : List (Option Cache) :=
  if (h.cache l.write).all Cache.empty then (h.cache l.write).map Cache.clear :: spare.map h.cache
  else if spare = [] then [none] else spare.map h.cache

/-- The write node is vacant, and the window holds the same content without it.  The window is
the old one if its last block was empty, and else one node longer. -/
structure Vacated (h : Heap) (l : CacheList) (win spare : List ℕ) (h' : Heap) (l' : CacheList)
    (win' spare' : List ℕ) : Prop where
  chain : Chain h' l' win' spare'
  content : h'.content win' = h.content win
  size : ∀ c, h'.cache l'.write = some c → c.size = 0
  front : win' = win ∧ h.readable l.write = [] ∨
    win' = win ++ [l'.write] ∧ h.readable l.write ≠ []
  kept : ∀ p ∈ win'.dropLast, h'.cache p = h.cache p
  blocks : (l'.write :: spare').map h'.cache = atHand h l spare
  grows : win ++ spare ⊆ win' ++ spare'
  frame : Exchange h h' (win ++ spare) (win' ++ spare')
  head : l'.head = l.head

/-- The chain holds `bytes` behind its content.  Only its last node has another block, and it has
at most one node more, behind a block with content. -/
structure Grown (h : Heap) (l : CacheList) (win spare : List ℕ) (bytes : List UInt8) (h' : Heap)
    (l' : CacheList) (win' spare' : List ℕ) : Prop where
  chain : Chain h' l' win' spare'
  content : h'.content win' = h.content win ++ bytes
  front : win' = win ∨ win' = win ++ [l'.write] ∧ h.readable l.write ≠ []
  kept : ∀ p ∈ win'.dropLast, h'.cache p = h.cache p
  grows : win ++ spare ⊆ win' ++ spare'
  frame : Exchange h h' (win ++ spare) (win' ++ spare')
  head : l'.head = l.head

theorem Vacated.grown (V : Vacated h l win spare h' l' win' spare') :
    Grown h l win spare [] h' l' win' spare' :=
  ⟨V.chain, by rw [V.content, List.append_nil], V.front.imp And.left id, V.kept, V.grows, V.frame,
    V.head⟩

theorem Vacated.readable_write (V : Vacated h l win spare h' l' win' spare') :
    h'.readable l'.write = [] :=
  Heap.readable_of_size fun c hc =>
    ⟨V.chain.window.valid _ V.chain.window.write_mem c hc, V.size c hc⟩

namespace Grown

/-- The chain grows by what is put behind the bytes of the write node. -/
theorem withCache {c : Cache} {more : List UInt8} (G : Grown h l win spare bytes h' l' win' spare')
    (hc : c.Valid) (hread : c.readable = h'.readable l'.write ++ more) :
    Grown h l win spare (bytes ++ more) (h'.withCache l'.write c) l' win' spare' := by
  have W := G.chain.window
  refine ⟨G.chain.withCache hc, ?_, G.front, fun p hp => (W.cache_withCache hp).trans (G.kept p hp),
    G.grows, G.frame.trans
      (Exchange.of_withCache (fun p => G.chain.live_of_mem) G.chain.write_mem _), G.head⟩
  rw [W.content_withCache, hread, ← List.append_assoc, ← W.content_eq, G.content,
    List.append_assoc]

/-- The last node holds the bytes added, behind what it held if it is the old one. -/
theorem readable_write (G : Grown h l win spare bytes h' l' win' spare')
    (C : Chain h l win spare) :
    h'.readable l'.write = (if win' = win then h.readable l.write else []) ++ bytes := by
  have hcontent := G.content
  rw [G.chain.window.content_eq, Heap.content_congr G.kept] at hcontent
  rcases G.front with hwin | ⟨hwin, -⟩
  · rw [hwin, C.window.content_eq, List.append_assoc] at hcontent
    rw [if_pos hwin]
    exact List.append_cancel_left hcontent
  · rw [hwin, List.dropLast_concat] at hcontent
    rw [if_neg (by simp [hwin]), List.nil_append]
    exact List.append_cancel_left hcontent

/-- No block before the last one is empty, if none of several was. -/
theorem full (G : Grown h l win spare bytes h' l' win' spare') (C : Chain h l win spare)
    (hblocks : win = [l.write] ∨ ∀ p ∈ win, h.readable p ≠ []) (hnil : bytes = [] → win' = win) :
    win' = [l'.write] ∨ ∀ p ∈ win', h'.readable p ≠ [] := by
  have W := G.chain.window
  have hfront : ∀ p ∈ win'.dropLast, h'.readable p ≠ [] := by
    intro p hp
    rw [Heap.readable, G.kept p hp]
    rcases G.front with hwin | ⟨hwin, hread⟩
    · rw [hwin] at hp
      rcases hblocks with hone | hall
      · simp [hone] at hp
      · exact hall p (List.dropLast_subset win hp)
    · rw [hwin, List.dropLast_concat] at hp
      rcases hblocks with hone | hall
      · rw [hone, List.mem_singleton] at hp
        exact hp ▸ hread
      · exact hall p hp
  have hlast : win' = [l'.write] ∨ h'.readable l'.write ≠ [] := by
    rw [G.readable_write C]
    rcases eq_or_ne bytes [] with hb | hb
    · have hwin := hnil hb
      rw [if_pos hwin, hb, List.append_nil, hwin]
      refine hblocks.imp (fun hone => ?_) fun hall => hall _ C.window.write_mem
      have hw := W.last
      rw [hwin, hone, List.getLast?_singleton, Option.some.injEq] at hw
      rw [hone, hw]
    · exact Or.inr (by simp [hb])
  refine hlast.imp_right fun hne p hp => ?_
  rw [← List.dropLast_append_getLast? l'.write W.last, List.mem_append] at hp
  rcases hp with hp | hp
  · exact hfront p hp
  · rwa [List.mem_singleton.mp hp]

/-- Every node has a block, if the last one has and the others had. -/
theorem furnished (G : Grown h l win spare bytes h' l' win' spare') (C : Chain h l win spare)
    (hblocks : ∀ p ∈ win, p ≠ l.write → ∃ c, h.cache p = some c)
    (hlast : ∃ c, h'.cache l'.write = some c) : ∀ p ∈ win', ∃ c, h'.cache p = some c := by
  intro p hp
  rw [← List.dropLast_append_getLast? l'.write G.chain.window.last, List.mem_append] at hp
  rcases hp with hp | hp
  · rw [G.kept p hp]
    rcases G.front with hwin | ⟨hwin, hread⟩
    · rw [hwin] at hp
      exact hblocks p (List.dropLast_subset win hp)
        (ne_of_mem_dropLast C.window.nodup C.window.last hp)
    · rw [hwin, List.dropLast_concat] at hp
      by_cases hpw : p = l.write
      · exact hpw ▸ Heap.cache_of_readable hread
      · exact hblocks p hp hpw
  · rwa [List.mem_singleton.mp hp]

end Grown

namespace Chain

/-- A write node with content is not at hand. -/
theorem atHand_of_readable (C : Chain h l win spare) (hread : h.readable l.write ≠ []) :
    atHand h l spare = if spare = [] then [none] else spare.map h.cache := by
  rw [atHand, if_neg]
  intro hall
  cases hc : h.cache l.write with
  | none => simp [Heap.readable, hc] at hread
  | some c =>
      rw [hc, Option.all_some] at hall
      rw [Heap.readable_of_cache hc] at hread
      exact hread ((C.window.valid _ C.window.write_mem c hc).empty_iff.mp hall)

/-- Stepping to the first spare. -/
theorem vacated_step {s : ℕ} (C : Chain h l win (s :: spare)) (hread : h.readable l.write ≠ []) :
    Vacated h l win (s :: spare) h { l with write := s } (win ++ [s]) spare := by
  have hclear : h.readable s = [] := Heap.readable_of_size (C.cleared s List.mem_cons_self)
  have hassoc : win ++ s :: spare = win ++ [s] ++ spare := by simp
  have hvalid : ∀ p ∈ win ++ [s], ∀ c, h.cache p = some c → c.Valid := fun p hp c =>
    C.valid_of_mem (by rw [hassoc]; exact List.mem_append_left spare hp)
  refine ⟨C.resplit hassoc (by simp) hvalid fun p hp => C.cleared p (List.mem_cons_of_mem s hp),
    by simp [hclear], fun c hc => (C.cleared s List.mem_cons_self c hc).2, Or.inr ⟨rfl, hread⟩,
    fun _ _ => rfl, by simp [C.atHand_of_readable hread], by simp, ?_, rfl⟩
  rw [← hassoc]
  exact .same (fun p => C.live_of_mem) fun _ => Iff.rfl

/-- The heap after a node has been inserted behind `w`. -/
def insert (h : Heap) (w nx : ℕ) : Heap :=
  (((h.alloc.withNext h.brk nx).withPrev h.brk w).withPrev nx h.brk).withNext w h.brk

section Insert
variable {w nx p : ℕ}

theorem live_insert : (insert h w nx).live p = true ↔ h.live p = true ∨ p = h.brk :=
  Heap.live_alloc

theorem cache_insert (hp : p ≠ h.brk) : (insert h w nx).cache p = h.cache p := by
  simp [insert, Heap.withNext, Heap.withPrev, Heap.alloc, hp]

theorem cache_insert_self : (insert h w nx).cache h.brk = none := by
  simp [insert, Heap.withNext, Heap.withPrev, Heap.alloc]

/-- The new node joins a ring that holds both ends of the link it is put on. -/
theorem exchange_insert {ring : List ℕ} (hlive : ∀ p ∈ ring, h.live p = true) (hw : w ∈ ring)
    (hnx : nx ∈ ring) : Exchange h (insert h w nx) ring (ring ++ [h.brk]) := by
  refine ⟨?_, ?_, ?_, ?_, ?_, Nat.le_succ _⟩
  · intro p
    rw [live_insert, List.mem_append, List.mem_singleton]
    constructor
    · rintro (hp | hp)
      · by_cases hpr : p ∈ ring
        · exact Or.inr (Or.inl hpr)
        · exact Or.inl ⟨hp, hpr⟩
      · exact Or.inr (Or.inr hp)
    · rintro (⟨hp, -⟩ | hp | hp)
      · exact Or.inl hp
      · exact Or.inl (hlive p hp)
      · exact Or.inr hp
  · intro p hp
    rcases List.mem_append.mp hp with hp | hp
    · exact Or.inl hp
    · exact Or.inr (List.mem_singleton.mp hp).ge
  all_goals
    intro p hp hpr
    have hpb : p ≠ h.brk := (Heap.lt_brk hp).ne
    have hpw : p ≠ w := fun h => hpr (h ▸ hw)
    have hpn : p ≠ nx := fun h => hpr (h ▸ hnx)
    simp [insert, Heap.withNext, Heap.withPrev, Heap.alloc, hpb, hpw, hpn]

end Insert

/-- Inserting a node when there is no spare. -/
theorem vacated_insert (C : Chain h l win []) (hread : h.readable l.write ≠ []) :
    Vacated h l win [] (insert h l.write (h.next l.write))
      { l with write := h.brk, nodeSize := l.nodeSize + 1 } (win ++ [h.brk]) [] := by
  have hring := C.ring
  rw [List.append_nil] at hring
  have hlt : ∀ p ∈ win, p ≠ h.brk := fun p hp => (Heap.lt_brk (C.window.live p hp)).ne
  have hring' : Ring (insert h l.write (h.next l.write)).next
      (insert h l.write (h.next l.write)).prev (win ++ [h.brk]) :=
    hring.insertLast C.window.last fun hm => hlt _ hm rfl
  have hmem : ∀ p ∈ win ++ [h.brk], p ∈ win ∨ p = h.brk := fun p hp => by simpa using hp
  refine ⟨⟨⟨?_, by simp, hring'.nodup, hring'.linked, ?_, ?_⟩, by simpa using hring', by simp,
    by simp, ?_⟩, ?_, by simp [cache_insert_self],
    Or.inr ⟨rfl, hread⟩, fun p hp => cache_insert (hlt p (by simpa using hp)),
    by simp [cache_insert_self, C.atHand_of_readable hread], by simp, ?_, rfl⟩
  · rw [List.head?_append, C.window.first]
    rfl
  · intro p hp
    exact live_insert.mpr ((hmem p hp).imp_left (C.window.live p))
  · intro p hp c hc
    rcases hmem p hp with hp | rfl
    · rw [cache_insert (hlt p hp)] at hc
      exact C.window.valid p hp c hc
    · rw [cache_insert_self] at hc
      cases hc
  · have hcount := C.count
    simp only [List.append_nil] at hcount
    simp [hcount]
  · rw [Heap.content_append, Heap.content_congr fun p hp => cache_insert (hlt p hp)]
    simp [Heap.readable, cache_insert_self]
  · have hnext : h.next l.write ∈ win := by
      rw [hring.next_last C.window.last C.window.first]
      exact C.window.read_mem
    rw [List.append_nil, List.append_nil]
    exact exchange_insert C.window.live C.window.write_mem hnext

/-- Clearing a write block without content. -/
theorem vacated_clear {c : Cache} (C : Chain h l win spare) (hc : h.cache l.write = some c)
    (hempty : c.empty = true) :
    Vacated h l win spare (h.withCache l.write c.clear) l win spare := by
  have W := C.window
  have hv := W.valid l.write W.write_mem c hc
  have hread := Heap.readable_of_cache hc
  rw [hv.empty_iff.mp hempty] at hread
  have hnew : (h.withCache l.write c.clear).cache l.write = some c.clear := by
    simp [Heap.withCache]
  have hspare : spare.map (h.withCache l.write c.clear).cache = spare.map h.cache := by
    refine List.map_congr_left fun p hp => ?_
    have hpw : p ≠ l.write := by
      rintro rfl
      exact (List.nodup_append.mp C.nodup).2.2 _ W.write_mem _ hp rfl
    simp [Heap.withCache, hpw]
  refine ⟨C.withCache (Cache.valid_clear hv), ?_, ?_, Or.inl ⟨rfl, hread⟩,
    fun p hp => W.cache_withCache hp, ?_, List.Subset.refl _,
    Exchange.of_withCache (fun p => C.live_of_mem) C.write_mem _, rfl⟩
  · rw [W.content_withCache, W.content_eq, hread, Cache.readable_clear hv]
  · intro d hd
    rw [hnew] at hd
    cases hd
    rfl
  · simp [atHand, hc, hempty, hnew, hspare]

/-- A write node without a block is vacant. -/
theorem vacated_none (C : Chain h l win spare) (hc : h.cache l.write = none) :
    Vacated h l win spare h l win spare := by
  have hread : h.readable l.write = [] := by simp [Heap.readable, hc]
  exact ⟨C, rfl, by simp [hc], Or.inl ⟨rfl, hread⟩, fun _ _ => rfl, by simp [atHand, hc],
    List.Subset.refl _, .same (fun p => C.live_of_mem) fun _ => Iff.rfl, rfl⟩

/-- **Finding a node to write to**, in any chain. -/
theorem getNextWrite_vacated (C : Chain h l win spare) :
    ∃ h' l' win' spare', l.getNextWrite h = .ok (h', l') ∧
      Vacated h l win spare h' l' win' spare' := by
  have hw := C.window.live l.write C.window.write_mem
  rw [CacheList.getNextWrite, Heap.getCache_of_live hw]
  cases hc : h.cache l.write with
  | none => exact ⟨h, l, win, spare, rfl, C.vacated_none hc⟩
  | some c =>
      have hnext := C.next_write
      by_cases hempty : c.empty = true
      · refine ⟨_, l, win, spare, ?_, C.vacated_clear hc hempty⟩
        simp [hempty, Heap.setCache_of_live hw]
      · have hread : h.readable l.write ≠ [] := by
          rw [Heap.readable_of_cache hc]
          exact fun h => hempty
            ((C.window.valid l.write C.window.write_mem c hc).empty_iff.mpr h)
        cases spare with
        | nil =>
            simp only [List.nil_append, List.head?_cons, Option.some.injEq] at hnext
            have hr := C.window.live l.read C.window.read_mem
            have hrb : l.read ≠ h.brk := (Heap.lt_brk hr).ne
            have hwb : l.write ≠ h.brk := (Heap.lt_brk hw).ne
            refine ⟨_, _, _, _, ?_, C.vacated_insert hread⟩
            simp [hempty, ← hnext, Heap.setNext, Heap.setPrev, Heap.deref,
              Heap.alloc, Heap.withNext, Heap.withPrev, hrb, hwb, hr, hw, Heap.getNext, insert,
              hrb.symm]
        | cons s spare =>
            simp only [List.cons_append, List.head?_cons, Option.some.injEq] at hnext
            have hsr : s ≠ l.read := by
              rintro rfl
              exact (List.nodup_append.mp C.nodup).2.2 _ C.window.read_mem _
                List.mem_cons_self rfl
            refine ⟨_, _, _, _, ?_, C.vacated_step hread⟩
            simp [hempty, Heap.getNext_of_live hw, ← hnext, hsr]

end Chain

/-- A vacant node takes a new block of sufficient size. -/
theorem Vacated.resetCache {n : ℕ} (V : Vacated h l win spare h' l' win' spare')
    (hn : n ≤ ptrdiffMax) :
    ∃ h'' c, l'.resetCache h' n = .ok (h'', l') ∧
      Grown h l win spare [] h'' l' win' spare' ∧ h''.cache l'.write = some c ∧
      n ≤ c.writeableSize := by
  have hfits := roundUp_le hn
  have hv := Cache.valid_new hfits
  have hw := V.chain.window.live l'.write V.chain.window.write_mem
  refine ⟨h'.withCache l'.write ⟨List.replicate (roundUp n) 0, 0, roundUp n, 0⟩, _, ?_,
    V.grown.withCache hv (by rw [V.readable_write, hv.readable_eq]; simp),
    Function.update_self _ _ _, ?_⟩
  · simp [CacheList.resetCache, Cache.new_eq hfits, Heap.setCache_of_live hw]
  · rw [hv.writeableSize_eq]
    exact le_roundUp n

/-- **Making room** for a request that does not slide a block. -/
theorem Chain.checkSize_spec {n : ℕ} (C : Chain h l win spare) (hn : n ≤ ptrdiffMax)
    (hslide : ∀ c, h.cache l.write = some c → ¬ c.Slides n) :
    ∃ h' l' win' spare' c, l.checkSize h n = .ok (h', l') ∧
      Grown h l win spare [] h' l' win' spare' ∧ h'.cache l'.write = some c ∧
      n ≤ c.writeableSize ∧ (n = 0 → win' = win) ∧
      (h.cache l.write = none → win' = win ∧ spare' = spare) := by
  have hw := C.window.live l.write C.window.write_mem
  rw [CacheList.checkSize, Heap.getCache_of_live hw]
  cases hc : h.cache l.write with
  | none =>
      obtain ⟨h', c, hrun, G, hcache, hroom⟩ := (C.vacated_none hc).resetCache hn
      exact ⟨h', l, win, spare, c, by simpa using hrun, G, hcache, hroom, fun _ => rfl,
        fun _ => ⟨rfl, rfl⟩⟩
  | some c =>
      have hself : h.withCache l.write c = h := by
        simp [Heap.withCache, ← hc]
      by_cases hle : n ≤ c.writeableSize
      · refine ⟨h, l, win, spare, c, ?_, ⟨C, by simp, Or.inl rfl, fun _ _ => rfl,
          List.Subset.refl _, .same (fun p => C.live_of_mem) fun _ => Iff.rfl, rfl⟩, hc, hle,
          fun _ => rfl, by simp⟩
        simp [Cache.realign_of_le hle, Heap.setCache_of_live hw, hself]
      · obtain ⟨h', l', win', spare', hrun, V⟩ := C.getNextWrite_vacated
        obtain ⟨h'', d, hreset, G, hcache, hroom⟩ := V.resetCache hn
        have hw' := V.chain.window.live l'.write V.chain.window.write_mem
        refine ⟨h'', l', win', spare', d, ?_, G, hcache, hroom, by omega, by simp⟩
        simp only [ok_bind, Cache.realign_of_not_slides hle (hslide c hc),
          Heap.setCache_of_live hw, hself, hrun, Heap.getCache_of_live hw']
        cases hd : h'.cache l'.write with
        | none => simpa using hreset
        | some d =>
            have hsize := V.size d hd
            have hlt : d.size < n := by omega
            simpa [hlt] using hreset

/-! ## Adding -/

/-- **Adding** bytes within the cap to any chain, in a call that does not slide a block. -/
theorem Chain.add_grown (C : Chain h b.cacheChain win spare) (hfits : bytes.length ≤ ptrdiffMax)
    (hcap : (b.totalLen + bytes.length) % 2 ^ 64 ≤ maxSize)
    (hslide : ∀ c, h.cache b.cacheChain.write = some c → ¬ c.Slides bytes.length) :
    ∃ h' l' win' spare',
      b.add h bytes = .ok (true, h', ⟨l', (b.totalLen + bytes.length) % 2 ^ 64⟩) ∧
      Grown h b.cacheChain win spare bytes h' l' win' spare' ∧
      (∃ c, h'.cache l'.write = some c) ∧ (bytes = [] → win' = win) ∧
      (h.cache b.cacheChain.write = none → win' = win ∧ spare' = spare) := by
  obtain ⟨h₁, l₁, win₁, spare₁, c, hcheck, G, hc, hroom, hstill, hsame⟩ :=
    C.checkSize_spec hfits hslide
  have W := G.chain.window
  have hw := W.live l₁.write W.write_mem
  obtain ⟨c', happend, hv', hread⟩ := Cache.append_spec (W.valid _ W.write_mem c hc) hroom
  refine ⟨h₁.withCache l₁.write c', l₁, win₁, spare₁, ?_,
    G.withCache hv' (by rw [hread, Heap.readable_of_cache hc]), ⟨c', Function.update_self _ _ _⟩,
    fun hnil => hstill (by rw [hnil, List.length_nil]), hsame⟩
  rw [Buffer.add, if_neg (by omega)]
  simp only [hcheck, ok_bind, Heap.block_of_cache hw hc, happend, Heap.setCache_of_live hw]
  rfl

/-- Adding to a buffer without empty blocks leaves none. -/
theorem Holds.add_spec (H : Holds h b win content) (C : Chain h b.cacheChain win spare)
    (hfits : bytes.length ≤ ptrdiffMax)
    (hcap : (b.totalLen + bytes.length) % 2 ^ 64 ≤ maxSize)
    (hslide : ∀ c, h.cache b.cacheChain.write = some c → ¬ c.Slides bytes.length) :
    ∃ h' b' win' spare', b.add h bytes = .ok (true, h', b') ∧
      Holds h' b' win' (content ++ bytes) ∧ Chain h' b'.cacheChain win' spare' ∧
      Exchange h h' (win ++ spare) (win' ++ spare') ∧ win ++ spare ⊆ win' ++ spare' ∧
      b'.cacheChain.head = b.cacheChain.head ∧
      (h.cache b.cacheChain.write = none → win' = win ∧ spare' = spare) := by
  obtain ⟨h', l', win', spare', hrun, G, -, hnil, hsame⟩ := C.add_grown hfits hcap hslide
  refine ⟨h', _, win', spare', hrun, ⟨G.chain.window, ?_, ?_, G.full C H.blocks hnil⟩, G.chain,
    G.frame, G.grows, G.head, hsame⟩
  · rw [G.content, H.content_eq]
  · rw [List.length_append, H.size_eq, Nat.mod_add_mod]

/-- An addition over the cap is refused. -/
theorem Buffer.add_refused (hcap : ¬ (b.totalLen + bytes.length) % 2 ^ 64 ≤ maxSize) :
    b.add h bytes = .ok (false, h, b) := by
  rw [Buffer.add, if_pos (by omega)]

/-- **An addition that slides a block overruns it.** -/
theorem Holds.add_of_slides {c : Cache} (H : Holds h b win content)
    (hcap : (b.totalLen + bytes.length) % 2 ^ 64 ≤ maxSize)
    (hc : h.cache b.cacheChain.write = some c) (hslide : c.Slides bytes.length) :
    b.add h bytes = .error .outOfBounds := by
  have W := H.window
  have hw := W.live _ W.write_mem
  have hv := W.valid _ W.write_mem c hc
  have hfst : (c.realign bytes.length).1 = true := by simp only [Cache.realign_of_slides hslide]
  have happend := Cache.append_realign_of_slides hv hslide
  have hblock : (h.withCache b.cacheChain.write (c.realign bytes.length).2).block
      b.cacheChain.write = .ok (c.realign bytes.length).2 :=
    Heap.block_of_cache hw (by simp [Heap.withCache])
  rw [Buffer.add, if_neg (by omega), CacheList.checkSize, Heap.getCache_of_live hw, hc]
  simp only [ok_bind, Heap.setCache_of_live hw, hfst, if_true, pure_eq_ok, hblock, happend,
    error_bind]

end Hare.Net
