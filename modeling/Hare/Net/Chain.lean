import Hare.Lib.Ownership
import Hare.Net.Drain

/-!
# Closed chains

A `Chain` is a window together with the spares that close it into a ring.  Every operation
on a buffer exchanges the nodes of its ring for others, and leaves the rest of the heap
alone (`Exchange`); so the chains of other buffers survive it.

## Main definitions

* `Chain`: the ring of a list, split into window and spares.
* `OwnsRing`: what is observed of it from outside.
* `Holds`: a buffer holds a content in the blocks of its window, none of them empty.
* `Carries`: the same with exact counts, where blocks may be empty.
* `Exchange`: the frame of an operation.
* `Buffer.new_spec`: a new buffer.
-/

namespace Hare.Net

open LinkedRing LabelledRun Ownership

/-- The nodes of a list: the window, then the spares, in ring order. -/
structure Chain (h : Heap) (l : CacheList) (win spare : List ℕ) : Prop where
  window : Window h l win
  ring : Ring h.next h.prev (win ++ spare)
  live : ∀ p ∈ spare, h.live p = true
  cleared : ∀ p ∈ spare, ∀ c, h.cache p = some c → c.Valid ∧ c.size = 0
  count : l.nodeSize = (win ++ spare).length

/-- `head`, `read` and `write` are on one ring of live nodes, as many as counted. -/
structure OwnsRing (h : Heap) (l : CacheList) (ns : List ℕ) : Prop where
  ring : Ring h.next h.prev ns
  live : ∀ p ∈ ns, h.live p = true
  head : l.head ∈ ns
  read : l.read ∈ ns
  write : l.write ∈ ns
  count : l.nodeSize = ns.length

/-- The buffer holds `content` in the blocks of its window.  No block of the window is
empty, unless it is the only one. -/
structure Holds (h : Heap) (b : Buffer) (win : List ℕ) (content : List UInt8) : Prop where
  window : Window h b.cacheChain win
  content_eq : h.content win = content
  size_eq : b.totalLen = content.length % 2 ^ 64
  blocks : win = [b.cacheChain.write] ∨ ∀ p ∈ win, h.readable p ≠ []

/-- The buffer carries `content` in a closed chain, counted exactly.  Blocks of the window may
be empty; only the write node of an empty buffer may be without one. -/
structure Carries (h : Heap) (b : Buffer) (win spare : List ℕ) (content : List UInt8) : Prop where
  chain : Chain h b.cacheChain win spare
  content_eq : h.content win = content
  size_eq : b.totalLen = content.length
  blocks : ∀ p ∈ win, p ≠ b.cacheChain.write ∨ content ≠ [] → ∃ c, h.cache p = some c

/-- The nodes `ring` are given up for the nodes `ring'`, some of them new; nothing else
changes. -/
structure Exchange (h h' : Heap) (ring ring' : List ℕ) : Prop where
  live : ∀ p, h'.live p = true ↔ h.live p = true ∧ p ∉ ring ∨ p ∈ ring'
  fresh : ∀ p ∈ ring', p ∈ ring ∨ h.brk ≤ p
  next : ∀ p, h.live p = true → p ∉ ring → h'.next p = h.next p
  prev : ∀ p, h.live p = true → p ∉ ring → h'.prev p = h.prev p
  cache : ∀ p, h.live p = true → p ∉ ring → h'.cache p = h.cache p
  brk : h.brk ≤ h'.brk

variable {h h' h'' : Heap} {l l' : CacheList} {b : Buffer} {win spare ring ring' : List ℕ}
  {content : List UInt8} {p : ℕ} {f : ℕ → Option Cache}

namespace Exchange

/-- What is live and not given up is not taken either. -/
theorem not_mem (E : Exchange h h' ring ring') (hp : h.live p = true) (hr : p ∉ ring) :
    p ∉ ring' := by
  intro hp'
  rcases E.fresh p hp' with h₁ | h₁
  · exact hr h₁
  · rw [h.fresh p h₁] at hp
    cases hp

theorem live_of_not_mem (E : Exchange h h' ring ring') (hp : h.live p = true)
    (hr : p ∉ ring) : h'.live p = true :=
  (E.live p).mpr (Or.inl ⟨hp, hr⟩)

theorem trans {ring'' : List ℕ} (E : Exchange h h' ring ring') (F : Exchange h' h'' ring' ring'') :
    Exchange h h'' ring ring'' where
  live p := by
    rw [F.live, E.live]
    constructor
    · rintro (⟨⟨hp, hr⟩ | hp, hr'⟩ | hp)
      · exact Or.inl ⟨hp, hr⟩
      · exact absurd hp hr'
      · exact Or.inr hp
    · rintro (⟨hp, hr⟩ | hp)
      · exact Or.inl ⟨Or.inl ⟨hp, hr⟩, E.not_mem hp hr⟩
      · exact Or.inr hp
  fresh p hp := by
    rcases F.fresh p hp with h₁ | h₁
    · exact E.fresh p h₁
    · exact Or.inr (E.brk.trans h₁)
  next p hp hr := by rw [F.next p (E.live_of_not_mem hp hr) (E.not_mem hp hr), E.next p hp hr]
  prev p hp hr := by rw [F.prev p (E.live_of_not_mem hp hr) (E.not_mem hp hr), E.prev p hp hr]
  cache p hp hr := by rw [F.cache p (E.live_of_not_mem hp hr) (E.not_mem hp hr), E.cache p hp hr]
  brk := E.brk.trans F.brk

/-- Nodes of the ring are deleted, and the others change their blocks and links. -/
theorem of_dead (dead : List ℕ) (hlive : ∀ p, h'.live p = true ↔ h.live p = true ∧ p ∉ dead)
    (hring : ∀ p ∈ ring, h.live p = true) (hdead : ∀ p ∈ dead, p ∈ ring)
    (hleft : ∀ p, p ∈ ring' ↔ p ∈ ring ∧ p ∉ dead)
    (hn : ∀ p, p ∉ ring → h'.next p = h.next p) (hp : ∀ p, p ∉ ring → h'.prev p = h.prev p)
    (hc : ∀ p, p ∉ ring → h'.cache p = h.cache p) (hb : h'.brk = h.brk) :
    Exchange h h' ring ring' where
  live p := by
    rw [hlive, hleft]
    constructor
    · rintro ⟨hp, hd⟩
      by_cases hr : p ∈ ring
      · exact Or.inr ⟨hr, hd⟩
      · exact Or.inl ⟨hp, hr⟩
    · rintro (⟨hp, hr⟩ | ⟨hr, hd⟩)
      · exact ⟨hp, fun hd => hr (hdead p hd)⟩
      · exact ⟨hring p hr, hd⟩
  fresh p hp := Or.inl ((hleft p).mp hp).1
  next p _ := hn p
  prev p _ := hp p
  cache p _ := hc p
  brk := hb.ge

/-- A change of blocks and links within the ring. -/
theorem of_same_live (hlive : h'.live = h.live) (hring : ∀ p ∈ ring, h.live p = true)
    (hn : ∀ p, p ∉ ring → h'.next p = h.next p) (hp : ∀ p, p ∉ ring → h'.prev p = h.prev p)
    (hc : ∀ p, p ∉ ring → h'.cache p = h.cache p) (hb : h'.brk = h.brk)
    (hperm : ∀ p, p ∈ ring' ↔ p ∈ ring) : Exchange h h' ring ring' :=
  of_dead [] (by simp [hlive]) hring (by simp) (by simpa using hperm) hn hp hc hb

/-- Nothing is exchanged. -/
theorem same (hring : ∀ p ∈ ring, h.live p = true) (hperm : ∀ p, p ∈ ring' ↔ p ∈ ring) :
    Exchange h h ring ring' :=
  of_same_live rfl hring (fun _ _ => rfl) (fun _ _ => rfl) (fun _ _ => rfl) rfl hperm

/-- Other blocks for the nodes of the ring. -/
theorem recache (hring : ∀ p ∈ ring, h.live p = true)
    (hf : ∀ p, p ∉ ring → f p = h.cache p) : Exchange h { h with cache := f } ring ring :=
  of_same_live rfl hring (fun _ _ => rfl) (fun _ _ => rfl) hf rfl fun _ => Iff.rfl

/-- Another block for a node of the ring. -/
theorem of_withCache (hring : ∀ p ∈ ring, h.live p = true) (hp : p ∈ ring) (c : Cache) :
    Exchange h (h.withCache p c) ring ring :=
  recache hring fun _ hq => Function.update_of_ne (ne_of_mem_of_not_mem hp hq).symm _ _

/-- The nodes given are traded for those taken. -/
theorem traded (E : Exchange h h' ring ring') :
    Traded {p | h.live p = true} {p | h'.live p = true} {p | p ∈ ring} {p | p ∈ ring'} where
  live_iff := E.live
  fresh p hp := (E.fresh p hp).imp_right fun hbrk => by simp [h.fresh p hbrk]

section Owned
variable {ι : Type*} [DecidableEq ι] {rings : ι → List ℕ} {i j : ι} {taken taken' : List ℕ}

theorem setOf_update (rings : ι → List ℕ) (i : ι) (taken : List ℕ) :
    (fun k => {p | p ∈ Function.update rings i taken k}) =
      Function.update (fun k => {p | p ∈ rings k}) i {p | p ∈ taken} :=
  Function.comp_update (fun r : List ℕ => {p | p ∈ r}) rings i taken

/-- Every node is on one ring still, after one ring has been exchanged. -/
theorem owned (E : Exchange h h' (rings i) taken)
    (O : Owned {p | h.live p = true} fun i => {p | p ∈ rings i}) :
    Owned {p | h'.live p = true} fun k => {p | p ∈ Function.update rings i taken k} := by
  rw [setOf_update]
  exact O.update E.traded

/-- The same for two rings. -/
theorem owned_two (hij : i ≠ j) (E : Exchange h h' (rings i ++ rings j) (taken ++ taken'))
    (O : Owned {p | h.live p = true} fun i => {p | p ∈ rings i}) (hdis : ∀ p ∈ taken, p ∉ taken') :
    Owned {p | h'.live p = true} fun k =>
      {p | p ∈ Function.update (Function.update rings i taken) j taken' k} := by
  have hunion (u v : List ℕ) : {p | p ∈ u ++ v} = {p | p ∈ u} ∪ {p | p ∈ v} := by
    ext p
    simp
  have T := E.traded
  rw [hunion, hunion] at T
  rw [setOf_update, setOf_update]
  exact O.update_two hij T hdis

end Owned

/-- Nodes that are not touched may be counted in. -/
theorem frame_left {ks : List ℕ} (E : Exchange h h' [] ring') (hks : ∀ p ∈ ks, h.live p = true) :
    Exchange h h' ks (ks ++ ring') where
  live p := by
    rw [E.live, List.mem_append]
    constructor
    · rintro (⟨hp, -⟩ | hp)
      · by_cases hk : p ∈ ks
        · exact Or.inr (Or.inl hk)
        · exact Or.inl ⟨hp, hk⟩
      · exact Or.inr (Or.inr hp)
    · rintro (⟨hp, -⟩ | hk | hp)
      · exact Or.inl ⟨hp, by simp⟩
      · exact Or.inl ⟨hks p hk, by simp⟩
      · exact Or.inr hp
  fresh p hp := (List.mem_append.mp hp).imp_right fun hp' =>
    (E.fresh p hp').resolve_left (by simp)
  next p hp _ := E.next p hp (by simp)
  prev p hp _ := E.prev p hp (by simp)
  cache p hp _ := E.cache p hp (by simp)
  brk := E.brk

/-- An exchange that gives up no node takes in the nodes that are new. -/
theorem exists_new (E : Exchange h h' ring ring') (hring : ∀ p ∈ ring, h.live p = true)
    (hsub : ring ⊆ ring') (hd : ring.Nodup) (hd' : ring'.Nodup) :
    ∃ new : List ℕ, new.Nodup ∧ (∀ p, p ∈ new ↔ h'.live p = true ∧ h.live p = false) ∧
      ring'.length = ring.length + new.length := by
  refine ⟨ring'.filter (· ∉ ring), hd'.filter _, fun p => ?_, ?_⟩
  · rw [List.mem_filter, decide_eq_true_iff, E.live]
    constructor
    · rintro ⟨hp, hnot⟩
      exact ⟨Or.inr hp, h.fresh p ((E.fresh p hp).resolve_left hnot)⟩
    · rintro ⟨⟨hp, -⟩ | hp, hdead⟩
      · rw [hp] at hdead
        cases hdead
      · refine ⟨hp, fun hr => ?_⟩
        rw [hring p hr] at hdead
        cases hdead
  · have hold : (ring'.filter (· ∈ ring)).Perm ring := by
      refine (List.perm_ext_iff_of_nodup (hd'.filter _) hd).mpr fun p => ?_
      simpa using fun hp => hsub hp
    rw [← hold.length_eq, List.length_eq_length_filter_add (fun p => decide (p ∈ ring))]
    simp

end Exchange

namespace Chain

theorem nodup (C : Chain h l win spare) : (win ++ spare).Nodup := C.ring.nodup

theorem live_of_mem (C : Chain h l win spare) (hp : p ∈ win ++ spare) :
    h.live p = true := by
  rcases List.mem_append.mp hp with hp | hp
  · exact C.window.live p hp
  · exact C.live p hp

theorem valid_of_mem (C : Chain h l win spare) (hp : p ∈ win ++ spare) {c : Cache}
    (hc : h.cache p = some c) : c.Valid := by
  rcases List.mem_append.mp hp with hp | hp
  · exact C.window.valid p hp c hc
  · exact (C.cleared p hp c hc).1

theorem write_mem (C : Chain h l win spare) : l.write ∈ win ++ spare :=
  List.mem_append_left spare C.window.write_mem

theorem read_mem (C : Chain h l win spare) : l.read ∈ win ++ spare :=
  List.mem_append_left spare C.window.read_mem

theorem ownsRing (C : Chain h l win spare) (hhead : l.head ∈ win ++ spare) :
    OwnsRing h l (win ++ spare) :=
  ⟨C.ring, fun _ => C.live_of_mem, hhead, C.read_mem, C.write_mem, C.count⟩

/-- The successor of `write` is the first spare, or `read` when there is none. -/
theorem next_write (C : Chain h l win spare) :
    (spare ++ [l.read]).head? = some (h.next l.write) := by
  cases spare with
  | nil =>
      have hring := C.ring
      rw [List.append_nil] at hring
      simp [hring.next_last C.window.last C.window.first]
  | cons s spare =>
      obtain ⟨-, -, hlink, -⟩ := C.ring.split (List.ne_nil_of_mem C.window.write_mem) (by simp)
      simp [(hlink l.write C.window.last s rfl).1]

/-- The write node is followed by the first one exactly when there are no spares. -/
theorem spare_eq_nil_iff (C : Chain h l win spare) :
    spare = [] ↔ h.next l.write = l.read := by
  have hhead := C.next_write
  cases spare with
  | nil => simpa using hhead.symm
  | cons q qs =>
      rw [List.cons_append, List.head?_cons, Option.some.injEq] at hhead
      refine iff_of_false (List.cons_ne_nil q qs) fun hnext => ?_
      exact absurd rfl ((List.nodup_append.mp C.nodup).2.2 _ C.window.read_mem l.read
        (by simp [hhead, hnext]))

/-- A chain survives any exchange of other nodes. -/
theorem frame (C : Chain h l win spare) (E : Exchange h h' ring ring')
    (hdis : ∀ p ∈ win ++ spare, p ∉ ring) : Chain h' l win spare where
  window := C.window.congr
    (fun p hp => E.live_of_not_mem (C.window.live p hp) (hdis p (List.mem_append_left spare hp)))
    (fun p hp => E.next p (C.window.live p hp) (hdis p (List.mem_append_left spare hp)))
    (fun p hp => E.prev p (C.window.live p hp) (hdis p (List.mem_append_left spare hp)))
    (fun p hp => E.cache p (C.window.live p hp) (hdis p (List.mem_append_left spare hp)))
  ring := C.ring.congr (fun p hp => E.next p (C.live_of_mem hp) (hdis p hp))
    (fun p hp => E.prev p (C.live_of_mem hp) (hdis p hp))
  live p hp := E.live_of_not_mem (C.live p hp) (hdis p (List.mem_append_right win hp))
  cleared p hp c hc := by
    rw [E.cache p (C.live p hp) (hdis p (List.mem_append_right win hp))] at hc
    exact C.cleared p hp c hc
  count := C.count

/-- A chain survives other blocks, as long as those of the spares are clear. -/
theorem recache (C : Chain h l win spare)
    (hwin : ∀ p ∈ win, ∀ c, f p = some c → c.Valid)
    (hspare : ∀ p ∈ spare, ∀ c, f p = some c → c.Valid ∧ c.size = 0) :
    Chain { h with cache := f } l win spare where
  window := ⟨C.window.first, C.window.last, C.window.nodup, C.window.linked, C.window.live, hwin⟩
  ring := C.ring
  live := C.live
  cleared := hspare
  count := C.count

/-- The ring may be split into window and spares at another node, with other blocks. -/
theorem resplit (C : Chain h l win spare) {win' spare' : List ℕ} {w : ℕ}
    (hsplit : win ++ spare = win' ++ spare') (hw : win'.getLast? = some w)
    (hwin : ∀ p ∈ win', ∀ c, f p = some c → c.Valid)
    (hspare : ∀ p ∈ spare', ∀ c, f p = some c → c.Valid ∧ c.size = 0) :
    Chain { h with cache := f } { l with write := w } win' spare' := by
  have hring := C.ring
  rw [hsplit] at hring
  have hlive : ∀ p ∈ win' ++ spare', h.live p = true := fun p hp => C.live_of_mem (hsplit ▸ hp)
  refine ⟨⟨?_, hw, (List.nodup_append.mp hring.nodup).1, (linked_append.mp hring.linked).1,
    fun p hp => hlive p (List.mem_append_left _ hp), hwin⟩, hring,
    fun p hp => hlive p (List.mem_append_right _ hp), hspare, ?_⟩
  · have hhead := congrArg List.head? hsplit
    rw [List.head?_append, List.head?_append, C.window.first] at hhead
    cases win' with
    | nil => simp at hw
    | cons r win' => exact hhead.symm
  · rw [← hsplit]
    exact C.count

end Chain

theorem Heap.cache_of_readable (hread : h.readable p ≠ []) : ∃ c, h.cache p = some c := by
  cases hc : h.cache p with
  | some c => exact ⟨c, rfl⟩
  | none => simp [Heap.readable, hc] at hread

namespace Holds

theorem size_le (H : Holds h b win content) : b.totalLen ≤ content.length := by
  rw [H.size_eq]
  exact Nat.mod_le _ _

theorem ne_nil_of_size (H : Holds h b win content) (hsize : b.totalLen ≠ 0) : content ≠ [] := by
  rintro rfl
  exact hsize H.size_eq

/-- A content survives any exchange of nodes outside its window. -/
theorem frame (H : Holds h b win content) (E : Exchange h h' ring ring')
    (hdis : ∀ p ∈ win, p ∉ ring) : Holds h' b win content := by
  have hcache : ∀ p ∈ win, h'.cache p = h.cache p := fun p hp =>
    E.cache p (H.window.live p hp) (hdis p hp)
  refine ⟨H.window.congr (fun p hp => E.live_of_not_mem (H.window.live p hp) (hdis p hp))
    (fun p hp => E.next p (H.window.live p hp) (hdis p hp))
    (fun p hp => E.prev p (H.window.live p hp) (hdis p hp)) hcache, ?_, H.size_eq, ?_⟩
  · rw [Heap.content_congr hcache, H.content_eq]
  · refine H.blocks.imp_right fun hne p hp => ?_
    rw [Heap.readable, hcache p hp]
    exact hne p hp

/-- With content, no block of the window is empty. -/
theorem readable_ne (H : Holds h b win content) (hne : content ≠ []) (hp : p ∈ win) :
    h.readable p ≠ [] := by
  rcases H.blocks with hw | hall
  · have hcont := H.content_eq
    rw [hw] at hcont hp
    rw [List.mem_singleton.mp hp]
    simpa [← hcont] using hne
  · exact hall p hp

/-- With content, every node of the window has a block. -/
theorem block (H : Holds h b win content) (hne : content ≠ []) (hp : p ∈ win) :
    ∃ c, h.cache p = some c :=
  Heap.cache_of_readable (H.readable_ne hne hp)

/-- A content that is not too long is counted exactly. -/
theorem carries (H : Holds h b win content) (C : Chain h b.cacheChain win spare)
    (hlen : content.length < 2 ^ 64) : Carries h b win spare content where
  chain := C
  content_eq := H.content_eq
  size_eq := by rw [H.size_eq, Nat.mod_eq_of_lt hlen]
  blocks p hp hor := by
    rcases hor with hp' | hne
    · rcases H.blocks with hw | hall
      · rw [hw] at hp
        exact absurd (List.mem_singleton.mp hp) hp'
      · exact Heap.cache_of_readable (hall p hp)
    · exact H.block hne hp

end Holds

/-! ## A new chain -/

theorem Heap.live_alloc : h.alloc.live p = true ↔ h.live p = true ∨ p = h.brk := by
  by_cases hp : p = h.brk <;> simp [Heap.alloc, hp]

/-- A new chain: one node without a block. -/
theorem CacheList.new_spec (h : Heap) :
    ∃ h', CacheList.new h = (h', ⟨h.brk, h.brk, h.brk, 1⟩) ∧
      Chain h' ⟨h.brk, h.brk, h.brk, 1⟩ [h.brk] [] ∧ h'.cache h.brk = none ∧
      Exchange h h' [] [h.brk] := by
  have hcache : ((h.alloc.withNext h.brk h.brk).withPrev h.brk h.brk).cache h.brk = none := by
    simp [Heap.alloc, Heap.withNext, Heap.withPrev]
  have hlive : ∀ p, ((h.alloc.withNext h.brk h.brk).withPrev h.brk h.brk).live p = true ↔
      h.live p = true ∨ p = h.brk := fun _ => Heap.live_alloc
  refine ⟨_, rfl, ⟨⟨rfl, rfl, List.nodup_singleton _, linked_singleton _, ?_, ?_⟩, ?_, by simp,
    by simp, rfl⟩, hcache, ?_⟩
  · intro p hp
    exact (hlive p).mpr (Or.inr (List.mem_singleton.mp hp))
  · intro p hp c hc
    rw [List.mem_singleton.mp hp, hcache] at hc
    cases hc
  · exact ring_singleton.mpr ⟨by simp [Heap.withNext, Heap.withPrev], by simp [Heap.withPrev]⟩
  · refine ⟨fun p => by rw [hlive]; simp, by simp, ?_, ?_, ?_, Nat.le_succ _⟩ <;>
    · intro p hp _
      have hpb : p ≠ h.brk := (Heap.lt_brk hp).ne
      simp [Heap.withNext, Heap.withPrev, Heap.alloc, hpb]

/-- A new buffer holds nothing. -/
theorem Buffer.new_spec (h : Heap) :
    ∃ h' b, Buffer.new h = (h', b) ∧ Chain h' b.cacheChain [h.brk] [] ∧ Holds h' b [h.brk] [] ∧
      Exchange h h' [] [h.brk] ∧ b.cacheChain.head = h.brk ∧
      h'.cache b.cacheChain.write = none := by
  obtain ⟨h', hnew, C, hnone, E⟩ := CacheList.new_spec h
  refine ⟨h', ⟨_, 0⟩, by simp [Buffer.new, hnew], C, ⟨C.window, ?_, rfl, Or.inl rfl⟩, E, rfl,
    hnone⟩
  simp [Heap.readable, hnone]

/-! ## Two chains in one heap -/

/-- A ring of the nodes `0`, `1` and `2`, the last of them a spare, and one of the node `3`. -/
def twoRings : Heap where
  live p := decide (p < 4)
  next p := [1, 2, 0].getD p p
  prev p := [2, 0, 1].getD p p
  cache p := [⟨[1, 2, 3, 4], 4, 4, 1⟩, ⟨[5, 6, 0, 0], 2, 4, 0⟩, ⟨[0, 0], 0, 2, 0⟩,
    ⟨[7, 8], 2, 2, 0⟩][p]?
  brk := 4
  fresh p hp := by simpa using hp

/-- The buffer on the first ring. -/
def firstBuffer : Buffer := ⟨⟨0, 0, 1, 3⟩, 5⟩

/-- The buffer on the second ring. -/
def secondBuffer : Buffer := ⟨⟨3, 3, 3, 1⟩, 2⟩

/-- The blocks of `twoRings`, checked one by one. -/
theorem valid_twoRings (p : ℕ) (hp : p < 4) (c : Cache) (hc : twoRings.cache p = some c) :
    c.Valid ∧ (p = 2 → c.size = 0) := by
  have hall : ∀ q : Fin 4, ∀ d ∈ twoRings.cache q, d.Valid ∧ (q.val = 2 → d.size = 0) := by decide
  exact hall ⟨p, hp⟩ c hc

theorem carries_firstBuffer :
    Carries twoRings firstBuffer [0, 1] [2] [2, 3, 4, 5, 6] where
  chain := by
    have hlink : Linked twoRings.next twoRings.prev [0, 1, 2] :=
      linked_cons_cons.mpr ⟨⟨rfl, rfl⟩, linked_cons_cons.mpr ⟨⟨rfl, rfl⟩, linked_singleton 2⟩⟩
    refine ⟨⟨rfl, rfl, by decide, (linked_append.mp hlink).1, by decide, ?_⟩,
      ⟨by decide, hlink, ?_⟩, by decide, ?_, rfl⟩
    · intro p hp c hc
      exact (valid_twoRings p (by simp at hp; omega) c hc).1
    · simp [Link, twoRings]
    · intro p hp c hc
      obtain ⟨hv, hz⟩ := valid_twoRings p (by simp at hp; omega) c hc
      exact ⟨hv, hz (List.mem_singleton.mp hp)⟩
  content_eq := by decide
  size_eq := rfl
  blocks := by simp [twoRings]

theorem carries_secondBuffer : Carries twoRings secondBuffer [3] [] [7, 8] where
  chain := by
    refine ⟨⟨rfl, rfl, by decide, linked_singleton 3, by decide, fun p hp c hc => ?_⟩,
      ring_singleton.mpr ⟨rfl, rfl⟩, by simp, by simp, rfl⟩
    exact (valid_twoRings p (by simp at hp; omega) c hc).1
  content_eq := by decide
  size_eq := rfl
  blocks := by simp [twoRings]

end Hare.Net
