import Hare.Lib.Chunks
import Hare.Net.Add
import Hare.Net.Splice

/-!
# The output stream of a connection

A sender puts each payload into a buffer of its own and appends that buffer to the
out-buffer of the connection; the event loop writes the out-buffer to the socket, which
takes any number of the bytes offered.

Between the ring of blocks and the stream of bytes stands a list of chunks: the blocks of
the window, without the empty one of an empty buffer (`Heap.blocks`).  Sending adds a
chunk, writing offers the first bytes of the first chunks and takes what was accepted from
the front.  The out-buffer simulates this list (`OutStream.simulates_chunks`), although the
ring behind its window is not always intact: a splice drops the spares.
-/

namespace Hare.Net

open LinkedRing LabelledRun Window

/-- The blocks of a list of nodes that hold something. -/
def Heap.blocks (h : Heap) (ns : List ℕ) : List (List UInt8) :=
  (ns.map h.readable).filter (· ≠ [])

/-- Following `next` from `read` on, one comes to `head`. -/
def CacheList.HeadOnRing (h : Heap) (l : CacheList) : Prop :=
  ∃ k < h.brk, h.next^[k] l.read = l.head

instance (h : Heap) (l : CacheList) : Decidable (l.HeadOnRing h) :=
  inferInstanceAs (Decidable (∃ k < h.brk, h.next^[k] l.read = l.head))

/-- The out-buffer of a connection, and the bytes the socket has taken so far. -/
structure OutStream where
  heap : Heap
  buffer : Buffer
  accepted : List UInt8

/-- Sending a payload and writing.  The socket takes at most `accept` bytes of what is
offered, none when the write fails. -/
inductive StreamOp
  | send (payload : Payload)
  | write (howmuch accept : ℕ)

namespace OutStream

def init : OutStream := ⟨(Buffer.new Heap.init).1, (Buffer.new Heap.init).2, []⟩

def step (s : OutStream) : StreamOp → Except Fault OutStream
  | .send payload => do
    let (h, tmp) := Buffer.new s.heap
    let (_, h, tmp) ← tmp.add h payload.bytes
    let (h, b, tmp) ← s.buffer.append h tmp
    -- the temporary buffer, which may have got the chain of the out-buffer, is destroyed
    let h ← tmp.destroy h
    pure { s with heap := h, buffer := b }
  | .write howmuch accept => do
    let (taken, h, b) ← s.buffer.write s.heap howmuch accept
    pure ⟨h, b, s.accepted ++ taken⟩

/-- The bytes from `read` to `write`. -/
def unread (s : OutStream) : List UInt8 :=
  match s.buffer.cacheChain.walk s.heap with
  | .ok win => s.heap.content win
  | .error _ => []

/-- The payload respects the cap, the bytes held can be counted in a `std::size_t`, and a payload
that finds the out-buffer empty, and so takes the place of its chain, finds `head` on the ring. -/
def Orderly (s : OutStream) : StreamOp → Prop
  | .send payload => payload.bytes.length ≤ maxSize ∧
    s.unread.length + payload.bytes.length < 2 ^ 64 ∧
    (payload.bytes ≠ [] → s.buffer.totalLen = 0 → s.buffer.cacheChain.HeadOnRing s.heap)
  | .write _ _ => True

instance (s : OutStream) (op : StreamOp) : Decidable (s.Orderly op) := by
  cases op <;> unfold Orderly <;> infer_instance

end OutStream

/-- The chunks held and the bytes taken, after one operation. -/
def chunkStep (t : List (List UInt8) × List UInt8) : StreamOp → List (List UInt8) × List UInt8
  | .send payload => (Chunks.push t.1 payload.bytes, t.2)
  | .write howmuch accept =>
    let total := if howmuch = 0 then t.1.flatten.length else min howmuch t.1.flatten.length
    let taken := (Chunks.gather numWriteIovec total t.1).take accept
    (Chunks.drop taken.length t.1, t.2 ++ taken)

/-- The bytes an operation adds to the stream. -/
def StreamOp.bytes : StreamOp → List UInt8
  | .send payload => payload.bytes
  | .write _ _ => []

/-- The payloads of a run, one after the other. -/
def sent (ops : List StreamOp) : List UInt8 := ops.flatMap StreamOp.bytes

section Blocks
variable {h h' : Heap} {b : Buffer} {win : List ℕ} {content : List UInt8}

theorem Heap.flatten_blocks (ns : List ℕ) : (h.blocks ns).flatten = h.content ns := by
  induction ns with
  | nil => rfl
  | cons p ns ih =>
      have hcons : h.blocks (p :: ns) = [h.readable p].filter (· ≠ []) ++ h.blocks ns := by
        rw [blocks, List.map_cons, ← List.singleton_append, List.filter_append]
        rfl
      rw [hcons, List.flatten_append, ih, Heap.content_cons]
      by_cases hp : h.readable p = [] <;> simp [hp]

theorem Heap.blocks_eq_map {ns : List ℕ} (hne : ∀ p ∈ ns, h.readable p ≠ []) :
    h.blocks ns = ns.map h.readable := by
  rw [blocks, List.filter_eq_self]
  intro x hx
  obtain ⟨p, hp, rfl⟩ := List.mem_map.mp hx
  simpa using hne p hp

theorem Heap.blocks_eq_nil {ns : List ℕ} (hnil : h.content ns = []) : h.blocks ns = [] := by
  rw [← Heap.flatten_blocks, List.flatten_eq_nil_iff] at hnil
  rw [List.eq_nil_iff_forall_not_mem]
  intro x hx
  have := List.of_mem_filter hx
  simp [hnil x hx] at this

/-- Either way, the chunks are the blocks of the window, as far as they hold something. -/
theorem Holds.blocks_eq (H : Holds h b win content) :
    content = [] ∧ h.blocks win = [] ∨ content ≠ [] ∧ h.blocks win = win.map h.readable := by
  rcases eq_or_ne content [] with rfl | hne
  · exact Or.inl ⟨rfl, Heap.blocks_eq_nil H.content_eq⟩
  · exact Or.inr ⟨hne, Heap.blocks_eq_map fun p hp => H.readable_ne hne hp⟩

/-- A window of one node is one chunk. -/
theorem Holds.blocks_singleton {p : ℕ} (H : Holds h b [p] content) (hne : content ≠ []) :
    h.blocks [p] = [content] := by
  rcases H.blocks_eq with ⟨hnil, -⟩ | ⟨-, hmap⟩
  · exact absurd hnil hne
  · have hone := H.content_eq
    simp only [Heap.content_cons, Heap.content_nil, List.append_nil] at hone
    rw [hmap, List.map_singleton, hone]

/-- What a write offers, in terms of chunks. -/
theorem Holds.offer_chunks (H : Holds h b win content) (howmuch : ℕ) :
    ∃ iov, b.offer h howmuch = .ok iov ∧ iov.flatten = Chunks.gather numWriteIovec
      (if howmuch = 0 then b.totalLen else min howmuch b.totalLen) (h.blocks win) := by
  obtain ⟨iov, ho, hflat⟩ := H.offer_spec howmuch
  refine ⟨iov, ho, ?_⟩
  rw [hflat, Chunks.gather]
  rcases H.blocks_eq with ⟨hnil, hblocks⟩ | ⟨-, hblocks⟩
  · have hsize : b.totalLen = 0 := by rw [H.size_eq, hnil]; rfl
    simp [hsize, hblocks]
  · rw [hblocks, ← List.map_take, Heap.content, List.flatMap_def]

/-- Draining takes from the front of the chunks. -/
theorem Window.Drained.blocks_eq {n idx : ℕ} {post kept dead : List ℕ} {l : CacheList}
    (D : Drained h l win n h' idx post kept dead) (hd : win.Nodup)
    (hne : ∀ p ∈ win, h.readable p ≠ []) :
    h'.blocks (idx :: post) = Chunks.drop n (h.blocks win) := by
  have hsame : ∀ p ∈ post, h'.readable p = h.readable p := by
    intro p hp
    rw [D.split] at hd
    obtain ⟨-, hip, hdis⟩ := List.nodup_append.mp hd
    rw [Heap.readable, D.cache_other p
      (fun hk => hdis p hk p (List.mem_cons_of_mem idx hp) rfl)
      (fun hpi => (List.nodup_cons.mp hip).1 (hpi ▸ hp))]
    rfl
  have hpre : ((kept ++ dead).map h.readable).flatten.length ≤ n := by
    rw [← List.flatMap_def]
    exact D.passed
  have hcontent := D.content
  by_cases hread : h'.readable idx = []
  · -- the whole window has been taken
    have hpost : post = [] := by
      by_contra hpost
      exact D.stop hpost hne hread
    have hnil : h'.content (idx :: post) = [] := by simp [hpost, hread]
    rw [Heap.blocks_eq_nil hnil, Chunks.drop_eq_nil]
    rw [hnil, eq_comm, List.drop_eq_nil_iff] at hcontent
    rwa [Heap.flatten_blocks]
  · have hblocks : h.blocks win =
        (kept ++ dead).map h.readable ++ h.readable idx :: post.map h.readable := by
      rw [Heap.blocks_eq_map hne, D.split, List.map_append, List.map_cons]
    have hblocks' : h'.blocks (idx :: post) = h'.readable idx :: post.map h.readable := by
      rw [Heap.blocks_eq_map, List.map_cons, List.map_congr_left hsame]
      intro p hp
      rcases List.mem_cons.mp hp with rfl | hp
      · exact hread
      · rw [hsame p hp]
        exact hne p (by rw [D.split]; simp [hp])
    rw [hblocks, hblocks', Chunks.drop_eq_cons hpre hread]
    rw [← hblocks, ← List.flatten_cons, ← hblocks', Heap.flatten_blocks, Heap.flatten_blocks,
      hcontent]

end Blocks

theorem Heap.blocks_append (as bs : List ℕ) {h : Heap} :
    h.blocks (as ++ bs) = h.blocks as ++ h.blocks bs := by
  rw [blocks, List.map_append, List.filter_append]
  rfl

theorem Heap.blocks_congr {h h' : Heap} {ns : List ℕ} (hc : ∀ p ∈ ns, h'.cache p = h.cache p) :
    h'.blocks ns = h.blocks ns := by
  rw [blocks, blocks, List.map_congr_left fun p hp => ?_]
  rw [readable, hc p hp]
  rfl

theorem Heap.ne_nil_of_mem_blocks {h : Heap} {ns : List ℕ} {x : List UInt8}
    (hx : x ∈ h.blocks ns) : x ≠ [] := by
  simpa using List.of_mem_filter hx

/-! ## The way from `head` to the ring -/

/-- The ring of a chain, whose count may be wrong, and the way from `head` to it: along the nodes
`path`, which have been dropped from the ring, to a spare or to `read`. -/
structure Anchored (h : Heap) (l : CacheList) (win spare path : List ℕ) : Prop where
  ring : Ring h.next h.prev (win ++ spare)
  live : ∀ p ∈ win ++ spare ++ path, h.live p = true
  cleared : ∀ p ∈ spare, ∀ c, h.cache p = some c → c.Valid ∧ c.size = 0
  nodup : path.Nodup
  apart : ∀ p ∈ path, p ∉ win ++ spare
  route : ∃ e ∈ spare ++ [l.read], Route h.next l.head path e

namespace Anchored

variable {h h' : Heap} {l l' : CacheList} {b : Buffer} {win spare path : List ℕ}

theorem of_chain (C : Chain h l win []) (hhead : l.head = l.read) : Anchored h l win [] [] where
  ring := C.ring
  live p hp := C.live_of_mem (by simpa using hp)
  cleared := C.cleared
  nodup := List.nodup_nil
  apart := by simp
  route := ⟨l.read, by simp, hhead⟩

theorem entry_mem (W : Window h l win) {e : ℕ} (he : e ∈ spare ++ [l.read]) :
    e ∈ win ++ spare := by
  rcases List.mem_append.mp he with he | he
  · exact List.mem_append_right _ he
  · rw [List.mem_singleton.mp he]
    exact List.mem_append_left _ W.read_mem

/-- `head` is on the ring unless it has been dropped from it. -/
theorem headOnRing_iff (A : Anchored h l win spare path) (W : Window h l win) :
    l.HeadOnRing h ↔ path = [] := by
  have hread : l.read ∈ win ++ spare := List.mem_append_left _ W.read_mem
  obtain ⟨e, he, hroute⟩ := A.route
  constructor
  · rintro ⟨k, -, hk⟩
    have hmem : ∀ n, h.next^[n] l.read ∈ win ++ spare := by
      intro n
      induction n with
      | zero => exact hread
      | succ n ih =>
          rw [Function.iterate_succ_apply']
          exact A.ring.next_mem ih
    cases path with
    | nil => rfl
    | cons x path =>
        have hx : l.head = x := hroute.1
        exact absurd (hk ▸ hmem k) (hx ▸ A.apart x List.mem_cons_self)
  · rintro rfl
    have hhead : l.head ∈ win ++ spare := (show l.head = e from hroute) ▸ entry_mem W he
    obtain ⟨ms, hring, hmem⟩ := A.ring.exists_from hread
    obtain ⟨k, hk, heq⟩ := hring.route.exists_iterate ((hmem l.head).mpr hhead)
    have hlen := Heap.length_le_brk hring.nodup fun p hp =>
      A.live p (List.mem_append_left _ ((hmem p).mp hp))
    exact ⟨k, hk.trans_le hlen, heq⟩

/-- The ring and the way to it survive any exchange of other nodes. -/
theorem frame {ring ring' : List ℕ} (A : Anchored h l win spare path)
    (E : Exchange h h' ring ring') (hdis : ∀ p ∈ win ++ spare ++ path, p ∉ ring) :
    Anchored h' l win spare path where
  ring := A.ring.congr
    (fun p hp => E.next p (A.live p (List.mem_append_left _ hp))
      (hdis p (List.mem_append_left _ hp)))
    (fun p hp => E.prev p (A.live p (List.mem_append_left _ hp))
      (hdis p (List.mem_append_left _ hp)))
  live p hp := E.live_of_not_mem (A.live p hp) (hdis p hp)
  cleared p hp c hc := by
    have hmem : p ∈ win ++ spare ++ path := by simp [hp]
    rw [E.cache p (A.live p hmem) (hdis p hmem)] at hc
    exact A.cleared p hp c hc
  nodup := A.nodup
  apart := A.apart
  route := by
    obtain ⟨e, he, hroute⟩ := A.route
    refine ⟨e, he, hroute.congr fun p hp => ?_⟩
    have hmem : p ∈ win ++ spare ++ path := by simp [hp]
    exact E.next p (A.live p hmem) (hdis p hmem)

/-- The chain with the right count. -/
theorem chain (A : Anchored h l win spare path) (W : Window h l win) :
    Chain h { l with nodeSize := (win ++ spare).length } win spare where
  window := ⟨W.first, W.last, W.nodup, W.linked, W.live, W.valid⟩
  ring := A.ring
  live p hp := A.live p (by simp [hp])
  cleared := A.cleared
  count := rfl

/-- The destructor deletes the ring `head` is on.  It does not look at the count. -/
theorem destroy_spec (A : Anchored h b.cacheChain win spare []) (W : Window h b.cacheChain win) :
    ∃ h', b.destroy h = .ok h' ∧ Exchange h h' (win ++ spare) [] := by
  obtain ⟨e, he, hroute⟩ := A.route
  have hhead : b.cacheChain.head ∈ win ++ spare :=
    (show b.cacheChain.head = e from hroute) ▸ entry_mem W he
  exact Chain.destroy_spec
    (b := { b with cacheChain := { b.cacheChain with nodeSize := (win ++ spare).length } })
    (A.chain W) hhead

/-- The destructor of a chain that has lost its `head`. -/
theorem destroy_of_lost (A : Anchored h b.cacheChain win spare path)
    (W : Window h b.cacheChain win) (hne : path ≠ []) : b.destroy h = .error .useAfterFree := by
  obtain ⟨e, he, hroute⟩ := A.route
  obtain ⟨ms, hring, hmem⟩ := A.ring.exists_from (entry_mem W he)
  cases path with
  | nil => exact absurd rfl hne
  | cons x path =>
      obtain ⟨hx, hrest⟩ := hroute
      have hd : (x :: path ++ e :: ms).Nodup := List.nodup_append.mpr ⟨A.nodup, hring.nodup,
        fun p hp q hq hpq => A.apart p hp ((hmem p).mp (hpq ▸ hq))⟩
      have hlive : ∀ p ∈ x :: path ++ e :: ms, h.live p = true := by
        intro p hp
        rcases List.mem_append.mp hp with hp | hp
        · exact A.live p (List.mem_append_right _ hp)
        · exact A.live p (List.mem_append_left _ ((hmem p).mp hp))
      have hreset : b.cacheChain.reset h = .error .useAfterFree := by
        rw [← hx] at hd hlive
        refine CacheList.reset_of_lost hd ?_ hlive (List.mem_append_right _ List.mem_cons_self)
        rw [hx]
        exact hrest.append hring.route
      rw [Buffer.destroy, hreset]
      rfl

/-- Draining leaves the ring closed, and the way to it as it was: the node that was `read` is
kept. -/
theorem drained {n idx : ℕ} {post kept dead : List ℕ} (A : Anchored h l win spare path)
    (W : Window h l win) (D : Drained h l win n h' idx post kept dead) :
    Anchored h' (l.trimmed idx dead.length) (idx :: post) (spare ++ kept) path := by
  have hring := D.ring spare A.ring
  rw [List.append_assoc] at hring
  have hpath : ∀ p ∈ path, p ∉ win := fun p hp hw => A.apart p hp (List.mem_append_left _ hw)
  have hspare : ∀ p ∈ spare, p ∉ win := fun p hp hw =>
    (List.nodup_append.mp A.ring.nodup).2.2 p hw p hp rfl
  have hdead : ∀ p ∈ dead, p ∈ win := fun p hp => by rw [D.split]; simp [hp]
  have hkept : ∀ p ∈ kept, p ∈ win := fun p hp => by rw [D.split]; simp [hp]
  -- the old `read` is the node the window begins with, or has become a spare
  have hread : l.read = idx ∨ l.read ∈ kept := by
    have hfirst := W.first
    have htrim := D.trim
    rw [D.split] at hfirst
    cases kept with
    | cons k kept => exact Or.inr (by simp at hfirst; simp [hfirst])
    | nil =>
        cases dead with
        | nil => exact Or.inl (by simpa using hfirst.symm)
        | cons d dead =>
            exfalso
            split at htrim
            · have hlen := congrArg List.length htrim
              simp at hlen
            · cases htrim
  refine ⟨hring, ?_, ?_, A.nodup, ?_, ?_⟩
  · intro p hp
    rw [D.live]
    rcases List.mem_append.mp hp with hp | hp
    · rcases List.mem_append.mp hp with hp | hp
      · exact (D.live p).mp (D.window.live p hp)
      · rcases List.mem_append.mp hp with hp | hp
        · exact ⟨A.live p (by simp [hp]), fun hd => hspare p hp (hdead p hd)⟩
        · refine ⟨W.live p (hkept p hp), fun hd => ?_⟩
          have hnodup := W.nodup
          rw [D.split] at hnodup
          exact (List.nodup_append.mp (List.nodup_append.mp hnodup).1).2.2 p hp p hd rfl
    · exact ⟨A.live p (by simp [hp]), fun hd => hpath p hp (hdead p hd)⟩
  · intro p hp c hc
    rcases List.mem_append.mp hp with hp | hp
    · have hnot := hspare p hp
      rw [D.split] at hnot
      rw [D.cache_other p (fun hk => hnot (List.mem_append_left _ hk))
        (fun hi => hnot (by simp [hi]))] at hc
      exact A.cleared p hp c hc
    · obtain ⟨d, hd, hv, hs⟩ := D.cleared p hp
      rw [hd] at hc
      cases hc
      exact ⟨hv, hs⟩
  · intro p hp hmem
    have hnot := hpath p hp
    rw [D.split] at hnot
    simp only [List.mem_append, List.mem_cons] at hmem hnot
    have hsp : p ∉ spare := fun h => A.apart p hp (List.mem_append_right _ h)
    tauto
  · obtain ⟨e, he, hroute⟩ := A.route
    refine ⟨e, ?_, hroute.congr fun p hp => D.next_other p (hpath p hp)⟩
    have hnew : (l.trimmed idx dead.length).read = idx := rfl
    rw [hnew]
    rcases List.mem_append.mp he with he | he
    · simp [he]
    · rw [List.mem_singleton.mp he]
      rcases hread with hread | hread <;> simp [hread]

/-- Splicing drops the spares from the ring, and the way from `head` goes over them. -/
theorem spliced {other other' : CacheList} {wb sb sb' : List ℕ} (A : Anchored h l win spare path)
    (W : Window h l win) (P : Spliced h l other win wb sb h' l' other' sb')
    (hdis : ∀ p ∈ win ++ spare ++ path, p ∉ wb ++ sb) :
    ∃ path', Anchored h' l' (win ++ wb) [] path' ∧
      ∀ p ∈ path', p ∈ spare ++ path := by
  have hspare : ∀ p ∈ spare, p ∉ win := fun p hp hw =>
    (List.nodup_append.mp A.ring.nodup).2.2 p hw p hp rfl
  have hout : ∀ p ∈ spare ++ path, p ∉ win ++ wb ++ sb := by
    intro p hp hmem
    have hp' : p ∈ win ++ spare ++ path := by
      rw [List.append_assoc]
      exact List.mem_append_right _ hp
    rw [List.append_assoc] at hmem
    rcases List.mem_append.mp hmem with hw | hb
    · rcases List.mem_append.mp hp with hp | hp
      · exact hspare p hp hw
      · exact A.apart p hp (List.mem_append_left _ hw)
    · exact hdis p hp' hb
  have hlive : ∀ p ∈ spare ++ path, h.live p = true := fun p hp =>
    A.live p (by rw [List.append_assoc]; exact List.mem_append_right _ hp)
  have hnext : ∀ p ∈ spare ++ path, h'.next p = h.next p := fun p hp =>
    P.frame.next p (hlive p hp) (hout p hp)
  have hlist := P.list
  obtain ⟨e, he, hroute⟩ := A.route
  -- from the first spare on the way to the ring goes over all those behind it
  obtain ⟨tail, hspares, hnodup, htail⟩ : ∃ tail, (∀ p ∈ tail, p ∈ spare) ∧ tail.Nodup ∧
      Route h.next e tail l.read := by
    rcases List.mem_append.mp he with he | he
    · obtain ⟨as, bs, rfl⟩ := List.append_of_mem he
      refine ⟨e :: bs, fun p hp => List.mem_append_right _ hp, ?_, ?_⟩
      · exact (List.nodup_append.mp (List.nodup_append.mp A.ring.nodup).2.1).2.1
      · obtain ⟨ws, hws⟩ : ∃ ws, win = l.read :: ws := by
          have hfirst := W.first
          cases win with
          | nil => cases hfirst
          | cons r ws => exact ⟨ws, by simpa using hfirst⟩
        have hring : Ring h.next h.prev ((l.read :: (ws ++ as)) ++ (e :: bs)) := by
          have := A.ring
          rw [hws] at this
          simpa using this
        obtain ⟨-, hlink, -, hback⟩ := hring.split (by simp) (by simp)
        have hlinked : Linked h.next h.prev ((e :: bs) ++ [l.read]) :=
          linked_append.mpr ⟨hlink, linked_singleton _, fun x hx y hy =>
            hback x hx y (by simpa using hy)⟩
        exact hlinked.route
    · exact ⟨[], by simp, List.nodup_nil, List.mem_singleton.mp he⟩
  have hsub : ∀ p ∈ path ++ tail, p ∈ spare ++ path := fun p hp =>
    (List.mem_append.mp hp).elim (fun hp => List.mem_append_right _ hp)
      fun hp => List.mem_append_left _ (hspares p hp)
  refine ⟨path ++ tail, ⟨by simpa using P.ring, ?_, by simp, ?_, ?_, ?_⟩, hsub⟩
  · intro p hp
    rw [List.append_nil] at hp
    rcases List.mem_append.mp hp with hp | hp
    · exact P.window.live p hp
    · exact P.frame.live_of_not_mem (hlive p (hsub p hp)) (hout p (hsub p hp))
  · exact List.nodup_append.mpr ⟨A.nodup, hnodup, fun p hp q hq hpq =>
      A.apart p hp (List.mem_append_right _ (hspares p (hpq ▸ hq)))⟩
  · intro p hp hmem
    rw [List.append_nil] at hmem
    exact hout p (hsub p hp) (List.mem_append_left _ hmem)
  · have hread : l'.read = l.read := by rw [hlist]
    have hhead : l'.head = l.head := by rw [hlist]
    refine ⟨l.read, by simp [hread], ?_⟩
    rw [hhead]
    exact (hroute.append htail).congr fun p hp => hnext p (hsub p hp)

end Anchored

/-! ## Simulation -/

namespace OutStream

/-- The out-buffer holds the chunks in its window. -/
structure Rep (s : OutStream) (t : List (List UInt8) × List UInt8) (win spare path : List ℕ) :
    Prop where
  holds : Holds s.heap s.buffer win t.1.flatten
  blocks : s.heap.blocks win = t.1
  accepted : s.accepted = t.2
  small : t.1.flatten.length < 2 ^ 64
  anchored : Anchored s.heap s.buffer.cacheChain win spare path

variable {s s' : OutStream} {t : List (List UInt8) × List UInt8} {win spare path : List ℕ}
  {payload : Payload}

theorem Rep.size_eq (R : s.Rep t win spare path) : s.buffer.totalLen = t.1.flatten.length := by
  rw [R.holds.size_eq, Nat.mod_eq_of_lt R.small]

theorem Rep.flatten_eq_nil_iff (R : s.Rep t win spare path) :
    t.1.flatten = [] ↔ s.buffer.totalLen = 0 := by
  rw [R.size_eq, List.length_eq_zero_iff]

theorem Rep.chunks_eq_nil (R : s.Rep t win spare path) (hzero : s.buffer.totalLen = 0) :
    t.1 = [] := by
  rw [← R.blocks]
  exact Heap.blocks_eq_nil (R.holds.content_eq.trans (R.flatten_eq_nil_iff.mpr hzero))

theorem Rep.unread_eq (R : s.Rep t win spare path) : s.unread = t.1.flatten := by
  rw [unread, R.holds.window.walk_eq]
  exact R.holds.content_eq

theorem Rep.init : OutStream.init.Rep ([], []) [0] [] [] := by
  obtain ⟨h', b, hnew, C, H, -, hhead, -⟩ := Buffer.new_spec Heap.init
  have hinit : OutStream.init = ⟨h', b, []⟩ := by simp [OutStream.init, hnew]
  have hread : b.cacheChain.read = Heap.init.brk := by simpa using C.window.first.symm
  rw [hinit]
  exact ⟨H, Heap.blocks_eq_nil H.content_eq, rfl, by simp, .of_chain C (hhead.trans hread.symm)⟩

/-- What is held survives an exchange of other nodes. -/
theorem Rep.frame {h' : Heap} {ring ring' : List ℕ} (R : s.Rep t win spare path)
    (E : Exchange s.heap h' ring ring') (hdis : ∀ p ∈ win ++ spare ++ path, p ∉ ring) :
    { s with heap := h' }.Rep t win spare path where
  holds := R.holds.frame E fun p hp => hdis p (by simp [hp])
  blocks := by
    rw [← R.blocks]
    exact Heap.blocks_congr fun p hp => E.cache p (R.holds.window.live p hp) (hdis p (by simp [hp]))
  accepted := R.accepted
  small := R.small
  anchored := R.anchored.frame E hdis

/-- Nodes that have just been allocated are not in use. -/
theorem Rep.not_brk (R : s.Rep t win spare path) : ∀ p ∈ win ++ spare ++ path, p ≠ s.heap.brk :=
  fun p hp => (Heap.lt_brk (R.anchored.live p hp)).ne

/-- A temporary buffer with one payload: one block in a node that was free before. -/
theorem tmp_spec (h : Heap) (hcap : payload.bytes.length ≤ maxSize) :
    ∃ h₁ tmp₁ h₂ tmp₂, Buffer.new h = (h₁, tmp₁) ∧
      tmp₁.add h₁ payload.bytes = .ok (true, h₂, tmp₂) ∧
      Holds h₂ tmp₂ [h.brk] payload.bytes ∧ Chain h₂ tmp₂.cacheChain [h.brk] [] ∧
      Exchange h h₂ [] [h.brk] ∧ tmp₂.cacheChain.head = h.brk := by
  obtain ⟨h₁, tmp₁, hnew, C, H, E, hhead, hnone⟩ := Buffer.new_spec h
  have hsum : (tmp₁.totalLen + payload.bytes.length) % 2 ^ 64 ≤ maxSize := by
    rw [H.size_eq]
    exact (Nat.mod_le _ _).trans (by simpa using hcap)
  obtain ⟨h₂, tmp₂, win, spare, hadd, H', C', E', -, hhead', hsame⟩ :=
    H.add_spec C payload.fits hsum (by simp [hnone])
  obtain ⟨rfl, rfl⟩ := hsame hnone
  exact ⟨h₁, tmp₁, h₂, tmp₂, hnew, hadd, by simpa using H', C', E.trans (by simpa using E'),
    hhead'.trans hhead⟩

/-- Sending, from the temporary buffer on. -/
theorem step_send {h₁ h₂ h₃ : Heap} {added : Bool} {tmp₁ tmp₂ b o : Buffer}
    (hnew : Buffer.new s.heap = (h₁, tmp₁))
    (hadd : tmp₁.add h₁ payload.bytes = .ok (added, h₂, tmp₂))
    (happend : s.buffer.append h₂ tmp₂ = .ok (h₃, b, o)) :
    s.step (.send payload) = (o.destroy h₃).map fun h => { s with heap := h, buffer := b } := by
  simp only [OutStream.step, hnew, hadd, happend, ok_bind]
  cases o.destroy h₃ <;> rfl

/-- A payload without bytes is dropped. -/
theorem Rep.send_nil (R : s.Rep t win spare path)
    (hnil : payload.bytes = []) :
    ∃ s', s.step (.send payload) = .ok s' ∧ s'.Rep t win spare path := by
  obtain ⟨h₁, tmp₁, h₂, tmp₂, hnew, hadd, T, C, E, hhead⟩ :=
    tmp_spec s.heap (show payload.bytes.length ≤ maxSize by simp [hnil])
  have hzero : tmp₂.totalLen = 0 := by
    rw [T.size_eq, hnil]
    rfl
  obtain ⟨h₃, hdestroy, E'⟩ := C.destroy_spec (by simp [hhead])
  refine ⟨_, ?_, (R.frame E (by simp)).frame E' ?_⟩
  · rw [step_send hnew hadd (by rw [Buffer.append, if_pos hzero]), hdestroy]
    rfl
  · simpa using R.not_brk

/-- Into an empty out-buffer: the chains are swapped, and the old one is destroyed. -/
theorem Rep.send_swap (R : s.Rep t win spare path)
    (hcap : payload.bytes.length ≤ maxSize) (hne : payload.bytes ≠ [])
    (hzero : s.buffer.totalLen = 0) :
    (path = [] → ∃ s' win', s.step (.send payload) = .ok s' ∧
      s'.Rep ([payload.bytes], t.2) win' [] []) ∧
    (path ≠ [] → s.step (.send payload) = .error .useAfterFree) := by
  obtain ⟨h₁, tmp₁, h₂, tmp₂, hnew, hadd, T, C, E, hhead⟩ := tmp_spec s.heap hcap
  have hsize : payload.bytes.length < 2 ^ 64 := hcap.trans_lt (by decide)
  have htmp : tmp₂.totalLen = payload.bytes.length := by
    rw [T.size_eq, Nat.mod_eq_of_lt hsize]
  have htmpne : tmp₂.totalLen ≠ 0 := by
    rw [htmp]
    exact fun h => hne (List.length_eq_zero_iff.mp h)
  have hsum : (s.buffer.totalLen + tmp₂.totalLen) % 2 ^ 64 = tmp₂.totalLen := by
    rw [hzero, Nat.zero_add, htmp, Nat.mod_eq_of_lt hsize]
  have happend : s.buffer.append h₂ tmp₂ =
      .ok (h₂, ⟨tmp₂.cacheChain, tmp₂.totalLen⟩, ⟨s.buffer.cacheChain, 0⟩) := by
    rw [Buffer.append, if_neg htmpne, if_pos hzero, hsum]
  have R₂ := R.frame E (by simp)
  have hstep := step_send hnew hadd happend
  constructor
  · rintro rfl
    obtain ⟨h₃, hdestroy, E'⟩ := Anchored.destroy_spec (b := ⟨s.buffer.cacheChain, 0⟩)
      R₂.anchored R₂.holds.window
    have hdis : ∀ p ∈ [s.heap.brk], p ∉ win ++ spare := fun p hp hmem =>
      R.not_brk p (by simpa using hmem) (List.mem_singleton.mp hp)
    have hread : tmp₂.cacheChain.read = s.heap.brk := by simpa using C.window.first.symm
    refine ⟨⟨h₃, ⟨tmp₂.cacheChain, tmp₂.totalLen⟩, s.accepted⟩, [s.heap.brk], ?_,
      ⟨?_, ?_, R.accepted, by simpa using hsize, ?_⟩⟩
    · rw [hstep, hdestroy]
      rfl
    · simpa using T.frame E' hdis
    · have hblocks : h₃.blocks [s.heap.brk] = h₂.blocks [s.heap.brk] := Heap.blocks_congr
        fun p hp => E'.cache p (T.window.live p hp) (hdis p hp)
      exact hblocks.trans (T.blocks_singleton hne)
    · exact (Anchored.of_chain C (hhead.trans hread.symm)).frame E' (by simpa using hdis)
  · intro hlost
    rw [hstep, Anchored.destroy_of_lost (b := ⟨s.buffer.cacheChain, 0⟩) R₂.anchored
      R₂.holds.window hlost]
    rfl

/-- Behind the content of the out-buffer: the window of the temporary buffer is spliced in. -/
theorem Rep.send_splice (R : s.Rep t win spare path)
    (hcap : payload.bytes.length ≤ maxSize) (hne : payload.bytes ≠ [])
    (hcontent : s.buffer.totalLen ≠ 0)
    (hsmall : t.1.flatten.length + payload.bytes.length < 2 ^ 64) :
    ∃ s' win' path', s.step (.send payload) = .ok s' ∧
      s'.Rep (t.1 ++ [payload.bytes], t.2) win' [] path' := by
  obtain ⟨h₁, tmp₁, h₂, tmp₂, hnew, hadd, T, C, E, hhead⟩ := tmp_spec s.heap hcap
  have htmpne : tmp₂.totalLen ≠ 0 := by
    rw [T.size_eq, Nat.mod_eq_of_lt (by omega)]
    exact fun h => hne (List.length_eq_zero_iff.mp h)
  have R₂ := R.frame E (by simp)
  have hdis : ∀ p ∈ win ++ spare ++ path, p ∉ [s.heap.brk] ++ [] := fun p hp hb =>
    R.not_brk p hp (by simpa using hb)
  obtain ⟨h₃, l', o', sb', hrun, P⟩ := R₂.holds.window.append_spec C fun p hp =>
    hdis p (by simp [hp])
  obtain ⟨H', -⟩ := P.holds R₂.holds T (mt R.flatten_eq_nil_iff.mp hcontent) hne
  obtain ⟨path', A', hpath⟩ := R₂.anchored.spliced R₂.holds.window P hdis
  have happend : s.buffer.append h₂ tmp₂ =
      .ok (h₃, ⟨l', (s.buffer.totalLen + tmp₂.totalLen) % 2 ^ 64⟩, ⟨o', 0⟩) := by
    rw [Buffer.append, if_neg htmpne, if_neg hcontent, hrun]
    rfl
  -- what is left of the temporary buffer is destroyed
  obtain ⟨h₄, hdestroy, E'⟩ := Chain.destroy_spec (b := ⟨o', 0⟩) P.rest (by simp [P.head])
  have hapart : ∀ p ∈ win ++ [s.heap.brk] ++ [] ++ path', p ∉ [o'.write] ++ sb' := by
    intro p hp hmem
    rw [List.append_nil] at hp
    rcases List.mem_append.mp hp with hp | hp
    · exact P.apart p hp hmem
    · have hold : p ∈ win ++ spare ++ path := by
        rw [List.append_assoc]
        exact List.mem_append_right _ (hpath p hp)
      have hout : p ∉ win ++ [s.heap.brk] ++ [] := fun hin =>
        A'.apart p hp (by simpa using hin)
      have hnot := P.frame.not_mem (R₂.anchored.live p hold) hout
      exact hnot (List.mem_append_right _ hmem)
  refine ⟨⟨h₄, ⟨l', (s.buffer.totalLen + tmp₂.totalLen) % 2 ^ 64⟩, s.accepted⟩,
    win ++ [s.heap.brk], path', ?_, ⟨?_, ?_, R.accepted, ?_, A'.frame E' hapart⟩⟩
  · rw [step_send hnew hadd happend, hdestroy]
    rfl
  · have := H'.frame E' fun p hp => hapart p (by simp only [List.mem_append] at hp ⊢; tauto)
    simpa using this
  · have hsame : h₄.blocks (win ++ [s.heap.brk]) = h₃.blocks (win ++ [s.heap.brk]) :=
      Heap.blocks_congr fun p hp => E'.cache p (P.window.live p hp)
        (hapart p (by simp only [List.mem_append] at hp ⊢; tauto))
    have hone := T.blocks_singleton hne
    exact hsame.trans (by rw [Heap.blocks_congr P.cache, Heap.blocks_append, R₂.blocks, hone])
  · simpa using hsmall

/-- Sending adds a chunk. -/
theorem Rep.send (R : s.Rep t win spare path)
    (hfit : s.Orderly (.send payload)) :
    ∃ s' win' spare' path', s.step (.send payload) = .ok s' ∧
      s'.Rep (chunkStep t (.send payload)) win' spare' path' := by
  obtain ⟨hcap, hsmall, hhead⟩ := hfit
  rw [R.unread_eq] at hsmall
  rcases eq_or_ne payload.bytes [] with hnil | hne
  · obtain ⟨s', hstep, R'⟩ := R.send_nil hnil
    refine ⟨s', win, spare, path, hstep, ?_⟩
    rw [chunkStep, hnil, Chunks.push, if_pos rfl]
    exact R'
  have hpush : Chunks.push t.1 payload.bytes = t.1 ++ [payload.bytes] := if_neg hne
  rw [chunkStep, hpush]
  by_cases hzero : s.buffer.totalLen = 0
  · have hpath := (R.anchored.headOnRing_iff R.holds.window).mp (hhead hne hzero)
    obtain ⟨s', win', hstep, R'⟩ := (R.send_swap hcap hne hzero).1 hpath
    refine ⟨s', win', [], [], hstep, ?_⟩
    rw [R.chunks_eq_nil hzero]
    exact R'
  · obtain ⟨s', win', path', hstep, R'⟩ := R.send_splice hcap hne hzero hsmall
    exact ⟨s', win', [], path', hstep, R'⟩

/-- Writing takes chunks from the front. -/
theorem Rep.write (R : s.Rep t win spare path) (howmuch accept : ℕ) :
    ∃ s' win' spare', s.step (.write howmuch accept) = .ok s' ∧
      s'.Rep (chunkStep t (.write howmuch accept)) win' spare' path := by
  obtain ⟨iov, ho, hflat⟩ := R.holds.offer_chunks howmuch
  rw [R.size_eq, R.blocks] at hflat
  rw [chunkStep]
  simp only [← hflat]
  by_cases hnil : iov.flatten.take accept = []
  · refine ⟨s, win, spare, ?_, ?_⟩
    · simp [OutStream.step, Buffer.write_of_nil ho hnil]
    · rw [hnil, List.length_nil, List.append_nil, Chunks.drop_zero]
      · exact R
      · intro c hc
        exact Heap.ne_nil_of_mem_blocks (R.blocks ▸ hc)
  · obtain ⟨h', idx, post, kept, dead, hrun, D, H'⟩ := R.holds.write_spec ho hnil
    have hne := R.holds.ne_nil_of_taken ho hnil
    refine ⟨_, idx :: post, spare ++ kept, by simp only [OutStream.step, hrun]; rfl, ?_⟩
    refine ⟨by rw [Chunks.flatten_drop]; exact H', ?_, by simp [R.accepted], ?_,
      R.anchored.drained R.holds.window D⟩
    · simp only
      rw [D.blocks_eq R.holds.window.nodup fun p hp => R.holds.readable_ne hne hp, R.blocks]
    · have := R.small
      rw [Chunks.flatten_drop, List.length_drop]
      omega

/-- One orderly operation is one operation on the chunks. -/
theorem Rep.step (R : s.Rep t win spare path) {op : StreamOp} (hfit : s.Orderly op) :
    ∃ s', s.step op = .ok s' ∧ ∃ win' spare' path', s'.Rep (chunkStep t op) win' spare' path' := by
  cases op with
  | send payload =>
      obtain ⟨s', win', spare', path', hrun, R'⟩ := R.send hfit
      exact ⟨s', hrun, win', spare', path', R'⟩
  | write howmuch accept =>
      obtain ⟨s', win', spare', hrun, R'⟩ := R.write howmuch accept
      exact ⟨s', hrun, win', spare', path, R'⟩

/-- **The out-buffer is a queue of chunks** along orderly runs. -/
theorem simulates_chunks {ops : List StreamOp}
    (hfit : Meets OutStream.step Orderly OutStream.init ops) :
    ∃ s, run OutStream.step OutStream.init ops = .ok s ∧
      ∃ win spare path, s.Rep (ops.foldl chunkStep ([], [])) win spare path :=
  simulates chunkStep (fun s t => ∃ win spare path, s.Rep t win spare path)
    (fun _ _ _ ⟨_, _, _, R⟩ hfit => R.step hfit) ⟨_, _, _, Rep.init⟩ hfit

end OutStream

/-- One operation on the chunks moves bytes, and adds those of its payload behind. -/
theorem chunkStep_law (t : List (List UInt8) × List UInt8) (op : StreamOp) :
    (chunkStep t op).2 ++ (chunkStep t op).1.flatten = t.2 ++ t.1.flatten ++ op.bytes := by
  cases op with
  | send payload => simp [chunkStep, Chunks.flatten_push, StreamOp.bytes]
  | write howmuch accept =>
      have hpre := (List.take_prefix accept (Chunks.gather numWriteIovec (if howmuch = 0 then
        t.1.flatten.length else min howmuch t.1.flatten.length) t.1)).trans
        (Chunks.gather_prefix _ _ t.1)
      simp only [chunkStep, Chunks.flatten_drop, StreamOp.bytes, List.append_nil,
        List.append_assoc]
      rw [List.prefix_iff_eq_append.mp hpre]

/-- A queue of chunks neither loses nor reorders bytes. -/
theorem chunk_law (ops : List StreamOp) (t : List (List UInt8) × List UInt8) :
    (ops.foldl chunkStep t).2 ++ (ops.foldl chunkStep t).1.flatten =
      t.2 ++ t.1.flatten ++ sent ops := by
  induction ops generalizing t with
  | nil => simp [sent]
  | cons op ops ih =>
      have hsent : sent (op :: ops) = op.bytes ++ sent ops := rfl
      rw [List.foldl_cons, ih, chunkStep_law, hsent, List.append_assoc _ op.bytes]

/-! ## The stream -/

/-- The bytes the socket has taken, followed by the bytes still in the out-buffer, are `bytes`, and
the size is the number of bytes still there. -/
def OutStream.Streams (s : OutStream) (bytes : List UInt8) : Prop :=
  ∃ win, s.buffer.cacheChain.walk s.heap = .ok win ∧ s.accepted ++ s.heap.content win = bytes ∧
    s.buffer.size = (s.heap.content win).length

namespace OutStream

variable {s s' : OutStream} {t : List (List UInt8) × List UInt8} {win spare path : List ℕ}

theorem Rep.streams (R : s.Rep t win spare path) : s.Streams (t.2 ++ t.1.flatten) := by
  refine ⟨win, R.holds.window.walk_eq, ?_, ?_⟩
  · rw [R.holds.content_eq, R.accepted]
  · rw [Buffer.size, R.size_eq, R.holds.content_eq]

/-- A payload over the cap is dropped. -/
theorem Rep.send_refused (R : s.Rep t win spare path) {payload : Payload}
    (hcap : ¬ payload.bytes.length ≤ maxSize) :
    ∃ s', s.step (.send payload) = .ok s' ∧ s'.Rep t win spare path := by
  obtain ⟨h₁, tmp₁, hnew, C, H, E, hhead, -⟩ := Buffer.new_spec s.heap
  have hzero : tmp₁.totalLen = 0 := H.size_eq
  have hsum : ¬ (tmp₁.totalLen + payload.bytes.length) % 2 ^ 64 ≤ maxSize := by
    have hfits := payload.fits
    rw [hzero, Nat.zero_add, Nat.mod_eq_of_lt (hfits.trans_lt (by decide))]
    exact hcap
  obtain ⟨h₃, hdestroy, E'⟩ := C.destroy_spec (by simp [hhead])
  refine ⟨_, ?_, (R.frame E (by simp)).frame E' ?_⟩
  · rw [step_send hnew (Buffer.add_refused hsum) (by rw [Buffer.append, if_pos hzero]), hdestroy]
    rfl
  · simpa using R.not_brk

/-- The size is a `std::size_t`. -/
theorem Rep.totalLen_send_lt (R : s.Rep t win spare path) {payload : Payload}
    (hs : s.step (.send payload) = .ok s') : s'.buffer.totalLen < 2 ^ 64 := by
  have hmod : ∀ n, n % 2 ^ 64 < 2 ^ 64 := fun n => Nat.mod_lt n (by decide)
  have hold : s.buffer.totalLen < 2 ^ 64 := R.size_eq ▸ R.small
  rw [OutStream.step] at hs
  obtain ⟨⟨added, h₂, tmp₂⟩, -, hs⟩ := bind_eq_ok hs
  obtain ⟨⟨h₃, b, o⟩, happend, hs⟩ := bind_eq_ok hs
  obtain ⟨h₄, -, hs⟩ := bind_eq_ok hs
  cases hs
  simp only [Buffer.append] at happend
  split at happend
  · cases happend
    exact hold
  split at happend
  · cases happend
    exact hmod _
  · obtain ⟨⟨h, l, o'⟩, -, hlast⟩ := bind_eq_ok happend
    cases hlast
    exact hmod _

/-- An operation that is not orderly does not return, or breaks the stream. -/
theorem Rep.not_streams (R : s.Rep t win spare path) {op : StreamOp} (hfit : ¬ s.Orderly op)
    (hs : s.step op = .ok s') :
    ¬ s'.Streams ((chunkStep t op).2 ++ (chunkStep t op).1.flatten) := by
  cases op with
  | write howmuch accept => exact absurd trivial hfit
  | send payload =>
      rw [chunkStep_law]
      rintro ⟨win', hwalk, hbytes, hsize⟩
      have hlen := congrArg List.length hbytes
      simp only [List.length_append, StreamOp.bytes] at hlen
      by_cases hcap : payload.bytes.length ≤ maxSize
      · by_cases hsmall : s.unread.length + payload.bytes.length < 2 ^ 64
        · -- the chain that is given away has lost its head
          have hlost : ¬ (payload.bytes ≠ [] → s.buffer.totalLen = 0 →
              s.buffer.cacheChain.HeadOnRing s.heap) := fun h => hfit ⟨hcap, hsmall, h⟩
          simp only [Classical.not_imp] at hlost
          obtain ⟨hne, hzero, hoff⟩ := hlost
          rw [R.anchored.headOnRing_iff R.holds.window] at hoff
          rw [(R.send_swap hcap hne hzero).2 hoff] at hs
          cases hs
        · -- the counter wraps
          rw [R.unread_eq] at hsmall
          have hlt := R.totalLen_send_lt hs
          have hacc : s'.accepted = s.accepted := by
            rw [OutStream.step] at hs
            obtain ⟨_, -, hs⟩ := bind_eq_ok hs
            obtain ⟨_, -, hs⟩ := bind_eq_ok hs
            obtain ⟨_, -, hs⟩ := bind_eq_ok hs
            cases hs
            rfl
          rw [hacc, R.accepted] at hlen
          have hsize' : s'.buffer.totalLen = (s'.heap.content win').length := hsize
          omega
      · obtain ⟨s'', hs'', R'⟩ := R.send_refused hcap
        cases hs.symm.trans hs''
        rw [R'.holds.window.walk_eq] at hwalk
        cases hwalk
        rw [R'.holds.content_eq, R'.accepted] at hlen
        omega

end OutStream

/-- **When the output is a stream.**  After every operation the bytes the socket has taken,
followed by the bytes still in the out-buffer, are the payloads sent, in order, and the size is the
number of bytes still there, exactly when every operation is orderly. -/
theorem streams_iff_orderly (ops : List StreamOp) :
    (∀ ks, ks <+: ops → ∃ s, run OutStream.step OutStream.init ks = .ok s ∧ s.Streams (sent ks)) ↔
      Meets OutStream.step OutStream.Orderly OutStream.init ops := by
  have hiff : _ ↔ Meets OutStream.step OutStream.Orderly OutStream.init ops :=
    simulates_iff chunkStep
    (fun s t => ∃ win spare path, OutStream.Rep s t win spare path)
    (fun s t => s.Streams (t.2 ++ t.1.flatten))
    (fun _ _ _ ⟨_, _, _, R⟩ hfit => R.step hfit) (fun _ _ ⟨_, _, _, R⟩ => R.streams)
    (fun _ _ _ _ ⟨_, _, _, R⟩ hfit hs => R.not_streams hfit hs) ⟨_, _, _, OutStream.Rep.init⟩
  have hlaw : ∀ ks, (ks.foldl chunkStep ([], [])).2 ++ (ks.foldl chunkStep ([], [])).1.flatten =
      sent ks := fun ks => by simpa using chunk_law ks ([], [])
  simpa only [hlaw] using hiff

/-- One byte is sent behind another, then the first is written: the node `head` is a spare.  The
next byte is appended, which drops the spares.  When all is written, one more byte takes the place
of the chain, and its destructor starts from a node that is not on the ring. -/
theorem send_to_drained : run OutStream.step OutStream.init
    [.send ⟨[1], by decide⟩, .send ⟨[2], by decide⟩, .write 0 1, .send ⟨[3], by decide⟩,
      .write 0 2, .send ⟨[4], by decide⟩] = .error .useAfterFree :=
  stopped_eq_some.mp (by decide +kernel)

end Hare.Net
