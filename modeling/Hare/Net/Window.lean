import Hare.Lib.LinkedRing
import Hare.Net.Buffer
import Mathlib.Data.List.Perm.Subperm

/-!
# The window of a chain

The nodes from `read` to `write` form a path of live, distinct nodes: the window.  Its
blocks, one after the other, hold the content of the buffer.  This module relates the
pointers of a `CacheList` to the list of nodes of its window; nothing here needs the window
to be part of a ring.
-/

namespace Hare.Net

open LinkedRing LabelledRun

namespace Heap

variable {h : Heap} {p q : ℕ} {c : Cache}

theorem getNext_of_live (hp : h.live p = true) : h.getNext p = .ok (h.next p) := if_pos hp
theorem getPrev_of_live (hp : h.live p = true) : h.getPrev p = .ok (h.prev p) := if_pos hp
theorem getCache_of_live (hp : h.live p = true) : h.getCache p = .ok (h.cache p) := if_pos hp
theorem setNext_of_live (hp : h.live p = true) : h.setNext p q = .ok (h.withNext p q) := if_pos hp
theorem setPrev_of_live (hp : h.live p = true) : h.setPrev p q = .ok (h.withPrev p q) := if_pos hp
theorem setCache_of_live (hp : h.live p = true) : h.setCache p c = .ok (h.withCache p c) :=
  if_pos hp
theorem free_of_live (hp : h.live p = true) : h.free p = .ok (h.without p) := if_pos hp

theorem block_of_cache (hp : h.live p = true) (hc : h.cache p = some c) : h.block p = .ok c := by
  simp [block, getCache_of_live hp, hc]

/-- The unread bytes of a node. -/
def readable (h : Heap) (p : ℕ) : List UInt8 := (h.cache p).elim [] Cache.readable

/-- The unread bytes of a list of nodes, in order. -/
def content (h : Heap) (ns : List ℕ) : List UInt8 := ns.flatMap h.readable

theorem readable_of_cache (hc : h.cache p = some c) : h.readable p = c.readable := by
  simp [readable, hc]

/-- A node whose block has been cleared holds nothing. -/
theorem readable_of_size (hp : ∀ c, h.cache p = some c → c.Valid ∧ c.size = 0) :
    h.readable p = [] := by
  cases hc : h.cache p with
  | none => simp [readable, hc]
  | some c =>
      obtain ⟨hv, hs⟩ := hp c hc
      rw [readable_of_cache hc, hv.readable_eq, hs]
      simp

@[simp] theorem content_nil : h.content [] = [] := rfl
@[simp] theorem content_cons (ns : List ℕ) : h.content (p :: ns) = h.readable p ++ h.content ns :=
  rfl
@[simp] theorem content_append (as bs : List ℕ) :
    h.content (as ++ bs) = h.content as ++ h.content bs :=
  List.flatMap_append

/-- The content of a list of nodes only depends on their blocks. -/
theorem content_congr {h' : Heap} {ns : List ℕ} (hc : ∀ p ∈ ns, h'.cache p = h.cache p) :
    h'.content ns = h.content ns := by
  induction ns with
  | nil => rfl
  | cons p ns ih =>
      rw [content_cons, content_cons, ih fun q hq => hc q (List.mem_cons_of_mem p hq)]
      simp [readable, hc p List.mem_cons_self]

theorem lt_brk (hp : h.live p = true) : p < h.brk := by
  by_contra hle
  rw [h.fresh p (by omega)] at hp
  cases hp

/-- Distinct live nodes are never more than the nodes ever allocated. -/
theorem length_le_brk {ns : List ℕ} (hd : ns.Nodup) (hl : ∀ p ∈ ns, h.live p = true) :
    ns.length ≤ h.brk := by
  have hsub : ns ⊆ List.range h.brk := fun p hp => List.mem_range.mpr (lt_brk (hl p hp))
  simpa using (List.Nodup.subperm hd hsub).length_le

end Heap

/-- The list of nodes from `read` to `write`. -/
structure Window (h : Heap) (l : CacheList) (win : List ℕ) : Prop where
  first : win.head? = some l.read
  last : win.getLast? = some l.write
  nodup : win.Nodup
  linked : Linked h.next h.prev win
  live : ∀ p ∈ win, h.live p = true
  valid : ∀ p ∈ win, ∀ c, h.cache p = some c → c.Valid

namespace Window

variable {h h' : Heap} {l : CacheList} {win : List ℕ}

theorem read_mem (W : Window h l win) : l.read ∈ win := List.mem_of_head? W.first
theorem write_mem (W : Window h l win) : l.write ∈ win := List.mem_of_getLast? W.last

theorem length_le_brk (W : Window h l win) : win.length ≤ h.brk :=
  Heap.length_le_brk W.nodup W.live

/-- A window survives any change that leaves its nodes alone. -/
theorem congr (W : Window h l win) (hl : ∀ p ∈ win, h'.live p = true)
    (hn : ∀ p ∈ win, h'.next p = h.next p) (hp : ∀ p ∈ win, h'.prev p = h.prev p)
    (hc : ∀ p ∈ win, h'.cache p = h.cache p) : Window h' l win where
  first := W.first
  last := W.last
  nodup := W.nodup
  linked := W.linked.congr_of_mem hn hp
  live := hl
  valid := fun p hpm c hcp => W.valid p hpm c (by rw [← hc p hpm, hcp])

/-! ## Walking -/

theorem walkLoop_eq {last : ℕ} : ∀ {fuel p : ℕ} {ns : List ℕ}, (p :: ns).length ≤ fuel →
    (p :: ns).getLast? = some last → (p :: ns).Nodup → Linked h.next h.prev (p :: ns) →
    (∀ q ∈ p :: ns, h.live q = true) → CacheList.walkLoop h last fuel p = .ok (p :: ns) := by
  intro fuel
  induction fuel with
  | zero => intro p ns hlen; simp at hlen
  | succ fuel ih =>
      intro p ns hlen hlast hd hlink hlive
      rw [CacheList.walkLoop]
      cases ns with
      | nil =>
          simp only [List.getLast?_singleton, Option.some.injEq] at hlast
          rw [if_pos hlast]
      | cons q ns =>
          have hne : p ≠ last := ne_of_mem_dropLast hd hlast (by simp)
          obtain ⟨⟨hpq, -⟩, hrest⟩ := linked_cons_cons.mp hlink
          rw [if_neg hne, Heap.getNext_of_live (hlive p List.mem_cons_self), hpq]
          simp only [ok_bind]
          rw [ih (by simpa using hlen) (by simpa using hlast) (List.nodup_cons.mp hd).2 hrest
            fun r hr => hlive r (List.mem_cons_of_mem p hr)]
          rfl

/-- Walking from `read` to `write` visits the window. -/
theorem walk_eq (W : Window h l win) : l.walk h = .ok win := by
  have hlen := W.length_le_brk
  have hfirst := W.first
  cases win with
  | nil => simp at hfirst
  | cons p ns =>
      simp only [List.head?_cons, Option.some.injEq] at hfirst
      rw [CacheList.walk, ← hfirst]
      exact walkLoop_eq hlen W.last W.nodup W.linked W.live

/-- A count is that of the nodes a walk visits. -/
theorem chainSizeLoop_of_walkLoop {last fuel p : ℕ} {ns : List ℕ}
    (hwalk : CacheList.walkLoop h last fuel p = .ok ns) (size : ℕ) :
    CacheList.chainSizeLoop h last fuel p (size + 1) = .ok (size + ns.length) := by
  induction fuel generalizing p ns size with
  | zero => cases hwalk
  | succ fuel ih =>
      rw [CacheList.walkLoop] at hwalk
      rw [CacheList.chainSizeLoop]
      split at hwalk
      case isTrue heq =>
        cases hwalk
        rw [if_pos heq]
        rfl
      case isFalse hne =>
        obtain ⟨q, hq, hwalk⟩ := bind_eq_ok hwalk
        obtain ⟨ps, hps, hwalk⟩ := bind_eq_ok hwalk
        cases hwalk
        rw [if_neg hne, hq, ok_bind, ih hps, List.length_cons]
        congr 1
        omega

/-- Counting from `read` to `write` gives the length of the window. -/
theorem chainSize_eq (W : Window h l win) :
    CacheList.chainSizeLoop h l.write h.brk l.read 1 = .ok win.length := by
  have hsize := chainSizeLoop_of_walkLoop W.walk_eq 0
  rwa [Nat.zero_add, Nat.zero_add] at hsize

/-! ## Gathering -/

/-- The vector for a write of `total` bytes holds the first `total` bytes of the first
`slots` blocks. -/
theorem iovLoop_spec : ∀ {ns : List ℕ} {p : ℕ} (slots total : ℕ), ns.head? = some p →
    Linked h.next h.prev ns → (∀ q ∈ ns, h.live q = true) →
    (∀ q ∈ ns, ∃ c, h.cache q = some c ∧ c.Valid) → total ≤ (h.content ns).length →
    ∃ iov, Buffer.iovLoop h slots p total = .ok iov ∧
      iov.flatten = (h.content (ns.take slots)).take total := by
  intro ns
  induction ns with
  | nil => intro p slots total hfirst; simp at hfirst
  | cons r ns ih =>
      intro p slots total hfirst hlink hlive hblock htotal
      simp only [List.head?_cons, Option.some.injEq] at hfirst
      subst hfirst
      cases slots with
      | zero => exact ⟨[], rfl, by simp⟩
      | succ slots =>
          rcases Nat.eq_zero_or_pos total with rfl | hpos
          · exact ⟨[], by simp [Buffer.iovLoop], by simp⟩
          obtain ⟨c, hc, hv⟩ := hblock r List.mem_cons_self
          have hr := hlive r List.mem_cons_self
          have hlen := hv.length_readable
          have hread := Heap.readable_of_cache hc
          rw [Heap.content_cons, hread, List.length_append, hlen] at htotal
          rw [Buffer.iovLoop, if_pos hpos, Heap.block_of_cache hr hc, List.take_succ_cons,
            Heap.content_cons, hread]
          simp only [ok_bind]
          by_cases hmore : total > c.readableSize
          · -- the request reaches into the next block
            cases ns with
            | nil => simp at htotal; omega
            | cons q ns =>
                obtain ⟨⟨hrq, -⟩, hrest⟩ := linked_cons_cons.mp hlink
                obtain ⟨iov, hiov, hflat⟩ := ih slots (total - c.readableSize)
                  rfl hrest (fun x hx => hlive x (List.mem_cons_of_mem r hx))
                  (fun x hx => hblock x (List.mem_cons_of_mem r hx)) (by omega)
                refine ⟨c.readable :: iov, ?_, ?_⟩
                · rw [if_pos hmore, Heap.getNext_of_live hr, hrq]
                  simp [hiov]
                · have hall : c.readable.take total = c.readable :=
                    List.take_of_length_le (by omega)
                  rw [List.flatten_cons, hflat, List.take_append, hlen, hall]
          · refine ⟨[c.readable.take total], by rw [if_neg hmore]; rfl, ?_⟩
            rw [List.take_append_of_le_length (by omega)]
            simp

/-- What one write offers: the first bytes of the first blocks. -/
theorem offer_spec {b : Buffer} (W : Window h b.cacheChain win)
    (hblock : b.totalLen ≠ 0 → ∀ p ∈ win, ∃ c, h.cache p = some c)
    (hsize : b.totalLen ≤ (h.content win).length) (howmuch : ℕ) :
    ∃ iov, b.offer h howmuch = .ok iov ∧ iov.flatten =
      (h.content (win.take numWriteIovec)).take
        (if howmuch = 0 then b.totalLen else min howmuch b.totalLen) := by
  by_cases hzero : b.totalLen = 0
  · refine ⟨[], ?_, by simp [hzero]⟩
    cases howmuch <;> simp [Buffer.offer, numWriteIovec, Buffer.iovLoop, hzero]
  have hvalid : ∀ p ∈ win, ∃ c, h.cache p = some c ∧ c.Valid := fun p hp => by
    obtain ⟨c, hc⟩ := hblock hzero p hp
    exact ⟨c, hc, W.valid p hp c hc⟩
  have htotal : (if (if howmuch = 0 then b.totalLen else howmuch) > b.totalLen then b.totalLen
      else (if howmuch = 0 then b.totalLen else howmuch)) =
      if howmuch = 0 then b.totalLen else min howmuch b.totalLen := by
    split_ifs <;> omega
  rw [Buffer.offer]
  simp only [htotal]
  refine iovLoop_spec _ _ W.first W.linked W.live hvalid ?_
  split_ifs <;> omega

end Window
end Hare.Net
