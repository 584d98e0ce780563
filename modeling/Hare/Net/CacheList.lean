import Hare.Lib.LabelledRun
import Hare.Net.Cache
import Mathlib.Logic.Function.Basic

/-!
# The chain of blocks

A `CacheList` is a ring of nodes with three pointers into it: `read` and `write` delimit
the window of nodes that may hold unread bytes, and `head` is the node from which the
ring is taken apart.  The nodes between `write` and `read`, in ring order, are spares that
have been drained and wait to be reused.

Nodes live in a `Heap` shared by all lists, one map per field of `CacheList::Node`.
Addresses are numbers and never reused, so a pointer to a deleted node stays a pointer to a deleted
node; every access checks that its node is live.

Loops over the ring carry a bound on their rounds.  A path of distinct nodes is never
longer than the number of nodes ever allocated, so a loop that exceeds the bound has come
back to a node it already passed and never ends: the model reports `Fault.diverges`.
-/

namespace Hare.Net

/-- The nodes of all cache lists.  Nothing at or above `brk` has been allocated yet. -/
structure Heap where
  live : ℕ → Bool
  next : ℕ → ℕ
  prev : ℕ → ℕ
  cache : ℕ → Option Cache
  brk : ℕ
  fresh : ∀ p, brk ≤ p → live p = false

namespace Heap

/-- No node has been allocated. -/
def init : Heap := ⟨fun _ => false, id, id, fun _ => none, 0, fun _ _ => rfl⟩

/-- Every access to a node goes through this check. -/
def deref {α : Type} (h : Heap) (p : ℕ) (a : α) : Except Fault α :=
  if h.live p then .ok a else .error .useAfterFree

def getNext (h : Heap) (p : ℕ) : Except Fault ℕ := h.deref p (h.next p)
def getPrev (h : Heap) (p : ℕ) : Except Fault ℕ := h.deref p (h.prev p)
def getCache (h : Heap) (p : ℕ) : Except Fault (Option Cache) := h.deref p (h.cache p)

/-- Follow the `cache` pointer of a node. -/
def block (h : Heap) (p : ℕ) : Except Fault Cache := do
  match ← h.getCache p with
  | some c => pure c
  | none => throw .nullPointer

def withNext (h : Heap) (p q : ℕ) : Heap := { h with next := Function.update h.next p q }
def withPrev (h : Heap) (p q : ℕ) : Heap := { h with prev := Function.update h.prev p q }
def withCache (h : Heap) (p : ℕ) (c : Cache) : Heap :=
  { h with cache := Function.update h.cache p (some c) }

def setNext (h : Heap) (p q : ℕ) : Except Fault Heap := h.deref p (h.withNext p q)
def setPrev (h : Heap) (p q : ℕ) : Except Fault Heap := h.deref p (h.withPrev p q)
def setCache (h : Heap) (p : ℕ) (c : Cache) : Except Fault Heap := h.deref p (h.withCache p c)

/-- `new Node`: an empty `cache`; the two links are assigned by the caller before they are
read. -/
def alloc (h : Heap) : Heap where
  live := Function.update h.live h.brk true
  next := h.next
  prev := h.prev
  cache := Function.update h.cache h.brk none
  brk := h.brk + 1
  fresh := by
    intro p hp
    rw [Function.update_of_ne (by omega)]
    exact h.fresh p (by omega)

def without (h : Heap) (p : ℕ) : Heap where
  live := Function.update h.live p false
  next := h.next
  prev := h.prev
  cache := h.cache
  brk := h.brk
  fresh := by
    intro q hq
    by_cases hqp : q = p
    · simp [hqp]
    · rw [Function.update_of_ne hqp]
      exact h.fresh q hq

/-- `delete`: a node can be deleted once. -/
def free (h : Heap) (p : ℕ) : Except Fault Heap := h.deref p (h.without p)

end Heap

/-- The pointers and the node count of one chain. -/
structure CacheList where
  head : ℕ
  read : ℕ
  write : ℕ
  nodeSize : ℕ
  deriving DecidableEq, Repr

namespace CacheList

/-- A ring of one node without a block. -/
def new (h : Heap) : Heap × CacheList :=
  let p := h.brk
  ((h.alloc.withNext p p).withPrev p p, ⟨p, p, p, 1⟩)

/-- The nodes from `p` to `last`, following `next`. -/
def walkLoop (h : Heap) (last : ℕ) : ℕ → ℕ → Except Fault (List ℕ)
  | 0, _ => .error .diverges
  | fuel + 1, p =>
    if p = last then .ok [p]
    else do
      let q ← h.getNext p
      let ps ← walkLoop h last fuel q
      pure (p :: ps)

/-- The nodes of the window, from `read` to `write`. -/
def walk (h : Heap) (l : CacheList) : Except Fault (List ℕ) := walkLoop h l.write h.brk l.read

/-- Move `write` to a node without content: stay when its block is empty, else step to the
next spare, inserting a new node when there is none. -/
def getNextWrite (h : Heap) (l : CacheList) : Except Fault (Heap × CacheList) := do
  match ← h.getCache l.write with
  | none => pure (h, l)
  | some c =>
    if c.empty then do
      let h ← h.setCache l.write c.clear
      pure (h, l)
    else do
      let nx ← h.getNext l.write
      let (h, l) ←
        if nx = l.read then do
          let tmp := h.brk
          let h := h.alloc
          let h ← h.setNext tmp nx
          let h ← h.setPrev tmp l.write
          let h ← h.setPrev nx tmp
          let h ← h.setNext l.write tmp
          pure (h, { l with nodeSize := l.nodeSize + 1 })
        else pure (h, l)
      let w ← h.getNext l.write
      if w = l.read then throw .assertFailed
      else pure (h, { l with write := w })

/-- Give the write node a block of its own, large enough for `n` bytes. -/
def resetCache (h : Heap) (l : CacheList) (n : ℕ) : Except Fault (Heap × CacheList) := do
  let c ← Cache.new (roundUp n)
  let h ← h.setCache l.write c
  pure (h, l)

/-- Make the write node ready to take `n` bytes. -/
def checkSize (h : Heap) (l : CacheList) (n : ℕ) : Except Fault (Heap × CacheList) := do
  match ← h.getCache l.write with
  | none => resetCache h l n
  | some c =>
    let (fits, c) := c.realign n
    let h ← h.setCache l.write c
    if fits then pure (h, l)
    else do
      let (h, l) ← getNextWrite h l
      match ← h.getCache l.write with
      | none => resetCache h l n
      | some c => if c.size < n then resetCache h l n else pure (h, l)

/-- The largest block allocated for a read. -/
def maxToAlloc : ℕ := 4096 * 16

/-- The first loop of `fastExpand`: count the nodes from `index` to the one before `read`, and
what their blocks leave of the request.  Returns the rest, the last node and the count. -/
def reuseLoop (h : Heap) (read : ℕ) : ℕ → ℕ → ℕ → ℕ → Except Fault (ℕ × ℕ × ℕ)
  | 0, _, _, _ => .error .diverges
  | fuel + 1, size, index, cnt => do
    let c ← h.block index
    let size := size - min c.writeableSize size
    let cnt := cnt + 1
    let nx ← h.getNext index
    if nx = read then pure (size, index, cnt)
    else reuseLoop h read fuel size nx cnt

/-- The second loop of `fastExpand`: insert nodes with new blocks while something is left of
the request.  No round changes what is left. -/
def allocLoop (size : ℕ) : ℕ → Heap → CacheList → ℕ → ℕ → Except Fault (Heap × CacheList × ℕ)
  | 0, _, _, _, _ => .error .diverges
  | fuel + 1, h, l, index, cnt =>
    if size > 0 then do
      let allocSize := min (roundUp size) maxToAlloc
      let tmp := h.brk
      let h := h.alloc
      let c ← Cache.new allocSize
      let h ← h.setCache tmp c
      let h ← h.setPrev tmp index
      let nx ← h.getNext index
      let h ← h.setNext tmp nx
      let h ← h.setPrev nx tmp
      let h ← h.setNext index tmp
      allocLoop size fuel h { l with nodeSize := l.nodeSize + 1 } tmp (cnt + 1)
    else pure (h, l, cnt)

/-- Make room for a read of `n` bytes in the blocks from `write` on.  Returns the number of
these blocks.  The rounds of the second loop are bounded by `fuel` alone: nothing in the loop
bounds them. -/
def fastExpand (fuel : ℕ) (h : Heap) (l : CacheList) (n : ℕ) :
    Except Fault (Heap × CacheList × ℕ) := do
  let (h, l) ← getNextWrite h l
  let h ← match ← h.getCache l.write with
    | none => do
      let c ← Cache.new (min (roundUp n) maxToAlloc)
      h.setCache l.write c
    | some _ => pure h
  let (size, index, cnt) ← reuseLoop h l.read h.brk n l.write 0
  allocLoop size fuel h l index cnt

/-- The loop of `add`: count the bytes that were stored into the blocks from `index` on. -/
def addLoop (read : ℕ) : ℕ → Heap → ℕ → ℕ → Except Fault (Heap × ℕ)
  | 0, _, _, _ => .error .diverges
  | fuel + 1, h, size, index =>
    if size > 0 then do
      let c ← h.block index
      let writeSize := min size c.writeableSize
      let c := c.add writeSize
      let h ← h.setCache index c
      let size := size - writeSize
      let nx ← h.getNext index
      if c.full ∧ nx ≠ read then addLoop read fuel h size nx
      else if size = 0 then pure (h, index)
      else throw .assertFailed
    else pure (h, index)

/-- Take `n` bytes stored behind the content into the content. -/
def add (h : Heap) (l : CacheList) (n : ℕ) : Except Fault (Heap × CacheList) := do
  let (h, index) ← addLoop l.read (h.brk + 1) h n l.write
  pure (h, { l with write := index })

/-- The counting loop of `append`: the number of nodes from `p` to `last`. -/
def chainSizeLoop (h : Heap) (last : ℕ) : ℕ → ℕ → ℕ → Except Fault ℕ
  | 0, _, _ => .error .diverges
  | fuel + 1, p, size =>
    if p = last then .ok size
    else do
      let q ← h.getNext p
      chainSizeLoop h last fuel q (size + 1)

/-- Move the window of `other` behind the window of `l`.  The nodes of `l` between `write`
and `read` drop out of its ring. -/
def append (h : Heap) (l other : CacheList) : Except Fault (Heap × CacheList × CacheList) := do
  let chainSize ← chainSizeLoop h other.write h.brk other.read 1
  let beforeBegin ← h.getPrev other.read
  if beforeBegin = other.write then do
    -- the whole ring of `other` is its window
    let h ← h.setNext l.write other.read
    let h ← h.setPrev other.read l.write
    let h ← h.setPrev l.read other.write
    let h ← h.setNext other.write l.read
    let (h, o) := new h
    pure (h, { l with write := other.write, nodeSize := l.nodeSize + chainSize }, o)
  else do
    let afterEnd ← h.getNext other.write
    let h ← h.setNext l.write other.read
    let h ← h.setPrev other.read l.write
    let h ← h.setPrev l.read other.write
    let h ← h.setNext other.write l.read
    -- the spares of `other` are closed into a ring of their own
    let h ← h.setNext beforeBegin afterEnd
    let h ← h.setPrev afterEnd beforeBegin
    pure (h, { l with write := other.write, nodeSize := l.nodeSize + chainSize },
      ⟨afterEnd, afterEnd, afterEnd, sizeSub other.nodeSize chainSize⟩)

/-- The draining loop: take bytes from the front, clearing every block that runs empty and
stepping past it.  Returns the heap, the bytes still to take, the node reached and whether
a node was passed. -/
def drainLoop (write : ℕ) : ℕ → Heap → ℕ → ℕ → Bool → Except Fault (Heap × ℕ × ℕ × Bool)
  | 0, _, _, _, _ => .error .diverges
  | fuel + 1, h, size, index, need => do
    let c ← h.block index
    let drainSize := min size c.readableSize
    let size := size - drainSize
    let c := c.drain drainSize
    let (h, index, need) ←
      if c.empty then do
        let h ← h.setCache index c.clear
        if index ≠ write then do
          let nx ← h.getNext index
          pure (h, nx, true)
        else pure (h, index, need)
      else do
        let h ← h.setCache index c
        pure (h, index, need)
    if size ≠ 0 ∧ index ≠ write then drainLoop write fuel h size index need
    else pure (h, size, index, need)

/-- The loop shared by the clean-up in `drain` and by `reset`: delete the successor of
`first` until it is `stop`.  Returns the heap and the number of nodes deleted. -/
def unlinkLoop (first stop : ℕ) : ℕ → Heap → ℕ → Except Fault (Heap × ℕ)
  | 0, _, _ => .error .diverges
  | fuel + 1, h, count => do
    let tmp ← h.getNext first
    if tmp = stop then pure (h, count)
    else do
      let nx ← h.getNext tmp
      let h ← h.setPrev nx first
      let h ← h.setNext first nx
      let h ← h.free tmp
      unlinkLoop first stop fuel h (count + 1)

/-- The list once its window starts at `index` and some nodes have been deleted. -/
def trimmed (l : CacheList) (index deleted : ℕ) : CacheList :=
  { l with read := index, nodeSize := sizeSub l.nodeSize deleted }

@[simp] theorem trimmed_write (l : CacheList) (i d : ℕ) : (l.trimmed i d).write = l.write := rfl
theorem trimmed_nodeSize (l : CacheList) (i d : ℕ) :
    (l.trimmed i d).nodeSize = sizeSub l.nodeSize d := rfl

/-- Remove `n` bytes from the front of the window. -/
def drain (h : Heap) (l : CacheList) (n : ℕ) : Except Fault (Heap × CacheList) := do
  let (h, size, index, need) ← drainLoop l.write h.brk h n l.read false
  let h ←
    if size > 0 then do
      let c ← h.block index
      if size ≤ c.readableSize then h.setCache index (c.drain size)
      else throw .assertFailed
    else pure h
  let (h, deleted) ←
    if need ∧ l.nodeSize > maxChinaSize then unlinkLoop l.read index h.brk h 0
    else pure (h, 0)
  pure (h, l.trimmed index deleted)

/-- Shrink the ring to `head` and clear it. -/
def reset (h : Heap) (l : CacheList) : Except Fault (Heap × CacheList) := do
  let (h, _) ← unlinkLoop l.head l.head h.brk h 0
  let h ← match ← h.getCache l.head with
    | some c => h.setCache l.head c.clear
    | none => pure h
  pure (h, ⟨l.head, l.head, l.head, 1⟩)

end CacheList
end Hare.Net
