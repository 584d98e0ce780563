import Hare.Net.CacheList

/-!
# The byte buffer

A `Buffer` owns one chain of blocks and the number of bytes it holds.  Bytes are added at
the end of the chain, appended by taking over the blocks of another buffer, and removed
from the front by `skip` or by a gathering write to a socket.

The counter is a `std::size_t`: sums are taken modulo `2 ^ 64`.

## Main definitions

* `Buffer`, `Buffer.new`, `Buffer.destroy`.
* `Buffer.add`, `Buffer.append`, `Buffer.skip`, `Buffer.clearAll`, `Buffer.write`.
* `Buffer.remove`, `Buffer.read`: copying out, and reading from a socket.
* `Payload`: the bytes a caller can pass.
-/

namespace Hare.Net

/-- The most blocks one gathering write offers. -/
def numWriteIovec : ℕ := 128

/-- The bytes of one caller-provided array. -/
structure Payload where
  bytes : List UInt8
  fits : bytes.length ≤ ptrdiffMax

/-- An array of `n` zero bytes. -/
def Payload.zeros (n : ℕ) (h : n ≤ ptrdiffMax) : Payload := ⟨List.replicate n 0, by simpa using h⟩

/-- A chain of blocks and the number of unread bytes in it. -/
structure Buffer where
  cacheChain : CacheList
  totalLen : ℕ
  deriving DecidableEq, Repr

namespace Buffer

def new (h : Heap) : Heap × Buffer :=
  let (h, l) := CacheList.new h
  (h, ⟨l, 0⟩)

/-- The destructor: shrink the ring to `head` and delete it. -/
def destroy (h : Heap) (b : Buffer) : Except Fault Heap := do
  let (h, l) ← b.cacheChain.reset h
  h.free l.head

def size (b : Buffer) : ℕ := b.totalLen

def clearAll (h : Heap) (b : Buffer) : Except Fault (Heap × Buffer) := do
  let (h, l) ← b.cacheChain.reset h
  pure (h, ⟨l, 0⟩)

/-- Drop `n` bytes from the front. -/
def skip (h : Heap) (b : Buffer) (n : ℕ) : Except Fault (Heap × Buffer) :=
  if n ≥ b.totalLen then clearAll h b
  else do
    let (h, l) ← b.cacheChain.drain h n
    pure (h, ⟨l, b.totalLen - n⟩)

section Skip
variable {h h' : Heap} {b : Buffer} {l : CacheList} {n : ℕ}

theorem skip_of_lt (hlt : n < b.totalLen) (hrun : b.cacheChain.drain h n = .ok (h', l)) :
    b.skip h n = .ok (h', ⟨l, b.totalLen - n⟩) := by
  rw [skip, if_neg (Nat.not_le.mpr hlt), hrun]
  rfl

theorem clearAll_eq (hrun : b.cacheChain.reset h = .ok (h', l)) :
    clearAll h b = .ok (h', ⟨l, 0⟩) := by
  rw [clearAll, hrun]
  rfl

/-- Skipping everything is clearing. -/
theorem skip_of_le (hle : b.totalLen ≤ n) : b.skip h n = clearAll h b := if_pos hle

end Skip

/-- Copy bytes to the end, within the cap. -/
def add (h : Heap) (b : Buffer) (bytes : List UInt8) : Except Fault (Bool × Heap × Buffer) :=
  if (b.totalLen + bytes.length) % 2 ^ 64 > maxSize then .ok (false, h, b)
  else do
    let totalLen := (b.totalLen + bytes.length) % 2 ^ 64
    let (h, l) ← b.cacheChain.checkSize h bytes.length
    let c ← h.block l.write
    let c ← c.append bytes
    let h ← h.setCache l.write c
    pure (true, h, ⟨l, totalLen⟩)

/-- Take over the content of another buffer.  The caller has excluded that both are the
same one; an empty buffer swaps its chain for the other's. -/
def append (h : Heap) (b other : Buffer) : Except Fault (Heap × Buffer × Buffer) :=
  if other.totalLen = 0 then .ok (h, b, other)
  else if b.totalLen = 0 then
    .ok (h, ⟨other.cacheChain, (b.totalLen + other.totalLen) % 2 ^ 64⟩, ⟨b.cacheChain, 0⟩)
  else do
    let (h, l, o) ← b.cacheChain.append h other.cacheChain
    pure (h, ⟨l, (b.totalLen + other.totalLen) % 2 ^ 64⟩, ⟨o, 0⟩)

/-- Collect the blocks to offer, at most `slots` of them and `total` bytes. -/
def iovLoop (h : Heap) : ℕ → ℕ → ℕ → Except Fault (List (List UInt8))
  | 0, _, _ => .ok []
  | slots + 1, curr, total =>
    if total > 0 then do
      let c ← h.block curr
      if total > c.readableSize then do
        let nx ← h.getNext curr
        let iov ← iovLoop h slots nx (total - c.readableSize)
        pure (c.readable :: iov)
      else pure [c.readable.take total]
    else .ok []

/-- The bytes one write offers to the socket. -/
def offer (h : Heap) (b : Buffer) (howmuch : ℕ) : Except Fault (List (List UInt8)) :=
  let total := if howmuch = 0 then b.totalLen else howmuch
  let total := if total > b.totalLen then b.totalLen else total
  iovLoop h numWriteIovec b.cacheChain.read total

/-- Offer the content to a socket that takes at most `accept` bytes, none when it fails.
Returns the bytes it took. -/
def write (h : Heap) (b : Buffer) (howmuch accept : ℕ) :
    Except Fault (List UInt8 × Heap × Buffer) := do
  let iov ← b.offer h howmuch
  -- `writev` takes bytes in the order of the vector
  let taken := iov.flatten.take accept
  if taken = [] then pure ([], h, b)
  else do
    let (h, l) ← b.cacheChain.drain h taken.length
    pure (taken, h, ⟨l, b.totalLen - taken.length⟩)

/-! ## Copying out -/

/-- The copy loop of `remove`, as it is written: `std::uninitialized_copy_n` takes its source
first, so the bytes of `dest` are copied into the blocks. -/
def removeLoop (dest : List UInt8) (length : ℕ) : ℕ → Heap → ℕ → ℕ → Except Fault Heap
  | 0, _, _, _ => .error .diverges
  | fuel + 1, h, curr, total =>
    if total < length then do
      let c ← h.block curr
      let copyLen := min (length - total) c.readableSize
      if dest.length < total + copyLen then throw .outOfBounds
      else do
        let c ← c.store c.misalign ((dest.drop total).take copyLen)
        let h ← h.setCache curr c
        let nx ← h.getNext curr
        removeLoop dest length fuel h nx (total + copyLen)
    else pure h

/-- Take up to `n` bytes off the front.  Returns their number and the caller's array. -/
def remove (h : Heap) (b : Buffer) (dest : List UInt8) (n : ℕ) :
    Except Fault (ℕ × List UInt8 × Heap × Buffer) :=
  if n = 0 ∨ b.totalLen = 0 then .ok (0, dest, h, b)
  else do
    let length := if n > b.totalLen then b.totalLen else n
    let h ← removeLoop dest length (h.brk + 1) h b.cacheChain.read 0
    let (h, l) ← b.cacheChain.drain h length
    pure (length, dest, h, ⟨l, b.totalLen - length⟩)

/-! ## Reading from a socket -/

/-- One entry of the vector given to `readv`: a place in the block of a node. -/
structure IoVec where
  node : ℕ
  offset : ℕ
  len : ℕ
  deriving DecidableEq, Repr

/-- The vector: the free parts of `cnt` blocks, from `block` on. -/
def vecsLoop (h : Heap) : ℕ → ℕ → Except Fault (List IoVec)
  | 0, _ => .ok []
  | cnt + 1, block => do
    let c ← h.block block
    let nx ← h.getNext block
    let vecs ← vecsLoop h cnt nx
    pure (⟨block, c.size, c.writeableSize⟩ :: vecs)

/-- The number of bytes a vector can take. -/
def room (vecs : List IoVec) : ℕ := (vecs.map IoVec.len).sum

/-- `readv` stores bytes into the parts of the vector, in order. -/
def scatter : Heap → List IoVec → List UInt8 → Except Fault Heap
  | h, [], _ => .ok h
  | h, v :: vecs, bytes => do
    let c ← h.block v.node
    let c ← c.store v.offset (bytes.take v.len)
    let h ← h.setCache v.node c
    scatter h vecs (bytes.drop v.len)

/-- The number of bytes a read asks for: what the socket has, or `maxRead` when it does not
say, and not more than `howmuch` unless that is zero. -/
def request (maxRead available howmuch : ℕ) : ℕ :=
  let readable := if available = 0 then maxRead else available
  if howmuch = 0 ∨ howmuch > readable then readable else howmuch

/-- What a socket that has `arrived` gives to a vector, nothing when the call fails. -/
def received (vecs : List IoVec) (arrived : Option (List UInt8)) : List UInt8 :=
  (arrived.getD []).take (room vecs)

/-- Make room for a read and collect the vector. -/
def prepareRead (fuel : ℕ) (h : Heap) (b : Buffer) (maxRead available howmuch : ℕ) :
    Except Fault (Heap × CacheList × List IoVec) := do
  let (h, l, blockSize) ← b.cacheChain.fastExpand fuel h (request maxRead available howmuch)
  let vecs ← vecsLoop h blockSize l.write
  pure (h, l, vecs)

/-- Read from a socket to the end of the content.  `available` is what the socket says to have;
`arrived` are the bytes `readv` finds, `none` when it fails and empty at the end of the stream.
Returns the number of bytes read. -/
def read (fuel : ℕ) (h : Heap) (b : Buffer) (maxRead available howmuch : ℕ)
    (arrived : Option (List UInt8)) : Except Fault (ℕ × Heap × Buffer) := do
  let (h, l, vecs) ← b.prepareRead fuel h maxRead available howmuch
  let bytes := received vecs arrived
  let h ← scatter h vecs bytes
  if bytes = [] then pure (0, h, ⟨l, b.totalLen⟩)
  else do
    let (h, l) ← l.add h bytes.length
    pure (bytes.length, h, ⟨l, (b.totalLen + bytes.length) % 2 ^ 64⟩)

end Buffer
end Hare.Net
