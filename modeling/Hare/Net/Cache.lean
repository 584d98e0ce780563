import Mathlib.Data.List.TakeDrop
import Mathlib.Tactic.Ring
import Hare.Base.Fault

/-!
# The storage block of a buffer

A `Cache` is one allocated array with three cursors: bytes before `misalign` have been
consumed, bytes between `misalign` and `size` are the content, and bytes between
`size` and `capacity` are free.  The array itself is a list, so that "the capacity is
the length of the allocated array" is a statement and not an assumption; a store behind
its end is a `Fault`.

Sizes are 64-bit unsigned.  Subtractions wrap (`sizeSub`), because the slide performed by
`Cache.realign` leaves `capacity` below `size` and everything after it depends on the
wrapped difference.
-/

namespace Hare.Net

def maxToRealign : ℕ := 2048
def minToAlloc : ℕ := 4096
def maxSize : ℕ := 0xffffffff
def maxChinaSize : ℕ := 16

/-- The largest array the allocator can provide (`PTRDIFF_MAX`). -/
def ptrdiffMax : ℕ := 2 ^ 63 - 1

/-- Subtraction of `std::size_t` values, both below `2 ^ 64`. -/
def sizeSub (a b : ℕ) : ℕ := if b ≤ a then a - b else a + 2 ^ 64 - b

theorem sizeSub_of_le {a b : ℕ} (h : b ≤ a) : sizeSub a b = a - b := if_pos h

theorem sizeSub_of_lt {a b : ℕ} (h : a < b) : sizeSub a b = a + 2 ^ 64 - b :=
  if_neg (Nat.not_le.mpr h)

/-! ## Allocation sizes -/

/-- The doubling loop of `roundUp`.  The request is below `2 ^ 31`, so the loop ends
within the given fuel. -/
def roundUpLoop : ℕ → ℕ → ℕ → ℕ
  | 0, size, _ => size
  | fuel + 1, size, n => if size < n then roundUpLoop fuel (size * 2) n else size

/-- The capacity allocated for a request of `n` bytes. -/
def roundUp (n : ℕ) : ℕ :=
  if n < maxSize / 2 then roundUpLoop 32 minToAlloc n else n

theorem le_roundUpLoop (fuel size n : ℕ) (h : n ≤ size * 2 ^ fuel) :
    n ≤ roundUpLoop fuel size n := by
  induction fuel generalizing size with
  | zero => simpa [roundUpLoop] using h
  | succ fuel ih =>
      rw [roundUpLoop]
      split
      · apply ih
        calc n ≤ size * 2 ^ (fuel + 1) := h
          _ = size * 2 * 2 ^ fuel := by ring
      · omega

theorem roundUpLoop_le (fuel size n : ℕ) : roundUpLoop fuel size n ≤ max size (2 * n) := by
  induction fuel generalizing size with
  | zero => exact le_max_left _ _
  | succ fuel ih =>
      rw [roundUpLoop]
      split
      · have := ih (size * 2)
        omega
      · exact le_max_left _ _

/-- An allocation has room for the request. -/
theorem le_roundUp (n : ℕ) : n ≤ roundUp n := by
  rw [roundUp]
  split
  · apply le_roundUpLoop
    simp only [maxSize, minToAlloc] at *
    omega
  · exact le_rfl

/-- An allocation for the bytes of an array can be provided. -/
theorem roundUp_le {n : ℕ} (h : n ≤ ptrdiffMax) : roundUp n ≤ ptrdiffMax := by
  rw [roundUp]
  have := roundUpLoop_le 32 minToAlloc n
  split <;> simp only [maxSize, minToAlloc, ptrdiffMax] at * <;> omega

/-! ## The block -/

/-- One block: the allocated array and its cursors. -/
structure Cache where
  ptr : List UInt8
  size : ℕ
  capacity : ℕ
  misalign : ℕ
  deriving DecidableEq, Repr

namespace Cache

/-- Allocate an empty block.  The array starts out uninitialised; what a buffer holds are bytes
that were written, so the initial ones are immaterial to it (an iterator can come to one). -/
def new (n : ℕ) : Except Fault Cache :=
  if n ≤ ptrdiffMax then .ok ⟨List.replicate n 0, 0, n, 0⟩ else .error .badAlloc

def writeableSize (c : Cache) : ℕ := sizeSub c.capacity c.size
def readableSize (c : Cache) : ℕ := sizeSub c.size c.misalign
def full (c : Cache) : Bool := c.size == c.capacity
def empty (c : Cache) : Bool := c.readableSize == 0
def clear (c : Cache) : Cache := { c with size := 0, misalign := 0 }
def drain (c : Cache) (n : ℕ) : Cache := { c with misalign := c.misalign + n }
def add (c : Cache) (n : ℕ) : Cache := { c with size := c.size + n }

/-- The bytes from `Readable()` on, `ReadableSize()` many. -/
def readable (c : Cache) : List UInt8 := (c.ptr.drop c.misalign).take c.readableSize

/-- `realign` moves the content to the front of the array for these requests. -/
def Slides (c : Cache) (n : ℕ) : Prop :=
  c.writeableSize < n ∧ n < c.writeableSize + c.misalign ∧ c.readableSize ≤ maxToRealign

instance (c : Cache) (n : ℕ) : Decidable (c.Slides n) :=
  inferInstanceAs (Decidable (_ < _ ∧ _ < _ ∧ _ ≤ _))

/-- Make room for `n` more bytes in place, if possible.  After the move, `Set` stores the
length of the content as the new *capacity*; `size` keeps its value. -/
def realign (c : Cache) (n : ℕ) : Bool × Cache :=
  let offset := c.readableSize
  if c.writeableSize ≥ n then (true, c)
  else if c.writeableSize + c.misalign > n ∧ offset ≤ maxToRealign then
    -- memmove(Begin(), Readable(), offset)
    let ptr := c.readable ++ c.ptr.drop offset
    (true, { c with ptr := ptr, capacity := offset, misalign := 0 })
  else (false, c)

/-- The copy loop of `util::Buffer::Append`.  `Grow` does nothing for a `Cache`, so once
the free capacity is used up the loop makes no more progress. -/
def appendLoop : ℕ → Cache → List UInt8 → Except Fault Cache
  | 0, _, _ => .error .diverges
  | fuel + 1, c, bytes =>
    if bytes = [] then .ok c
    else
      let freeCap := sizeSub c.capacity c.size
      let count := if freeCap < bytes.length then freeCap else bytes.length
      if c.size + count ≤ c.ptr.length then
        let ptr := c.ptr.take c.size ++ bytes.take count ++ c.ptr.drop (c.size + count)
        appendLoop fuel { c with ptr := ptr, size := c.size + count } (bytes.drop count)
      else .error .outOfBounds

/-- Append the bytes behind the content.  Every round that does not stall copies at least
one byte, so the fuel covers all of them and the final test. -/
def append (c : Cache) (bytes : List UInt8) : Except Fault Cache :=
  appendLoop (bytes.length + 1) c bytes

/-- Store bytes into the array from an offset on.  The cursors stay. -/
def store (c : Cache) (offset : ℕ) (bytes : List UInt8) : Except Fault Cache :=
  if offset + bytes.length ≤ c.ptr.length then
    .ok { c with ptr := c.ptr.take offset ++ bytes ++ c.ptr.drop (offset + bytes.length) }
  else .error .outOfBounds

/-- The cursor invariant of a block. -/
structure Valid (c : Cache) : Prop where
  misalign_le : c.misalign ≤ c.size
  size_le : c.size ≤ c.capacity
  capacity_eq : c.capacity = c.ptr.length
  fits : c.capacity ≤ ptrdiffMax

instance (c : Cache) : Decidable c.Valid :=
  decidable_of_iff (c.misalign ≤ c.size ∧ c.size ≤ c.capacity ∧ c.capacity = c.ptr.length ∧
    c.capacity ≤ ptrdiffMax) ⟨fun ⟨h₁, h₂, h₃, h₄⟩ => ⟨h₁, h₂, h₃, h₄⟩,
    fun ⟨h₁, h₂, h₃, h₄⟩ => ⟨h₁, h₂, h₃, h₄⟩⟩

variable {c : Cache} {n : ℕ} {bytes : List UInt8}

theorem Valid.readableSize_eq (H : c.Valid) : c.readableSize = c.size - c.misalign :=
  sizeSub_of_le H.misalign_le

theorem Valid.writeableSize_eq (H : c.Valid) : c.writeableSize = c.capacity - c.size :=
  sizeSub_of_le H.size_le

theorem Valid.length_readable (H : c.Valid) : c.readable.length = c.readableSize := by
  have := H.misalign_le
  have := H.size_le
  have := H.capacity_eq
  rw [readable, List.length_take, List.length_drop, H.readableSize_eq]
  omega

theorem Valid.empty_iff (H : c.Valid) : c.empty = true ↔ c.readable = [] := by
  rw [← List.length_eq_zero_iff, H.length_readable]
  simp [empty]

/-- The content is the part of the array between the two cursors. -/
theorem Valid.readable_eq (H : c.Valid) : c.readable = (c.ptr.take c.size).drop c.misalign := by
  rw [readable, H.readableSize_eq, List.drop_take]

theorem new_eq (h : n ≤ ptrdiffMax) : new n = .ok ⟨List.replicate n 0, 0, n, 0⟩ := if_pos h

theorem valid_new (h : n ≤ ptrdiffMax) : (Cache.mk (List.replicate n 0) 0 n 0).Valid :=
  ⟨le_rfl, Nat.zero_le n, by simp, h⟩

theorem valid_clear (H : c.Valid) : c.clear.Valid :=
  ⟨le_rfl, Nat.zero_le _, H.capacity_eq, H.fits⟩

theorem readable_clear (H : c.Valid) : c.clear.readable = [] := by
  rw [(valid_clear H).readable_eq]
  simp [clear]

theorem valid_drain (H : c.Valid) (h : n ≤ c.readableSize) : (c.drain n).Valid := by
  have := H.misalign_le
  rw [H.readableSize_eq] at h
  exact ⟨by simp only [drain]; omega, H.size_le, H.capacity_eq, H.fits⟩

theorem readable_drain (H : c.Valid) (h : n ≤ c.readableSize) :
    (c.drain n).readable = c.readable.drop n := by
  rw [(valid_drain H h).readable_eq, H.readable_eq, List.drop_drop]
  simp [drain]

/-! ## Storing -/

theorem store_eq {offset : ℕ} (h : offset + bytes.length ≤ c.ptr.length) :
    c.store offset bytes = .ok
      { c with ptr := c.ptr.take offset ++ bytes ++ c.ptr.drop (offset + bytes.length) } :=
  if_pos h

/-- A store inside the array moves no cursor. -/
theorem valid_store {offset : ℕ} (H : c.Valid) (h : offset + bytes.length ≤ c.ptr.length) :
    Valid { c with ptr := c.ptr.take offset ++ bytes ++ c.ptr.drop (offset + bytes.length) } := by
  refine ⟨H.misalign_le, H.size_le, ?_, H.fits⟩
  have hcap := H.capacity_eq
  simp only [List.length_append, List.length_take, List.length_drop]
  omega

/-- A store over the beginning of the content. -/
theorem store_readable (H : c.Valid) (h : bytes.length ≤ c.readableSize) :
    ∃ c', c.store c.misalign bytes = .ok c' ∧ c'.Valid ∧
      c'.readable = bytes ++ c.readable.drop bytes.length := by
  have hsize := H.size_le
  have hcap := H.capacity_eq
  have hmis := H.misalign_le
  rw [H.readableSize_eq] at h
  have hin : c.misalign + bytes.length ≤ c.ptr.length := by omega
  refine ⟨_, store_eq hin, valid_store H hin, ?_⟩
  have hlen : (c.ptr.take c.misalign).length = c.misalign := by
    rw [List.length_take]
    omega
  have hskip : (c.ptr.take c.misalign ++ bytes ++ c.ptr.drop (c.misalign + bytes.length)).drop
      c.misalign = bytes ++ c.ptr.drop (c.misalign + bytes.length) := by
    rw [List.append_assoc, List.drop_left' hlen]
  rw [readable, readable, hskip, readableSize, readableSize, sizeSub_of_le hmis, List.take_append,
    List.take_of_length_le h, List.drop_take, List.drop_drop]

/-! ## Making room -/

theorem realign_of_le (h : n ≤ c.writeableSize) : c.realign n = (true, c) := by
  simp [realign, h]

theorem realign_of_not_slides (h : ¬ n ≤ c.writeableSize) (hs : ¬ c.Slides n) :
    c.realign n = (false, c) := by
  simp only [Slides, not_and] at hs
  simp only [realign, ge_iff_le, h, if_false]
  rw [if_neg]
  rintro ⟨h₁, h₂⟩
  exact hs (by omega) h₁ h₂

theorem realign_of_slides (hs : c.Slides n) : c.realign n =
    (true, { c with
      ptr := c.readable ++ c.ptr.drop c.readableSize
      capacity := c.readableSize
      misalign := 0 }) := by
  obtain ⟨h₁, h₂, h₃⟩ := hs
  simp only [realign, ge_iff_le, Nat.not_le.mpr h₁, if_false]
  rw [if_pos ⟨h₂, h₃⟩]

/-! ## Appending -/

/-- One round of the copy loop that lets the whole request through. -/
theorem appendLoop_of_room {fuel : ℕ} (hne : bytes ≠ [])
    (hfree : ¬ sizeSub c.capacity c.size < bytes.length)
    (hroom : c.size + bytes.length ≤ c.ptr.length) :
    appendLoop (fuel + 2) c bytes = .ok { c with
      ptr := c.ptr.take c.size ++ bytes ++ c.ptr.drop (c.size + bytes.length)
      size := c.size + bytes.length } := by
  rw [appendLoop, if_neg hne]
  simp only [hfree, if_false, hroom, if_true, List.take_length, List.drop_length]
  rw [appendLoop, if_pos rfl]

theorem append_of_le (H : c.Valid) (h : bytes.length ≤ c.writeableSize) :
    c.append bytes = .ok { c with
      ptr := c.ptr.take c.size ++ bytes ++ c.ptr.drop (c.size + bytes.length)
      size := c.size + bytes.length } := by
  rcases eq_or_ne bytes [] with rfl | hne
  · simp [append, appendLoop]
  have hcap := H.capacity_eq
  have hsize := H.size_le
  have hw := H.writeableSize_eq
  obtain ⟨m, hm⟩ : ∃ m, bytes.length + 1 = m + 2 :=
    ⟨bytes.length - 1, by have := List.length_pos_iff.mpr hne; omega⟩
  rw [append, hm]
  refine appendLoop_of_room hne (Nat.not_lt.mpr h) ?_
  omega

theorem append_spec (H : c.Valid) (h : bytes.length ≤ c.writeableSize) :
    ∃ c', c.append bytes = .ok c' ∧ c'.Valid ∧ c'.readable = c.readable ++ bytes := by
  have hw := H.writeableSize_eq
  have hcap := H.capacity_eq
  have hsize := H.size_le
  have hmis := H.misalign_le
  have hlen : (c.ptr.take c.size).length = c.size := by
    rw [List.length_take]
    omega
  have hvalid : Valid { c with
      ptr := c.ptr.take c.size ++ bytes ++ c.ptr.drop (c.size + bytes.length)
      size := c.size + bytes.length } := by
    refine ⟨Nat.le_add_right_of_le hmis, by simp only; omega, ?_, H.fits⟩
    simp only [List.length_append, List.length_take, List.length_drop]
    omega
  refine ⟨_, append_of_le H h, hvalid, ?_⟩
  rw [hvalid.readable_eq, H.readable_eq]
  simp only
  rw [List.take_left' (by rw [List.length_append, hlen]),
    List.drop_append_of_le_length (by omega)]

/-- **After a slide the copy runs over the end of the array.**  The wrapped free capacity
`2 ^ 64 - misalign` lets the whole request through, at an offset that was never moved. -/
theorem append_realign_of_slides (H : c.Valid) (hs : c.Slides bytes.length) :
    (c.realign bytes.length).2.append bytes = .error .outOfBounds := by
  have hw := H.writeableSize_eq
  have hr := H.readableSize_eq
  have hcap := H.capacity_eq
  have hsize := H.size_le
  have hmis := H.misalign_le
  have hfits := H.fits
  simp only [realign_of_slides hs]
  obtain ⟨h₁, h₂, h₃⟩ := hs
  rw [hw] at h₁ h₂
  have hne : bytes ≠ [] := by
    rintro rfl
    simp at h₁
  have hfree : sizeSub c.readableSize c.size = 2 ^ 64 - c.misalign := by
    rw [sizeSub_of_lt (by omega), hr]
    omega
  have hcount : ¬ 2 ^ 64 - c.misalign < bytes.length := by
    simp only [ptrdiffMax] at hfits
    omega
  have hlen : (c.readable ++ c.ptr.drop c.readableSize).length = c.ptr.length := by
    rw [List.length_append, List.length_drop, H.length_readable]
    omega
  rw [append, appendLoop, if_neg hne]
  simp only [hfree, hcount, if_false, hlen]
  rw [if_neg (by omega)]

end Cache
end Hare.Net
