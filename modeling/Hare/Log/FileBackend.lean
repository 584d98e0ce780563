import Hare.Base.QueueRun
import Hare.Lib.Text
import Mathlib.Data.Finset.Card
import Mathlib.Data.Finset.Range

/-!
# The file backend

`FileBackend` with `RotateFileBySize` writes to a file until it is large enough, and goes on with
the next one.  The names repeat modulo `max_files`, and the names of the last files are kept in
a circular queue; when it is full, the file with the oldest name is removed.

The model has the names and the sizes of files, and of a message its size.  A file that has been
removed is not part of the directory any more, though it may still be open for writing.  The
functions of the file system succeed.  The size of a file counts what is still in its buffer: the
backend asks the system for sizes only when it opens a file, and by then it has closed the others.

A ring of `max_files` slots holds one name less.  So one file less than promised is left
(`existing_eq`), and a single file is removed by the rotation that opens it
(`removed_ne_live_iff`).
-/

namespace Hare.Log

open BoundedFifo Text Util

abbrev Filename := List Char

/-- The files of the directory, with their sizes. -/
abbrev Disk := Filename → Option ℕ

/-- The file that is open for writing. -/
structure FileHelper where
  filename : Filename
  size : ℕ
  writtenBytes : ℕ
  deriving DecidableEq, Repr

namespace FileHelper

/-- `Open`, for appending; a file that does not exist is made. -/
def open' (disk : Disk) (file : Filename) : FileHelper × Disk :=
  let size := (disk file).getD 0
  (⟨file, size, 0⟩, Function.update disk file (some size))

@[simp] theorem filename_open (disk : Disk) (file : Filename) :
    (open' disk file).1.filename = file := rfl

def length (f : FileHelper) : ℕ := f.size + f.writtenBytes

def append (f : FileHelper) (disk : Disk) (bytes : ℕ) : FileHelper × Disk :=
  ({ f with writtenBytes := f.writtenBytes + bytes },
    Function.update disk f.filename ((disk f.filename).map (· + bytes)))

end FileHelper

/-- `io::file_inner::Remove`. -/
def Disk.remove (disk : Disk) (file : Filename) : Disk := Function.update disk file none

/-- The text `{}.{}.log`. -/
def formatName (basename : Filename) (id : ℤ) : Filename :=
  basename ++ '.' :: zeroPadded 0 id ++ ['.', 'l', 'o', 'g']

/-- The name with an id that has not overflowed. -/
def logName (basename : Filename) (id : ℕ) : Filename := formatName basename id

/-- The generator of file names.  Its ids are of 32 bits; they stay below `max_files`, if that is
positive, and otherwise run over in the end. -/
structure RotateFileBySize where
  rotateId : ℤ
  maxFiles : ℤ
  deriving DecidableEq, Repr

namespace RotateFileBySize

def getName (g : RotateFileBySize) (basename : Filename) : Filename × RotateFileBySize :=
  let tmp := g.rotateId
  let rotateId := g.rotateId + 1
  (formatName basename tmp,
    -- Below a limit of 32 bits the sum cannot overflow.
    { g with rotateId :=
        if 0 < g.maxFiles then rotateId % g.maxFiles else rotateId.bmod (2 ^ 32) })

def shouldRotate (maxSize : ℕ) (file : FileHelper) : Bool := maxSize ≤ file.length

end RotateFileBySize

structure FileBackend where
  generator : RotateFileBySize
  basename : Filename
  file : FileHelper
  maxFiles : ℤ
  filenameHistory : CircularQueue Filename

/-- What a rotation does: the file that is open for writing when `DeleteOld` is called, and the
name `DeleteOld` passes to `Remove`. -/
structure Rotation where
  live : Filename
  removed : Option Filename
  deriving DecidableEq, Repr

/-- The backend and the directory it writes to. -/
structure Logs where
  backend : FileBackend
  disk : Disk

namespace Logs

/-- The constructor of `FileBackend`. -/
def new (basename : Filename) (maxFiles : ℤ) (disk : Disk) : Logs :=
  let (filename, generator) := RotateFileBySize.getName ⟨0, maxFiles⟩ basename
  let (file, disk) := FileHelper.open' disk filename
  let history := CircularQueue.new (if 0 < maxFiles then maxFiles.toNat else 0)
  let filenameHistory := if 0 < maxFiles then history.pushBack file.filename else history
  ⟨{ generator, basename, file, maxFiles, filenameHistory }, disk⟩

/-- `DeleteOld`, with the name it passes to `Remove`. -/
def deleteOld (s : Logs) : Logs × Option Filename :=
  let history := s.backend.filenameHistory
  if history.full then
    let (tmp, history) := history.popFront
    (⟨{ s.backend with filenameHistory := history.pushBack s.backend.file.filename },
      s.disk.remove tmp⟩, some tmp)
  else
    (⟨{ s.backend with filenameHistory := history.pushBack s.backend.file.filename }, s.disk⟩,
      none)

/-- The rotation of `InnerSinkIt`. -/
def rotate (s : Logs) : Logs × Rotation :=
  let (filename, generator) := s.backend.generator.getName s.backend.basename
  let (file, disk) := FileHelper.open' s.disk filename
  let s : Logs := ⟨{ s.backend with generator, file }, disk⟩
  if 0 < s.backend.maxFiles then
    let (s', removed) := s.deleteOld
    (s', ⟨s.backend.file.filename, removed⟩)
  else (s, ⟨s.backend.file.filename, none⟩)

/-- `InnerSinkIt` of a message of `bytes` bytes. -/
def innerSinkIt (maxSize : ℕ) (s : Logs) (bytes : ℕ) : Logs × Option Rotation :=
  let (file, disk) := s.backend.file.append s.disk bytes
  let s : Logs := ⟨{ s.backend with file }, disk⟩
  if RotateFileBySize.shouldRotate maxSize file then
    let (s, rotation) := s.rotate
    (s, some rotation)
  else (s, none)

/-- Messages one after the other, with the rotations they cause. -/
def sinkAll (maxSize : ℕ) (s : Logs) : List ℕ → Logs × List Rotation
  | [] => (s, [])
  | bytes :: rest =>
    let (s, rotation) := s.innerSinkIt maxSize bytes
    let (s, rotations) := s.sinkAll maxSize rest
    (s, rotation.toList ++ rotations)

variable {basename : Filename} {n r : ℕ} {s : Logs}

theorem deleteOld_eq : s.deleteOld =
    let history := s.backend.filenameHistory
    (⟨{ s.backend with filenameHistory :=
          (if history.full then history.popFront.2 else history).pushBack s.backend.file.filename },
      if history.full then s.disk.remove history.popFront.1 else s.disk⟩,
      if history.full then some history.popFront.1 else none) := by
  unfold deleteOld
  dsimp only
  split <;> rfl

/-! ## The names -/

theorem logName_injective (basename : Filename) : Function.Injective (logName basename) := by
  intro i j h
  have hdigits : zeroPadded 0 i = zeroPadded 0 j :=
    (List.cons.inj (List.append_cancel_left (List.append_cancel_right h))).2
  rw [zeroPadded_natCast, zeroPadded_natCast] at hdigits
  exact toDigits_injective (by decide) (by decide) hdigits

/-- The files after one has been opened. -/
theorem isSome_open (disk : Disk) (basename : Filename) (id i : ℕ) :
    ((FileHelper.open' disk (logName basename id)).2 (logName basename i)).isSome ↔
      (disk (logName basename i)).isSome ∨ i = id := by
  rw [FileHelper.open']
  dsimp only
  by_cases hi : i = id
  · subst hi
    simp
  · rw [Function.update_of_ne ((logName_injective basename).ne hi)]
    simp [hi]

/-- The files after one has been removed. -/
theorem isSome_remove (disk : Disk) (basename : Filename) (id i : ℕ) :
    (disk.remove (logName basename id) (logName basename i)).isSome ↔
      (disk (logName basename i)).isSome ∧ i ≠ id := by
  rw [Disk.remove]
  by_cases hi : i = id
  · subst hi
    simp
  · rw [Function.update_of_ne ((logName_injective basename).ne hi)]
    simp [hi]

/-- The names of the first `k` files. -/
def names (basename : Filename) (n k : ℕ) : List Filename :=
  (List.range k).map fun i => logName basename (i % n)

@[simp] theorem length_names (k : ℕ) : (names basename n k).length = k := by simp [names]

theorem names_succ (k : ℕ) :
    names basename n (k + 1) = names basename n k ++ [logName basename (k % n)] := by
  simp [names, List.range_succ]

theorem succ_mod_ne (hn : 1 < n) (k : ℕ) : (k + 1) % n ≠ k % n := by
  intro heq
  have hmod : 1 ≡ 0 [MOD n] := Nat.ModEq.add_left_cancel' k heq
  rw [Nat.ModEq, Nat.mod_eq_of_lt hn, Nat.zero_mod] at hmod
  cases hmod

/-- What the `k`th rotation does. -/
def rotation (basename : Filename) (n k : ℕ) : Rotation where
  live := logName basename (k % n)
  removed := if n ≤ k + 1 then some (logName basename ((k + 1) % n)) else none

/-! ## The state after a number of rotations -/

/-- The state after `r` rotations with `n` files. -/
structure After (basename : Filename) (n r : ℕ) (s : Logs) : Prop where
  basename_eq : s.backend.basename = basename
  generator : s.backend.generator = ⟨((r + 1) % n : ℕ), n⟩
  maxFiles : s.backend.maxFiles = n
  file : s.backend.file.filename = logName basename (r % n)
  slots : s.backend.filenameHistory.maxCapacity = n
  history : s.backend.filenameHistory.content =
    (Fifo.empty.pushes (n - 1) (names basename n (r + 1))).items
  /-- A ring of one slot has no content, but still its last item. -/
  front : n = 1 → s.backend.filenameHistory.front = logName basename 0

/-- Which of the files exist after `r` rotations: those that have been opened, but after a
rotation not the one that will be opened next. -/
def Present (basename : Filename) (n r : ℕ) (disk : Disk) : Prop :=
  ∀ i < n, (disk (logName basename i)).isSome ↔ i ≤ r ∧ (r = 0 ∨ i ≠ (r + 1) % n)

theorem front_pushBack {q : CircularQueue Filename} (h : q.maxCapacity = 1) (item : Filename) :
    (q.pushBack item).front = item := by
  have hmax : 0 < q.maxCapacity := by omega
  have hhead := (q.pushBack item).head_lt (by simpa using hmax)
  have htail := q.tail_lt hmax
  rw [CircularQueue.pushBack_maxCapacity, h, Nat.lt_one_iff] at hhead
  rw [h, Nat.lt_one_iff] at htail
  rw [CircularQueue.front, hhead]
  simp [CircularQueue.pushBack, hmax, htail]

theorem after_new (hn : 0 < n) (disk : Disk) : After basename n 0 (new basename n disk) := by
  have hpos : (0 : ℤ) < n := by exact_mod_cast hn
  have hgen : RotateFileBySize.getName ⟨0, n⟩ basename =
      (logName basename 0, ⟨(1 % n : ℕ), n⟩) := by
    simp [RotateFileBySize.getName, logName, hn]
  simp only [new, hgen, if_pos hpos, Int.toNat_natCast]
  refine ⟨rfl, by rw [Nat.zero_add], rfl, by rw [Nat.zero_mod]; rfl,
    CircularQueue.pushBack_maxCapacity, ?_, fun hone => front_pushBack hone _⟩
  have hpush := CircularQueue.toFifo_pushBack (q := CircularQueue.new n) hn (logName basename 0)
  rw [names_succ, Fifo.pushes_concat, Nat.zero_mod]
  exact congrArg Fifo.items hpush

theorem present_new : Present basename n 0 (new basename n fun _ => none).disk := by
  intro i _
  have hopened := isSome_open (fun _ => none) basename 0 i
  simp only [Option.isSome_none, Bool.false_eq_true, false_or] at hopened
  refine hopened.trans ?_
  simp

namespace After

theorem length_history (h : After basename n r s) :
    s.backend.filenameHistory.content.length = r + 1 - (r + 1 - (n - 1)) := by
  rw [h.history, Fifo.items_pushes (Nat.zero_le _), List.length_drop, List.length_append,
    length_names]
  simp [Fifo.empty]

/-- The history is full when the names begin to repeat, one rotation early. -/
theorem full_iff (h : After basename n r s) (hn : 0 < n) :
    s.backend.filenameHistory.full = true ↔ n ≤ r + 2 := by
  rw [CircularQueue.full_iff (by rw [h.slots]; exact hn), h.length_history, h.slots]
  omega

/-- The oldest name of a full history. -/
theorem oldest (h : After basename n r s) (hn : 0 < n) (hfull : n ≤ r + 2) :
    s.backend.filenameHistory.popFront.1 = logName basename ((r + 2) % n) := by
  have hmax : 0 < s.backend.filenameHistory.maxCapacity := by rw [h.slots]; exact hn
  rcases Nat.lt_or_ge 1 n with hmany | hone
  · have hempty : s.backend.filenameHistory.empty = false := by
      rw [← Bool.not_eq_true, CircularQueue.empty_iff hmax, ← List.length_eq_zero_iff,
        h.length_history]
      omega
    have hfirst := congrArg List.head? (CircularQueue.content_popFront hmax hempty)
    rw [h.history, Fifo.items_pushes (Nat.zero_le _), List.head?_drop, List.head?_cons,
      length_names] at hfirst
    simp only [Fifo.empty, List.nil_append, List.length_nil, Nat.zero_add, names,
      List.getElem?_map] at hfirst
    rw [List.getElem?_range (by omega), Option.map_some, Option.some.injEq] at hfirst
    rw [← hfirst, Nat.mod_eq_sub_mod hfull]
    congr 2
    omega
  · obtain rfl : n = 1 := by omega
    rw [Nat.mod_one]
    exact h.front rfl

/-- A file is opened and perhaps another one removed. -/
theorem present_succ {disk disk' : Disk} (h : Present basename n r disk)
    (hdisk : ∀ i < n, (disk' (logName basename i)).isSome ↔
      ((disk (logName basename i)).isSome ∨ i = (r + 1) % n) ∧
        ¬ (n ≤ r + 2 ∧ i = (r + 2) % n)) : Present basename n (r + 1) disk' := by
  intro i hi
  rw [hdisk i hi, h i hi, Nat.add_assoc r 1 1]
  rcases Nat.lt_or_ge (r + 1) n with hnew | hold
  · rw [Nat.mod_eq_of_lt hnew]
    rcases Nat.lt_or_ge (r + 2) n with hnew' | hold'
    · rw [Nat.mod_eq_of_lt hnew']
      omega
    · omega
  · omega

/-- One more rotation. -/
theorem rotate (h : After basename n r s) (hn : 0 < n) :
    s.rotate.2 = rotation basename n (r + 1) ∧ After basename n (r + 1) s.rotate.1 ∧
      (Present basename n r s.disk → Present basename n (r + 1) s.rotate.1.disk) := by
  have hpos : (0 : ℤ) < n := by exact_mod_cast hn
  have hgen : s.backend.generator.getName s.backend.basename =
      (logName basename ((r + 1) % n), ⟨((r + 2) % n : ℕ), n⟩) := by
    rw [h.generator, h.basename_eq]
    simp [RotateFileBySize.getName, logName, hn, add_assoc]
  have hslots : ∀ b, (if b = true then s.backend.filenameHistory.popFront.2
      else s.backend.filenameHistory).maxCapacity = n := by
    intro b
    split
    · exact h.slots
    · exact h.slots
  have hfull : s.backend.filenameHistory.full = decide (n ≤ r + 2) := by
    rw [Bool.eq_iff_iff, h.full_iff hn, decide_eq_true_eq]
  have hold := h.oldest hn
  have hroom := CircularQueue.content_makeRoom (q := s.backend.filenameHistory)
    (by rw [h.slots]; exact hn) (logName basename ((r + 1) % n))
  rw [h.slots] at hroom
  simp only [Logs.rotate, hgen, h.maxFiles, if_pos hpos, deleteOld_eq, FileHelper.filename_open]
  refine ⟨?_, ⟨h.basename_eq, rfl, rfl, rfl, ?_, ?_, ?_⟩, fun hdisk => ?_⟩
  · rw [hfull, rotation, Rotation.mk.injEq]
    refine ⟨rfl, ?_⟩
    by_cases hle : n ≤ r + 2
    · simp [hle, hold hle]
    · simp [hle]
  · rw [CircularQueue.pushBack_maxCapacity, hslots]
  · rw [hroom, names_succ (r + 1), Fifo.pushes_concat]
    exact Fifo.items_push_congr h.history _
  · intro hone
    rw [front_pushBack (by rw [hslots, hone]), hone, Nat.mod_one]
  · refine present_succ hdisk fun i hi => ?_
    have hopened := isSome_open s.disk basename ((r + 1) % n) i
    rw [hfull]
    by_cases hle : n ≤ r + 2
    · simp only [hle, decide_true, if_true, hold hle, true_and]
      rw [isSome_remove, hopened]
    · simp only [hle, decide_false, Bool.false_eq_true, if_false, false_and, not_false_eq_true,
        and_true]
      exact hopened

/-- A message that causes no rotation. -/
theorem append (h : After basename n r s) (bytes : ℕ) :
    let written := s.backend.file.append s.disk bytes
    After basename n r ⟨{ s.backend with file := written.1 }, written.2⟩ ∧
      (Present basename n r s.disk → Present basename n r written.2) := by
  refine ⟨⟨h.basename_eq, h.generator, h.maxFiles, h.file, h.slots, h.history, h.front⟩, ?_⟩
  intro hdisk i hi
  rw [← hdisk i hi, FileHelper.append]
  dsimp only
  by_cases heq : logName basename i = s.backend.file.filename
  · rw [heq, Function.update_self, Option.isSome_map]
  · rw [Function.update_of_ne heq]

/-- What one message does: nothing to the files, or the next rotation. -/
theorem innerSinkIt (h : After basename n r s) (hn : 0 < n) (maxSize bytes : ℕ) :
    ∃ k, (s.innerSinkIt maxSize bytes).2.toList =
        (List.range k).map (fun i => rotation basename n (r + i + 1)) ∧
      After basename n (r + k) (s.innerSinkIt maxSize bytes).1 ∧
      (Present basename n r s.disk →
        Present basename n (r + k) (s.innerSinkIt maxSize bytes).1.disk) := by
  obtain ⟨hwritten, hdisk⟩ := h.append bytes
  rw [Logs.innerSinkIt]
  dsimp only
  split
  · obtain ⟨hrotation, hafter, hpresent⟩ := hwritten.rotate hn
    exact ⟨1, by rw [hrotation]; rfl, hafter, fun hp => hpresent (hdisk hp)⟩
  · exact ⟨0, rfl, hwritten, hdisk⟩

/-- **What any messages do**: the rotations come in their order. -/
theorem sinkAll (h : After basename n r s) (hn : 0 < n) (maxSize : ℕ) (sizes : List ℕ) :
    let out := s.sinkAll maxSize sizes
    out.2 = (List.range out.2.length).map (fun i => rotation basename n (r + i + 1)) ∧
      After basename n (r + out.2.length) out.1 ∧
      (Present basename n r s.disk → Present basename n (r + out.2.length) out.1.disk) := by
  induction sizes generalizing r s with
  | nil => exact ⟨rfl, h, fun hp => hp⟩
  | cons bytes rest ih =>
      obtain ⟨k, hfirst, hafter, hpresent⟩ := h.innerSinkIt hn maxSize bytes
      obtain ⟨hrest, hafter', hpresent'⟩ := ih hafter
      dsimp only at hrest hafter' hpresent' ⊢
      rw [Logs.sinkAll]
      dsimp only
      have hk : (s.innerSinkIt maxSize bytes).2.toList.length = k := by
        rw [hfirst, List.length_map, List.length_range]
      rw [List.length_append, hk, ← Nat.add_assoc]
      refine ⟨?_, hafter', fun hp => hpresent' (hpresent hp)⟩
      rw [List.range_add, List.map_append, List.map_map, ← hfirst]
      refine congrArg _ (hrest.trans (List.map_congr_left fun i _ => ?_))
      rw [Function.comp_apply, Nat.add_assoc r k i]

end After

/-! ## The results -/

/-- The state after messages, and the rotations they caused. -/
theorem sinkAll_new {maxFiles : ℤ} (hmax : 0 < maxFiles) (basename : Filename) (disk : Disk)
    (maxSize : ℕ) (sizes : List ℕ) :
    let out := (new basename maxFiles disk).sinkAll maxSize sizes
    out.2 = (List.range out.2.length).map (fun i => rotation basename maxFiles.toNat (i + 1)) ∧
      After basename maxFiles.toNat out.2.length out.1 ∧
      (disk = (fun _ => none) → Present basename maxFiles.toNat out.2.length out.1.disk) := by
  obtain ⟨n, rfl⟩ := Int.eq_ofNat_of_zero_le hmax.le
  have hn : 0 < n := by exact_mod_cast hmax
  have hnew : After basename n 0 (new basename n disk) := after_new hn disk
  obtain ⟨hrotations, hafter, hpresent⟩ := hnew.sinkAll hn maxSize sizes
  dsimp only at hrotations hafter hpresent ⊢
  simp only [Nat.zero_add] at hrotations hafter hpresent
  exact ⟨hrotations, hafter, fun hdisk => hpresent (hdisk ▸ present_new)⟩

/-- There is no rotation before a file is large enough. -/
theorem rotations_eq_nil_iff (maxSize : ℕ) (s : Logs) (sizes : List ℕ) :
    (s.sinkAll maxSize sizes).2 = [] ↔
      sizes = [] ∨ s.backend.file.length + sizes.sum < maxSize := by
  induction sizes generalizing s with
  | nil => exact iff_of_true rfl (.inl rfl)
  | cons bytes rest ih =>
      have happend : (s.backend.file.append s.disk bytes).1.length =
          s.backend.file.length + bytes := (Nat.add_assoc _ _ bytes).symm
      rw [sinkAll]
      dsimp only
      rw [List.append_eq_nil_iff, ih, innerSinkIt]
      dsimp only
      rw [RotateFileBySize.shouldRotate, happend, List.sum_cons]
      split
      case isTrue hfull =>
        have hle : maxSize ≤ s.backend.file.length + bytes := of_decide_eq_true hfull
        refine iff_of_false (fun h => nomatch h.1) ?_
        rintro (hnil | hlt)
        · cases hnil
        · omega
      case isFalse hfull =>
        have hlt : s.backend.file.length + bytes < maxSize :=
          Nat.not_le.mp (of_decide_eq_false (Bool.eq_false_iff.mpr hfull))
        dsimp only
        rw [happend, ← Nat.add_assoc]
        constructor
        · rintro ⟨-, rfl | hsum⟩
          · exact .inr hlt
          · exact .inr hsum
        · rintro (hnil | hsum)
          · cases hnil
          · exact ⟨rfl, .inr hsum⟩

/-- **When rotation never removes the live file**: with more than one file, or when the messages
are too few for a rotation. -/
theorem removed_ne_live_iff {maxFiles : ℤ} (hmax : 0 < maxFiles) (basename : Filename)
    (disk : Disk) (maxSize : ℕ) (sizes : List ℕ) :
    (∀ ρ ∈ ((new basename maxFiles disk).sinkAll maxSize sizes).2, ρ.removed ≠ some ρ.live) ↔
      maxFiles ≠ 1 ∨ sizes = [] ∨ (disk (logName basename 0)).getD 0 + sizes.sum < maxSize := by
  obtain ⟨hrotations, -⟩ := sinkAll_new hmax basename disk maxSize sizes
  have hnone : ((new basename maxFiles disk).sinkAll maxSize sizes).2 = [] ↔
      sizes = [] ∨ (disk (logName basename 0)).getD 0 + sizes.sum < maxSize :=
    rotations_eq_nil_iff maxSize (new basename maxFiles disk) sizes
  rw [← hnone]
  generalize ((new basename maxFiles disk).sinkAll maxSize sizes).2 = rotations at hrotations ⊢
  constructor
  · intro hall
    by_contra hor
    obtain ⟨hone, hne⟩ := not_or.mp hor
    rw [not_not] at hone
    subst hone
    have hmem : rotation basename 1 1 ∈ rotations := by
      rw [hrotations]
      exact List.mem_map.mpr ⟨0, List.mem_range.mpr (List.length_pos_of_ne_nil hne), rfl⟩
    exact hall _ hmem rfl
  · rintro (hmany | hnil) ρ hρ
    · rw [hrotations] at hρ
      obtain ⟨i, -, rfl⟩ := List.mem_map.mp hρ
      intro hlive
      rw [rotation] at hlive
      split at hlive
      · have heq := logName_injective basename (Option.some.inj hlive)
        obtain ⟨n, rfl⟩ := Int.eq_ofNat_of_zero_le hmax.le
        exact succ_mod_ne (by omega) (i + 1) heq
      · cases hlive
    · rw [hnil] at hρ
      cases hρ

/-- With two files, a rotation leaves the one it opens. -/
theorem removed_ne_live_two :
    (((new ['a'] 2 fun _ => none).sinkAll 10 [4, 6, 10]).2.all fun ρ =>
      ρ.removed ≠ some ρ.live) = true := by
  have htwo : (0 : ℤ) < 2 := by decide
  have hall := (removed_ne_live_iff htwo ['a'] (fun _ => none) 10 [4, 6, 10]).mpr
    (.inl (by decide))
  exact List.all_eq_true.mpr fun ρ hρ => decide_eq_true (hall ρ hρ)

/-- With one file, a rotation removes the file it has just opened. -/
theorem removed_live_file : ((new ['a'] 1 fun _ => none).sinkAll 10 [4, 6]).2 =
    [⟨logName ['a'] 0, some (logName ['a'] 0)⟩] := by
  decide

/-- How many of the log files exist. -/
def existing (s : Logs) : ℕ :=
  ((Finset.range s.backend.maxFiles.toNat).filter fun i =>
    (s.disk (logName s.backend.basename i)).isSome = true).card

/-- One file is left less than may be, except before the first rotation. -/
theorem existing_eq (h : After basename n r s) (hn : 0 < n)
    (hpresent : Present basename n r s.disk) :
    existing s = if r = 0 then 1 else min (n - 1) (r + 1) := by
  have hfilter : existing s =
      ((Finset.range n).filter fun i => i ≤ r ∧ (r = 0 ∨ i ≠ (r + 1) % n)).card := by
    rw [existing, h.maxFiles, h.basename_eq, Int.toNat_natCast]
    exact congrArg _ (Finset.filter_congr fun i hi => hpresent i (Finset.mem_range.mp hi))
  rw [hfilter]
  by_cases hr : r = 0
  · have hset : ((Finset.range n).filter fun i => i ≤ r ∧ (r = 0 ∨ i ≠ (r + 1) % n)) = {0} := by
      ext i
      simp only [Finset.mem_filter, Finset.mem_range, Finset.mem_singleton]
      omega
    rw [hset, if_pos hr, Finset.card_singleton]
  · rw [if_neg hr]
    rcases Nat.lt_or_ge (r + 1) n with hfew | hmany
    · have hset : ((Finset.range n).filter fun i => i ≤ r ∧ (r = 0 ∨ i ≠ (r + 1) % n)) =
          Finset.range (r + 1) := by
        ext i
        simp only [Finset.mem_filter, Finset.mem_range, Nat.mod_eq_of_lt hfew]
        omega
      rw [hset, Finset.card_range]
      omega
    · have hset : ((Finset.range n).filter fun i => i ≤ r ∧ (r = 0 ∨ i ≠ (r + 1) % n)) =
          (Finset.range n).erase ((r + 1) % n) := by
        ext i
        simp only [Finset.mem_filter, Finset.mem_range, Finset.mem_erase]
        omega
      rw [hset, Finset.card_erase_of_mem (Finset.mem_range.mpr (Nat.mod_lt _ hn)),
        Finset.card_range]
      omega

/-- **When as many files exist as promised**: before the first rotation, and as long as there
are fewer than `max_files`. -/
theorem existing_iff {maxFiles : ℤ} (hmax : 0 < maxFiles) (basename : Filename) (maxSize : ℕ)
    (sizes : List ℕ) :
    let out := (new basename maxFiles fun _ => none).sinkAll maxSize sizes
    existing out.1 = min maxFiles.toNat (out.2.length + 1) ↔
      out.2.length = 0 ∨ out.2.length + 1 < maxFiles := by
  intro out
  obtain ⟨-, hafter, hpresent⟩ := sinkAll_new hmax basename (fun _ => none) maxSize sizes
  change After basename maxFiles.toNat out.2.length out.1 at hafter
  rw [existing_eq hafter (by omega) (hpresent rfl)]
  split
  · omega
  · omega

/-- With three files, one rotation leaves two of them. -/
theorem existing_three :
    let out := (new ['a'] 3 fun _ => none).sinkAll 10 [4, 6, 9]
    out.2.length = 1 ∧ existing out.1 = 2 :=
  ⟨rfl, (existing_iff (by decide) ['a'] 10 [4, 6, 9]).mpr (.inr (by decide))⟩

/-- With two files, the rotation that opens the second one removes the first. -/
theorem existing_two :
    let out := (new ['a'] 2 fun _ => none).sinkAll 10 [4, 6, 9]
    out.2.length = 1 ∧ existing out.1 = 1 := by
  decide

end Logs

end Hare.Log
