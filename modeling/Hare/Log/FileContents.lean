import Hare.Log.FileBackend

/-!
# What is written to the log files

`Hare.Log.FileBackend` follows the names and the sizes of the files; here is what the backend
writes to them.  The purpose of the component is an `Archive`: a sequence of files, each of them a
sequence of whole messages, that is closed with the message that makes it large enough.
`Mirrors.sinkAll` says which of its files are kept and that each of them gets exactly its messages,
behind what a file of that name held when the backend was made.

A file has here what has been written to it, be it on disk or in the buffer of the C library.  The
buffer is the subject of `Hare.Log.FileBuffer`; the backend itself never reads what it has written.
The directory has the sizes of the earlier model (`toLogs_innerSinkIt`), so that its results about
names and the history carry over.
-/

namespace Hare.Log

open Text Util

/-- The bytes of a message. -/
abbrev Bytes := List UInt8

/-- The files of the directory, with what has been written to each. -/
abbrev Directory := Filename → Option Bytes

/-- The sizes of the files. -/
def Directory.sizes (dir : Directory) : Disk := fun file => (dir file).map List.length

/-- `Open`, for appending. -/
def Directory.open' (dir : Directory) (file : Filename) : FileHelper × Directory :=
  let content := (dir file).getD []
  (⟨file, content.length, 0⟩, Function.update dir file (some content))

/-- Bytes go to the end of a file.  One that has been removed takes them all the same. -/
def Directory.extend (dir : Directory) (file : Filename) (bytes : Bytes) : Directory :=
  Function.update dir file ((dir file).map (· ++ bytes))

/-- `Append`, of the count and of what is in the file once the buffer is written out. -/
def Directory.append (dir : Directory) (f : FileHelper) (msg : Bytes) : FileHelper × Directory :=
  ({ f with writtenBytes := f.writtenBytes + msg.length }, dir.extend f.filename msg)

def Directory.remove (dir : Directory) (file : Filename) : Directory :=
  Function.update dir file none

/-- The backend and the files it writes to. -/
structure Files where
  backend : FileBackend
  dir : Directory

namespace Files

/-- The constructor of `FileBackend`. -/
def new (basename : Filename) (maxFiles : ℤ) (dir : Directory) : Files :=
  let (filename, generator) := RotateFileBySize.getName ⟨0, maxFiles⟩ basename
  let (file, dir) := dir.open' filename
  let history := CircularQueue.new (if 0 < maxFiles then maxFiles.toNat else 0)
  let filenameHistory := if 0 < maxFiles then history.pushBack file.filename else history
  ⟨{ generator, basename, file, maxFiles, filenameHistory }, dir⟩

def deleteOld (s : Files) : Files :=
  let history := s.backend.filenameHistory
  if history.full then
    let (tmp, history) := history.popFront
    ⟨{ s.backend with filenameHistory := history.pushBack s.backend.file.filename },
      s.dir.remove tmp⟩
  else ⟨{ s.backend with filenameHistory := history.pushBack s.backend.file.filename }, s.dir⟩

/-- The rotation of `InnerSinkIt`. -/
def rotate (s : Files) : Files :=
  let (filename, generator) := s.backend.generator.getName s.backend.basename
  let (file, dir) := s.dir.open' filename
  let s : Files := ⟨{ s.backend with generator, file }, dir⟩
  if 0 < s.backend.maxFiles then s.deleteOld else s

/-- The message goes to the file that is open. -/
def append (s : Files) (msg : Bytes) : Files :=
  let (file, dir) := s.dir.append s.backend.file msg
  ⟨{ s.backend with file }, dir⟩

def innerSinkIt (maxSize : ℕ) (s : Files) (msg : Bytes) : Files :=
  let s := s.append msg
  if RotateFileBySize.shouldRotate maxSize s.backend.file then s.rotate else s

/-- Messages one after the other. -/
def sinkAll (maxSize : ℕ) (s : Files) (msgs : List Bytes) : Files :=
  msgs.foldl (innerSinkIt maxSize) s

/-! ## Sizes -/

/-- The names and sizes of the files. -/
def toLogs (s : Files) : Logs := ⟨s.backend, s.dir.sizes⟩

theorem sizes_update (dir : Directory) (file : Filename) (content : Option Bytes) :
    Directory.sizes (Function.update dir file content) =
      Function.update dir.sizes file (content.map List.length) := by
  funext f
  by_cases hf : f = file
  · simp [Directory.sizes, hf]
  · simp [Directory.sizes, hf]

theorem sizes_open (dir : Directory) (file : Filename) :
    FileHelper.open' dir.sizes file = ((dir.open' file).1, Directory.sizes (dir.open' file).2) := by
  have hlen : ((dir file).map List.length).getD 0 = ((dir file).getD []).length := by
    cases dir file <;> rfl
  simp [FileHelper.open', Directory.open', sizes_update, Directory.sizes, hlen]

theorem toLogs_new (basename : Filename) (maxFiles : ℤ) (dir : Directory) :
    (new basename maxFiles dir).toLogs = Logs.new basename maxFiles dir.sizes := by
  simp only [new, Logs.new, toLogs, sizes_open]

theorem toLogs_rotate (s : Files) : s.rotate.toLogs = s.toLogs.rotate.1 := by
  simp only [rotate, Logs.rotate, toLogs, sizes_open]
  split
  · simp only [deleteOld, Logs.deleteOld]
    split
    · simp [Directory.remove, Disk.remove, sizes_update]
    · rfl
  · rfl

theorem toLogs_append (s : Files) (msg : Bytes) :
    (s.append msg).toLogs =
      ⟨{ s.backend with file := (s.backend.file.append s.dir.sizes msg.length).1 },
        (s.backend.file.append s.dir.sizes msg.length).2⟩ := by
  have hmap : ((s.dir s.backend.file.filename).map (· ++ msg)).map List.length =
      ((s.dir s.backend.file.filename).map List.length).map (· + msg.length) := by
    cases s.dir s.backend.file.filename <;> simp
  simp [append, toLogs, Directory.append, Directory.extend, FileHelper.append, sizes_update, hmap,
    Directory.sizes]

/-- The contents refine the sizes. -/
theorem toLogs_innerSinkIt (maxSize : ℕ) (s : Files) (msg : Bytes) :
    (s.innerSinkIt maxSize msg).toLogs = (s.toLogs.innerSinkIt maxSize msg.length).1 := by
  have hlogs : (s.toLogs.innerSinkIt maxSize msg.length).1 =
      if RotateFileBySize.shouldRotate maxSize (s.append msg).backend.file
      then (s.append msg).toLogs.rotate.1 else (s.append msg).toLogs := by
    rw [toLogs_append, Logs.innerSinkIt]
    dsimp only
    rw [apply_ite Prod.fst]
    rfl
  rw [hlogs, innerSinkIt]
  split
  · exact toLogs_rotate _
  · rfl

end Files

/-! ## The archive -/

/-- The closed files and the one that is written to, each as its messages. -/
structure Archive where
  closed : List (List Bytes)
  current : List Bytes
  deriving DecidableEq, Repr

namespace Archive

def empty : Archive := ⟨[], []⟩

/-- All files, in their order. -/
def files (a : Archive) : List (List Bytes) := a.closed ++ [a.current]

/-- A message goes to the current file, and closes it if the file is then large enough.  File `k`
holds `before k` bytes that are not of this log. -/
def sink (maxSize : ℕ) (before : ℕ → ℕ) (a : Archive) (msg : Bytes) : Archive :=
  let current := a.current ++ [msg]
  if maxSize ≤ before a.closed.length + current.flatten.length then ⟨a.closed ++ [current], []⟩
  else ⟨a.closed, current⟩

def sinkAll (maxSize : ℕ) (before : ℕ → ℕ) (a : Archive) (msgs : List Bytes) : Archive :=
  msgs.foldl (sink maxSize before) a

variable {maxSize : ℕ} {before : ℕ → ℕ} {a : Archive}

theorem flatten_files_sink (msg : Bytes) :
    (a.sink maxSize before msg).files.flatten = a.files.flatten ++ [msg] := by
  simp only [sink]
  split <;> simp [files]

/-- No message is lost, split or out of order. -/
theorem flatten_files (msgs : List Bytes) :
    (a.sinkAll maxSize before msgs).files.flatten = a.files.flatten ++ msgs := by
  induction msgs generalizing a with
  | nil => simp [sinkAll]
  | cons msg msgs ih =>
      have hrest := ih (a := a.sink maxSize before msg)
      rw [flatten_files_sink, List.append_assoc] at hrest
      exact hrest

theorem closed_le_sink (msg : Bytes) :
    a.closed.length ≤ (a.sink maxSize before msg).closed.length := by
  simp only [sink]
  split <;> simp

theorem closed_le_sinkAll (msgs : List Bytes) :
    a.closed.length ≤ (a.sinkAll maxSize before msgs).closed.length := by
  induction msgs generalizing a with
  | nil => exact le_rfl
  | cons msg msgs ih => exact (closed_le_sink msg).trans ih

theorem concat_getElem? {files : List (List Bytes)} {current file : List Bytes} {k : ℕ} :
    (files ++ [current])[k]? = some file ↔
      files[k]? = some file ∨ k = files.length ∧ current = file := by
  rcases lt_trichotomy k files.length with hlt | rfl | hgt
  · simp [List.getElem?_append_left hlt, hlt.ne]
  · simp
  · simp [List.getElem?_append_right hgt.le, List.getElem?_eq_none hgt.le, hgt.ne',
      Nat.sub_ne_zero_of_lt hgt]

/-- A file of the log that is closed in time: large enough with its last message and not before. -/
def Closed (maxSize before : ℕ) (file : List Bytes) : Prop :=
  ∃ msgs msg, file = msgs ++ [msg] ∧ maxSize ≤ before + file.flatten.length ∧
    (msgs ≠ [] → before + msgs.flatten.length < maxSize)

/-- The invariant of `sink`: every closed file is closed in time, and the current one is not
large enough. -/
structure Timely (maxSize : ℕ) (before : ℕ → ℕ) (a : Archive) : Prop where
  closed : ∀ k file, a.closed[k]? = some file → Closed maxSize (before k) file
  current : a.current ≠ [] → before a.closed.length + a.current.flatten.length < maxSize

theorem Timely.sink (h : Timely maxSize before a) (msg : Bytes) :
    Timely maxSize before (a.sink maxSize before msg) := by
  simp only [Archive.sink]
  split
  case isTrue hle =>
    refine ⟨fun k file hk => ?_, fun hne => absurd rfl hne⟩
    rcases concat_getElem?.mp hk with hold | ⟨rfl, rfl⟩
    · exact h.closed k file hold
    · exact ⟨a.current, msg, rfl, hle, h.current⟩
  case isFalse hlt => exact ⟨h.closed, fun _ => Nat.not_le.mp hlt⟩

theorem timely (msgs : List Bytes) : Timely maxSize before (empty.sinkAll maxSize before msgs) := by
  have hall : ∀ a, Timely maxSize before a →
      Timely maxSize before (a.sinkAll maxSize before msgs) := by
    induction msgs with
    | nil => exact fun a h => h
    | cons msg msgs ih => exact fun a h => ih _ (h.sink msg)
  exact hall empty ⟨by simp [empty], fun hne => absurd rfl hne⟩

end Archive

/-! ## The directory and the archive -/

/-- The name of file `k` of the log. -/
def fileName (basename : Filename) (maxFiles : ℤ) (k : ℕ) : Filename :=
  logName basename (if 0 < maxFiles then k % maxFiles.toNat else k)

/-- What file `k` held before anything of this log was written to it: the names come round, and a
name that is used again belongs to a file that has been removed. -/
def heldBefore (basename : Filename) (maxFiles : ℤ) (dir : Directory) (k : ℕ) : Bytes :=
  if 0 < maxFiles ∧ maxFiles ≤ k then [] else (dir (fileName basename maxFiles k)).getD []

/-- File `k` is kept when the current one is file `r`: all are, or the last `max_files - 1`. -/
def Retained (maxFiles : ℤ) (r k : ℕ) : Prop := 0 < maxFiles → r + 1 < k + maxFiles

instance (maxFiles : ℤ) (r k : ℕ) : Decidable (Retained maxFiles r k) :=
  inferInstanceAs (Decidable (0 < maxFiles → _))

/-- The id of the file after file `r` is one of 32 bits: always, if the ids come round. -/
def Numbered (maxFiles : ℤ) (r : ℕ) : Prop := 0 < maxFiles ∨ r + 1 < 2 ^ 31

instance (maxFiles : ℤ) (r : ℕ) : Decidable (Numbered maxFiles r) :=
  inferInstanceAs (Decidable (_ ∨ _))

theorem Numbered.of_le {maxFiles : ℤ} {q r : ℕ} (h : Numbered maxFiles r) (hle : q ≤ r) :
    Numbered maxFiles q := by
  rw [Numbered] at h ⊢
  omega

/-- Files that are near enough to each other have different names. -/
theorem fileName_ne {basename : Filename} {maxFiles : ℤ} {j k : ℕ} (hjk : j < k)
    (hnear : 0 < maxFiles → (k : ℤ) < j + maxFiles) :
    fileName basename maxFiles j ≠ fileName basename maxFiles k := by
  refine (Logs.logName_injective basename).ne ?_
  split
  case isTrue hpos =>
    have hnear := hnear hpos
    intro heq
    have hdvd : maxFiles.toNat ∣ k - j := (Nat.modEq_iff_dvd' hjk.le).mp heq
    have hle := Nat.le_of_dvd (by omega) hdvd
    omega
  case isFalse => exact hjk.ne

/-- The backend is at its file `r`. -/
structure At (basename : Filename) (maxFiles : ℤ) (r : ℕ) (s : Files) : Prop where
  limited : 0 < maxFiles → Logs.After basename maxFiles.toNat r s.toLogs
  unlimited : ¬ 0 < maxFiles → s.backend.generator = ⟨(r + 1 : ℕ), maxFiles⟩ ∧
    s.backend.basename = basename ∧ s.backend.maxFiles = maxFiles
  file : s.backend.file.filename = fileName basename maxFiles r

/-- The directory holds what the archive has. -/
structure Mirrors (basename : Filename) (maxFiles : ℤ) (dir₀ : Directory) (a : Archive)
    (s : Files) : Prop where
  at_file : At basename maxFiles a.closed.length s
  size : s.backend.file.length =
    (heldBefore basename maxFiles dir₀ a.closed.length).length + a.current.flatten.length
  written : s.backend.file.writtenBytes = a.current.flatten.length
  contents : ∀ k file, a.files[k]? = some file → Retained maxFiles a.closed.length k →
    s.dir (fileName basename maxFiles k) =
      some (heldBefore basename maxFiles dir₀ k ++ file.flatten)
  /-- The names to come are unused or free again. -/
  ahead : ∀ k, k = a.closed.length + 1 ∨
    a.closed.length < k ∧ (0 < maxFiles → (k : ℤ) < maxFiles) →
    (s.dir (fileName basename maxFiles k)).getD [] = heldBefore basename maxFiles dir₀ k

variable {basename : Filename} {maxFiles : ℤ} {dir₀ : Directory} {a : Archive} {s : Files} {r : ℕ}

theorem At.new (basename : Filename) (maxFiles : ℤ) (dir : Directory) :
    At basename maxFiles 0 (Files.new basename maxFiles dir) where
  limited hpos := by
    rw [Files.toLogs_new]
    have hn : 0 < maxFiles.toNat := by omega
    have hafter := @Logs.after_new basename maxFiles.toNat hn dir.sizes
    rwa [Int.toNat_of_nonneg hpos.le] at hafter
  unlimited hneg := by
    refine ⟨?_, rfl, rfl⟩
    simp only [Files.new, RotateFileBySize.getName, if_neg hneg]
    rfl
  file := by simp [Files.new, RotateFileBySize.getName, fileName, logName, Directory.open']

/-- The generator gives the name of the next file. -/
theorem At.getName (h : At basename maxFiles r s) :
    (s.backend.generator.getName s.backend.basename).1 = fileName basename maxFiles (r + 1) := by
  by_cases hpos : 0 < maxFiles
  · have hafter := h.limited hpos
    have hgen : s.backend.generator = ⟨((r + 1) % maxFiles.toNat : ℕ), maxFiles.toNat⟩ :=
      hafter.generator
    have hbase : s.backend.basename = basename := hafter.basename_eq
    rw [hgen, hbase, fileName, if_pos hpos]
    rfl
  · obtain ⟨hgen, hbase, -⟩ := h.unlimited hpos
    rw [hgen, hbase, fileName, if_neg hpos]
    rfl

/-- An id that has not come to its end is counted up. -/
theorem bmod_succ {r : ℕ} (h : r + 1 < 2 ^ 31) : ((r : ℤ) + 1).bmod (2 ^ 32) = (r + 1 : ℕ) := by
  rw [Int.bmod_eq_of_le_mul_two (by push_cast; omega) (by push_cast; omega)]
  push_cast
  rfl

theorem At.maxFiles_eq (h : At basename maxFiles r s) : s.backend.maxFiles = maxFiles := by
  by_cases hpos : 0 < maxFiles
  · exact (h.limited hpos).maxFiles.trans (Int.toNat_of_nonneg hpos.le)
  · exact (h.unlimited hpos).2.2

/-- The next file is open. -/
abbrev Files.opened (s : Files) (filename : Filename) : Files :=
  ⟨{ s.backend with
      generator := (s.backend.generator.getName s.backend.basename).2
      file := (s.dir.open' filename).1 }, (s.dir.open' filename).2⟩

theorem At.rotate_eq (h : At basename maxFiles r s) :
    s.rotate = if 0 < maxFiles then (s.opened (fileName basename maxFiles (r + 1))).deleteOld
      else s.opened (fileName basename maxFiles (r + 1)) := by
  simp only [Files.rotate, h.getName, h.maxFiles_eq, Files.opened]

/-- The next file is opened, and the one after it removed when its name has been used. -/
theorem At.rotate (h : At basename maxFiles r s) (hnum : Numbered maxFiles (r + 1)) :
    At basename maxFiles (r + 1) s.rotate ∧
    s.rotate.backend.file = (s.dir.open' (fileName basename maxFiles (r + 1))).1 ∧
    s.rotate.dir = if 0 < maxFiles ∧ maxFiles ≤ r + 2
      then (s.dir.open' (fileName basename maxFiles (r + 1))).2.remove
        (fileName basename maxFiles (r + 2))
      else (s.dir.open' (fileName basename maxFiles (r + 1))).2 := by
  have hrotate := h.rotate_eq
  by_cases hpos : 0 < maxFiles
  · rw [if_pos hpos] at hrotate
    have hafter := h.limited hpos
    have hn : 0 < maxFiles.toNat := by omega
    have hfull : s.backend.filenameHistory.full = true ↔ maxFiles ≤ r + 2 := by
      have := hafter.full_iff hn
      simp only [Files.toLogs] at this
      rw [this]
      omega
    have hfile : s.rotate.backend.file =
        (s.dir.open' (fileName basename maxFiles (r + 1))).1 := by
      rw [hrotate, Files.deleteOld]
      dsimp only
      split <;> rfl
    refine ⟨⟨fun _ => ?_, fun hneg => absurd hpos hneg, ?_⟩, hfile, ?_⟩
    · rw [Files.toLogs_rotate]
      exact (hafter.rotate hn).2.1
    · rw [hfile]
      rfl
    · rw [hrotate]
      simp only [Files.deleteOld]
      by_cases hle : maxFiles ≤ r + 2
      · have hold : s.backend.filenameHistory.popFront.1 = fileName basename maxFiles (r + 2) := by
          have := hafter.oldest hn (by omega)
          rw [fileName, if_pos hpos]
          exact this
        rw [if_pos (hfull.mpr hle), if_pos ⟨hpos, hle⟩, hold]
      · rw [if_neg (mt hfull.mp hle), if_neg (fun h => hle h.2)]
  · obtain ⟨hgen, hbase, hmax⟩ := h.unlimited hpos
    rw [hrotate, if_neg hpos]
    refine ⟨⟨fun h => absurd h hpos, fun _ => ⟨?_, hbase, hmax⟩, rfl⟩, rfl, ?_⟩
    · rw [Files.opened, hgen]
      simp only [RotateFileBySize.getName, if_neg hpos]
      rw [bmod_succ (hnum.resolve_left hpos)]
    · rw [if_neg fun h => hpos h.1]

/-- A rotation touches two names only: that of the next file and that of the file after it. -/
theorem At.rotate_other (h : At basename maxFiles r s) (hnum : Numbered maxFiles (r + 1)) {k : ℕ}
    (hopened : fileName basename maxFiles k ≠ fileName basename maxFiles (r + 1))
    (hremoved : 0 < maxFiles → maxFiles ≤ r + 2 →
      fileName basename maxFiles k ≠ fileName basename maxFiles (r + 2)) :
    s.rotate.dir (fileName basename maxFiles k) = s.dir (fileName basename maxFiles k) := by
  rw [(h.rotate hnum).2.2]
  simp only [Directory.open', Directory.remove]
  split
  case isTrue hfull =>
    rw [Function.update_of_ne (hremoved hfull.1 hfull.2), Function.update_of_ne hopened]
  case isFalse => rw [Function.update_of_ne hopened]

theorem At.rotate_opened (h : At basename maxFiles r s) (hone : maxFiles ≠ 1)
    (hnum : Numbered maxFiles (r + 1)) :
    s.rotate.dir (fileName basename maxFiles (r + 1)) =
      some ((s.dir (fileName basename maxFiles (r + 1))).getD []) := by
  rw [(h.rotate hnum).2.2]
  simp only [Directory.open', Directory.remove]
  split
  · rw [Function.update_of_ne (fileName_ne (by omega) (by push_cast; omega)),
      Function.update_self]
  · rw [Function.update_self]

namespace Mirrors

theorem new (hone : maxFiles ≠ 1) (basename : Filename) (dir : Directory) :
    Mirrors basename maxFiles dir .empty (Files.new basename maxFiles dir) := by
  have hzero : heldBefore basename maxFiles dir 0 =
      (dir (fileName basename maxFiles 0)).getD [] := by
    rw [heldBefore, if_neg (by omega)]
  have hname : (RotateFileBySize.getName ⟨0, maxFiles⟩ basename).1 =
      fileName basename maxFiles 0 := by
    simp [RotateFileBySize.getName, fileName, logName]
  have hdir : (Files.new basename maxFiles dir).dir =
      Function.update dir (fileName basename maxFiles 0)
        (some (heldBefore basename maxFiles dir 0)) := by
    simp only [Files.new, hname, hzero, Directory.open']
  refine ⟨At.new basename maxFiles dir, ?_, rfl, fun k file hk _ => ?_, fun k hk => ?_⟩
  · simp [Files.new, hname, Directory.open', FileHelper.length, hzero, Archive.empty]
  · obtain ⟨rfl, rfl⟩ : k = 0 ∧ [] = file := by
      simpa [Archive.empty, Archive.files, List.getElem?_singleton, and_comm] using hk
    simp [hdir]
  · have hpos : 0 < k ∧ (0 < maxFiles → (k : ℤ) < maxFiles) := by
      simp only [Archive.empty, List.length_nil] at hk
      omega
    rw [hdir, Function.update_of_ne (fileName_ne hpos.1 (by omega)).symm, heldBefore,
      if_neg (by omega)]

/-- A message goes to the end of the current file. -/
theorem append (h : Mirrors basename maxFiles dir₀ a s) (hone : maxFiles ≠ 1) (msg : Bytes) :
    Mirrors basename maxFiles dir₀ ⟨a.closed, a.current ++ [msg]⟩ (s.append msg) := by
  have hcurrent : s.dir s.backend.file.filename =
      some (heldBefore basename maxFiles dir₀ a.closed.length ++ a.current.flatten) := by
    rw [h.at_file.file]
    exact h.contents _ _ (by simp [Archive.files]) (by intro; omega)
  have hdir : (s.append msg).dir = Function.update s.dir
      (fileName basename maxFiles a.closed.length)
      (some (heldBefore basename maxFiles dir₀ a.closed.length ++ a.current.flatten ++ msg)) := by
    simp only [Files.append, Directory.append, Directory.extend, hcurrent, Option.map_some,
      ← h.at_file.file]
  refine ⟨⟨fun hpos => ?_, h.at_file.unlimited, h.at_file.file⟩, ?_, ?_,
    fun k file hk hret => ?_, fun k hk => ?_⟩
  · rw [Files.toLogs_append]
    exact ((h.at_file.limited hpos).append msg.length).1
  · have hsize := h.size
    simp only [Files.append, Directory.append, FileHelper.length, List.flatten_append,
      List.length_append, List.flatten_singleton] at hsize ⊢
    omega
  · simp [Files.append, Directory.append, h.written]
  · rw [hdir]
    rcases Archive.concat_getElem?.mp hk with hold | ⟨rfl, rfl⟩
    · have hlt : k < a.closed.length := (List.getElem?_eq_some_iff.mp hold).1
      have hnear : 0 < maxFiles → (a.closed.length : ℤ) < k + maxFiles := fun hpos => by
        have : (a.closed.length : ℤ) + 1 < k + maxFiles := hret hpos
        omega
      rw [Function.update_of_ne (fileName_ne hlt hnear)]
      exact h.contents k file (Archive.concat_getElem?.mpr (.inl hold)) hret
    · simp
  · have hlater : a.closed.length < k ∧
        (0 < maxFiles → (k : ℤ) < a.closed.length + maxFiles) := by
      dsimp only at hk
      omega
    rw [hdir, Function.update_of_ne (fileName_ne hlater.1 hlater.2).symm]
    exact h.ahead k hk

/-- The current file is closed and the next one opened. -/
theorem rotate (h : Mirrors basename maxFiles dir₀ a s) (hone : maxFiles ≠ 1)
    (hnum : Numbered maxFiles (a.closed.length + 1)) :
    Mirrors basename maxFiles dir₀ ⟨a.closed ++ [a.current], []⟩ s.rotate := by
  obtain ⟨hat, hfile, hdir⟩ := h.at_file.rotate hnum
  have hnext := h.ahead (a.closed.length + 1) (.inl rfl)
  refine ⟨by simpa using hat, ?_, by rw [hfile]; rfl, fun k file hk hret => ?_, fun k hk => ?_⟩
  · simp [hfile, FileHelper.length, Directory.open', hnext]
  · rcases Archive.concat_getElem?.mp hk with hold | ⟨rfl, rfl⟩
    · have hlt : k < a.closed.length + 1 := by
        simpa using (List.getElem?_eq_some_iff.mp hold).1
      have hnear : 0 < maxFiles → (a.closed.length : ℤ) + 2 < k + maxFiles := fun hpos => by
        have := hret hpos
        simp only [List.length_append, List.length_singleton] at this
        omega
      rw [h.at_file.rotate_other hnum (fileName_ne hlt (by push_cast; omega))
        fun _ _ => fileName_ne (by omega) (by push_cast; omega)]
      exact h.contents k file hold (by intro hpos; have := hnear hpos; omega)
    · simpa [hnext] using h.at_file.rotate_opened hone hnum
  · simp only [List.length_append, List.length_singleton] at hk
    by_cases hremoved : k = a.closed.length + 2 ∧ 0 < maxFiles ∧ maxFiles ≤ a.closed.length + 2
    · -- The name comes round: the file that bore it has just been removed.
      obtain ⟨rfl, hfull⟩ := hremoved
      rw [hdir, if_pos hfull, Directory.remove, Function.update_self, heldBefore,
        if_pos (by push_cast; omega)]
      rfl
    · rw [h.at_file.rotate_other hnum (fileName_ne (by omega) (by push_cast; omega)).symm
        fun _ _ => (fileName_ne (by omega) (by push_cast; omega)).symm]
      exact h.ahead k (.inr (by omega))

/-- One message, in the directory and in the archive. -/
theorem innerSinkIt (h : Mirrors basename maxFiles dir₀ a s) (hone : maxFiles ≠ 1)
    (maxSize : ℕ) (msg : Bytes)
    (hnum : Numbered maxFiles
      (a.sink maxSize (fun k => (heldBefore basename maxFiles dir₀ k).length) msg).closed.length) :
    Mirrors basename maxFiles dir₀
      (a.sink maxSize (fun k => (heldBefore basename maxFiles dir₀ k).length) msg)
      (s.innerSinkIt maxSize msg) := by
  have happend := h.append hone msg
  have hrotates : RotateFileBySize.shouldRotate maxSize (s.append msg).backend.file = true ↔
      maxSize ≤ (heldBefore basename maxFiles dir₀ a.closed.length).length +
        (a.current ++ [msg]).flatten.length := by
    rw [← happend.size]
    simp [RotateFileBySize.shouldRotate]
  rw [Archive.sink] at hnum ⊢
  rw [Files.innerSinkIt]
  by_cases hlarge : maxSize ≤ (heldBefore basename maxFiles dir₀ a.closed.length).length +
      (a.current ++ [msg]).flatten.length
  · rw [if_pos hlarge] at hnum ⊢
    rw [if_pos (hrotates.mpr hlarge)]
    exact happend.rotate hone (by simpa using hnum)
  · rw [if_neg hlarge, if_neg (mt hrotates.mp hlarge)]
    exact happend

/-- **The files mirror the archive**, as long as there is an id for the next one. -/
theorem sinkAll (hone : maxFiles ≠ 1) (maxSize : ℕ) (msgs : List Bytes)
    (h : Mirrors basename maxFiles dir₀ a s)
    (hnum : Numbered maxFiles (a.sinkAll maxSize
      (fun k => (heldBefore basename maxFiles dir₀ k).length) msgs).closed.length) :
    Mirrors basename maxFiles dir₀
      (a.sinkAll maxSize (fun k => (heldBefore basename maxFiles dir₀ k).length) msgs)
      (s.sinkAll maxSize msgs) := by
  induction msgs generalizing a s with
  | nil => exact h
  | cons msg msgs ih =>
      exact ih (h.innerSinkIt hone maxSize msg (hnum.of_le (Archive.closed_le_sinkAll msgs))) hnum

end Mirrors

end Hare.Log
