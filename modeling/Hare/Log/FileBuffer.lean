import Hare.Log.FileContents

/-!
# The buffer of the open file

`FileHelper::Open` gives a file a buffer of 64 KiB.  What is written goes into it, and the C library
decides when it writes the buffer out and how much of it; only a flush and the closing of the file
write all of it.  So the file that is open is behind on disk, and there it may end in the middle of
a message.

`OpenFiles` is the backend with the files on disk and the buffer.  With the buffer written out, its
files are those of `Hare.Log.FileContents`, call by call (`Buffers.call`).  `contents_archive` is
what follows for the disk: the closed files are there as they ought to be, and the open one but for
the bytes of the buffer.
-/

namespace Hare.Log

/-- `file_inner::BUFFER_SIZE`. -/
def bufferSize : ℕ := 64 * 1024

/-- How many bytes the C library would leave in the buffer, when it has some in it and a message is
written. -/
abbrev Stdio := Bytes → Bytes → ℕ

/-- A call of the backend. -/
inductive BackendCall where
  | log (msg : Bytes)
  | flush
  deriving DecidableEq, Repr

/-- The message of a call. -/
def BackendCall.msg? : BackendCall → Option Bytes
  | .log msg => some msg
  | .flush => none

/-- The backend, the files on disk, and the buffer of the file that is open. -/
structure OpenFiles where
  backend : FileBackend
  disk : Directory
  buffered : Bytes

namespace OpenFiles

/-- Files with nothing in the buffer. -/
def ofFiles (files : Files) : OpenFiles := ⟨files.backend, files.dir, []⟩

/-- The files with the buffer written out. -/
def settled (s : OpenFiles) : Files :=
  ⟨s.backend, s.disk.extend s.backend.file.filename s.buffered⟩

/-- The constructor of `FileBackend`. -/
def new (basename : Filename) (maxFiles : ℤ) (disk : Directory) : OpenFiles :=
  ofFiles (Files.new basename maxFiles disk)

/-- `Append`: the bytes that do not stay in the buffer go to the disk, in their order. -/
def append (stdio : Stdio) (s : OpenFiles) (msg : Bytes) : OpenFiles :=
  let pending := s.buffered ++ msg
  let out := pending.length - min (stdio s.buffered msg) bufferSize
  { backend := { s.backend with
      file := { s.backend.file with
        writtenBytes := s.backend.file.writtenBytes + msg.length } }
    disk := s.disk.extend s.backend.file.filename (pending.take out)
    buffered := pending.drop out }

/-- The rotation of `InnerSinkIt`: `Open` closes the old file first. -/
def rotate (s : OpenFiles) : OpenFiles := ofFiles s.settled.rotate

def innerSinkIt (stdio : Stdio) (maxSize : ℕ) (s : OpenFiles) (msg : Bytes) : OpenFiles :=
  let s := s.append stdio msg
  if RotateFileBySize.shouldRotate maxSize s.backend.file then s.rotate else s

/-- `InnerFlush`. -/
def flush (s : OpenFiles) : OpenFiles := ofFiles s.settled

def call (stdio : Stdio) (maxSize : ℕ) (s : OpenFiles) : BackendCall → OpenFiles
  | .log msg => s.innerSinkIt stdio maxSize msg
  | .flush => s.flush

/-- Calls one after the other. -/
def calls (stdio : Stdio) (maxSize : ℕ) (s : OpenFiles) (cs : List BackendCall) : OpenFiles :=
  cs.foldl (call stdio maxSize) s

end OpenFiles

/-! ## With the buffer written out -/

theorem Directory.extend_nil (dir : Directory) (file : Filename) : dir.extend file [] = dir := by
  simp [Directory.extend]

theorem Directory.extend_extend (dir : Directory) (file : Filename) (xs ys : Bytes) :
    (dir.extend file xs).extend file ys = dir.extend file (xs ++ ys) := by
  simp [Directory.extend, Function.comp_def]

/-- The files are `files`, but for bytes of the open one that are still in the buffer. -/
structure Buffers (files : Files) (s : OpenFiles) : Prop where
  settled : s.settled = files
  buffered_le : s.buffered.length ≤ bufferSize
  /-- Nothing in the buffer is from before the file was opened. -/
  recent : s.buffered.length ≤ s.backend.file.writtenBytes

namespace Buffers

variable {files : Files} {s : OpenFiles}

theorem ofFiles (files : Files) : Buffers files (.ofFiles files) where
  settled := by simp only [OpenFiles.settled, OpenFiles.ofFiles, Directory.extend_nil]
  buffered_le := Nat.zero_le _
  recent := Nat.zero_le _

theorem append (h : Buffers files s) (stdio : Stdio) (msg : Bytes) :
    Buffers (files.append msg) (s.append stdio msg) where
  settled := by
    rw [← h.settled]
    simp only [OpenFiles.settled, OpenFiles.append, Files.append, Directory.append,
      Directory.extend_extend, List.take_append_drop]
  buffered_le := by
    simp only [OpenFiles.append, List.length_drop, List.length_append]
    omega
  recent := by
    have hrecent := h.recent
    simp only [OpenFiles.append, List.length_drop, List.length_append]
    omega

theorem innerSinkIt (h : Buffers files s) (stdio : Stdio) (maxSize : ℕ) (msg : Bytes) :
    Buffers (files.innerSinkIt maxSize msg) (s.innerSinkIt stdio maxSize msg) := by
  have happend := h.append stdio msg
  have hbackend : (s.append stdio msg).backend = (files.append msg).backend :=
    congrArg Files.backend happend.settled
  rw [Files.innerSinkIt, OpenFiles.innerSinkIt, hbackend]
  split
  · rw [OpenFiles.rotate, happend.settled]
    exact ofFiles _
  · exact happend

theorem flush (h : Buffers files s) : Buffers files s.flush := by
  have hflush : s.flush = .ofFiles files := congrArg OpenFiles.ofFiles h.settled
  rw [hflush]
  exact ofFiles files

/-- One call, with the buffer and without it. -/
theorem call (h : Buffers files s) (stdio : Stdio) (maxSize : ℕ) (c : BackendCall) :
    Buffers (files.sinkAll maxSize c.msg?.toList) (s.call stdio maxSize c) := by
  cases c with
  | log msg => exact h.innerSinkIt stdio maxSize msg
  | flush => exact h.flush

/-- **The buffer is all that the disk lacks**, whatever is called. -/
theorem calls (h : Buffers files s) (stdio : Stdio) (maxSize : ℕ) (cs : List BackendCall) :
    Buffers (files.sinkAll maxSize (cs.filterMap BackendCall.msg?))
      (s.calls stdio maxSize cs) := by
  induction cs generalizing files s with
  | nil => exact h
  | cons c cs ih =>
      have hrest := ih (h.call stdio maxSize c)
      cases c with
      | log msg => exact hrest
      | flush => exact hrest

end Buffers

/-! ## The disk and the archive -/

section Disk

variable {basename : Filename} {maxFiles : ℤ} {dir₀ : Directory} {a : Archive} {files : Files}
variable {s : OpenFiles}

/-- What is on disk of an archive whose last bytes are in a buffer. -/
structure OnDisk (basename : Filename) (maxFiles : ℤ) (dir₀ : Directory) (a : Archive)
    (buffered : Bytes) (disk : Directory) : Prop where
  /-- The closed files that are kept. -/
  closed : ∀ k file, a.closed[k]? = some file → Retained maxFiles a.closed.length k →
    disk (fileName basename maxFiles k) =
      some (heldBefore basename maxFiles dir₀ k ++ file.flatten)
  /-- The file that is open. -/
  current : ∃ out, disk (fileName basename maxFiles a.closed.length) =
      some (heldBefore basename maxFiles dir₀ a.closed.length ++ out) ∧
    out ++ buffered = a.current.flatten

theorem exists_append_of_append_eq {before bytes disk buffered : Bytes}
    (h : disk ++ buffered = before ++ bytes) (hle : buffered.length ≤ bytes.length) :
    ∃ out, disk = before ++ out ∧ out ++ buffered = bytes := by
  rcases List.append_eq_append_iff.mp h with ⟨xs, hbefore, hbuffered⟩ | ⟨out, hdisk, hbytes⟩
  · obtain rfl : xs = [] := by
      have := congrArg List.length hbuffered
      rw [List.length_append] at this
      exact List.length_eq_zero_iff.mp (by omega)
    exact ⟨[], by simpa using hbefore.symm, by simpa using hbuffered⟩
  · exact ⟨out, hdisk, hbytes.symm⟩

/-- Of the files as they are written, the disk has all but the buffer. -/
theorem Buffers.onDisk_buffered (h : Buffers files s)
    (hmirrors : Mirrors basename maxFiles dir₀ a files) (hone : maxFiles ≠ 1) :
    OnDisk basename maxFiles dir₀ a s.buffered s.disk := by
  obtain rfl := h.settled
  have hname : s.backend.file.filename = fileName basename maxFiles a.closed.length :=
    hmirrors.at_file.file
  have hcontents := hmirrors.contents
  simp only [OpenFiles.settled, Directory.extend, hname] at hcontents
  refine ⟨fun k file hk hret => ?_, ?_⟩
  · have hlt : k < a.closed.length := (List.getElem?_eq_some_iff.mp hk).1
    have hnear : 0 < maxFiles → (a.closed.length : ℤ) < k + maxFiles := fun hpos => by
      have : (a.closed.length : ℤ) + 1 < k + maxFiles := hret hpos
      omega
    rw [← hcontents k file (Archive.concat_getElem?.mpr (.inl hk)) hret,
      Function.update_of_ne (fileName_ne hlt hnear)]
  · have hlast := hcontents a.closed.length a.current
      (Archive.concat_getElem?.mpr (.inr ⟨rfl, rfl⟩)) (by intro; omega)
    rw [Function.update_self, Option.map_eq_some_iff] at hlast
    obtain ⟨content, hdisk, happend⟩ := hlast
    have hle : s.buffered.length ≤ a.current.flatten.length := h.recent.trans_eq hmirrors.written
    obtain ⟨out, rfl, hout⟩ := exists_append_of_append_eq happend hle
    exact ⟨out, hdisk, hout⟩

theorem Buffers.onDisk (h : Buffers files s) (hmirrors : Mirrors basename maxFiles dir₀ a files)
    (hone : maxFiles ≠ 1) :
    OnDisk basename maxFiles dir₀ a s.buffered s.disk ∧
      OnDisk basename maxFiles dir₀ a [] s.flush.disk :=
  ⟨h.onDisk_buffered hmirrors hone, h.flush.onDisk_buffered hmirrors hone⟩

end Disk

end Hare.Log
