import Hare.Base.Fault
import Hare.Lib.LabelledRun
import Hare.Log.Logger
import Mathlib.Data.List.TakeWhile

/-!
# The memory of a message

The text of a message is held in a buffer of characters, which has room for 256 of them in itself
and takes more memory when a character does not fit.  `FormatMsg` stores a NUL behind the text,
without asking for room, and prints what the buffer holds as a C string.  So it writes behind the
memory when the text fills it, and does not print what follows a NUL in the text.

The characters of a buffer behind its text are whatever the memory held, and how much memory it
takes is left open: both are arguments.
-/

namespace Hare.Log

open LabelledRun Text Time

/-- An `fmt::basic_memory_buffer`. -/
structure MsgBuffer where
  /-- The memory, `capacity()` characters. -/
  cells : List Char
  size : ℕ
  size_le : size ≤ cells.length

/-- The memory an execution gets. -/
structure Memory where
  /-- The characters inside a new buffer. -/
  inline : List Char
  length_inline : inline.length = 256
  /-- What is taken in addition when the buffer is full. -/
  more : List Char → List Char
  more_ne : ∀ cells, more cells ≠ []

namespace MsgBuffer

/-- The text held. -/
def text (b : MsgBuffer) : List Char := b.cells.take b.size

def capacity (b : MsgBuffer) : ℕ := b.cells.length

/-- The memory with room for one more character. -/
def grown (m : Memory) (b : MsgBuffer) : List Char :=
  if b.size < b.cells.length then b.cells else b.cells ++ m.more b.cells

theorem size_lt_grown (m : Memory) (b : MsgBuffer) : b.size < (b.grown m).length := by
  rw [grown]
  split
  case isTrue h => exact h
  case isFalse h =>
    have hpos := List.length_pos_iff.mpr (m.more_ne b.cells)
    have hle := b.size_le
    rw [List.length_append]
    omega

/-- `push_back`. -/
def pushBack (m : Memory) (b : MsgBuffer) (c : Char) : MsgBuffer where
  cells := (b.grown m).set b.size c
  size := b.size + 1
  size_le := by
    rw [List.length_set]
    exact b.size_lt_grown m

/-- `raw_[raw_.size()] = '\0'`. -/
def terminate (b : MsgBuffer) : Except Fault MsgBuffer :=
  if b.size < b.cells.length then
    .ok { b with cells := b.cells.set b.size '\x00', size_le := by simpa using b.size_le }
  else .error .outOfBounds

end MsgBuffer

/-- The buffer a text has been appended to. -/
def Memory.hold (m : Memory) (text : List Char) : MsgBuffer :=
  text.foldl (MsgBuffer.pushBack m) ⟨m.inline, 0, Nat.zero_le _⟩

/-- `FormatMsg` of a message whose text is in a buffer: it is printed up to the first NUL in the
memory. -/
def formatRaw (tz : Timezone) (msg : Msg) (raw : MsgBuffer) (self : ThreadData) :
    Except Fault (List Char × ThreadData) := do
  let raw ← raw.terminate
  pure (formatMsg tz { msg with raw := raw.cells } self)

/-- All accesses are within the memory, and the line contains the text. -/
def Prints (tz : Timezone) (msg : Msg) (raw : MsgBuffer) (self : ThreadData) (text : List Char) :
    Prop :=
  ∃ line self', formatRaw tz msg raw self = .ok (line, self') ∧ text <:+: line

variable {m : Memory} {b : MsgBuffer} {text : List Char}

theorem takeWhile_append_nul (s t : List Char) :
    (s ++ '\x00' :: t).takeWhile (· ≠ '\x00') = s.takeWhile (· ≠ '\x00') := by
  induction s with
  | nil => rfl
  | cons c s ih => simp only [List.cons_append, List.takeWhile_cons, ih]

theorem takeWhile_of_not_mem {s : List Char} (h : '\x00' ∉ s) :
    s.takeWhile (· ≠ '\x00') = s :=
  List.takeWhile_eq_self_iff.mpr fun _ hc => decide_eq_true fun heq => h (heq ▸ hc)

theorem free_nul {s : List Char} : Free ['\x00'] s ↔ '\x00' ∉ s := by
  constructor
  · intro h hnul
    exact h _ hnul List.mem_cons_self
  · rintro h ch hch hnul
    exact h (List.mem_singleton.mp hnul ▸ hch)

/-! ## The buffer -/

namespace MsgBuffer

@[simp] theorem length_text (b : MsgBuffer) : b.text.length = b.size :=
  List.length_take_of_le b.size_le

theorem take_grown (m : Memory) (b : MsgBuffer) : (b.grown m).take b.size = b.text := by
  rw [grown]
  split
  · rfl
  · rw [List.take_append_of_le_length b.size_le, text]

@[simp] theorem text_pushBack (m : Memory) (b : MsgBuffer) (c : Char) :
    (b.pushBack m c).text = b.text ++ [c] := by
  have hlt := b.size_lt_grown m
  have hset : (b.grown m).set b.size c = b.text ++ c :: (b.grown m).drop (b.size + 1) := by
    rw [List.set_eq_take_append_cons_drop, if_pos hlt, take_grown]
  have hsplit : b.text ++ c :: (b.grown m).drop (b.size + 1) =
      b.text ++ [c] ++ (b.grown m).drop (b.size + 1) := by simp
  have hlen : (b.text ++ [c]).length = b.size + 1 := by simp
  rw [text, pushBack]
  dsimp only
  rw [hset, hsplit, ← hlen, List.take_left]

theorem text_foldl (m : Memory) (b : MsgBuffer) (s : List Char) :
    (s.foldl (pushBack m) b).text = b.text ++ s := by
  induction s generalizing b with
  | nil => simp
  | cons c s ih => simp [ih]

/-- No memory is taken as long as the characters fit. -/
theorem capacity_foldl (m : Memory) (b : MsgBuffer) (s : List Char)
    (hfit : b.size + s.length ≤ b.capacity) :
    (s.foldl (pushBack m) b).capacity = b.capacity := by
  induction s generalizing b with
  | nil => rfl
  | cons c s ih =>
      rw [List.length_cons] at hfit
      have hcap : (b.pushBack m c).capacity = b.capacity := by
        have hlt : b.size < b.cells.length := by
          rw [capacity] at hfit
          omega
        rw [capacity, pushBack, List.length_set, grown, if_pos hlt, capacity]
      have hsize : (b.pushBack m c).size = b.size + 1 := rfl
      rw [List.foldl_cons, ih _ (by omega), hcap]

/-- The C string in the memory is the text up to its first NUL. -/
theorem takeWhile_terminated (h : b.size < b.cells.length) :
    (b.cells.set b.size '\x00').takeWhile (· ≠ '\x00') = b.text.takeWhile (· ≠ '\x00') := by
  rw [List.set_eq_take_append_cons_drop, if_pos h, takeWhile_append_nul, text]

end MsgBuffer

theorem text_hold (m : Memory) (text : List Char) : (m.hold text).text = text :=
  MsgBuffer.text_foldl m _ text

theorem size_hold (m : Memory) (text : List Char) : (m.hold text).size = text.length := by
  rw [← MsgBuffer.length_text, text_hold]

theorem capacity_hold (m : Memory) (text : List Char) (h : text.length ≤ 256) :
    (m.hold text).capacity = 256 := by
  have hfit : 0 + text.length ≤ m.inline.length := by
    rw [m.length_inline]
    omega
  exact (MsgBuffer.capacity_foldl m ⟨m.inline, 0, Nat.zero_le _⟩ text hfit).trans m.length_inline

/-! ## The line -/

/-- The line contains the text up to its first NUL. -/
theorem infix_formatMsg (tz : Timezone) (msg : Msg) (self : ThreadData) :
    msg.raw.takeWhile (· ≠ '\x00') <:+: (formatMsg tz msg self).1 := by
  rw [formatMsg]
  dsimp only
  refine List.IsInfix.trans ?_ (List.suffix_append _ _).isInfix
  refine List.IsInfix.trans ?_ (List.suffix_cons _ _).isInfix
  simp only [List.append_assoc, List.cons_append]
  exact ⟨[' '], _, rfl⟩

/-- A line holds no NUL. -/
theorem free_formatMsg (tz : Timezone) (msg : Msg) (self : ThreadData)
    (hfile : Free ['\x00'] msg.loc.filename) (hfunc : Free ['\x00'] msg.loc.funcname) :
    Free ['\x00'] (formatMsg tz msg self).1 := by
  have hlevel : ∀ level : Level, Free ['\x00'] level.toStr.toList := by
    intro level
    cases level <;> decide
  have hbefore := free_before tz msg self (by decide) (by decide) hlevel
  have htid : Free ['\x00'] ('<' :: hexadecimal (logTime tz msg self).1.tid) :=
    Free.append (s := ['<', '0', 'x']) (by decide) (free_toDigits (by omega) (by decide) _)
  have hraw : Free ['\x00'] (' ' :: msg.raw.takeWhile (· ≠ '\x00')) :=
    Free.append (s := [' ']) (by decide) fun ch hch => by simpa using List.mem_takeWhile_imp hch
  have hline : Free ['\x00'] (':' :: zeroPadded 0 msg.loc.line) :=
    Free.append (s := [':']) (by decide) (free_zeroPadded (by decide) (by decide) 0 _)
  have hplace := ((hraw.append (t := [' ', '[']) (by decide)).append hfile).append hline
  have hafter := ((hplace.append (t := ['|', '|']) (by decide)).append hfunc).append
    (t := [']', '\n']) (by decide)
  exact (hbefore.append htid).append (Free.append (s := ['>']) (by decide) hafter)

/-- A text that leaves room is printed up to its first NUL. -/
theorem formatRaw_of_lt (tz : Timezone) (msg : Msg) (self : ThreadData)
    (h : b.size < b.cells.length) : formatRaw tz msg b self =
      .ok (formatMsg tz { msg with raw := b.cells.set b.size '\x00' } self) := by
  rw [formatRaw, MsgBuffer.terminate, if_pos h]
  rfl

/-- The NUL is stored behind the memory of a buffer that is full. -/
theorem formatRaw_of_full (tz : Timezone) (msg : Msg) (self : ThreadData)
    (h : ¬ b.size < b.cells.length) : formatRaw tz msg b self = .error .outOfBounds := by
  rw [formatRaw, MsgBuffer.terminate, if_neg h]
  rfl

theorem lt_of_prints {tz : Timezone} {msg : Msg} {self : ThreadData}
    (h : Prints tz msg b self text) : b.size < b.cells.length := by
  by_contra hfull
  obtain ⟨line, self', hformat, -⟩ := h
  rw [formatRaw_of_full tz msg self hfull] at hformat
  cases hformat

/-- What is printed holds no NUL. -/
theorem not_mem_of_prints {tz : Timezone} {msg : Msg} {self : ThreadData}
    (hfile : '\x00' ∉ msg.loc.filename) (hfunc : '\x00' ∉ msg.loc.funcname)
    (h : Prints tz msg b self text) : '\x00' ∉ text := by
  intro hnul
  have hlt := lt_of_prints h
  obtain ⟨line, self', hformat, hpart⟩ := h
  have hfree := free_formatMsg tz { msg with raw := b.cells.set b.size '\x00' } self
    (free_nul.mpr hfile) (free_nul.mpr hfunc)
  rw [formatRaw_of_lt tz msg self hlt] at hformat
  rw [Except.ok.inj hformat] at hfree
  exact free_nul.mp hfree (hpart.subset hnul)

/-- **What is printed.**  The text of a message is printed, with all accesses within the memory,
exactly when the memory is not full and the text holds no NUL.  The names of the place are C
strings. -/
theorem prints_iff (tz : Timezone) (msg : Msg) (m : Memory) (self : ThreadData) (text : List Char)
    (hfile : '\x00' ∉ msg.loc.filename) (hfunc : '\x00' ∉ msg.loc.funcname) :
    Prints tz msg (m.hold text) self text ↔
      text.length < (m.hold text).capacity ∧ '\x00' ∉ text := by
  have hsize := size_hold m text
  constructor
  · intro h
    exact ⟨hsize ▸ lt_of_prints h, not_mem_of_prints hfile hfunc h⟩
  · rintro ⟨hlt, hnul⟩
    have hlt' : (m.hold text).size < (m.hold text).cells.length := hsize ▸ hlt
    refine ⟨_, _, formatRaw_of_lt tz msg self hlt', ?_⟩
    have hpart := infix_formatMsg tz
      { msg with raw := (m.hold text).cells.set (m.hold text).size '\x00' } self
    dsimp only at hpart
    rw [MsgBuffer.takeWhile_terminated hlt', text_hold, takeWhile_of_not_mem hnul] at hpart
    exact hpart

/-- Memory that holds blanks, and takes as much again. -/
def blankMemory : Memory where
  inline := List.replicate 256 ' '
  length_inline := List.length_replicate
  more cells := ' ' :: cells
  more_ne _ := List.cons_ne_nil _ _

/-- A message from a program `a.cc`. -/
def sample : Msg := ⟨.info, 1, 0, [], ⟨['a', '.', 'c', 'c'], 3, ['f']⟩⟩

/-- A short text. -/
theorem prints_short : Prints .empty sample (blankMemory.hold ['h', 'i']) ⟨1, 0, none⟩ ['h', 'i'] :=
  (prints_iff .empty sample blankMemory ⟨1, 0, none⟩ ['h', 'i'] (by decide) (by decide)).mpr
    ⟨by decide +kernel, by decide⟩

/-- **A text of 256 characters** fills the memory, whatever it is and whatever memory there is. -/
theorem formatRaw_of_256 (tz : Timezone) (msg : Msg) (m : Memory) (self : ThreadData)
    {text : List Char} (h : text.length = 256) :
    formatRaw tz msg (m.hold text) self = .error .outOfBounds := by
  refine formatRaw_of_full tz msg self ?_
  have hcap := capacity_hold m text h.le
  rw [MsgBuffer.capacity] at hcap
  rw [size_hold, hcap, h]
  exact Nat.lt_irrefl 256

/-- The NUL behind a text of 256 characters, and a text with a NUL in it, of which the second half
is not printed. -/
theorem not_prints :
    formatRaw .empty sample (blankMemory.hold (List.replicate 256 'a')) ⟨1, 0, none⟩ =
        .error .outOfBounds ∧
      ¬ Prints .empty sample (blankMemory.hold (List.replicate 256 'a')) ⟨1, 0, none⟩
        (List.replicate 256 'a') ∧
      ¬ Prints .empty sample (blankMemory.hold ['a', '\x00', 'b']) ⟨1, 0, none⟩
        ['a', '\x00', 'b'] := by
  have hfull := formatRaw_of_256 .empty sample blankMemory ⟨1, 0, none⟩
    (List.length_replicate (n := 256) (a := 'a'))
  refine ⟨hfull, ?_, ?_⟩
  · rintro ⟨line, self', hformat, -⟩
    rw [hfull] at hformat
    cases hformat
  · intro h
    exact not_mem_of_prints (by decide) (by decide) h (by decide)

end Hare.Log
