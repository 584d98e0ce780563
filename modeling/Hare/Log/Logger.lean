import Hare.Base.Timezone

/-!
# Records, their text, and the plain logger

A call of `Log` makes a message with the calling thread and the time in it; `FormatMsg` makes
a line of text of it, on the thread that runs it: the stamp comes from a cache of that
thread, and so does the thread id in the line.

A plain `Logger` formats a record in the call and gives the line to the backends whose level
the record reaches.  What a backend does with a line is its own affair; the model records
what it is given.
-/

namespace Hare.Log

open Text Time

inductive Level
  | trace
  | debug
  | info
  | warning
  | error
  | fatal
  | nbrs
  deriving DecidableEq, Repr, Inhabited

namespace Level

/-- The value of the enumerator. -/
def toNat : Level → ℕ
  | .trace => 0
  | .debug => 1
  | .info => 2
  | .warning => 3
  | .error => 4
  | .fatal => 5
  | .nbrs => 6

def toStr : Level → String
  | .trace => "trace"
  | .debug => "debug"
  | .info => "info"
  | .warning => "warning"
  | .error => "error"
  | .fatal => "fatal"
  | .nbrs => "nbrs"

end Level

/-- The place of a call in the sources. -/
structure SourceLoc where
  filename : List Char
  line : ℤ
  funcname : List Char
  deriving DecidableEq, Repr, Inhabited

/-- A record.  `stamp` is in microseconds since the epoch. -/
structure Msg where
  level : Level
  tid : ℕ
  stamp : ℤ
  raw : List Char
  loc : SourceLoc
  deriving DecidableEq, Repr, Inhabited

/-- What a thread keeps for itself: its id, and the last time it has formatted. -/
structure ThreadData where
  tid : ℕ
  lastTime : ℤ := 0
  /-- The date behind `t_time`, which is empty at first. -/
  time : Option DateTime := none
  deriving DecidableEq, Repr

/-- `t_time`. -/
def ThreadData.text (self : ThreadData) : List Char :=
  match self.time with
  | none => []
  | some dt => dt.toFmt

/-- The text of the time of a record, converted only when the second is another one than the
last time, and the microseconds. -/
def logTime (tz : Timezone) (msg : Msg) (self : ThreadData) : ThreadData × ℤ :=
  let seconds := msg.stamp.tdiv 1000000
  let microseconds := msg.stamp - seconds * 1000000
  if seconds ≠ self.lastTime then
    let dt := if tz.valid then tz.toLocal seconds else Timezone.toUtcTime seconds
    ({ self with lastTime := seconds, time := some dt }, microseconds)
  else (self, microseconds)

/-- The line of a record, and the thread afterwards. -/
def formatMsg (tz : Timezone) (msg : Msg) (self : ThreadData) : List Char × ThreadData :=
  let (self, microseconds) := logTime tz msg self
  -- the text ends at the first NUL
  let raw := msg.raw.takeWhile (· ≠ '\x00')
  let before := '(' :: self.text ++ '.' :: zeroPadded 6 microseconds ++
    [')', ' ', '['] ++ leftAligned 8 msg.level.toStr.toList ++ [']', ' ']
  let after := ' ' :: raw ++ [' ', '['] ++ msg.loc.filename ++ ':' :: zeroPadded 0 msg.loc.line ++
    ['|', '|'] ++ msg.loc.funcname ++ [']', '\n']
  (before ++ '<' :: hexadecimal self.tid ++ '>' :: after, self)

/-- A backend, with the lines it has been given. -/
structure Backend where
  level : Level := .info
  received : List (List Char × Level) := []
  deriving DecidableEq, Repr

namespace Backend

def check (b : Backend) (level : Level) : Bool := b.level.toNat ≤ level.toNat

def log (b : Backend) (line : List Char) (level : Level) : Backend :=
  { b with received := b.received ++ [(line, level)] }

end Backend

structure Logger where
  level : Level := .trace
  flushLevel : Level := .warning
  timezone : Timezone := .empty
  backends : List Backend
  deriving DecidableEq, Repr

/-- The arguments of a call of `Log`, with the formatted text and the time of the call. -/
structure Call where
  level : Level
  stamp : ℤ
  raw : List Char
  loc : SourceLoc
  deriving DecidableEq, Repr

namespace Logger

def check (g : Logger) (level : Level) : Bool := g.level.toNat ≤ level.toNat

def shouldFlushOn (g : Logger) (msg : Msg) : Bool :=
  g.flushLevel.toNat ≤ msg.level.toNat && msg.level.toNat < Level.nbrs.toNat

/-- `SinkIt`, run on a thread.  `HandleMsg` of the asynchronous logger does the same with a
record. -/
def sinkIt (g : Logger) (msg : Msg) (self : ThreadData) : Logger × ThreadData :=
  let (line, self) := formatMsg g.timezone msg self
  ({ g with backends := g.backends.map fun b =>
      if b.check msg.level then b.log line msg.level else b }, self)

/-- The record of a call, if the logger takes it. -/
def record (g : Logger) (self : ThreadData) (call : Call) : Option Msg :=
  if g.check call.level then
    some ⟨call.level, self.tid, call.stamp, call.raw, call.loc⟩
  else none

/-- Records formatted one after the other on a thread. -/
def sinkAll (g : Logger) (self : ThreadData) : List Msg → Logger × ThreadData
  | [] => (g, self)
  | msg :: msgs =>
    let (g, self) := g.sinkIt msg self
    g.sinkAll self msgs

/-- Calls of `Log` made one after the other on a thread. -/
def logAll (g : Logger) (self : ThreadData) (calls : List Call) : Logger × ThreadData :=
  g.sinkAll self (calls.filterMap (g.record self))

end Logger

/-! ## The thread id in a line -/

theorem tid_logTime (tz : Timezone) (msg : Msg) (self : ThreadData) :
    (logTime tz msg self).1.tid = self.tid := by
  unfold logTime
  dsimp only
  split <;> rfl

@[simp] theorem tid_formatMsg (tz : Timezone) (msg : Msg) (self : ThreadData) :
    (formatMsg tz msg self).2.tid = self.tid := tid_logTime tz msg self

/-- The part of a line before the thread id has no characters but those of the date, the level and
the brackets. -/
theorem free_before {delims : List Char} (tz : Timezone) (msg : Msg) (self : ThreadData)
    (hsep : Free delims ['(', ')', '[', ']', '.', ':', '-', ' '])
    (hdigit : ∀ k < 10, k.digitChar ∉ delims)
    (hlevel : ∀ level : Level, Free delims level.toStr.toList) :
    Free delims ('(' :: (logTime tz msg self).1.text ++
      '.' :: zeroPadded 6 (logTime tz msg self).2 ++ [')', ' ', '['] ++
      leftAligned 8 msg.level.toStr.toList ++ [']', ' ']) := by
  have hpart : ∀ s ⊆ ['(', ')', '[', ']', '.', ':', '-', ' '], Free delims s :=
    fun s hs ch hch => hsep ch (hs hch)
  have htext : Free delims (logTime tz msg self).1.text := by
    unfold ThreadData.text
    split
    · exact fun ch h => by cases h
    · exact DateTime.free_toFmt _ (hsep _ (by simp)) (hsep _ (by simp)) (hsep _ (by simp)) hdigit
  have hmicro : Free delims (zeroPadded 6 (logTime tz msg self).2) :=
    free_zeroPadded (hsep _ (by simp)) hdigit 6 _
  have hname : Free delims (leftAligned 8 msg.level.toStr.toList) :=
    free_leftAligned (hsep _ (by simp)) (hlevel _) 8
  have hopen : Free delims ['('] := hpart _ (by simp)
  have hdot : Free delims ['.'] := hpart _ (by simp)
  have hbracket : Free delims [')', ' ', '['] := hpart _ (by simp)
  have hclose : Free delims [']', ' '] := hpart _ (by simp)
  exact ((((hopen.append htext).append (hdot.append hmicro)).append hbracket).append
    hname).append hclose

/-- The thread id of a line is the one of the thread that formatted it, whatever the record. -/
theorem enclosed_formatMsg (tz : Timezone) (msg : Msg) (self : ThreadData) :
    enclosed '<' '>' (formatMsg tz msg self).1 = '<' :: hexadecimal self.tid := by
  have hlevel : ∀ level : Level, Free ['<', '>'] level.toStr.toList := by
    intro level
    cases level <;> decide
  have hbefore := free_before tz msg self (by decide) (by decide) hlevel
  have hfield : Free ['>'] ('<' :: hexadecimal self.tid) :=
    Free.append (s := ['<', '0', 'x']) (by decide) (free_toDigits (by omega) (by decide) _)
  rw [← tid_logTime tz msg self] at hfield ⊢
  exact enclosed_eq hbefore hfield

/-- Lines formatted on different threads are different. -/
theorem formatMsg_ne (tz tz' : Timezone) (msg msg' : Msg) {self self' : ThreadData}
    (hne : self.tid ≠ self'.tid) : (formatMsg tz msg self).1 ≠ (formatMsg tz' msg' self').1 := by
  intro heq
  have hfield := congrArg (enclosed '<' '>') heq
  rw [enclosed_formatMsg, enclosed_formatMsg] at hfield
  exact hne (hexadecimal_injective (List.cons.inj hfield).2)

end Hare.Log
