import Hare.Base.Event
import Hare.Base.Fault
import Hare.Lib.BoundedLoop
import Hare.Lib.LabelledRun
import Mathlib.Data.List.DropRight

/-!
# The console

`Console::Process` reads a line from the standard input, takes the newlines off its end, and calls
the handler registered for what is left, or the default handler.

The loop that takes off the newlines looks at the last character without asking whether there is
one.  So it goes wrong for an input of newlines only, and at the end of the input, where nothing
is read.
-/

namespace Hare.Io

open LabelledRun BoundedLoop

/-- The character `'\n'`. -/
def newline : UInt8 := 10

/-- The handlers of type `H` and the default handler, of type `D`. -/
structure Console (H D : Type) where
  handlers : List UInt8 → Option H
  defaultHandle : D
  attached : Bool

/-- The call at the end of `Process`. -/
inductive ConsoleCall (H D : Type)
  | handler (handle : H)
  | default (handle : D) (line : List UInt8)
  deriving DecidableEq, Repr

namespace Console

variable {H D : Type}

/-- `RegisterHandle`; `emplace` keeps a handler that is there already. -/
def registerHandle (c : Console H D) (handleMask : List UInt8) (handle : H) :
    Except Fault (Console H D) :=
  if c.attached then .error .assertFailed
  else
    let kept := (c.handlers handleMask).getD handle
    .ok { c with handlers := Function.update c.handlers handleMask (some kept) }

/-- A round of the loop of `Process`: `back` is undefined for the empty string. -/
def stripStep (line : List UInt8) : Except Fault (List UInt8 ⊕ List UInt8) :=
  match line.getLast? with
  | none => .error .outOfBounds
  | some c => if c = newline then .ok (.inl line.dropLast) else .ok (.inr line)

def strip (fuel : ℕ) (line : List UInt8) : Except Fault (List UInt8) :=
  loop .diverges stripStep fuel line

/-- The end of `Process`. -/
def handle (c : Console H D) (line : List UInt8) : ConsoleCall H D :=
  match c.handlers line with
  | some h => .handler h
  | none => .default c.defaultHandle line

/-- `Process`.  `input` are the bytes `read` returns, and `none` when it fails. -/
def process (fuel : ℕ) (c : Console H D) (events : Events) (input : Option (List UInt8)) :
    Except Fault (Option (ConsoleCall H D)) :=
  if events.read then
    match input with
    | none => .ok none
    | some bytes => do
      let line ← strip fuel bytes
      pure (some (c.handle line))
  else .ok none

/-- The line without the newlines at its end. -/
def stripped (line : List UInt8) : List UInt8 := line.rdropWhile (· = newline)

variable {line : List UInt8} {fuel : ℕ}

/-- A handler registered for a line is called for that line, unless there was one before. -/
theorem handle_registerHandle {c c' : Console H D} {mask : List UInt8} {task : H}
    (h : c.registerHandle mask task = .ok c') :
    c'.handle line =
      if line = mask ∧ c.handlers line = none then .handler task else c.handle line := by
  rw [registerHandle] at h
  split at h
  case isTrue => cases h
  case isFalse =>
    cases h
    by_cases hline : line = mask
    · subst hline
      cases hold : c.handlers line <;> simp [handle, hold]
    · simp [handle, hline]

theorem stripStep_concat (init : List UInt8) (c : UInt8) :
    stripStep (init ++ [c]) =
      if c = newline then .ok (.inl init) else .ok (.inr (init ++ [c])) := by
  rw [stripStep, List.getLast?_concat, List.dropLast_concat]

/-- **The loop takes the newlines off a line that is not blank.** -/
theorem strip_eq (h : ∃ c ∈ line, c ≠ newline) (hfuel : line.length < fuel) :
    strip fuel line = .ok (stripped line) := by
  induction line using List.reverseRecOn generalizing fuel with
  | nil =>
      obtain ⟨c, hc, -⟩ := h
      cases hc
  | append_singleton init c ih =>
      obtain ⟨fuel, rfl⟩ : ∃ k, fuel = k + 1 := Nat.exists_eq_succ_of_ne_zero (by omega)
      rw [strip, loop, stripStep_concat, stripped]
      by_cases hc : c = newline
      · rw [if_pos hc, List.rdropWhile_concat_pos _ _ _ (by simpa using hc)]
        refine ih ?_ (by simpa using hfuel)
        obtain ⟨d, hd, hne⟩ := h
        rcases List.mem_append.mp hd with hd | hd
        · exact ⟨d, hd, hne⟩
        · exact absurd ((List.mem_singleton.mp hd).trans hc) hne
      · rw [if_neg hc, List.rdropWhile_concat_neg _ _ _ (by simpa using hc)]

/-- A blank line is taken off character by character until nothing is left to look at. -/
theorem strip_ne_ok (h : ∀ c ∈ line, c = newline) (fuel : ℕ) (out : List UInt8) :
    strip fuel line ≠ .ok out := by
  refine loop_ne_ok (I := fun line => ∀ c ∈ line, c = newline) ?_ h fuel out
  intro line r hline hr
  rcases List.eq_nil_or_concat line with rfl | ⟨init, c, rfl⟩
  · cases hr
  · rw [List.concat_eq_append] at hline hr
    rw [stripStep_concat, if_pos (hline c (by simp))] at hr
    cases hr
    exact ⟨init, rfl, fun d hd => hline d (List.mem_append_left _ hd)⟩

/-- **When the console handles what has been read**: when it is not blank. -/
theorem process_iff (c : Console H D) {events : Events} (hread : events.read = true)
    (bytes : List UInt8) :
    (∃ fuel, c.process fuel events (some bytes) = .ok (some (c.handle (stripped bytes)))) ↔
      ∃ b ∈ bytes, b ≠ newline := by
  constructor
  · rintro ⟨fuel, h⟩
    by_contra hblank
    have hall : ∀ b ∈ bytes, b = newline := fun b hb => by
      by_contra hne
      exact hblank ⟨b, hb, hne⟩
    rw [process, if_pos hread] at h
    obtain ⟨line, hline, -⟩ := bind_eq_ok h
    exact strip_ne_ok hall fuel line hline
  · intro h
    refine ⟨bytes.length + 1, ?_⟩
    rw [process, if_pos hread, strip_eq h (Nat.lt_succ_self _)]
    rfl

/-- The line `q`, with two newlines. -/
theorem process_quit : ∃ fuel,
    process fuel ⟨fun line => if line = [113] then some 0 else none, 1, true⟩ { read := true }
      (some [113, 10, 10]) = .ok (some (.handler 0 : ConsoleCall ℕ ℕ)) :=
  (process_iff (⟨fun line => if line = [113] then some 0 else none, 1, true⟩ : Console ℕ ℕ) rfl
    [113, 10, 10]).mpr ⟨113, by decide, by decide⟩

/-- An empty line: after its newline has been taken off, the last character of the empty string
is looked at.  The end of the input is the same without a newline. -/
theorem process_blank :
    process 2 (⟨fun _ => none, 1, true⟩ : Console ℕ ℕ) { read := true } (some [10]) =
        .error .outOfBounds ∧
      process 1 (⟨fun _ => none, 1, true⟩ : Console ℕ ℕ) { read := true } (some []) =
        .error .outOfBounds := by
  decide

end Console

end Hare.Io
