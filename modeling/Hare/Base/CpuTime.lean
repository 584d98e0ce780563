import Hare.Lib.LabelledRun
import Hare.Lib.Words

/-!
# The processor times in `/proc`

`CpuTotalOccupy` adds up the first four numbers of the first line of `/proc/stat`, and
`CpuProcOccupy` the fields 14 to 17 of `/proc/<pid>/stat`.  Both cut the line at a blank, read the
number at its beginning, and look for the next blank, from an index on that counts from the
beginning of the line before it was cut.  So which fields are read depends on how wide they are.

The scanner is followed by words: `Words.cut` finds the words at which a line is cut from their
widths alone, and `columns` says at which words a number is read.  A line can have the right sum by
chance, when fields that are not read are 0.  So the condition is one on the widths, for all lines
that have them: if a field is not read, there are two lines that differ in this field only, and
for one of them the sum is wrong.
-/

namespace Hare.Util

open LabelledRun Words

/-- What ends a function before it returns. -/
inductive ScanFault
  /-- A character behind the end of the line is read. -/
  | outOfBounds
  /-- `std::invalid_argument` of `std::stoull`. -/
  | invalidArgument
  /-- `std::out_of_range` of `std::stoull` or `substr`. -/
  | outOfRange
  deriving DecidableEq, Repr

/-! ## The functions of strings -/

/-- The loop over the blanks: the index behind the first character that is not a blank.  At the
end of a string there is a NUL. -/
def skip : List Char → ℕ → ℕ
  | [], index => index + 1
  | c :: s, index => if c = ' ' then skip s (index + 1) else index + 1

/-- `find(' ', index)`. -/
def findFrom (line : List Char) (index : ℕ) : Option ℕ :=
  ((line.drop index).findIdx? (· = ' ')).map (index + ·)

/-- `isspace`. -/
def isSpace (c : Char) : Bool := c = ' ' || ('\t' ≤ c && c ≤ '\r')

/-- The number of a sequence of digits. -/
def decimal (digits : List Char) : ℕ :=
  digits.foldl (fun n c => 10 * n + (c.toNat - '0'.toNat)) 0

/-- The optional sign: whether it is a minus, and what follows. -/
def sign : List Char → Bool × List Char
  | '-' :: s => (true, s)
  | '+' :: s => (false, s)
  | s => (false, s)

/-- `std::stoull`, which accepts negative numbers. -/
def stoull (s : List Char) : Except ScanFault ℕ :=
  let (negative, s) := sign (s.dropWhile isSpace)
  let digits := s.takeWhile Char.isDigit
  if digits = [] then .error .invalidArgument
  else if 2 ^ 64 ≤ decimal digits then .error .outOfRange
  else .ok (if negative then (2 ^ 64 - decimal digits) % 2 ^ 64 else decimal digits)

/-! ## The two functions -/

/-- The part both functions repeat: cut the line, look for the next blank, read the number.  There
is no result when there is no blank, where the functions return 0. -/
def readTimes : ℕ → List Char → ℕ → Except ScanFault (Option (List ℕ))
  | 0, _, _ => .ok (some [])
  | n + 1, line, index =>
    let line := line.drop index
    if line.length < index then .error .outOfBounds
    else
      match findFrom line (skip (line.drop index) index) with
      | none => .ok none
      | some index => do
        let time ← stoull line
        let times ← readTimes n line index
        pure (times.map (time :: ·))

/-- The sum of the times, in 64 bits. -/
def total : Option (List ℕ) → ℕ
  | none => 0
  | some times => times.sum % 2 ^ 64

/-- `CpuTotalOccupy`, for the first line of `/proc/stat`. -/
def cpuTotalOccupy (line : List Char) : Except ScanFault ℕ :=
  match findFrom line 0 with
  | none => .error .outOfRange
  | some index => (readTimes 4 line index).map total

/-- What follows the `n`-th blank. -/
def behindBlank : ℕ → List Char → Option (List Char)
  | _, [] => none
  | n, c :: s =>
    if c = ' ' then if n = 1 then some s else behindBlank (n - 1) s else behindBlank n s

/-- `CpuProcOccupy`, for the line of `/proc/<pid>/stat`.  A line with fewer blanks is not cut. -/
def cpuProcOccupy (line : List Char) : Except ScanFault ℕ :=
  let line := (behindBlank 13 line).getD line
  match findFrom line 0 with
  | none => .ok 0
  | some index => do
    let time ← stoull line
    let times ← readTimes 3 line index
    pure (total (times.map (time :: ·)))

/-! ## The columns -/

/-- How the scanner ends. -/
inductive Ending
  | done
  /-- There is no blank behind the last word. -/
  | missing
  /-- It has to look behind the end of the line. -/
  | beyond
  deriving DecidableEq, Repr

/-- At which words a number is read. -/
@[ext]
structure Columns where
  places : List ℕ
  ending : Ending
  deriving DecidableEq, Repr

/-- The columns that are read, for a line of words of these widths, which each follow a blank. -/
def columns : ℕ → ℕ → List ℕ → Columns
  | 0, _, _ => ⟨[], .done⟩
  | n + 1, d, ns =>
    if (ns.map (· + 1)).sum < d then ⟨[], .beyond⟩
    else
      match cut d ns with
      | none => ⟨[], .missing⟩
      | some (e, k) =>
        ⟨0 :: (columns n e (ns.drop k)).places.map (k + ·), (columns n e (ns.drop k)).ending⟩

/-- The number that is read at a word. -/
def timeAt (ws : List (List Char)) (i : ℕ) : Except ScanFault ℕ :=
  stoull (preceded ' ' (ws.drop i))

/-- The numbers at the places. -/
def Columns.times (c : Columns) (ws : List (List Char)) : Except ScanFault (Option (List ℕ)) := do
  let times ← c.places.mapM (timeAt ws)
  match c.ending with
  | .done => .ok (some times)
  | .missing => .ok none
  | .beyond => .error .outOfBounds

variable {d n : ℕ} {ws : List (List Char)}

theorem findFrom_skip_of_drop {line s : List Char} {index : ℕ} (h : line.drop index = s) :
    findFrom line (skip s index) = (wordEnd ' ' s).map (index + ·) := by
  induction s generalizing index with
  | nil =>
      have hnil : line.drop (index + 1) = [] := by
        rw [← List.drop_drop, h]
        rfl
      rw [skip, findFrom, hnil]
      rfl
  | cons c s ih =>
      have hs : line.drop (index + 1) = s := by
        rw [← List.drop_drop, h]
        rfl
      rw [skip, wordEnd]
      split
      case isTrue =>
        rw [ih hs, Option.map_map]
        refine congrArg (Option.map · _) (funext fun k => ?_)
        rw [Function.comp_apply]
        omega
      case isFalse =>
        rw [findFrom, hs, Option.map_map]
        refine congrArg (Option.map · _) (funext fun k => ?_)
        rw [Function.comp_apply]
        omega

/-- The two loops over characters find the cut. -/
theorem findFrom_skip (hws : ∀ w ∈ ws, ' ' ∉ w) (d : ℕ) :
    findFrom (preceded ' ' ws) (skip ((preceded ' ' ws).drop d) d) =
      (cut d (ws.map List.length)).map Prod.fst := by
  rw [findFrom_skip_of_drop rfl, wordEnd_drop hws]

theorem mapM_timeAt_drop (k : ℕ) (places : List ℕ) :
    (places.map (k + ·)).mapM (timeAt ws) = places.mapM (timeAt (ws.drop k)) := by
  induction places with
  | nil => rfl
  | cons i places ih =>
      rw [List.map_cons, List.mapM_cons, List.mapM_cons, ih, timeAt, timeAt, List.drop_drop]

theorem Columns.times_cons (c : Columns) (k : ℕ) :
    Columns.times ⟨0 :: c.places.map (k + ·), c.ending⟩ ws = (do
      let time ← stoull (preceded ' ' ws)
      let times ← c.times (ws.drop k)
      pure (times.map (time :: ·))) := by
  rw [times, times, List.mapM_cons, mapM_timeAt_drop, timeAt, List.drop_zero]
  cases stoull (preceded ' ' ws) with
  | error e => rfl
  | ok time =>
      cases c.places.mapM (timeAt (ws.drop k)) with
      | error e => rfl
      | ok times => cases c.ending <;> rfl

/-- **The scanner reads the columns.** -/
theorem readTimes_eq {line : List Char} (hws : ∀ w ∈ ws, ' ' ∉ w) (n : ℕ)
    (hline : line.drop d = preceded ' ' ws) :
    readTimes n line d = (columns n d (ws.map List.length)).times ws := by
  induction n generalizing line d ws with
  | zero => rfl
  | succ n ih =>
      rw [readTimes, columns, hline, length_preceded, List.map_map]
      change (if (ws.map fun w => w.length + 1).sum < d then _ else _) =
        Columns.times (if (ws.map fun w => w.length + 1).sum < d then _ else _) ws
      split
      case isTrue => rfl
      case isFalse =>
        rw [findFrom_skip hws]
        cases hcut : cut d (ws.map List.length) with
        | none => rfl
        | some r =>
            simp only [Option.map_some]
            rw [ih (fun w hw => hws w (List.mem_of_mem_drop hw)) (drop_cut hcut), List.map_drop]
            exact (Columns.times_cons _ _).symm

/-! ## Widths -/

section Places

variable {m e k i : ℕ} {ns ps : List ℕ}

theorem columns_of_cut (h : cut d ns = some (e, k)) :
    columns (n + 1) d ns =
      ⟨0 :: (columns n e (ns.drop k)).places.map (k + ·), (columns n e (ns.drop k)).ending⟩ := by
  have hbounds := cut_bounds h
  rw [columns, if_neg (by omega), h]

theorem exists_cut (h : (columns (n + 1) d ns).ending = .done) : ∃ e k, cut d ns = some (e, k) := by
  rw [columns] at h
  split at h
  · cases h
  · split at h
    · cases h
    · next e k hcut => exact ⟨e, k, hcut⟩

/-- The places are in order, and there are as many as asked for when the scanner comes to its
end. -/
theorem places_spec (n d : ℕ) (ns : List ℕ) :
    (columns n d ns).places.Pairwise (· < ·) ∧
      ((columns n d ns).ending = .done → (columns n d ns).places.length = n) := by
  induction n generalizing d ns with
  | zero => exact ⟨List.Pairwise.nil, fun _ => rfl⟩
  | succ n ih =>
      cases hcut : cut d ns with
      | none =>
          rw [columns, hcut]
          split <;> exact ⟨List.Pairwise.nil, nofun⟩
      | some r =>
          obtain ⟨e, k⟩ := r
          obtain ⟨hord, hlen⟩ := ih e (ns.drop k)
          have hk := cut_pos hcut
          rw [columns_of_cut hcut]
          refine ⟨List.pairwise_cons.mpr ⟨?_, ?_⟩, fun hdone => ?_⟩
          · exact List.forall_mem_map.mpr fun i _ => Nat.add_pos_left hk i
          · exact hord.map _ fun _ _ hlt => Nat.add_lt_add_left hlt k
          · rw [List.length_cons, List.length_map, hlen hdone]

theorem places_head (h : (columns (n + 1) d ns).ending = .done) :
    ∃ ps, columns (n + 1) d ns = ⟨0 :: ps, .done⟩ := by
  obtain ⟨e, k, hcut⟩ := exists_cut h
  rw [columns_of_cut hcut] at h ⊢
  exact ⟨_, by rw [← h]⟩

/-- The next place is the next word when the word reaches behind the position. -/
theorem columns_next_iff : columns (n + 2) d (m :: ns) = ⟨0 :: 1 :: ps.map (1 + ·), .done⟩ ↔
    (m ≠ 0 ∧ d < m + 1 ∧ ns ≠ []) ∧ columns (n + 1) (m + 1) ns = ⟨0 :: ps, .done⟩ := by
  constructor
  · intro h
    obtain ⟨e, k, hcut⟩ := exists_cut (congrArg Columns.ending h)
    rw [columns_of_cut hcut] at h
    obtain ⟨ps', hrest⟩ := places_head (congrArg Columns.ending h)
    rw [hrest] at h
    simp only [List.map_cons, Columns.mk.injEq, List.cons.injEq, and_true, true_and] at h
    obtain ⟨rfl, hps⟩ : k = 1 ∧ _ := ⟨by simpa using h.1, h.2⟩
    obtain ⟨hm, hd, hne, rfl⟩ := cut_eq_one_iff.mp hcut
    refine ⟨⟨hm, hd, hne⟩, ?_⟩
    rw [List.drop_succ_cons, List.drop_zero] at hrest
    rw [hrest, List.map_injective_iff.mpr (add_right_injective 1) hps]
  · rintro ⟨⟨hm, hd, hne⟩, hrest⟩
    rw [columns_of_cut (cut_eq_one_iff.mpr ⟨hm, hd, hne, rfl⟩), List.drop_succ_cons,
      List.drop_zero, hrest]
    rfl

theorem columns_one_iff (h : ∀ m ∈ ns, m ≠ 0) :
    columns 1 d ns = ⟨[0], .done⟩ ↔ d < room ns := by
  rw [← isSome_cut h]
  constructor
  · intro heq
    obtain ⟨e, k, hcut⟩ := exists_cut (congrArg Columns.ending heq)
    rw [hcut]
    rfl
  · intro hsome
    obtain ⟨⟨e, k⟩, hcut⟩ := Option.isSome_iff_exists.mp hsome
    rw [columns_of_cut hcut]
    rfl

/-- **The next three words are read** when each is wider than the one before, and a blank follows
far enough behind. -/
theorem columns_three_iff {a b : ℕ} (h : ∀ m ∈ a :: b :: ns, m ≠ 0) :
    columns 3 d (a :: b :: ns) = ⟨[0, 1, 2], .done⟩ ↔ d ≤ a ∧ a < b ∧ b + 1 < room ns := by
  obtain ⟨ha, hb, hns⟩ : a ≠ 0 ∧ b ≠ 0 ∧ ∀ m ∈ ns, m ≠ 0 := by simpa using h
  have h₁ : columns 3 d (a :: b :: ns) = ⟨0 :: 1 :: [1].map (1 + ·), .done⟩ ↔ _ :=
    columns_next_iff
  have h₂ : columns 2 (a + 1) (b :: ns) = ⟨0 :: 1 :: [].map (1 + ·), .done⟩ ↔ _ :=
    columns_next_iff
  simp only [List.map_cons, List.map_nil] at h₁ h₂
  rw [h₁, h₂, columns_one_iff hns]
  have hroom : b + 1 < room ns → ns ≠ [] := by
    rintro hlt rfl
    exact absurd hlt (Nat.not_lt_zero _)
  constructor
  · rintro ⟨⟨-, hd, -⟩, ⟨-, hab, -⟩, hlt⟩
    exact ⟨by omega, by omega, hlt⟩
  · rintro ⟨hd, hab, hlt⟩
    exact ⟨⟨ha, by omega, List.cons_ne_nil _ _⟩, ⟨hb, by omega, hroom hlt⟩, hlt⟩

end Places

/-! ## Fields that are not read -/

section Unread

variable {i r : ℕ} {w : List Char}

/-- What `std::stoull` reads ends at the first blank behind something else. -/
theorem stoull_append {u : List Char} (hu : ∃ c ∈ u, isSpace c = false) (s t : List Char) :
    stoull (u ++ ' ' :: s) = stoull (u ++ ' ' :: t) := by
  have hdigits (v s : List Char) :
      (v ++ ' ' :: s).takeWhile Char.isDigit = v.takeWhile Char.isDigit := by
    induction v with
    | nil => rfl
    | cons c v ih => simp only [List.cons_append, List.takeWhile_cons, ih]
  obtain ⟨c, v, hdrop⟩ : ∃ c v, ∀ s, (u ++ ' ' :: s).dropWhile isSpace = c :: v ++ ' ' :: s := by
    induction u with
    | nil =>
        obtain ⟨c, hc, -⟩ := hu
        cases hc
    | cons c u ih =>
        cases hspace : isSpace c with
        | false => exact ⟨c, u, fun s => List.dropWhile_cons_of_neg (by simp [hspace])⟩
        | true =>
            obtain ⟨c', hc', hc''⟩ := hu
            have hmem : c' ∈ u := (List.mem_cons.mp hc').resolve_left fun heq => by
              rw [heq, hspace] at hc''
              cases hc''
            obtain ⟨b, v, hv⟩ := ih ⟨c', hmem, hc''⟩
            exact ⟨b, v, fun s => (List.dropWhile_cons_of_pos hspace).trans (hv s)⟩
  have hsign : ∃ negative rest, ∀ s, sign (c :: v ++ ' ' :: s) = (negative, rest ++ ' ' :: s) := by
    by_cases hminus : c = '-'
    · exact ⟨true, v, fun s => by rw [hminus]; rfl⟩
    by_cases hplus : c = '+'
    · exact ⟨false, v, fun s => by rw [hplus]; rfl⟩
    · refine ⟨false, c :: v, fun s => ?_⟩
      rw [sign.eq_def]
      split
      case h_1 heq => exact absurd (List.cons.inj heq).1 hminus
      case h_2 heq => exact absurd (List.cons.inj heq).1 hplus
      case h_3 => rfl
  obtain ⟨negative, rest, hsign⟩ := hsign
  rw [stoull, stoull, hdrop, hdrop, hsign, hsign]
  dsimp only
  rw [hdigits, hdigits]

/-- Every word before the one at `r` has something between it and that one which is not a space. -/
def Shielded (ws : List (List Char)) (r : ℕ) : Prop :=
  ∀ i < r, ∃ w ∈ (ws.take r).drop i, ∃ c ∈ w, isSpace c = false

/-- A number is read at a word, not at one before it or behind it. -/
theorem timeAt_set (hshield : Shielded ws r) (hr : r < ws.length) (hi : i ≠ r) :
    timeAt (ws.set r w) i = timeAt ws i := by
  rcases Nat.lt_or_ge r i with hlt | hge
  · rw [timeAt, timeAt, List.drop_set_of_lt hlt]
  · have hlt : i < r := by omega
    have hsplit (ws : List (List Char)) (hr : r < ws.length) :
        preceded ' ' (ws.drop i) = preceded ' ' ((ws.take r).drop i) ++
          ' ' :: joined ' ' (ws.drop r) := by
      have hne : ws.drop r ≠ [] := List.drop_eq_nil_iff.not.mpr (Nat.not_le.mpr hr)
      have happend : ws.drop i = (ws.take r).drop i ++ ws.drop r := by
        rw [← List.drop_append_of_le_length (by rw [List.length_take]; omega),
          List.take_append_drop]
      rw [← preceded_eq_joined hne, preceded, happend, List.flatMap_append]
      rfl
    obtain ⟨v, hv, c, hc, hspace⟩ := hshield i hlt
    have hu : ∃ c ∈ preceded ' ' ((ws.take r).drop i), isSpace c = false :=
      ⟨c, List.mem_flatMap.mpr ⟨v, hv, List.mem_cons_of_mem _ hc⟩, hspace⟩
    rw [timeAt, timeAt, hsplit ws hr, hsplit _ (by rwa [List.length_set]),
      List.take_set_of_le le_rfl]
    exact stoull_append hu _ _

theorem Columns.times_set {c : Columns} (hshield : Shielded ws r) (hr : r < ws.length)
    (hnot : r ∉ c.places) : c.times (ws.set r w) = c.times ws := by
  have hmap : c.places.mapM (timeAt (ws.set r w)) = c.places.mapM (timeAt ws) := by
    generalize c.places = places at hnot
    induction places with
    | nil => rfl
    | cons i places ih =>
        have hi : i ≠ r := fun h => hnot (h ▸ List.mem_cons_self)
        rw [List.mapM_cons, List.mapM_cons, timeAt_set hshield hr hi,
          ih fun h => hnot (List.mem_cons_of_mem i h)]
  rw [times, times, hmap]

/-- A sum that is not 0 is one of four numbers. -/
theorem Columns.ending_of_total {c : Columns} {sum : ℕ} (h : (c.times ws).map total = .ok sum)
    (hsum : sum ≠ 0) : c.ending = .done := by
  rw [times] at h
  cases hmap : c.places.mapM (timeAt ws) with
  | error e =>
      rw [hmap] at h
      cases h
  | ok times =>
      rw [hmap] at h
      cases hending : c.ending with
      | done => rfl
      | missing =>
          rw [hending] at h
          exact absurd (Except.ok.inj h).symm hsum
      | beyond =>
          rw [hending] at h
          cases h

/-- A field that makes the difference between 0 and 1 is read. -/
theorem Columns.mem_places {c : Columns} (hshield : Shielded ws r) (hr : r < ws.length)
    (hzero : (c.times ws).map total = .ok 0) (hone : (c.times (ws.set r w)).map total = .ok 1) :
    r ∈ c.places := by
  by_contra hnot
  rw [times_set hshield hr hnot, hzero] at hone
  cases hone

theorem shielded_append {us vs : List (List Char)} {j : ℕ}
    (hlast : ∃ w, us.getLast? = some w ∧ ∃ c ∈ w, isSpace c = false)
    (hvs : ∀ v ∈ vs, ∃ c ∈ v, isSpace c = false) (hj : j ≤ vs.length) :
    Shielded (us ++ vs) (us.length + j) := by
  intro i hi
  rw [List.take_length_add_append]
  rcases Nat.lt_or_ge i us.length with hlt | hge
  · obtain ⟨w, hw, hspace⟩ := hlast
    refine ⟨w, ?_, hspace⟩
    rw [List.drop_append_of_le_length (Nat.le_of_lt hlt)]
    refine List.mem_append_left _ (List.mem_of_getLast? ?_)
    rw [List.getLast?_drop, if_neg (Nat.not_le.mpr hlt), hw]
  · obtain ⟨k, rfl⟩ := Nat.exists_eq_add_of_le hge
    have hk : k < (vs.take j).length := by
      rw [List.length_take]
      omega
    refine ⟨(vs.take j)[k], ?_, hvs _ (List.mem_of_mem_take (List.getElem_mem hk))⟩
    rw [List.drop_length_add_append]
    exact List.mem_drop_iff_getElem.mpr ⟨0, by simpa using hk, by simp⟩

theorem Shielded.drop {k : ℕ} (h : Shielded ws (k + r)) : Shielded (ws.drop k) r := by
  intro i hi
  obtain ⟨w, hw, hspace⟩ := h (k + i) (by omega)
  refine ⟨w, ?_, hspace⟩
  rwa [List.take_drop, List.drop_drop]

end Unread

/-! ## Decimal fields -/

/-- A number in decimal notation. -/
def IsDecimal (f : List Char) : Prop := f ≠ [] ∧ ∀ c ∈ f, c.isDigit = true

instance (f : List Char) : Decidable (IsDecimal f) :=
  decidable_of_iff (f ≠ [] ∧ f.all Char.isDigit = true) (and_congr_right' List.all_eq_true)

theorem isSpace_of_isDigit {c : Char} (h : c.isDigit = true) : isSpace c = false := by
  have hblank : c ≠ ' ' := fun hc => by
    rw [hc] at h
    cases h
  have hlt : ¬ c ≤ '\r' := fun hc => by
    rw [Char.le_def, UInt32.le_iff_toNat_le] at hc
    simp only [Char.isDigit, Bool.and_eq_true, decide_eq_true_eq, ge_iff_le,
      UInt32.le_iff_toNat_le] at h
    exact absurd (Nat.le_trans h.1 hc) (by decide)
  simp [isSpace, hblank, hlt]

theorem sign_of_isDigit {c : Char} (h : c.isDigit = true) (s : List Char) :
    sign (c :: s) = (false, c :: s) := by
  rw [sign.eq_def]
  split
  case h_1 heq =>
    cases heq
    cases h
  case h_2 heq =>
    cases heq
    cases h
  case h_3 => rfl

theorem stoull_blank (s : List Char) : stoull (' ' :: s) = stoull s := rfl

/-- The number of a decimal field. -/
theorem stoull_decimal {f : List Char} (hf : IsDecimal f) (hlt : decimal f < 2 ^ 64)
    (ws : List (List Char)) : stoull (preceded ' ' (f :: ws)) = .ok (decimal f) := by
  obtain ⟨hne, hdigit⟩ := hf
  have hstop : (preceded ' ' ws).takeWhile Char.isDigit = [] := by cases ws <;> rfl
  have htake : (f ++ preceded ' ' ws).takeWhile Char.isDigit = f := by
    rw [List.takeWhile_append_of_pos hdigit, hstop, List.append_nil]
  have hsign :
      sign ((preceded ' ' (f :: ws)).dropWhile isSpace) = (false, f ++ preceded ' ' ws) := by
    cases f with
    | nil => exact absurd rfl hne
    | cons c f =>
        have hc := hdigit c List.mem_cons_self
        rw [preceded_cons, List.cons_append, List.dropWhile_cons_of_pos rfl, List.cons_append,
          List.dropWhile_cons_of_neg (by simp [isSpace_of_isDigit hc]), sign_of_isDigit hc]
  rw [stoull, hsign]
  dsimp only
  rw [htake, if_neg hne, if_neg (Nat.not_le.mpr hlt)]
  rfl

theorem IsDecimal.not_mem {f : List Char} (h : IsDecimal f) : ' ' ∉ f := fun hmem => by
  cases h.2 ' ' hmem

theorem IsDecimal.exists_not_space {f : List Char} (h : IsDecimal f) :
    ∃ c ∈ f, isSpace c = false := by
  obtain ⟨c, f', rfl⟩ := List.exists_cons_of_ne_nil h.1
  exact ⟨c, List.mem_cons_self, isSpace_of_isDigit (h.2 c List.mem_cons_self)⟩

/-- The number 0 in `n` digits. -/
def zeros (n : ℕ) : List Char := List.replicate n '0'

/-- The number 1 in `n` digits. -/
def oneOf (n : ℕ) : List Char := List.replicate (n - 1) '0' ++ ['1']

theorem decimal_zeros (n : ℕ) : decimal (zeros n) = 0 := by
  induction n with
  | zero => rfl
  | succ n ih => exact ih

theorem decimal_oneOf (n : ℕ) : decimal (oneOf n) = 1 := by
  have hzeros := decimal_zeros (n - 1)
  rw [decimal, zeros] at hzeros
  rw [decimal, oneOf, List.foldl_append, hzeros]
  rfl

theorem isDecimal_zeros {n : ℕ} (hn : n ≠ 0) : IsDecimal (zeros n) := by
  refine ⟨fun h => hn (by simpa [zeros] using h), fun c hc => ?_⟩
  rw [List.eq_of_mem_replicate hc]
  rfl

theorem isDecimal_oneOf (n : ℕ) : IsDecimal (oneOf n) := by
  refine ⟨by simp [oneOf], fun c hc => ?_⟩
  rcases List.mem_append.mp hc with hc | hc
  · rw [List.eq_of_mem_replicate hc]
    rfl
  · rw [List.mem_singleton.mp hc]
    rfl

theorem length_oneOf {n : ℕ} (hn : n ≠ 0) : (oneOf n).length = n := by
  rw [oneOf, List.length_append, List.length_replicate, List.length_singleton]
  omega

/-! ## Two lines of the same widths -/

section Marked

variable {k j : ℕ} {fs : List (List Char)} {f : List Char}

/-- The four fields from `k` on are 0. -/
def cleared (k : ℕ) (fs : List (List Char)) : List (List Char) :=
  fs.take k ++ (((fs.drop k).take 4).map fun f => zeros f.length) ++ fs.drop (k + 4)

/-- One of them is 1. -/
def marked (k j : ℕ) (fs : List (List Char)) : List (List Char) :=
  (cleared k fs).set (k + j) (oneOf (fs.getD (k + j) []).length)

theorem widths_cleared (k : ℕ) (fs : List (List Char)) :
    (cleared k fs).map List.length = fs.map List.length := by
  have hzeros : ∀ l : List (List Char), (l.map fun f => zeros f.length).map List.length =
      l.map List.length := fun l => by simp [zeros]
  conv_rhs => rw [← List.take_append_drop k fs, ← List.take_append_drop 4 (fs.drop k)]
  rw [cleared, List.map_append, List.map_append, hzeros, List.drop_drop, List.append_assoc,
    List.map_append, List.map_append]

theorem widths_marked (hfs : ∀ f ∈ fs, f ≠ []) (hj : k + j < fs.length) :
    (marked k j fs).map List.length = fs.map List.length := by
  have hlen : fs[k + j].length ≠ 0 :=
    List.length_eq_zero_iff.not.mpr (hfs _ (List.getElem_mem hj))
  have hj' : k + j < (fs.map List.length).length := by rwa [List.length_map]
  have hget : (fs.map List.length)[k + j] = fs[k + j].length := List.getElem_map _
  rw [marked, List.map_set, widths_cleared, List.getD_eq_getElem?_getD,
    List.getElem?_eq_getElem hj, Option.getD_some, length_oneOf hlen, ← hget,
    List.set_getElem_self]

theorem take_drop_cleared (hk : k + 4 ≤ fs.length) :
    ((cleared k fs).drop k).take 4 = ((fs.drop k).take 4).map fun f => zeros f.length := by
  rw [cleared, List.append_assoc, List.drop_left' (by rw [List.length_take]; omega),
    List.take_left' (by rw [List.length_map, List.length_take, List.length_drop]; omega)]

theorem map_decimal_cleared (hk : k + 4 ≤ fs.length) :
    (((cleared k fs).drop k).take 4).map decimal = [0, 0, 0, 0] := by
  have hlen : ((fs.drop k).take 4).length = 4 := by
    rw [List.length_take, List.length_drop]
    omega
  rw [take_drop_cleared hk, List.map_map,
    show decimal ∘ (fun f : List Char => zeros f.length) = fun _ => 0 from
      funext fun f => decimal_zeros _, List.map_const', hlen]
  rfl

theorem map_decimal_marked (hk : k + 4 ≤ fs.length) :
    (((marked k j fs).drop k).take 4).map decimal = [0, 0, 0, 0].set j 1 := by
  rw [marked, List.drop_set, if_neg (by omega), Nat.add_sub_cancel_left, List.take_set,
    List.map_set, map_decimal_cleared hk, decimal_oneOf]

theorem mem_cleared (hfs : ∀ f ∈ fs, f ≠ []) (h : f ∈ cleared k fs) : f ∈ fs ∨ IsDecimal f := by
  rcases List.mem_append.mp h with h | h
  · rcases List.mem_append.mp h with h | h
    · exact .inl (List.mem_of_mem_take h)
    · obtain ⟨g, hg, rfl⟩ := List.mem_map.mp h
      have hne := hfs g (List.mem_of_mem_drop (List.mem_of_mem_take hg))
      exact .inr (isDecimal_zeros (List.length_eq_zero_iff.not.mpr hne))
  · exact .inl (List.mem_of_mem_drop h)

/-- Fields of the same widths, with a sum of their own: the four from `k` on are decimal, and the
others are as before or decimal too. -/
structure Variant (k sum : ℕ) (fs fs' : List (List Char)) : Prop where
  widths : fs'.map List.length = fs.map List.length
  mem : ∀ f ∈ fs', f ∈ fs ∨ IsDecimal f
  isDecimal : ∀ f ∈ (fs'.drop k).take 4, IsDecimal f
  sum_eq : (((fs'.drop k).take 4).map decimal).sum = sum

theorem Variant.length_eq {sum : ℕ} {fs' : List (List Char)} (v : Variant k sum fs fs') :
    fs'.length = fs.length := by
  simpa using congrArg List.length v.widths

theorem variant_cleared (hfs : ∀ f ∈ fs, f ≠ []) (hk : k + 4 ≤ fs.length) :
    Variant k 0 fs (cleared k fs) where
  widths := widths_cleared k fs
  mem _ := mem_cleared hfs
  isDecimal := by
    rw [take_drop_cleared hk]
    refine List.forall_mem_map.mpr fun g hg => isDecimal_zeros ?_
    exact List.length_eq_zero_iff.not.mpr (hfs g (List.mem_of_mem_drop (List.mem_of_mem_take hg)))
  sum_eq := by
    rw [map_decimal_cleared hk]
    rfl

theorem variant_marked (hfs : ∀ f ∈ fs, f ≠ []) (hk : k + 4 ≤ fs.length) (hj : j < 4) :
    Variant k 1 fs (marked k j fs) where
  widths := widths_marked hfs (by omega)
  mem f hf := by
    rcases List.mem_or_eq_of_mem_set hf with hf | rfl
    · exact mem_cleared hfs hf
    · exact .inr (isDecimal_oneOf _)
  isDecimal f hf := by
    rw [marked, List.drop_set, if_neg (by omega), Nat.add_sub_cancel_left, List.take_set] at hf
    rcases List.mem_or_eq_of_mem_set hf with hf | rfl
    · exact (variant_cleared hfs hk).isDecimal f hf
    · exact isDecimal_oneOf _
  sum_eq := by
    have hsum : ∀ j < 4, ([0, 0, 0, 0].set j 1).sum = 1 := by decide
    rw [map_decimal_marked hk, hsum j hj]

end Marked

/-! ## The line of `/proc/stat` -/

theorem findFrom_joined {w : List Char} (hw : ' ' ∉ w) (hne : ws ≠ []) :
    findFrom (joined ' ' (w :: ws)) 0 = some w.length := by
  rw [findFrom, List.drop_zero, joined_cons, findIdx?_word hw, if_neg hne]
  simp

theorem drop_joined (w : List Char) (ws : List (List Char)) :
    (joined ' ' (w :: ws)).drop w.length = preceded ' ' ws := by
  rw [joined_cons, List.drop_left]

/-- What `CpuTotalOccupy` reads. -/
theorem cpuTotalOccupy_eq {w : List Char} (hw : ' ' ∉ w) (hws : ∀ v ∈ ws, ' ' ∉ v) (hne : ws ≠ []) :
    cpuTotalOccupy (joined ' ' (w :: ws)) =
      ((columns 4 w.length (ws.map List.length)).times ws).map total := by
  rw [cpuTotalOccupy, findFrom_joined hw hne]
  dsimp only
  rw [readTimes_eq hws 4 (drop_joined w ws)]

/-- The first line of `/proc/stat`. -/
structure StatLine where
  fields : List (List Char)
  isDecimal : ∀ f ∈ fields, IsDecimal f
  enough : 5 ≤ fields.length
  sum_lt : ((fields.take 4).map decimal).sum < 2 ^ 64

/-- **The widths for which `CpuTotalOccupy` reads the first four fields**: the first one has at
least two digits, the second at least two more than that, the third more than the second, and a
blank follows the fourth field more than the width of the third one behind it. -/
def TotalWidths : List ℕ → Prop
  | a :: b :: c :: rest => 2 ≤ a ∧ a + 2 ≤ b ∧ b < c ∧ c + 1 < room rest
  | _ => False

instance : DecidablePred TotalWidths := fun ns => by
  unfold TotalWidths
  split <;> infer_instance

namespace StatLine

def text (l : StatLine) : List Char := ['c', 'p', 'u', ' ', ' '] ++ joined ' ' l.fields

/-- The sum of the first four fields. -/
def time (l : StatLine) : ℕ := ((l.fields.take 4).map decimal).sum

def widths (l : StatLine) : List ℕ := l.fields.map List.length

theorem ne_nil (l : StatLine) : ∀ f ∈ l.fields, f ≠ [] := fun f hf => (l.isDecimal f hf).1

theorem joined_words (l : StatLine) :
    joined ' ' (['c', 'p', 'u'] :: [] :: l.fields) = l.text := by
  have hne : l.fields ≠ [] := List.ne_nil_of_length_pos (by have := l.enough; omega)
  rw [text, joined_cons, preceded_cons, preceded_eq_joined hne]
  rfl

/-- The words of the line behind the first blank: there is an empty one before the second. -/
theorem cpuTotalOccupy_text (l : StatLine) : cpuTotalOccupy l.text =
    ((columns 4 3 (0 :: l.widths)).times ([] :: l.fields)).map total := by
  have hws : ∀ w ∈ [] :: l.fields, ' ' ∉ w := by
    intro w hw
    rcases List.mem_cons.mp hw with rfl | hw
    · exact List.not_mem_nil
    · exact (l.isDecimal w hw).not_mem
  rw [← l.joined_words, cpuTotalOccupy_eq (by decide) hws (List.cons_ne_nil _ _)]
  rfl

/-- A line of the same widths. -/
def vary (l : StatLine) {fs : List (List Char)} {sum : ℕ} (hsum : sum < 2 ^ 64)
    (v : Variant 0 sum l.fields fs) : StatLine where
  fields := fs
  isDecimal f hf := (v.mem f hf).elim (l.isDecimal f) id
  enough := v.length_eq ▸ l.enough
  sum_lt := v.sum_eq ▸ hsum

end StatLine

/-- The empty word between the first two blanks belongs to the first field. -/
theorem cut_empty {d e : ℕ} {ns : List ℕ} : cut (d + 1) (0 :: ns) = some (e, 2) ↔
    ∃ e', cut d ns = some (e', 1) ∧ e = e' + 1 := by
  rw [cut, if_neg (fun h => h.1 rfl), Option.map_eq_some_iff, Nat.zero_add, Nat.add_sub_cancel]
  constructor
  · rintro ⟨⟨e', k'⟩, hcut, heq⟩
    obtain ⟨he, hk⟩ := Prod.mk.inj heq
    obtain rfl : k' = 1 := by omega
    exact ⟨e', hcut, by omega⟩
  · rintro ⟨e', hcut, rfl⟩
    exact ⟨_, hcut, by rw [Nat.add_comm]⟩

/-- The columns are the first four fields for these widths only. -/
theorem columns_total_iff {a b c : ℕ} {ns : List ℕ} (h : ∀ m ∈ a :: b :: c :: ns, m ≠ 0) :
    columns 4 3 (0 :: a :: b :: c :: ns) = ⟨[0, 2, 3, 4], .done⟩ ↔
      TotalWidths (a :: b :: c :: ns) := by
  obtain ⟨ha, hns⟩ := List.forall_mem_cons.mp h
  have hthree := columns_three_iff (d := a + 2) hns
  rw [TotalWidths]
  constructor
  · intro heq
    obtain ⟨e, k, hcut⟩ := exists_cut (congrArg Columns.ending heq)
    rw [columns_of_cut hcut] at heq
    obtain ⟨ps, hrest⟩ := places_head (congrArg Columns.ending heq)
    rw [hrest] at heq
    simp only [List.map_cons, Columns.mk.injEq, List.cons.injEq, and_true, true_and] at heq
    obtain rfl : k = 2 := heq.1
    have hps : ps = [1, 2] := List.map_injective_iff.mpr (add_right_injective 2) heq.2
    obtain ⟨e', hcut', rfl⟩ := cut_empty.mp hcut
    obtain ⟨-, hlt, -, rfl⟩ := cut_eq_one_iff.mp hcut'
    rw [hps] at hrest
    obtain ⟨hab, hbc, hroom⟩ := hthree.mp hrest
    exact ⟨by omega, hab, hbc, hroom⟩
  · rintro ⟨hle, hab, hbc, hroom⟩
    have hcut : cut 3 (0 :: a :: b :: c :: ns) = some (a + 2, 2) := cut_empty.mpr
      ⟨a + 1, cut_eq_one_iff.mpr ⟨ha, by omega, List.cons_ne_nil _ _, rfl⟩, rfl⟩
    have hrest : columns 3 (a + 2) ((0 :: a :: b :: c :: ns).drop 2) = _ :=
      hthree.mpr ⟨hab, hbc, hroom⟩
    rw [columns_of_cut hcut, hrest]
    rfl

/-- Four places in order, with three that follow each other among them, and 0. -/
theorem places_eq {ps : List ℕ} {x : ℕ} (hord : ps.Pairwise (· < ·)) (hlen : ps.length = 4)
    (hzero : 0 ∈ ps) (h₁ : x + 1 ∈ ps) (h₂ : x + 2 ∈ ps) (h₃ : x + 3 ∈ ps) :
    ps = [0, x + 1, x + 2, x + 3] := by
  obtain ⟨p, q, r, s, rfl⟩ : ∃ p q r s, ps = [p, q, r, s] := by
    match ps, hlen with
    | [p, q, r, s], _ => exact ⟨p, q, r, s, rfl⟩
  simp only [List.pairwise_cons, List.mem_cons, List.not_mem_nil, or_false, forall_eq_or_imp,
    forall_eq] at hord hzero h₁ h₂ h₃
  have heq : p = 0 ∧ q = x + 1 ∧ r = x + 2 ∧ s = x + 3 := by omega
  obtain ⟨rfl, rfl, rfl, rfl⟩ := heq
  rfl

theorem zero_mem_places {n d : ℕ} {ns : List ℕ} (h : (columns (n + 1) d ns).ending = .done) :
    0 ∈ (columns (n + 1) d ns).places := by
  obtain ⟨ps, heq⟩ := places_head h
  rw [heq]
  exact List.mem_cons_self

/-- The numbers of four decimal fields. -/
theorem total_times_decimal {fs : List (List Char)} (hlen : 4 ≤ fs.length)
    (hdec : ∀ f ∈ fs.take 4, IsDecimal f) (hsum : ((fs.take 4).map decimal).sum < 2 ^ 64) :
    (Columns.times ⟨[0, 1, 2, 3], .done⟩ fs).map total = .ok ((fs.take 4).map decimal).sum := by
  match fs, hlen with
  | a :: b :: c :: f :: rest, _ =>
      simp only [List.take_succ_cons, List.take_zero, List.forall_mem_cons] at hdec
      obtain ⟨hda, hdb, hdc, hdf, -⟩ := hdec
      have hsum' : decimal a + (decimal b + (decimal c + (decimal f + 0))) < 2 ^ 64 := hsum
      have h₀ : timeAt (a :: b :: c :: f :: rest) 0 = _ := stoull_decimal hda (by omega) _
      have h₁ : timeAt (a :: b :: c :: f :: rest) 1 = _ := stoull_decimal hdb (by omega) _
      have h₂ : timeAt (a :: b :: c :: f :: rest) 2 = _ := stoull_decimal hdc (by omega) _
      have h₃ : timeAt (a :: b :: c :: f :: rest) 3 = _ := stoull_decimal hdf (by omega) _
      rw [Columns.times]
      simp only [List.mapM_cons, List.mapM_nil, h₀, h₁, h₂, h₃]
      exact congrArg Except.ok (Nat.mod_eq_of_lt hsum)

namespace StatLine

/-- The first four fields are read. -/
theorem cpuTotalOccupy_of_columns (l : StatLine)
    (h : columns 4 3 (0 :: l.widths) = ⟨[0, 2, 3, 4], .done⟩) :
    cpuTotalOccupy l.text = .ok l.time := by
  have hlen := l.enough
  rw [cpuTotalOccupy_text, h]
  exact total_times_decimal (by omega) (fun f hf => l.isDecimal f (List.mem_of_mem_take hf))
    l.sum_lt

theorem ne_zero_of_mem_widths (l : StatLine) : ∀ n ∈ l.widths, n ≠ 0 :=
  List.forall_mem_map.mpr fun f hf => List.length_eq_zero_iff.not.mpr (l.ne_nil f hf)

section Shape

variable (l : StatLine)
  (hall : ∀ l' : StatLine, l'.widths = l.widths → cpuTotalOccupy l'.text = .ok l'.time)
include hall

theorem times_of_variant {fs : List (List Char)} {sum : ℕ} (hsum : sum < 2 ^ 64)
    (v : Variant 0 sum l.fields fs) :
    ((columns 4 3 (0 :: l.widths)).times ([] :: fs)).map total = .ok sum := by
  have hwidths : (l.vary hsum v).widths = l.widths := v.widths
  have htime : (l.vary hsum v).time = sum := v.sum_eq
  have hright := hall (l.vary hsum v) hwidths
  rwa [cpuTotalOccupy_text, hwidths, htime] at hright

/-- If all lines of some widths are right, the fields after the first are read. -/
theorem mem_places {j : ℕ} (hj : j + 1 < 4) :
    j + 2 ∈ (columns 4 3 (0 :: l.widths)).places := by
  have hlen := l.enough
  have v := variant_cleared (k := 0) l.ne_nil (by omega)
  have hzero := l.times_of_variant hall (by decide) v
  have hone := l.times_of_variant hall (by decide)
    (variant_marked (k := 0) l.ne_nil (by omega) hj)
  rw [marked, Nat.zero_add] at hone
  have hdec : ∀ f ∈ cleared 0 l.fields, IsDecimal f := fun f hf =>
    (v.mem f hf).elim (l.isDecimal f) id
  have hlen' := v.length_eq
  refine Columns.mem_places (r := j + 2) ?_ (by simp only [List.length_cons]; omega) hzero hone
  cases hfs : cleared 0 l.fields with
  | nil =>
      rw [hfs, List.length_nil] at hlen'
      omega
  | cons f fs =>
      rw [hfs] at hdec hlen'
      obtain ⟨hf, hdec⟩ := List.forall_mem_cons.mp hdec
      rw [List.length_cons] at hlen'
      have hshield : Shielded ([[], f] ++ fs) ([[], f].length + j) :=
        shielded_append ⟨f, rfl, hf.exists_not_space⟩
          (fun v hv => (hdec v hv).exists_not_space) (by omega)
      rwa [List.length_cons, List.length_singleton, Nat.add_comm] at hshield

theorem columns_eq : columns 4 3 (0 :: l.widths) = ⟨[0, 2, 3, 4], .done⟩ := by
  have hdone := Columns.ending_of_total (l.times_of_variant hall (by decide)
    (variant_marked (k := 0) (j := 0) l.ne_nil (by have := l.enough; omega) (by decide)))
    (by decide)
  obtain ⟨hord, hlen⟩ := places_spec 4 3 (0 :: l.widths)
  have hplaces := places_eq (x := 1) hord (hlen hdone) (zero_mem_places hdone)
    (l.mem_places hall (j := 0) (by decide)) (l.mem_places hall (j := 1) (by decide))
    (l.mem_places hall (j := 2) (by decide))
  exact Columns.ext hplaces hdone

end Shape

/-- **When the first four fields are read**, in all lines of some widths. -/
theorem forall_widths_iff (l : StatLine) :
    (∀ l' : StatLine, l'.widths = l.widths → cpuTotalOccupy l'.text = .ok l'.time) ↔
      TotalWidths l.widths := by
  have hpos := l.ne_zero_of_mem_widths
  have hlen : 5 ≤ l.widths.length := by
    rw [widths, List.length_map]
    exact l.enough
  have hiff : columns 4 3 (0 :: l.widths) = ⟨[0, 2, 3, 4], .done⟩ ↔ TotalWidths l.widths := by
    match hw : l.widths with
    | a :: b :: c :: ns => exact columns_total_iff (hw ▸ hpos)
    | [] | [_] | [_, _] =>
        rw [hw] at hlen
        simp at hlen
  rw [← hiff]
  exact ⟨l.columns_eq, fun h l' hl' => l'.cpuTotalOccupy_of_columns (hl' ▸ h)⟩

end StatLine

/-! ## The line of a process -/

/-- The line of `/proc/<pid>/stat`. -/
structure ProcLine where
  pid : List Char
  /-- The name of the command, without the parentheses. -/
  comm : List Char
  /-- The fields from the third on. -/
  fields : List (List Char)
  pid_isDecimal : IsDecimal pid
  isWord : ∀ f ∈ fields, f ≠ [] ∧ ∀ c ∈ f, isSpace c = false
  isDecimal : ∀ f ∈ (fields.drop 11).take 4, IsDecimal f
  enough : 15 ≤ fields.length
  sum_lt : (((fields.drop 11).take 4).map decimal).sum < 2 ^ 64

/-- The places `CpuProcOccupy` reads, for words of these widths behind the 13th blank: the first
one, and three others. -/
def procColumns : List ℕ → Columns
  | [] => ⟨[], .missing⟩
  | n :: ns => ⟨0 :: (columns 3 n ns).places.map (1 + ·), (columns 3 n ns).ending⟩

/-- **The widths for which `CpuProcOccupy` reads the fields 14 to 17**, given from the first of
them on: the second is at least as wide as the first, the third wider than the second, and a blank
follows the fourth more than the width of the third one behind it. -/
def ProcWidths : List ℕ → Prop
  | a :: b :: c :: rest => a ≤ b ∧ b < c ∧ c + 1 < room rest
  | _ => False

instance : DecidablePred ProcWidths := fun ns => by
  unfold ProcWidths
  split <;> infer_instance

theorem behindBlank_word {w : List Char} (hw : ' ' ∉ w) (n : ℕ) (s : List Char) :
    behindBlank n (w ++ s) = behindBlank n s := by
  induction w with
  | nil => rfl
  | cons c w ih =>
      have hc : c ≠ ' ' := fun h => hw (h ▸ List.mem_cons_self)
      rw [List.cons_append, behindBlank, if_neg hc, ih fun h => hw (List.mem_cons_of_mem c h)]

/-- The blanks counted are those between the words. -/
theorem behindBlank_joined (hws : ∀ w ∈ ws, ' ' ∉ w) (n : ℕ) (hlen : n + 1 < ws.length) :
    behindBlank (n + 1) (joined ' ' ws) = some (joined ' ' (ws.drop (n + 1))) := by
  induction n generalizing ws with
  | zero =>
      cases ws with
      | nil => cases hlen
      | cons w ws =>
          have hne : ws ≠ [] := List.ne_nil_of_length_pos (by simpa using hlen)
          rw [joined_cons, behindBlank_word (hws w List.mem_cons_self), preceded_eq_joined hne]
          rfl
  | succ n ih =>
      cases ws with
      | nil => cases hlen
      | cons w ws =>
          have hlen' : n + 1 < ws.length := by simpa using hlen
          have hne : ws ≠ [] := List.ne_nil_of_length_pos (by omega)
          rw [joined_cons, behindBlank_word (hws w List.mem_cons_self), preceded_eq_joined hne,
            behindBlank, if_pos rfl, if_neg (by omega)]
          exact ih (fun v hv => hws v (List.mem_cons_of_mem w hv)) hlen'

/-- What `CpuProcOccupy` reads. -/
theorem cpuProcOccupy_eq (hws : ∀ w ∈ ws, ' ' ∉ w) (hlen : 15 ≤ ws.length) :
    cpuProcOccupy (joined ' ' ws) =
      ((procColumns ((ws.drop 13).map List.length)).times (ws.drop 13)).map total := by
  have hsub : ws.drop 13 ⊆ ws := List.drop_subset 13 ws
  have hdlen : 2 ≤ (ws.drop 13).length := by
    rw [List.length_drop]
    omega
  rw [cpuProcOccupy, behindBlank_joined hws 12 (by omega)]
  cases hdrop : ws.drop 13 with
  | nil =>
      rw [hdrop] at hdlen
      cases hdlen
  | cons w rest =>
      rw [hdrop] at hsub hdlen
      have hw : ' ' ∉ w := hws w (hsub List.mem_cons_self)
      have hrest : ∀ v ∈ rest, ' ' ∉ v := fun v hv => hws v (hsub (List.mem_cons_of_mem w hv))
      have hne : rest ≠ [] := List.ne_nil_of_length_pos (Nat.le_of_succ_le_succ hdlen)
      rw [Option.getD_some, findFrom_joined hw hne]
      dsimp only
      rw [readTimes_eq hrest 3 (drop_joined w rest), List.map_cons, procColumns,
        Columns.times_cons, ← stoull_blank, ← preceded_eq_joined (List.cons_ne_nil w rest)]
      cases stoull (preceded ' ' (w :: rest)) with
      | error e => rfl
      | ok time =>
          rw [List.drop_succ_cons, List.drop_zero]
          cases (columns 3 w.length (rest.map List.length)).times rest <;> rfl

namespace ProcLine

def text (l : ProcLine) : List Char :=
  l.pid ++ [' ', '('] ++ l.comm ++ [')'] ++ preceded ' ' l.fields

/-- The sum of the fields 14 to 17. -/
def time (l : ProcLine) : ℕ := (((l.fields.drop 11).take 4).map decimal).sum

def widths (l : ProcLine) : List ℕ := l.fields.map List.length

/-- The words of the name; a name with blanks has several. -/
def nameWords (comm : List Char) : List (List Char) := ('(' :: comm ++ [')']).splitOn ' '

/-- The words of the line. -/
def words (l : ProcLine) : List (List Char) := (l.pid :: nameWords l.comm) ++ l.fields

theorem joined_words (l : ProcLine) : joined ' ' l.words = l.text := by
  have hne := List.splitOn_ne_nil ' ' ('(' :: l.comm ++ [')'])
  rw [words, List.cons_append, joined_cons, preceded, List.flatMap_append, ← preceded, ← preceded,
    nameWords, preceded_eq_joined hne, joined_splitOn, text]
  simp

theorem not_mem_words (l : ProcLine) : ∀ w ∈ l.words, ' ' ∉ w := by
  intro w hw
  rcases List.mem_append.mp hw with hw | hw
  · rcases List.mem_cons.mp hw with rfl | hw
    · exact l.pid_isDecimal.not_mem
    · exact not_mem_of_mem_splitOn hw
  · exact fun hmem => absurd ((l.isWord w hw).2 ' ' hmem) (by decide)

theorem cpuProcOccupy_text (l : ProcLine) : cpuProcOccupy l.text =
    ((procColumns ((l.words.drop 13).map List.length)).times (l.words.drop 13)).map total := by
  have hlen : 15 ≤ l.words.length := by
    have := l.enough
    rw [words, List.length_append]
    omega
  rw [← l.joined_words, cpuProcOccupy_eq l.not_mem_words hlen]

/-- Behind the 13th blank there are the field 14 and those after it, if the name has no blank. -/
theorem drop_words (l : ProcLine) : (l.words.drop 13).map List.length =
    (((nameWords l.comm).map List.length) ++ l.widths).drop 12 := by
  rw [words, List.cons_append, List.drop_succ_cons, List.map_drop, List.map_append, widths]

/-- A line of the same widths. -/
def vary (l : ProcLine) {fs : List (List Char)} {sum : ℕ} (hsum : sum < 2 ^ 64)
    (v : Variant 11 sum l.fields fs) : ProcLine where
  pid := l.pid
  comm := l.comm
  fields := fs
  pid_isDecimal := l.pid_isDecimal
  isWord f hf := (v.mem f hf).elim (l.isWord f) fun hdec =>
    ⟨hdec.1, fun c hc => isSpace_of_isDigit (hdec.2 c hc)⟩
  isDecimal := v.isDecimal
  enough := v.length_eq ▸ l.enough
  sum_lt := v.sum_eq ▸ hsum

theorem ne_nil (l : ProcLine) : ∀ f ∈ l.fields, f ≠ [] := fun f hf => (l.isWord f hf).1

theorem exists_getLast_nameWords (comm : List Char) :
    ∃ w, (nameWords comm).getLast? = some w ∧ ∃ c ∈ w, isSpace c = false := by
  obtain ⟨w, hw, hmem⟩ := getLast?_splitOn (show ')' ≠ ' ' by decide) ('(' :: comm)
  exact ⟨w, hw, ')', hmem, by decide⟩

theorem length_nameWords_pos (comm : List Char) : 0 < (nameWords comm).length :=
  List.length_pos_iff.mpr (List.splitOn_ne_nil _ _)

/-- The name is one word when it has no blank. -/
theorem length_nameWords_eq_one_iff {comm : List Char} :
    (nameWords comm).length = 1 ↔ ' ' ∉ comm := by
  constructor
  · intro hlen hmem
    obtain ⟨w, hw⟩ := List.length_eq_one_iff.mp hlen
    have hjoined := joined_splitOn ' ' ('(' :: comm ++ [')'])
    have hnot : ' ' ∉ w := not_mem_of_mem_splitOn (hw ▸ List.mem_singleton_self w)
    rw [← nameWords, hw, joined_cons, preceded_nil, List.append_nil] at hjoined
    rw [hjoined] at hnot
    exact hnot (List.mem_append_left _ (List.mem_cons_of_mem _ hmem))
  · intro hnot
    rw [nameWords, List.splitOn_eq_singleton (by simp [hnot])]
    rfl

end ProcLine

/-- The places are in order, and there are four when the scanner comes to its end. -/
theorem procColumns_spec {ns : List ℕ} (h : (procColumns ns).ending = .done) :
    (procColumns ns).places.Pairwise (· < ·) ∧ (procColumns ns).places.length = 4 ∧
      0 ∈ (procColumns ns).places := by
  cases ns with
  | nil => cases h
  | cons n ns =>
      obtain ⟨hord, hlen⟩ := places_spec 3 n ns
      refine ⟨List.pairwise_cons.mpr ⟨?_, ?_⟩, ?_, List.mem_cons_self⟩
      · exact List.forall_mem_map.mpr fun i _ => by omega
      · exact hord.map _ fun _ _ hlt => Nat.add_lt_add_left hlt 1
      · rw [procColumns, List.length_cons, List.length_map, hlen h]

theorem procColumns_iff {ns : List ℕ} (hlen : 4 ≤ ns.length) (h : ∀ n ∈ ns, n ≠ 0) :
    procColumns ns = ⟨[0, 1, 2, 3], .done⟩ ↔ ProcWidths ns := by
  match ns, hlen with
  | a :: b :: c :: ns, _ =>
      rw [ProcWidths, ← columns_three_iff (List.forall_mem_cons.mp h).2, procColumns]
      constructor
      · intro heq
        obtain ⟨hplaces, hending⟩ := Columns.mk.inj heq
        obtain ⟨ps, hrest⟩ := places_head hending
        rw [hrest] at hplaces ⊢
        have hps : 0 :: ps = [0, 1, 2] := List.map_injective_iff.mpr (add_right_injective 1)
          (List.cons.inj hplaces).2
        rw [hps]
      · intro heq
        rw [heq]
        rfl

namespace ProcLine

/-- The fields 14 to 17 are read. -/
theorem cpuProcOccupy_of_columns (l : ProcLine) (hname : ' ' ∉ l.comm)
    (h : procColumns (l.widths.drop 11) = ⟨[0, 1, 2, 3], .done⟩) :
    cpuProcOccupy l.text = .ok l.time := by
  obtain ⟨w, hw⟩ := List.length_eq_one_iff.mp (length_nameWords_eq_one_iff.mpr hname)
  have hdrop : l.words.drop 13 = l.fields.drop 11 := by
    rw [words, hw]
    rfl
  rw [widths, ← List.map_drop] at h
  rw [cpuProcOccupy_text, hdrop, h]
  refine total_times_decimal ?_ l.isDecimal l.sum_lt
  rw [List.length_drop]
  have := l.enough
  omega

section Shape

variable (l : ProcLine) (hall : ∀ l' : ProcLine, l'.comm = l.comm → l'.widths = l.widths →
  cpuProcOccupy l'.text = .ok l'.time)
include hall

theorem times_of_variant {fs : List (List Char)} {sum : ℕ} (hsum : sum < 2 ^ 64)
    (v : Variant 11 sum l.fields fs) :
    ((procColumns ((l.words.drop 13).map List.length)).times
      ((l.pid :: nameWords l.comm ++ fs).drop 13)).map total = .ok sum := by
  have hwidths : (l.vary hsum v).widths = l.widths := v.widths
  have htime : (l.vary hsum v).time = sum := v.sum_eq
  have hright := hall (l.vary hsum v) rfl hwidths
  rw [cpuProcOccupy_text, drop_words, hwidths, htime] at hright
  rw [drop_words]
  exact hright

/-- If all lines of some widths are right, the fields 14 to 17 are read. -/
theorem mem_places {j : ℕ} (hj : j < 4) : (nameWords l.comm).length - 1 + j ∈
    (procColumns ((l.words.drop 13).map List.length)).places := by
  have hlen := l.enough
  have hname := length_nameWords_pos l.comm
  have v := variant_cleared (k := 11) l.ne_nil (by omega)
  have hzero := l.times_of_variant hall (by decide) v
  have hone := l.times_of_variant hall (by decide)
    (variant_marked (k := 11) l.ne_nil (by omega) hj)
  have hlen' := v.length_eq
  have hindex : (l.pid :: nameWords l.comm).length + (11 + j) =
      13 + ((nameWords l.comm).length - 1 + j) := by
    rw [List.length_cons]
    omega
  have hset : (l.pid :: nameWords l.comm ++ marked 11 j l.fields).drop 13 =
      ((l.pid :: nameWords l.comm ++ cleared 11 l.fields).drop 13).set
        ((nameWords l.comm).length - 1 + j) (oneOf (l.fields.getD (11 + j) []).length) := by
    have hright := List.set_append_right (s := l.pid :: nameWords l.comm)
      (t := cleared 11 l.fields) _ (oneOf (l.fields.getD (11 + j) []).length)
      (Nat.le_add_right _ (11 + j))
    rw [Nat.add_sub_cancel_left, hindex] at hright
    rw [marked, ← hright, List.drop_set, if_neg (by omega), Nat.add_sub_cancel_left]
  rw [hset] at hone
  refine Columns.mem_places (Shielded.drop ?_) ?_ hzero hone
  · rw [← hindex]
    obtain ⟨w, hw, hspace⟩ := exists_getLast_nameWords l.comm
    refine shielded_append ⟨w, ?_, hspace⟩ (fun f hf => ?_) (by omega)
    · rw [List.getLast?_cons, hw]
      rfl
    · rcases v.mem f hf with hf | hdec
      · obtain ⟨c, s, hs⟩ := List.exists_cons_of_ne_nil (l.ne_nil f hf)
        exact ⟨c, hs ▸ List.mem_cons_self, (l.isWord f hf).2 c (hs ▸ List.mem_cons_self)⟩
      · exact hdec.exists_not_space
  · simp only [List.length_drop, List.length_append, List.length_cons]
    omega

/-- The name has no blank then, and the places are the right ones. -/
theorem columns_eq : (nameWords l.comm).length = 1 ∧
    procColumns ((l.words.drop 13).map List.length) = ⟨[0, 1, 2, 3], .done⟩ := by
  have hdone := Columns.ending_of_total (l.times_of_variant hall (by decide)
    (variant_marked (k := 11) (j := 0) l.ne_nil (by have := l.enough; omega) (by decide)))
    (by decide)
  obtain ⟨hord, hlen, hzero⟩ := procColumns_spec hdone
  have hplaces := places_eq hord hlen hzero (l.mem_places hall (j := 1) (by decide))
    (l.mem_places hall (j := 2) (by decide)) (l.mem_places hall (j := 3) (by decide))
  have hfirst := l.mem_places hall (j := 0) (by decide)
  have hpos := length_nameWords_pos l.comm
  rw [hplaces] at hfirst
  simp only [List.mem_cons, List.not_mem_nil, or_false] at hfirst
  have hone : (nameWords l.comm).length = 1 := by omega
  rw [hone] at hplaces
  exact ⟨hone, Columns.ext hplaces hdone⟩

end Shape

/-- **When the fields 14 to 17 are read**, in all lines with a name and some widths. -/
theorem forall_widths_iff (l : ProcLine) :
    (∀ l' : ProcLine, l'.comm = l.comm → l'.widths = l.widths →
      cpuProcOccupy l'.text = .ok l'.time) ↔
    ' ' ∉ l.comm ∧ ProcWidths (l.widths.drop 11) := by
  have hpos : ∀ n ∈ l.widths.drop 11, n ≠ 0 := fun n hn => by
    obtain ⟨f, hf, rfl⟩ := List.mem_map.mp (List.mem_of_mem_drop hn)
    exact List.length_eq_zero_iff.not.mpr (l.ne_nil f hf)
  have hlen : 4 ≤ (l.widths.drop 11).length := by
    rw [List.length_drop, widths, List.length_map]
    have := l.enough
    omega
  rw [← procColumns_iff hlen hpos]
  constructor
  · intro hall
    obtain ⟨hone, hcolumns⟩ := l.columns_eq hall
    obtain ⟨w, hw⟩ := List.length_eq_one_iff.mp hone
    rw [drop_words, hw] at hcolumns
    exact ⟨length_nameWords_eq_one_iff.mp hone, hcolumns⟩
  · rintro ⟨hname, hcolumns⟩ l' hcomm hwidths
    exact l'.cpuProcOccupy_of_columns (hcomm ▸ hname) (hwidths ▸ hcolumns)

end ProcLine

/-! ## The two functions -/

/-- **When the right times are returned.**  For a line of `/proc/stat`, and one of a process: all
lines of the same widths, with the same name of the command, have the right sum exactly when the
widths are such that the right fields are read, and the name has no blank. -/
theorem occupy_iff (l : StatLine) (p : ProcLine) :
    ((∀ l' : StatLine, l'.widths = l.widths → cpuTotalOccupy l'.text = .ok l'.time) ↔
      TotalWidths l.widths) ∧
    ((∀ p' : ProcLine, p'.comm = p.comm → p'.widths = p.widths →
        cpuProcOccupy p'.text = .ok p'.time) ↔
      ' ' ∉ p.comm ∧ ProcWidths (p.widths.drop 11)) :=
  ⟨l.forall_widths_iff, p.forall_widths_iff⟩

example : TotalWidths [2, 4, 5, 6, 1] ∧ ¬ TotalWidths [5, 4, 5, 7, 4, 4, 1, 1, 1, 1] ∧
    ProcWidths [1, 1, 2, 3, 1] := by decide

/-- The line of a running system, for which no fourth blank is found and 0 is returned; and that
of a command with a blank in its name, for which the times are read one field too early. -/
theorem occupy_wrong :
    (∃ l : StatLine, l.text = "cpu  74608 2520 24433 1117073 6176 4054 0 0 0 0".toList ∧
      l.time = 1218634 ∧ cpuTotalOccupy l.text = .ok 0) ∧
    ∃ l : ProcLine,
      l.text = "7 (a b) S 1 7 7 0 -1 4194560 10 20 30 40 100 200 300 400 20 0 1 0".toList ∧
      l.time = 1000 ∧ cpuProcOccupy l.text = .ok 740 := by
  refine ⟨⟨⟨["74608".toList, "2520".toList, "24433".toList, "1117073".toList, "6176".toList,
    "4054".toList, ['0'], ['0'], ['0'], ['0']], by decide +kernel, by decide, by decide +kernel⟩,
    by decide +kernel⟩, ⟨['7'], ['a', ' ', 'b'], ["S".toList, ['1'], ['7'], ['7'], ['0'],
    "-1".toList, "4194560".toList, "10".toList, "20".toList, "30".toList, "40".toList,
    "100".toList, "200".toList, "300".toList, "400".toList, "20".toList, ['0'], ['1'], ['0']],
    by decide +kernel, by simp [isSpace], by decide +kernel, by decide, by decide +kernel⟩,
    by decide +kernel⟩

end Hare.Util
