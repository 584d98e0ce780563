import Hare.Lib.PrefixMatch
import Hare.Net.Iterator

/-!
# Search in a buffer

`Buffer::Find` searches for a pattern with a failure table, which `get_next` builds, in the bytes
an iterator delivers.  The number of characters that agree is an `int` that wraps around, so a
pattern is searched for by its first `2 ^ 31` bytes only.

The table has an entry for each byte of the pattern, but `get_next` computes one more, for which it
reads the byte behind the pattern, and stores it behind the table.  The model has that byte as an
argument.  The store is out of bounds, so the code has no table for any pattern but the empty one
(`Hare.Net.NextBounds`); what the search does with the entries within bounds is said about a table
for which that store is let pass.

Both loops are instances of the same search (`Scan`): of the pattern in itself, and of the pattern
in the text, which ends at the first position that has no byte.
-/

namespace Hare.Net

open LabelledRun BoundedLoop PrefixMatch

/-- An access to an array through an index that may be negative. -/
def readAt {α : Type} (xs : List α) (n : ℤ) : Except Fault α :=
  if n < 0 then .error .outOfBounds
  else
    match xs[n.toNat]? with
    | some x => .ok x
    | none => .error .outOfBounds

/-- What a store behind the end of an array is: a fault, which it is for the code, or one that is
let pass and changes nothing that is read later. -/
inductive Overrun
  | faults
  | passes
  deriving DecidableEq, Repr

/-- A store to an array. -/
def storeAt {α : Type} (overrun : Overrun) (xs : List α) (n : ℕ) (x : α) :
    Except Fault (List α) :=
  if n < xs.length then .ok (xs.set n x)
  else
    match overrun with
    | .faults => .error .outOfBounds
    | .passes => .ok xs

/-- The conversion of an `int` to `std::size_t`. -/
def toSize (j : Int32) : ℕ := (j.toInt % 2 ^ 64).toNat

/-! ## The code -/

/-- The test of both loops, `k == -1 || c == _begin[k]`; the character is read only when it is
needed. -/
def agrees (c : Except Fault UInt8) (memory : List UInt8) (k : Int32) : Except Fault Bool :=
  if k = -1 then pure true
  else do
    let x ← c
    let y ← readAt memory k.toInt
    pure (decide (x = y))

/-- What `get_next` stores at `j`, when `k` characters agree. -/
def nextEntry (memory : List UInt8) (next : List Int32) (j : ℕ) (k : Int32) :
    Except Fault Int32 := do
  let x ← readAt memory j
  let y ← readAt memory k.toInt
  if x ≠ y then pure k else readAt next k.toInt

/-- The variables of `get_next`. -/
structure NextState where
  next : List Int32
  k : Int32
  j : ℕ

/-- A round of `get_next`; `memory` are the bytes from `_begin` on. -/
def getNextStep (overrun : Overrun) (memory : List UInt8) (size : ℕ) (s : NextState) :
    Except Fault (NextState ⊕ List Int32) :=
  if s.j < size then do
    if ← agrees (readAt memory s.j) memory s.k then do
      let n ← nextEntry memory s.next (s.j + 1) (s.k + 1)
      let next ← storeAt overrun s.next (s.j + 1) n
      pure (.inl ⟨next, s.k + 1, s.j + 1⟩)
    else do
      let k ← readAt s.next s.k.toInt
      pure (.inl { s with k })
  else pure (.inr s.next)

/-- `detail::get_next`. -/
def getNext (overrun : Overrun) (fuel : ℕ) (memory : List UInt8) (size : ℕ) :
    Except Fault (List Int32) :=
  loop .diverges (getNextStep overrun memory size) fuel ⟨List.replicate size (-1), -1, 0⟩

namespace Buffer

/-- A round of the loop of `Find`. -/
def scanStep (h : Heap) (b : Buffer) (memory : List UInt8) (size : ℕ) (nextVal : List Int32)
    (s : BufferIterator × Int32) :
    Except Fault ((BufferIterator × Int32) ⊕ (BufferIterator × Int32)) := do
  let e ← b.iterEnd h
  if s.1 ≠ e ∧ (s.2 = -1 ∨ toSize s.2 < size) then do
    if ← agrees (s.1.deref h) memory s.2 then do
      let i ← s.1.next h b.cacheChain
      pure (.inl (i, s.2 + 1))
    else do
      let j ← readAt nextVal s.2.toInt
      pure (.inl (s.1, j))
  else pure (.inr s)

/-- The loop of `Find`. -/
def scan (fuel : ℕ) (h : Heap) (b : Buffer) (memory : List UInt8) (size : ℕ)
    (nextVal : List Int32) : Except Fault (BufferIterator × Int32) := do
  let i ← b.iterBegin h
  loop .diverges (b.scanStep h memory size nextVal) fuel (i, 0)

/-- `Buffer::Find`. -/
def find (overrun : Overrun) (fuel : ℕ) (h : Heap) (b : Buffer) (memory : List UInt8)
    (size : ℕ) : Except Fault BufferIterator :=
  if size > b.totalLen then b.iterEnd h
  else do
    let nextVal ← getNext overrun fuel memory size
    let (i, j) ← b.scan fuel h memory size nextVal
    if 0 ≤ j ∧ toSize j ≥ size then pure i else b.iterEnd h

end Buffer

/-! ## Indices -/

section Indices

variable {α : Type} {xs : List α} {x : α} {n : ℕ} {k : ℤ}

theorem readAt_eq (hx : xs[n]? = some x) : readAt xs (n : ℤ) = .ok x := by
  simp [readAt, hx]

theorem readAt_of_neg (hk : k < 0) : readAt xs k = .error .outOfBounds := if_pos hk

theorem storeAt_passes : storeAt .passes xs n x = .ok (xs.set n x) := by
  rw [storeAt]
  split
  · rfl
  · next hge => rw [List.set_eq_of_length_le (Nat.not_lt.mp hge)]

theorem toInt_ofInt_limit : (Int32.ofInt (2 ^ 31)).toInt = -2 ^ 31 := by decide

theorem toInt_ofInt (h₁ : -1 ≤ k) (h₂ : k < 2 ^ 31) : (Int32.ofInt k).toInt = k :=
  Int32.toInt_ofInt_of_le (by omega) h₂

theorem ofInt_succ (k : ℤ) : Int32.ofInt k + 1 = Int32.ofInt (k + 1) :=
  (Int32.ofInt_add k 1).symm

theorem ofInt_eq_neg_one_iff (h₁ : -1 ≤ k) (h₂ : k ≤ 2 ^ 31) : Int32.ofInt k = -1 ↔ k = -1 := by
  constructor
  · intro heq
    have hint : (Int32.ofInt k).toInt = -1 := by
      rw [heq]
      decide
    rcases h₂.lt_or_eq with hlt | rfl
    · rwa [toInt_ofInt h₁ hlt] at hint
    · rw [toInt_ofInt_limit] at hint
      cases hint
  · rintro rfl
    decide

theorem toSize_ofInt (h₁ : 0 ≤ k) (h₂ : k < 2 ^ 31) : toSize (Int32.ofInt k) = k.toNat := by
  rw [toSize, toInt_ofInt (by omega) h₂, Int.emod_eq_of_lt h₁ (by omega)]

theorem toSize_limit : toSize (Int32.ofInt (2 ^ 31)) = 2 ^ 64 - 2 ^ 31 := by decide

/-- The second half of the test of the loop, when `k` characters agree. -/
theorem continues_iff {size : ℕ} (hsize : size ≤ ptrdiffMax) (h₁ : -1 ≤ k)
    (h₂ : k ≤ (min size (2 ^ 31) : ℕ)) :
    (Int32.ofInt k = -1 ∨ toSize (Int32.ofInt k) < size) ↔ k < (min size (2 ^ 31) : ℕ) := by
  rw [ofInt_eq_neg_one_iff h₁ (by omega)]
  rw [ptrdiffMax] at hsize
  rcases Int.lt_or_le k 0 with hneg | hpos
  · have hk : k = -1 := by omega
    simp only [hk, true_or, true_iff]
    omega
  · rcases Int.lt_or_le k (2 ^ 31) with hlt | hge
    · rw [toSize_ofInt hpos hlt]
      omega
    · obtain rfl : k = 2 ^ 31 := by omega
      rw [toSize_limit]
      omega

end Indices

/-! ## The table -/

section Table

variable {ps : List UInt8} {behind : UInt8} {n : ℕ}

theorem readAt_memory (hn : n < ps.length) : readAt (ps ++ [behind]) n = .ok ps[n] :=
  readAt_eq (by rw [List.getElem?_append_left hn, List.getElem?_eq_getElem hn])

/-- The entry of the table for an index. -/
def Entry (ps : List UInt8) (next : List Int32) (i : ℕ) : Prop :=
  ∃ d, IsNext (ps[·]?) i d ∧ next[i]? = some (Int32.ofInt (i - d))

/-- The pattern occurs in itself, later, with as many bytes as an `int` can count. -/
def Overlaps (ps : List UInt8) : Prop :=
  ∃ s, 1 ≤ s ∧ OccursAt (ps[·]?) (ps[·]?) (2 ^ 31) ps.length s

theorem overlaps_iff (hne : ps ≠ []) : Overlaps ps ↔ ps.take (2 ^ 31) <:+: ps.tail := by
  have hpos := List.length_pos_iff.mpr hne
  rcases Nat.lt_or_ge ps.length (2 ^ 31) with hlt | hge
  · refine iff_of_false ?_ fun hinfix => ?_
    · rintro ⟨s, hs, hle, -⟩
      omega
    · have hlen := hinfix.length_le
      rw [List.length_take, List.length_tail] at hlen
      omega
  · exact exists_occursAt_tail_iff hge (by decide)

/-- Where `get_next` is, with `k` rounds to go: the text from `s` on agrees with the pattern. -/
structure Building (ps : List UInt8) (k : ℕ) (x : NextState) (s : ℕ) : Prop where
  length : x.next.length = ps.length
  agree : x.k = Int32.ofInt (x.j - s)
  bound : x.j < s + 2 ^ 31
  search : Search (ps[·]?) (ps[·]?) (2 ^ 31) 1 ps.length k s x.j
  entries : ∀ i ≤ x.j, i < ps.length → Entry ps x.next i

/-- How `get_next` ends. -/
def Built (ps : List UInt8) (r : Except Fault (List Int32)) : Prop :=
  (∃ next, r = .ok next ∧ (∀ i < ps.length, Entry ps next i) ∧ ¬ Overlaps ps) ∨
    (r = .error .outOfBounds ∧ Overlaps ps)

/-- The number of characters that agree, as it is stored. -/
theorem toInt_agree {i s : ℕ} (hs : s ≤ i) (hlt : i < s + 2 ^ 31) :
    (Int32.ofInt (i - s)).toInt = (i - s : ℕ) := by
  rw [toInt_ofInt (by omega) (by omega)]
  omega

theorem agree_succ (i s : ℕ) : Int32.ofInt (i - s) + 1 = Int32.ofInt ((i + 1 : ℕ) - s) := by
  rw [ofInt_succ]
  congr 1
  omega

theorem agree_sub {i s : ℕ} (hs : s ≤ i) (d : ℕ) :
    Int32.ofInt ((i - s : ℕ) - d) = Int32.ofInt (i - (s + d : ℕ)) := by
  congr 1
  omega

/-- The test, when the text from `s` up to `i` agrees with the pattern. -/
theorem agrees_eq {i s : ℕ} {c : Except Fault UInt8} {y : UInt8} (hs : s ≤ i + 1)
    (hbound : i < s + 2 ^ 31) (hin : s ≤ i → i - s < ps.length)
    (hc : s ≤ i → c = .ok y) :
    agrees c (ps ++ [behind]) (Int32.ofInt (i - s)) =
      .ok (decide (s ≤ i → some y = ps[i - s]?)) := by
  simp only [agrees, ofInt_eq_neg_one_iff (show -1 ≤ (i : ℤ) - s by omega)
    (show (i : ℤ) - s ≤ 2 ^ 31 by omega)]
  split
  · next heq =>
      have hnot : ¬ s ≤ i := by omega
      simp [hnot]
  · next hne =>
      have hle : s ≤ i := by omega
      rw [toInt_agree hle hbound, readAt_memory (hin hle), hc hle]
      simp [hle, List.getElem?_eq_getElem (hin hle)]

namespace Building

variable {x : NextState} {k s : ℕ}

/-- The entry behind the characters that agree. -/
theorem nextEntry_eq (B : Building ps k x s) (hj : x.j < ps.length)
    (hsame : s ≤ x.j → ps[x.j]? = ps[x.j - s]?) (hlt : x.j + 1 < s + 2 ^ 31) :
    ∃ n, nextEntry (ps ++ [behind]) x.next (x.j + 1) (x.k + 1) = .ok n ∧
      (x.j + 1 < ps.length → Entry ps (x.next.set (x.j + 1) n) (x.j + 1)) := by
  have hs := B.search.scan.start_le
  have hpos := B.search.scan.le_start
  have hscan := B.search.scan.advance (Nat.min_le_right _ _) hsame
  have hin : x.j + 1 - s < ps.length := by omega
  obtain ⟨y, hy⟩ : ∃ y, (ps ++ [behind])[x.j + 1]? = some y :=
    ⟨_, List.getElem?_eq_getElem (by simp; omega)⟩
  obtain ⟨d, hd, hget⟩ := B.entries (x.j + 1 - s) (by omega) hin
  have hset (n : Int32) (hj' : x.j + 1 < ps.length) :
      (x.next.set (x.j + 1) n)[x.j + 1]? = some n :=
    List.getElem?_set_self (by rwa [B.length])
  rw [nextEntry, B.agree, agree_succ, toInt_agree hs hlt, readAt_eq hy, readAt_memory hin,
    readAt_eq hget]
  simp only [ok_bind]
  split
  · exact ⟨_, rfl, fun hj' => ⟨s, hscan.isNext, hset _ hj'⟩⟩
  · next heq =>
      refine ⟨_, rfl, fun hj' => ⟨s + d, hscan.isNext_of_eq hs ?_ hd, ?_⟩⟩
      · rw [List.getElem?_append_left hj'] at hy
        rw [hy, List.getElem?_eq_getElem hin, not_ne_iff.mp heq]
      · rw [hset _ hj']
        congr 2
        omega

/-- An `int` cannot count one more. -/
theorem nextEntry_limit (B : Building ps k x s) (hj : x.j < ps.length)
    (hlimit : x.j + 1 = s + 2 ^ 31) :
    nextEntry (ps ++ [behind]) x.next (x.j + 1) (x.k + 1) = .error .outOfBounds := by
  have hk : ((x.j + 1 : ℕ) : ℤ) - s = 2 ^ 31 := by omega
  obtain ⟨y, hy⟩ : ∃ y, (ps ++ [behind])[x.j + 1]? = some y :=
    ⟨_, List.getElem?_eq_getElem (by simp; omega)⟩
  rw [nextEntry, B.agree, agree_succ, hk, toInt_ofInt_limit, readAt_eq hy, ok_bind,
    readAt_of_neg (by decide), error_bind]

/-- One more character agrees. -/
theorem advance (B : Building ps k x s) (hlt : x.j + 1 < s + 2 ^ 31) {k' : ℕ} {n : Int32}
    (hsearch : Search (ps[·]?) (ps[·]?) (2 ^ 31) 1 ps.length k' s (x.j + 1))
    (hn : x.j + 1 < ps.length → Entry ps (x.next.set (x.j + 1) n) (x.j + 1)) :
    Building ps k' ⟨x.next.set (x.j + 1) n, x.k + 1, x.j + 1⟩ s where
  length := by rw [List.length_set, B.length]
  agree := by rw [B.agree, agree_succ]
  bound := hlt
  search := hsearch
  entries i hi hin := by
    rcases Nat.lt_or_ge i (x.j + 1) with hlt | hge
    · obtain ⟨d, hd, hget⟩ := B.entries i (by omega) hin
      exact ⟨d, hd, by rwa [List.getElem?_set_ne (by omega)]⟩
    · obtain rfl : i = x.j + 1 := Nat.le_antisymm hi hge
      exact hn hin

/-- The next starting point. -/
theorem fallback (B : Building ps k x s) (hs : s ≤ x.j) {k' d : ℕ}
    (hsearch : Search (ps[·]?) (ps[·]?) (2 ^ 31) 1 ps.length k' (s + d) x.j) :
    Building ps k' { x with k := Int32.ofInt ((x.j - s : ℕ) - d) } (s + d) where
  length := B.length
  agree := agree_sub hs d
  bound := B.bound.trans_le (by omega)
  search := hsearch
  entries := B.entries

end Building

/-- A round of `get_next`. -/
theorem getNextStep_turn (k : ℕ) (x : NextState) (hx : ∃ s, Building ps k x s) :
    Turn (fun k x => ∃ s, Building ps k x s) (Built ps) k
      (getNextStep .passes (ps ++ [behind]) ps.length x) := by
  obtain ⟨s, B⟩ := hx
  have X := B.search
  have hs := X.scan.start_le
  have hpos := X.scan.le_start
  have hbound := B.bound
  rw [getNextStep]
  split
  · next hj =>
      have hread : readAt (ps ++ [behind]) x.j = .ok ps[x.j] := readAt_memory hj
      rw [B.agree, agrees_eq hs hbound (fun _ => by omega) (fun _ => hread), ok_bind,
        ← List.getElem?_eq_getElem hj, ← B.agree]
      split
      · next hsame =>
          have hsame := of_decide_eq_true hsame
          rcases (Nat.succ_le_of_lt hbound).lt_or_eq with hlt | hlimit
          · obtain ⟨n, hn, hentry⟩ : ∃ n, nextEntry (ps ++ [behind]) x.next _ _ = .ok n ∧ _ :=
              B.nextEntry_eq hj hsame hlt
            obtain ⟨hdec, X'⟩ := X.advance hj hsame
            rw [hn, ok_bind, storeAt_passes]
            exact .next hdec ⟨s, B.advance hlt X' hentry⟩
          · have hscan := X.scan.advance (Nat.min_le_right _ _) hsame
            rw [B.nextEntry_limit hj hlimit]
            exact .fail (.inr ⟨rfl, s, hpos, (hscan.isLeast hlimit hj).1.2⟩)
      · next hdiff =>
          have hdiff := of_decide_eq_false (Bool.eq_false_of_not_eq_true hdiff)
          obtain ⟨hle, hne⟩ := Classical.not_imp.mp hdiff
          obtain ⟨d, hd, hget⟩ := B.entries (x.j - s) (by omega) (by omega)
          obtain ⟨hdec, X'⟩ := X.fallback hj hle hbound hne hd
          rw [B.agree, toInt_agree hle hbound, readAt_eq hget]
          exact .next hdec ⟨s + d, B.fallback hle X'⟩
  · next hj =>
      have hlen : x.j = ps.length := Nat.le_antisymm X.le (Nat.not_lt.mp hj)
      refine .done (.inl ⟨x.next, rfl, fun i hi => B.entries i (by omega) hi, ?_⟩)
      rintro ⟨s', hs', hoccurs⟩
      exact X.scan.not_occursAt hbound hs' (hlen ▸ hoccurs)

/-- The state before the first round. -/
theorem building_init : Building ps (2 * ps.length) ⟨List.replicate ps.length (-1), -1, 0⟩ 1 where
  length := List.length_replicate
  agree := rfl
  bound := Nat.succ_pos _
  search := ⟨Scan.start _ _ _ _ (Nat.zero_le 1) le_rfl, Nat.zero_le _, rfl⟩
  entries i hi hin := by
    obtain rfl : i = 0 := Nat.le_zero.mp hi
    refine ⟨1, isNext_zero _, ?_⟩
    rw [List.getElem?_replicate_of_lt hin]
    decide

/-- **The table**: with enough rounds `get_next` ends, if its last store is let pass. -/
theorem getNext_built {fuel : ℕ} (hfuel : 2 * ps.length < fuel) :
    Built ps (getNext .passes fuel (ps ++ [behind]) ps.length) :=
  loop_spec getNextStep_turn ⟨1, building_init⟩ hfuel

/-- Whatever the number of rounds is, a table that is returned is the right one. -/
theorem entry_of_getNext {fuel : ℕ} {next : List Int32}
    (hrun : getNext .passes fuel (ps ++ [behind]) ps.length = .ok next) :
    (∀ i < ps.length, Entry ps next i) ∧ ¬ Overlaps ps := by
  have hcases :
      getNext .passes fuel (ps ++ [behind]) ps.length = .error .diverges ∨ Built ps _ :=
    loop_cases getNextStep_turn ⟨1, building_init⟩ fuel
  rcases hcases with hbad | ⟨next', heq, hentries, hover⟩ | ⟨hbad, -⟩
  · cases hrun.symm.trans hbad
  · cases hrun.symm.trans heq
    exact ⟨hentries, hover⟩
  · cases hrun.symm.trans hbad

end Table

/-! ## The text -/

/-- The bytes up to the first position without one. -/
def delivered {α : Type} : List (Option α) → List α
  | some x :: xs => x :: delivered xs
  | _ => []

section Delivered

variable {α : Type} {xs : List (Option α)} {n : ℕ}

theorem delivered_map_some (ts : List α) : delivered (ts.map some) = ts := by
  induction ts with
  | nil => rfl
  | cons x ts ih => rw [List.map_cons, delivered, ih]

theorem delivered_take (n : ℕ) (xs : List (Option α)) :
    delivered (xs.take n) = (delivered xs).take n := by
  induction xs generalizing n with
  | nil => simp [delivered]
  | cons x xs ih => cases n <;> cases x <;> simp [delivered, ih]

theorem getElem_delivered (hn : n < (delivered xs).length) :
    xs[n]? = some (some (delivered xs)[n]) := by
  induction xs generalizing n with
  | nil => simp [delivered] at hn
  | cons x xs ih =>
      cases x with
      | none => simp [delivered] at hn
      | some x =>
          cases n with
          | zero => rfl
          | succ n => exact ih (Nat.lt_of_succ_lt_succ hn)

theorem length_delivered_le (xs : List (Option α)) : (delivered xs).length ≤ xs.length := by
  by_contra hlt
  have hget := getElem_delivered (Nat.not_le.mp hlt)
  rw [List.getElem?_eq_none le_rfl] at hget
  cases hget

/-- Behind the bytes that are delivered there is none. -/
theorem getElem_length_delivered (hlt : (delivered xs).length < xs.length) :
    xs[(delivered xs).length]? = some none := by
  induction xs with
  | nil => cases hlt
  | cons x xs ih =>
      cases x with
      | none => rfl
      | some x => exact ih (Nat.lt_of_succ_lt_succ hlt)

theorem length_delivered_eq_iff : (delivered xs).length = xs.length ↔ none ∉ xs := by
  induction xs with
  | nil => simp [delivered]
  | cons x xs ih => cases x <;> simp [delivered, ih]

end Delivered

/-- The text of the search. -/
def Heap.text (h : Heap) (win : List ℕ) : List UInt8 := delivered (h.stream win)

/-! ## The loop -/

/-- The number of bytes of a pattern that are compared. -/
def compared (ps : List UInt8) : ℕ := min ps.length (2 ^ 31)

section Loop

variable {h : Heap} {b : Buffer} {win spare : List ℕ} {content ps : List UInt8}
  {next : List Int32} {behind : UInt8} {x : BufferIterator × Int32} {k n s : ℕ}

/-- Where the search is, with `k` rounds to go: at the `n`-th position, and the text from `s` on
agrees with the pattern. -/
structure Searching (h : Heap) (win : List ℕ) (ps : List UInt8) (k : ℕ)
    (x : BufferIterator × Int32) (n s : ℕ) : Prop where
  position : (h.positions win)[n]? = some x.1
  start_le : s ≤ (h.text win).length
  agree : x.2 = Int32.ofInt (n - s)
  bound : n ≤ s + compared ps
  search : Search (ps[·]?) ((h.text win)[·]?) (compared ps) 0 (h.text win).length k s n

/-- How the search ends. -/
inductive Searched (h : Heap) (win : List ℕ) (ps : List UInt8) :
    Except Fault (BufferIterator × Int32) → Prop
  | found {s : ℕ} {i : BufferIterator}
      (least : IsLeast { s | OccursAt (ps[·]?) ((h.text win)[·]?) (compared ps)
        (h.text win).length s } s)
      (position : (h.positions win)[s + compared ps]? = some i) :
      Searched h win ps (.ok (i, Int32.ofInt (compared ps)))
  | absent {k : ℤ} {i : BufferIterator}
      (none : ∀ s, ¬ OccursAt (ps[·]?) ((h.text win)[·]?) (compared ps) (h.text win).length s)
      (full : (h.text win).length = (h.stream win).length)
      (position : (h.positions win)[(h.text win).length]? = some i)
      (ge : -1 ≤ k) (lt : k < compared ps) :
      Searched h win ps (.ok (i, Int32.ofInt k))
  | unreadable
      (none : ∀ s, ¬ OccursAt (ps[·]?) ((h.text win)[·]?) (compared ps) (h.text win).length s)
      (hole : (h.text win).length < (h.stream win).length) :
      Searched h win ps (.error .outOfBounds)

/-- The loop is left: enough characters agree, or there is no position any more. -/
theorem Searching.searched (X : Searching h win ps k x n s)
    (hstop : ¬ (n < (h.stream win).length ∧ n < s + compared ps)) :
    Searched h win ps (.ok x) := by
  have hbound := X.bound
  have hle := X.search.le
  have hstart := X.search.scan.start_le
  have htext : (h.text win).length ≤ (h.stream win).length := length_delivered_le _
  by_cases hfound : n = s + compared ps
  · have hleast := X.search.scan.isLeast hfound hle
    have hagree : x = (x.1, Int32.ofInt (compared ps)) := by
      rw [← Prod.eta x, X.agree, hfound]
      congr 2
      omega
    rw [hagree]
    exact .found (by simpa using hleast) (hfound ▸ X.position)
  · have hn : n = (h.text win).length := by omega
    have hagree : x = (x.1, Int32.ofInt (n - s)) := by rw [← X.agree]
    rw [hagree]
    exact .absent (fun s' => hn ▸ X.search.scan.not_occursAt (by omega) (Nat.zero_le s'))
      (by omega) (hn ▸ X.position) (by omega) (by omega)

namespace Carries

/-- What is read at a position of the text. -/
theorem deref_text (S : Carries h b win spare content) (hw : h.cache b.cacheChain.write ≠ none)
    {i : BufferIterator} (hi : (h.positions win)[n]? = some i) (hn : n < (h.text win).length) :
    i.deref h = .ok (h.text win)[n] := by
  have hle : (h.text win).length ≤ (h.stream win).length := length_delivered_le _
  have hpeek : (h.stream win)[n]? = some (some (h.text win)[n]) := getElem_delivered hn
  rw [Heap.length_stream] at hle
  rw [Heap.getElem_stream hi (by omega), Option.some.injEq] at hpeek
  rw [S.deref_track hw hi, hpeek]

/-- Behind the text there is nothing to read. -/
theorem deref_behind (S : Carries h b win spare content) (hw : h.cache b.cacheChain.write ≠ none)
    {i : BufferIterator} (hi : (h.positions win)[(h.text win).length]? = some i)
    (hlt : (h.text win).length < (h.stream win).length) : i.deref h = .error .outOfBounds := by
  have hpeek : (h.stream win)[(h.text win).length]? = some none := getElem_length_delivered hlt
  rw [Heap.length_stream] at hlt
  rw [Heap.getElem_stream hi (by omega), Option.some.injEq] at hpeek
  rw [S.deref_track hw hi, hpeek]

/-- The test of the loop. -/
theorem continues_iff (S : Carries h b win spare content) (hw : h.cache b.cacheChain.write ≠ none)
    (hsize : ps.length ≤ ptrdiffMax) {e : BufferIterator} (he : b.iterEnd h = .ok e)
    (X : Searching h win ps k x n s) :
    (x.1 ≠ e ∧ (x.2 = -1 ∨ toSize x.2 < ps.length)) ↔
      n < (h.stream win).length ∧ n < s + compared ps := by
  obtain ⟨s', e', -, he', T⟩ := S.track hw
  cases he.symm.trans he'
  have hlt := (List.getElem?_eq_some_iff.mp X.position).1
  have hs := X.search.scan.start_le
  have hbound := X.bound
  rw [ne_eq, T.eq_last_iff X.position, X.agree,
    Net.continues_iff hsize (by omega) (by rw [compared] at hbound; omega), Heap.length_stream,
    compared]
  omega

/-- A round of the search. -/
theorem scanStep_turn (S : Carries h b win spare content) (hw : h.cache b.cacheChain.write ≠ none)
    (hsize : ps.length ≤ ptrdiffMax) (hnext : ∀ i < ps.length, Entry ps next i) (k : ℕ)
    (x : BufferIterator × Int32) (hx : ∃ n s, Searching h win ps k x n s) :
    Turn (fun k x => ∃ n s, Searching h win ps k x n s) (Searched h win ps) k
      (b.scanStep h (ps ++ [behind]) ps.length next x) := by
  obtain ⟨n, s, X⟩ := hx
  obtain ⟨s', e, -, he, T⟩ := S.track hw
  have hs := X.start_le
  have hstart := X.search.scan.start_le
  have hle : (h.text win).length ≤ (h.stream win).length := length_delivered_le _
  have hlen := h.length_stream win
  have hcompared : compared ps ≤ ps.length ∧ compared ps ≤ 2 ^ 31 :=
    ⟨Nat.min_le_left _ _, Nat.min_le_right _ _⟩
  rw [Buffer.scanStep, he]
  simp only [ok_bind, S.continues_iff hw hsize he X]
  split
  · next hcont =>
      obtain ⟨hin, hlt⟩ := hcont
      rcases Nat.lt_or_eq_of_le X.search.le with hn | hn
      · -- the position has a byte
        rw [X.agree, agrees_eq hstart (by omega) (fun _ => by omega)
          (fun _ => S.deref_text hw X.position hn), ok_bind, ← List.getElem?_eq_getElem hn,
          ← X.agree]
        split
        · next hsame =>
            obtain ⟨i, hi, hstep, -⟩ := T.getElem_succ X.position (by omega)
            obtain ⟨hdec, X'⟩ := X.search.advance hn (of_decide_eq_true hsame)
            rw [hstep, X.agree, ok_bind, agree_succ]
            exact .next hdec ⟨n + 1, s, hi, hs, rfl, hlt, X'⟩
        · next hdiff =>
            have hdiff := of_decide_eq_false (Bool.eq_false_of_not_eq_true hdiff)
            obtain ⟨hle, hne⟩ := Classical.not_imp.mp hdiff
            obtain ⟨d, hd, hget⟩ := hnext (n - s) (by omega)
            obtain ⟨hdec, X'⟩ := X.search.fallback hn hle hlt hne hd
            have hd_le := hd.le
            rw [X.agree, toInt_agree hle (by omega), readAt_eq hget, ok_bind, agree_sub hle]
            exact .next hdec ⟨n, s + d, X.position, by omega, rfl, by omega, X'⟩
      · -- the text is at its end, but not the positions
        have hne : x.2 ≠ -1 := by
          rw [X.agree, ne_eq, ofInt_eq_neg_one_iff (by omega) (by omega)]
          omega
        rw [agrees, if_neg hne, S.deref_behind hw (hn ▸ X.position) (hn ▸ hin)]
        exact .fail (.unreadable (fun s' => hn ▸ X.search.scan.not_occursAt hlt (Nat.zero_le s'))
          (hn ▸ hin))
  · next hstop => exact .done (X.searched hstop)

/-- The state before the first round. -/
theorem searching_init (S : Carries h b win spare content)
    (hw : h.cache b.cacheChain.write ≠ none) :
    ∃ i, b.iterBegin h = .ok i ∧ Searching h win ps (2 * (h.text win).length + 1) (i, 0) 0 0 := by
  obtain ⟨i, e, hi, -, T⟩ := S.track hw
  exact ⟨i, hi, T.getElem_zero, Nat.zero_le _, rfl, Nat.zero_le _,
    Scan.start _ _ _ _ le_rfl (Nat.zero_le 1), Nat.zero_le _, rfl⟩

/-- **The search**: with enough rounds it ends. -/
theorem scan_searched (S : Carries h b win spare content)
    (hw : h.cache b.cacheChain.write ≠ none) (hsize : ps.length ≤ ptrdiffMax)
    (hnext : ∀ i < ps.length, Entry ps next i) {fuel : ℕ}
    (hfuel : 2 * (h.text win).length + 1 < fuel) :
    Searched h win ps (b.scan fuel h (ps ++ [behind]) ps.length next) := by
  obtain ⟨i, hi, X⟩ := S.searching_init hw
  rw [Buffer.scan, hi, ok_bind]
  exact loop_spec (S.scanStep_turn hw hsize hnext) ⟨0, 0, X⟩ hfuel

/-- Both loops end, unless the pattern overlaps itself. -/
theorem exists_searched (S : Carries h b win spare content)
    (hw : h.cache b.cacheChain.write ≠ none) (hsize : ps.length ≤ ptrdiffMax)
    (hover : ¬ Overlaps ps) :
    ∃ fuel next, getNext .passes fuel (ps ++ [behind]) ps.length = .ok next ∧
      Searched h win ps (b.scan fuel h (ps ++ [behind]) ps.length next) := by
  obtain ⟨fuel, hfuel⟩ := exists_gt (2 * ps.length + (2 * (h.text win).length + 1))
  have htable : Built ps (getNext .passes fuel (ps ++ [behind]) ps.length) :=
    getNext_built (by omega)
  rcases htable with ⟨next, hnext, hentries, -⟩ | ⟨-, hbad⟩
  · exact ⟨fuel, next, hnext, S.scan_searched hw hsize hentries (by omega)⟩
  · exact absurd hbad hover

/-- Whatever the number of rounds is, a search that ends does so. -/
theorem searched_of_scan (S : Carries h b win spare content)
    (hw : h.cache b.cacheChain.write ≠ none) (hsize : ps.length ≤ ptrdiffMax)
    (hnext : ∀ i < ps.length, Entry ps next i) {fuel : ℕ}
    (hrun : b.scan fuel h (ps ++ [behind]) ps.length next = .ok x) :
    Searched h win ps (.ok x) := by
  obtain ⟨i, hi, X⟩ := S.searching_init hw
  rw [Buffer.scan, hi, ok_bind] at hrun
  rcases loop_cases (S.scanStep_turn hw hsize hnext) ⟨0, 0, X⟩ fuel with hbad | hsearched
  · cases hrun.symm.trans hbad
  · rwa [hrun] at hsearched

end Carries

end Loop

end Hare.Net
