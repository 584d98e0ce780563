import Hare.Net.Add
import Hare.Net.NextBounds

/-!
# What a search in a buffer finds

The search stops behind the first occurrence of the pattern in the bytes the iterator delivers, if
an `int` can count the bytes of the pattern.  But it reports an occurrence by the position behind
it.  When the pattern ends with the last byte this is `End()`, which is what a caller takes for
"not found"; and a buffer that has never held a byte has no `End()` at all.

All this is about the entries of the table that are within bounds.  As building the table stores
behind its end, `Find` itself returns only when it does not get there: when the pattern is longer
than the content, and then there is nothing to find.
-/

namespace Hare.Net

open LabelledRun BoundedLoop PrefixMatch

/-! ## The search in the bytes that are delivered -/

section Delivery

variable {h : Heap} {b : Buffer} {win spare : List ℕ} {content ps ts : List UInt8} {n s : ℕ}

theorem take_compared (ps : List UInt8) : ps.take (compared ps) = ps.take (2 ^ 31) := by
  rw [compared, Nat.min_comm, ← List.take_eq_take_min]

theorem compared_le (ps : List UInt8) : compared ps ≤ ps.length := Nat.min_le_left _ _

theorem occursAt_compared_iff (hne : ps ≠ []) :
    OccursAt (ps[·]?) (ts[·]?) (compared ps) ts.length s ↔ ps.take (2 ^ 31) <+: ts.drop s := by
  rw [occursAt_iff (compared_le ps), take_compared]
  refine and_iff_right_of_imp fun hpre => ?_
  have hlen := hpre.length_le
  have hpos := List.length_pos_iff.mpr hne
  rw [List.length_take, List.length_drop] at hlen
  simp only [compared]
  omega

/-- The search stopped after the first `n` bytes of the text, with the value `j`: behind the first
occurrence of the pattern, or at the end when there is none. -/
def StopsRight (ps ts : List UInt8) (n : ℕ) (j : Int32) : Prop :=
  (∃ s, IsLeast { s | ps <+: ts.drop s } s ∧ n = s + ps.length) ∨
    (¬ ps <:+: ts ∧ n = ts.length ∧ j.toInt < ps.length)

/-- The table is built, and the search ends and stops at the right place of the text. -/
def Finds (h : Heap) (b : Buffer) (p : Payload) (behind : UInt8) (ts : List UInt8) : Prop :=
  ∃ fuel nextVal begin i j n,
    getNext .passes fuel (p.bytes ++ [behind]) p.bytes.length = .ok nextVal ∧
    b.scan fuel h (p.bytes ++ [behind]) p.bytes.length nextVal = .ok (i, j) ∧
    b.iterBegin h = .ok begin ∧ BufferIterator.advance h b.cacheChain n begin = .ok i ∧
    n ≤ ts.length ∧ StopsRight p.bytes ts n j

/-- Where the search stops. -/
inductive Stops (ps ts : List UInt8) : ℕ → Int32 → Prop
  | found {s : ℕ} (least : IsLeast { s | ps.take (2 ^ 31) <+: ts.drop s } s) :
      Stops ps ts (s + compared ps) (Int32.ofInt (compared ps))
  | absent {k : ℤ} (none : ¬ ps.take (2 ^ 31) <:+: ts) (ge : -1 ≤ k) (lt : k < compared ps) :
      Stops ps ts ts.length (Int32.ofInt k)

theorem Track.advance_iff {l : CacheList} {i j e : BufferIterator} {qs : List BufferIterator}
    (T : Track h l i qs e) (hn : n < qs.length) :
    BufferIterator.advance h l n i = .ok j ↔ qs[n]? = some j := by
  obtain ⟨j', hadvance, hget⟩ := T.advance_eq n T.getElem_zero
  rw [Nat.zero_add, Nat.min_eq_left (by omega)] at hget
  rw [hadvance, hget, Except.ok.injEq, Option.some.injEq]

theorem Heap.text_eq (hstream : h.stream win = ts.map some) : h.text win = ts := by
  rw [Heap.text, hstream, delivered_map_some]

/-- How the loop ends when all bytes can be read. -/
theorem Searched.stops {r : Except Fault (BufferIterator × Int32)} (hr : Searched h win ps r)
    (hne : ps ≠ []) (hstream : h.stream win = ts.map some) :
    ∃ i j n, r = .ok (i, j) ∧ n ≤ ts.length ∧ (h.positions win)[n]? = some i ∧
      Stops ps ts n j := by
  have htext := Heap.text_eq hstream
  have hlen : (h.stream win).length = ts.length := by rw [hstream, List.length_map]
  cases hr with
  | @found s i least position =>
      refine ⟨i, _, _, rfl, htext ▸ least.1.1, position, .found ?_⟩
      simpa only [htext, occursAt_compared_iff hne] using least
  | @absent k i none full position ge lt =>
      refine ⟨i, _, _, rfl, le_rfl, htext ▸ position, .absent (fun hinfix => ?_) ge lt⟩
      rw [← take_compared, ← exists_occursAt_iff (compared_le ps)] at hinfix
      obtain ⟨s, hoccurs⟩ := hinfix
      exact none s (htext ▸ hoccurs)
  | unreadable none hole =>
      rw [htext, hlen] at hole
      exact absurd hole (lt_irrefl _)

namespace Carries

variable {p : Payload} {behind : UInt8}

/-- The table is built and the search ends, unless the pattern overlaps itself. -/
theorem scan_stops (S : Carries h b win spare content)
    (hw : h.cache b.cacheChain.write ≠ none) (hne : p.bytes ≠ [])
    (hstream : h.stream win = ts.map some) (hover : ¬ Overlaps p.bytes) :
    ∃ fuel nextVal begin i j n,
      getNext .passes fuel (p.bytes ++ [behind]) p.bytes.length = .ok nextVal ∧
      b.scan fuel h (p.bytes ++ [behind]) p.bytes.length nextVal = .ok (i, j) ∧
      b.iterBegin h = .ok begin ∧ BufferIterator.advance h b.cacheChain n begin = .ok i ∧
      n ≤ ts.length ∧ Stops p.bytes ts n j := by
  obtain ⟨begin, e, hbegin, -, T⟩ := S.track hw
  have hpos := T.length_pos
  have hlen := h.length_stream win
  rw [hstream, List.length_map] at hlen
  obtain ⟨fuel, nextVal, hnext, hsearched⟩ := S.exists_searched hw p.fits hover
  obtain ⟨i, j, n, heq, hn, hi, hstops⟩ := hsearched.stops hne hstream
  exact ⟨fuel, nextVal, begin, i, j, n, hnext, heq, hbegin, (T.advance_iff (by omega)).mpr hi, hn,
    hstops⟩

/-- A search that stops at the right place stops where it always does. -/
theorem stops_of_finds (S : Carries h b win spare content)
    (hw : h.cache b.cacheChain.write ≠ none) (hne : p.bytes ≠ [])
    (hstream : h.stream win = ts.map some) (hfinds : Finds h b p behind ts) :
    ¬ Overlaps p.bytes ∧ ∃ n j, Stops p.bytes ts n j ∧ StopsRight p.bytes ts n j := by
  obtain ⟨fuel, nextVal, begin, i, j, n, hnext, hscan, hbegin, hadvance, hn, hright⟩ := hfinds
  obtain ⟨begin', e, hbegin', -, T⟩ := S.track hw
  cases hbegin.symm.trans hbegin'
  have hpos := T.length_pos
  have hlen := h.length_stream win
  rw [hstream, List.length_map] at hlen
  obtain ⟨hentries, hover⟩ := entry_of_getNext hnext
  refine ⟨hover, n, j, ?_, hright⟩
  obtain ⟨i', j', n', heq, hn', hi', hstops⟩ :=
    (S.searched_of_scan hw p.fits hentries hscan).stops hne hstream
  cases heq
  have hi := (T.advance_iff (by omega)).mp hadvance
  rw [← hi'] at hi
  rwa [(List.getElem?_inj (by omega) T.nodup).mp hi]

/-- Without a block at the write node there is no `End()`. -/
theorem iterEnd_of_none (S : Carries h b win spare content)
    (hnone : h.cache b.cacheChain.write = none) : b.iterEnd h = .error .nullPointer := by
  have hlive := S.chain.window.live _ S.chain.window.write_mem
  rw [Buffer.iterEnd, Heap.block, Heap.getCache_of_live hlive, hnone]
  rfl

theorem write_ne_none_of_traverse (S : Carries h b win spare content)
    (ht : ∃ fuel, b.traverse fuel h = .ok ts) : h.cache b.cacheChain.write ≠ none := by
  intro hnone
  obtain ⟨fuel, ht⟩ := ht
  obtain ⟨i, -, ht⟩ := bind_eq_ok ht
  cases fuel <;> simp [loop, Buffer.traverseStep, S.iterEnd_of_none hnone] at ht

end Carries

namespace Stops

variable {j : Int32}

/-- The whole pattern is compared. -/
theorem stopsRight_of_le (hstops : Stops ps ts n j) (hle : ps.length ≤ 2 ^ 31) :
    StopsRight ps ts n j := by
  have hcompared : compared ps = ps.length := Nat.min_eq_left hle
  cases hstops with
  | found least =>
      rw [List.take_of_length_le hle] at least
      exact .inl ⟨_, least, by rw [hcompared]⟩
  | absent none ge lt =>
      rw [List.take_of_length_le hle] at none
      refine .inr ⟨none, rfl, ?_⟩
      rw [toInt_ofInt ge (by omega), ← hcompared]
      exact lt

/-- Only the beginning of the pattern is compared: the search is not behind an occurrence of the
whole pattern, so it has to be at the end of the text. -/
theorem stopsRight_iff_of_lt (hstops : Stops ps ts n j) (hlt : 2 ^ 31 < ps.length) :
    StopsRight ps ts n j ↔ ¬ ps.take (2 ^ 31) <:+: ts.dropLast := by
  have hcompared : compared ps = 2 ^ 31 := Nat.min_eq_right hlt.le
  have hlen : (ps.take (2 ^ 31)).length = 2 ^ 31 := by
    rw [List.length_take, Nat.min_eq_left hlt.le]
  have hwhole {s : ℕ} (hpre : ps <+: ts.drop s) :
      ps.take (2 ^ 31) <+: ts.drop s ∧ s + 2 ^ 31 ≤ ts.length - 1 := by
    have hle := hpre.length_le
    rw [List.length_drop] at hle
    exact ⟨(List.take_prefix _ _).trans hpre, by omega⟩
  rw [List.dropLast_eq_take, infix_take_iff, hlen]
  cases hstops with
  | @found s least =>
      have hle := least.1.length_le
      rw [hlen, List.length_drop] at hle
      rw [hcompared]
      constructor
      · rintro (⟨s', hleast', hn⟩ | ⟨-, hn, -⟩) ⟨s'', hend, hpre⟩
        · have := least.2 (hwhole hleast'.1).1
          omega
        · have := least.2 hpre
          omega
      · intro hnone
        have hend : ¬ s + 2 ^ 31 ≤ ts.length - 1 := fun hle => hnone ⟨s, hle, least.1⟩
        refine .inr ⟨fun hinfix => ?_, by omega, ?_⟩
        · obtain ⟨us, hpre, hsuffix⟩ := List.infix_iff_prefix_suffix.mp hinfix
          rw [List.suffix_iff_eq_drop.mp hsuffix] at hpre
          obtain ⟨hpre', hend'⟩ := hwhole hpre
          exact hnone ⟨_, hend', hpre'⟩
        · have hneg : (Int32.ofInt (2 ^ 31 : ℕ)).toInt = -2 ^ 31 := toInt_ofInt_limit
          rw [hneg]
          omega
  | absent none ge lt =>
      refine iff_of_true (.inr ⟨fun hinfix => ?_, rfl, ?_⟩) ?_
      · exact none ((List.take_prefix _ _).isInfix.trans hinfix)
      · rw [toInt_ofInt ge (by omega)]
        omega
      · rintro ⟨s, -, hpre⟩
        exact none (hpre.isInfix.trans (List.drop_suffix s ts).isInfix)

/-- The place where the search stops is the right one unless the beginning of a longer pattern
occurs before the last byte. -/
theorem stopsRight_iff (hstops : Stops ps ts n j) :
    StopsRight ps ts n j ↔ ps.length ≤ 2 ^ 31 ∨ ¬ ps.take (2 ^ 31) <:+: ts.dropLast := by
  rcases Nat.lt_or_ge (2 ^ 31) ps.length with hlt | hle
  · rw [hstops.stopsRight_iff_of_lt hlt, or_iff_right (Nat.not_le.mpr hlt)]
  · exact iff_of_true (hstops.stopsRight_of_le hle) (.inl hle)

end Stops

namespace Carries

/-- **When the search is right about the bytes that are delivered.**  For every pattern that is not
empty and every sequence of bytes that iteration from `Begin()` to `End()` delivers, the table is
built and the search stops behind the first occurrence, or at the end if there is none, exactly
when the pattern has at most `2 ^ 31` bytes, or its first `2 ^ 31` bytes occur neither once more
in the pattern itself nor, before its last byte, in the text. -/
theorem scan_iff (S : Carries h b win spare content) (p : Payload) (behind : UInt8)
    (hne : p.bytes ≠ []) (ht : ∃ fuel, b.traverse fuel h = .ok ts) :
    Finds h b p behind ts ↔ p.bytes.length ≤ 2 ^ 31 ∨
      (¬ p.bytes.take (2 ^ 31) <:+: p.bytes.tail ∧ ¬ p.bytes.take (2 ^ 31) <:+: ts.dropLast) := by
  have hw := S.write_ne_none_of_traverse ht
  have hstream := (S.traverse_eq_ok_iff hw ts).mp ht
  constructor
  · intro hfinds
    obtain ⟨hover, n, j, hstops, hright⟩ := S.stops_of_finds hw hne hstream hfinds
    rw [overlaps_iff hne] at hover
    exact (hstops.stopsRight_iff.mp hright).imp_right fun habsent => ⟨hover, habsent⟩
  · intro hcond
    have hover : ¬ Overlaps p.bytes := by
      rw [overlaps_iff hne]
      rcases hcond with hle | ⟨hover, -⟩
      · intro hinfix
        have hlen := hinfix.length_le
        have hpos := List.length_pos_iff.mpr hne
        rw [List.length_take, List.length_tail] at hlen
        omega
      · exact hover
    obtain ⟨fuel, nextVal, begin, i, j, n, hnext, hscan, hbegin, hadvance, hn, hstops⟩ :=
      S.scan_stops hw hne hstream hover
    exact ⟨fuel, nextVal, begin, i, j, n, hnext, hscan, hbegin, hadvance, hn,
      hstops.stopsRight_iff.mpr (hcond.imp_right And.right)⟩

end Carries

end Delivery

/-- A pattern at the end of a buffer of one block. -/
theorem scan_secondBuffer : Finds twoRings secondBuffer ⟨[8], by decide⟩ 0 [7, 8] :=
  (carries_secondBuffer.scan_iff ⟨[8], by decide⟩ 0 (by simp) ⟨3, rfl⟩).mpr (.inl (by decide))

/-! ### A pattern that is too long -/

/-- The first bytes that are added to a buffer go into one block. -/
theorem exists_add_first (p : Payload) (hcap : p.bytes.length ≤ maxSize) :
    ∃ h b, (Buffer.new Heap.init).2.add (Buffer.new Heap.init).1 p.bytes = .ok (true, h, b) ∧
      Carries h b [0] [] p.bytes := by
  obtain ⟨h₀, b₀, hnew, C, H, -, -, hnone⟩ := Buffer.new_spec Heap.init
  have hsmall : p.bytes.length < 2 ^ 64 := by
    rw [maxSize] at hcap
    omega
  have hlen : b₀.totalLen = 0 := H.size_eq
  obtain ⟨h, b, win, spare, hadd, H', C', -, -, -, hsame⟩ :=
    H.add_spec C p.fits (by rwa [hlen, Nat.zero_add, Nat.mod_eq_of_lt hsmall]) (by simp [hnone])
  obtain ⟨rfl, rfl⟩ := hsame hnone
  exact ⟨h, b, by rw [hnew]; exact hadd, H'.carries C' hsmall⟩

/-- A one before `n` zeros. -/
def oneBeforeZeros (n : ℕ) : List UInt8 := 1 :: List.replicate n 0

theorem length_oneBeforeZeros (n : ℕ) : (oneBeforeZeros n).length = n + 1 := by
  rw [oneBeforeZeros, List.length_cons, List.length_replicate]

/-- No beginning of it occurs later in it. -/
theorem not_infix_tail_oneBeforeZeros {n k : ℕ} (hk : 0 < k) :
    ¬ (oneBeforeZeros n).take k <:+: (oneBeforeZeros n).tail := by
  intro hinfix
  obtain ⟨k, rfl⟩ : ∃ l, k = l + 1 := ⟨k - 1, by omega⟩
  have hmem : (1 : UInt8) ∈ List.replicate n 0 := by
    refine hinfix.subset ?_
    rw [oneBeforeZeros, List.take_succ_cons]
    exact List.mem_cons_self
  cases List.eq_of_mem_replicate hmem

/-- A one and `2 ^ 31` zeros. -/
def longPattern : Payload where
  bytes := oneBeforeZeros (2 ^ 31)
  fits := by
    rw [length_oneBeforeZeros]
    decide

theorem length_longPattern : longPattern.bytes.length = 2 ^ 31 + 1 := length_oneBeforeZeros _

/-- A buffer that holds just the pattern.  The search stops after `2 ^ 31` of its `2 ^ 31 + 1`
bytes, when the number of characters that agree has become negative. -/
theorem scan_longPattern :
    ∃ h b, (Buffer.new Heap.init).2.add (Buffer.new Heap.init).1 longPattern.bytes =
        .ok (true, h, b) ∧
      (∃ fuel, b.traverse fuel h = .ok longPattern.bytes) ∧
      (∃ fuel nextVal begin i,
        getNext .passes fuel (longPattern.bytes ++ [0]) longPattern.bytes.length = .ok nextVal ∧
        b.scan fuel h (longPattern.bytes ++ [0]) longPattern.bytes.length nextVal =
          .ok (i, Int32.minValue) ∧
        b.iterBegin h = .ok begin ∧
        BufferIterator.advance h b.cacheChain (2 ^ 31) begin = .ok i) ∧
      ¬ Finds h b longPattern 0 longPattern.bytes := by
  have hlen := length_longPattern
  have hne : longPattern.bytes ≠ [] := List.cons_ne_nil _ _
  obtain ⟨h, b, hadd, S⟩ := exists_add_first longPattern (by rw [hlen]; decide)
  have hw := S.write_ne_none hne
  have hstream := S.stream_of_single hw
  have hover : ¬ Overlaps longPattern.bytes := by
    rw [overlaps_iff hne]
    exact not_infix_tail_oneBeforeZeros (by decide)
  have hcompared : compared longPattern.bytes = 2 ^ 31 := by
    rw [compared, hlen]
    rfl
  refine ⟨h, b, hadd, (S.traverse_eq_ok_iff hw _).mpr hstream, ?_, fun hfinds => ?_⟩
  · obtain ⟨fuel, nextVal, begin, i, j, n, hnext, hscan, hbegin, hadvance, -, hstops⟩ :
        ∃ fuel nextVal begin i j n,
          getNext .passes fuel (longPattern.bytes ++ [0]) _ = .ok nextVal ∧ _ :=
      S.scan_stops hw hne hstream hover
    cases hstops with
    | @found s least =>
        obtain rfl : s = 0 := Nat.le_zero.mp (least.2 (List.take_prefix _ _))
        rw [hcompared] at hscan hadvance
        exact ⟨fuel, nextVal, begin, i, hnext, hscan, hbegin, by rwa [Nat.zero_add] at hadvance⟩
    | absent none => exact absurd (List.take_prefix _ _).isInfix none
  · obtain ⟨-, n, j, hstops, hright⟩ := S.stops_of_finds hw hne hstream hfinds
    rcases hstops.stopsRight_iff.mp hright with hle | habsent
    · omega
    · rw [List.dropLast_eq_take, hlen, Nat.add_sub_cancel] at habsent
      exact habsent List.infix_rfl

/-! ## The result -/

section Result

variable {h : Heap} {b : Buffer} {win spare : List ℕ} {content ps : List UInt8}
  {l : CacheList} {i e start : BufferIterator} {j : Int32}

/-- The result of `Find` is `End()` exactly when the pattern does not occur in the content. -/
def Tells (overrun : Overrun) (h : Heap) (b : Buffer) (p : Payload) (behind : UInt8)
    (content : List UInt8) : Prop :=
  ∃ fuel e i, b.iterEnd h = .ok e ∧
    b.find overrun fuel h (p.bytes ++ [behind]) p.bytes.length = .ok i ∧
    (i = e ↔ ¬ p.bytes <:+: content)

/-- When the result is another position than `End()`. -/
theorem Searched.reports_iff (hr : Searched h win ps (.ok (i, j))) (hne : ps ≠ [])
    (T : Track h l start (h.positions win) e) :
    ((0 ≤ j ∧ toSize j ≥ ps.length) ∧ i ≠ e) ↔
      ps.length < 2 ^ 31 ∧ ps <:+: delivered (h.stream win).dropLast := by
  have hpos := List.length_pos_iff.mpr hne
  have hle : (h.text win).length ≤ (h.stream win).length := length_delivered_le _
  have hlen := h.length_stream win
  have htake (hlt : ps.length < 2 ^ 31) : ps.take (2 ^ 31) = ps :=
    List.take_of_length_le hlt.le
  rw [List.dropLast_eq_take, delivered_take, infix_take_iff, Int32.le_iff_toInt_le,
    Int32.toInt_zero, ← Heap.text]
  cases hr with
  | @found s i least position =>
      rcases Nat.lt_or_ge ps.length (2 ^ 31) with hlt | hge
      · have hcompared : compared ps = ps.length := Nat.min_eq_left hlt.le
        simp only [occursAt_compared_iff hne, htake hlt] at least
        rw [hcompared] at position ⊢
        rw [toInt_ofInt (by omega) (by omega), toSize_ofInt (by omega) (by omega), ne_eq,
          T.eq_last_iff position]
        have hend := least.1.length_le
        rw [List.length_drop] at hend
        constructor
        · rintro ⟨-, hlast⟩
          exact ⟨hlt, s, by omega, least.1⟩
        · rintro ⟨-, s', hend', hpre⟩
          have := least.2 hpre
          exact ⟨by omega, by omega⟩
      · -- the number of characters that agree has become negative
        refine iff_of_false ?_ fun hcond => Nat.not_lt.mpr hge hcond.1
        have hneg : (Int32.ofInt (2 ^ 31 : ℕ)).toInt = -2 ^ 31 := toInt_ofInt_limit
        rw [show compared ps = 2 ^ 31 from Nat.min_eq_right hge, hneg]
        omega
  | @absent k i none full position ge lt =>
      have hcompared : compared ps ≤ ps.length ∧ compared ps ≤ 2 ^ 31 :=
        ⟨Nat.min_le_left _ _, Nat.min_le_right _ _⟩
      refine iff_of_false ?_ ?_
      · rintro ⟨⟨hnonneg, hsize⟩, -⟩
        rw [toInt_ofInt ge (by omega)] at hnonneg
        rw [toSize_ofInt hnonneg (by omega)] at hsize
        omega
      · rintro ⟨hlt, s, -, hpre⟩
        exact none s ((occursAt_compared_iff hne).mpr (by rwa [htake hlt]))

/-- When the search does not come to a position without a byte. -/
theorem Searched.readable_iff {r : Except Fault (BufferIterator × Int32)}
    (hr : Searched h win ps r) :
    (∃ x, r = .ok x) ↔ none ∉ h.stream win ∨ ps.take (2 ^ 31) <:+: delivered (h.stream win) := by
  rw [← length_delivered_eq_iff, ← take_compared, ← exists_occursAt_iff (compared_le ps),
    ← Heap.text]
  cases hr with
  | found least position => exact iff_of_true ⟨_, rfl⟩ (.inr ⟨_, least.1⟩)
  | absent none full position ge lt => exact iff_of_true ⟨_, rfl⟩ (.inl full)
  | unreadable none hole =>
      refine iff_of_false (by rintro ⟨x, hx⟩; cases hx) ?_
      rintro (hfull | ⟨s, hoccurs⟩)
      · exact hole.ne hfull
      · exact none s hoccurs

namespace Carries

/-- A pattern that is longer than the content is not searched for. -/
theorem tells_of_lt (S : Carries h b win spare content) (hw : h.cache b.cacheChain.write ≠ none)
    {p : Payload} {behind : UInt8} (hlt : content.length < p.bytes.length) (overrun : Overrun) :
    Tells overrun h b p behind content := by
  obtain ⟨s, e, -, he, T⟩ := S.track hw
  refine ⟨0, e, e, he, ?_, iff_of_true rfl fun hinfix => Nat.not_le.mpr hlt hinfix.length_le⟩
  rw [Buffer.find, if_pos (by rwa [S.size_eq]), he]

/-- The result, from the end of the search. -/
theorem find_of_scan (S : Carries h b win spare content)
    (hw : h.cache b.cacheChain.write ≠ none) {p : Payload} {behind : UInt8} (hne : p.bytes ≠ [])
    (hle : p.bytes.length ≤ content.length) (he : b.iterEnd h = .ok e) {fuel : ℕ}
    {nextVal : List Int32}
    (hnext : getNext .passes fuel (p.bytes ++ [behind]) p.bytes.length = .ok nextVal)
    (hscan : b.scan fuel h (p.bytes ++ [behind]) p.bytes.length nextVal = .ok (i, j)) :
    ∃ r, b.find .passes fuel h (p.bytes ++ [behind]) p.bytes.length = .ok r ∧
      (r ≠ e ↔ p.bytes.length < 2 ^ 31 ∧ p.bytes <:+: delivered (h.stream win).dropLast) := by
  obtain ⟨s, e', -, he', T⟩ := S.track hw
  cases he.symm.trans he'
  have hsearched := S.searched_of_scan hw p.fits (entry_of_getNext hnext).1 hscan
  rw [Buffer.find, if_neg (by rw [S.size_eq]; omega), hnext, ← hsearched.reports_iff hne T]
  simp only [ok_bind, hscan]
  split
  · next hcond => exact ⟨i, rfl, by simp [hcond]⟩
  · next hcond => exact ⟨e, he, by simp [hcond]⟩

/-- A search that returns has built the table and has come to an end. -/
theorem scan_of_find (S : Carries h b win spare content) {p : Payload} {behind : UInt8}
    (hle : p.bytes.length ≤ content.length) {overrun : Overrun} {fuel : ℕ}
    (hfind : b.find overrun fuel h (p.bytes ++ [behind]) p.bytes.length = .ok i) :
    ∃ nextVal x, getNext overrun fuel (p.bytes ++ [behind]) p.bytes.length = .ok nextVal ∧
      b.scan fuel h (p.bytes ++ [behind]) p.bytes.length nextVal = .ok x := by
  rw [Buffer.find, if_neg (by rw [S.size_eq]; omega)] at hfind
  obtain ⟨nextVal, hnext, hfind⟩ := bind_eq_ok hfind
  obtain ⟨x, hscan, -⟩ := bind_eq_ok hfind
  exact ⟨nextVal, x, hnext, hscan⟩

/-- There is no table for a pattern that is searched for. -/
theorem not_tells_of_le (S : Carries h b win spare content) {p : Payload} {behind : UInt8}
    (hne : p.bytes ≠ []) (hle : p.bytes.length ≤ content.length) :
    ¬ Tells .faults h b p behind content := by
  rintro ⟨fuel, e, i, -, hfind, -⟩
  obtain ⟨nextVal, x, hnext, -⟩ := S.scan_of_find hle hfind
  exact getNext_ne_ok (List.length_pos_iff.mpr hne) fuel nextVal hnext

theorem not_tells_of_none (S : Carries h b win spare content)
    (hnone : h.cache b.cacheChain.write = none) (overrun : Overrun) (p : Payload)
    (behind : UInt8) : ¬ Tells overrun h b p behind content := by
  rintro ⟨fuel, e, i, he, -⟩
  cases he.symm.trans (S.iterEnd_of_none hnone)

/-- When the result tells whether the pattern occurs, if the store behind the table is let pass:
there has to be a block at the write node; and if the pattern is not longer than the content, it
must not overlap itself too far, the search must not come to a position without a byte, and an
occurrence has to be one that ends before the last byte the iterator delivers, of a pattern whose
length an `int` can hold. -/
theorem tells_passes_iff (S : Carries h b win spare content) (p : Payload) (behind : UInt8)
    (hne : p.bytes ≠ []) :
    Tells .passes h b p behind content ↔ h.cache b.cacheChain.write ≠ none ∧
      (p.bytes.length ≤ content.length →
        ¬ p.bytes.take (2 ^ 31) <:+: p.bytes.tail ∧
        (none ∉ h.stream win ∨ p.bytes.take (2 ^ 31) <:+: delivered (h.stream win)) ∧
        ((p.bytes.length < 2 ^ 31 ∧ p.bytes <:+: delivered (h.stream win).dropLast) ↔
          p.bytes <:+: content)) := by
  by_cases hw : h.cache b.cacheChain.write = none
  · exact iff_of_false (S.not_tells_of_none hw _ _ _) fun hcond => hcond.1 hw
  rcases Nat.lt_or_ge content.length p.bytes.length with hlt | hge
  · exact iff_of_true (S.tells_of_lt hw hlt _) ⟨hw, fun hle => absurd hle (Nat.not_le.mpr hlt)⟩
  rw [← overlaps_iff hne]
  constructor
  · rintro ⟨fuel, e, i, he, hfind, hiff⟩
    obtain ⟨nextVal, x, hnext, hscan⟩ := S.scan_of_find hge hfind
    obtain ⟨hentries, hover⟩ := entry_of_getNext hnext
    have hsearched := S.searched_of_scan hw p.fits hentries hscan
    obtain ⟨r, hr, hreports⟩ := S.find_of_scan hw hne hge he hnext hscan
    cases hfind.symm.trans hr
    refine ⟨hw, fun _ => ⟨hover, hsearched.readable_iff.mp ⟨x, rfl⟩, ?_⟩⟩
    rw [← hreports, ne_eq, hiff, not_not]
  · rintro ⟨-, hcond⟩
    obtain ⟨hover, hreadable, hiff⟩ := hcond hge
    obtain ⟨s, e, -, he, -⟩ := S.track hw
    obtain ⟨fuel, nextVal, hnext, hsearched⟩ : ∃ fuel nextVal,
        getNext .passes fuel (p.bytes ++ [behind]) _ = .ok nextVal ∧ _ :=
      S.exists_searched hw p.fits hover
    obtain ⟨x, hscan⟩ := hsearched.readable_iff.mpr hreadable
    obtain ⟨r, hr, hreports⟩ := S.find_of_scan hw hne hge he hnext hscan
    refine ⟨fuel, e, r, he, hr, ?_⟩
    rw [← hiff, ← hreports, not_ne_iff]

/-- **When the result tells whether the pattern occurs in the content.**  For every content of a
buffer and every pattern that is not empty: there has to be a block at the write node, and the
pattern has to be longer than the content.  Else the table is built, and stored to behind its end;
if that store is let pass, what remains is the condition of `tells_passes_iff`. -/
theorem find_iff (S : Carries h b win spare content) (p : Payload) (behind : UInt8)
    (hne : p.bytes ≠ []) :
    (Tells .faults h b p behind content ↔
      h.cache b.cacheChain.write ≠ none ∧ content.length < p.bytes.length) ∧
    (Tells .passes h b p behind content ↔ h.cache b.cacheChain.write ≠ none ∧
      (p.bytes.length ≤ content.length →
        ¬ p.bytes.take (2 ^ 31) <:+: p.bytes.tail ∧
        (none ∉ h.stream win ∨ p.bytes.take (2 ^ 31) <:+: delivered (h.stream win)) ∧
        ((p.bytes.length < 2 ^ 31 ∧ p.bytes <:+: delivered (h.stream win).dropLast) ↔
          p.bytes <:+: content))) := by
  refine ⟨⟨fun htells => ⟨?_, ?_⟩, fun hcond => S.tells_of_lt hcond.1 hcond.2 _⟩,
    S.tells_passes_iff p behind hne⟩
  · exact fun hnone => S.not_tells_of_none hnone _ _ _ htells
  · exact Nat.lt_of_not_le fun hle => S.not_tells_of_le hne hle htells

end Carries

end Result

/-- A pattern that is longer than the content of a buffer of one block; and, when the store is let
pass, one at its beginning. -/
theorem find_secondBuffer :
    Tells .faults twoRings secondBuffer ⟨[7, 8, 9], by decide⟩ 0 [7, 8] ∧
      Tells .passes twoRings secondBuffer ⟨[7], by decide⟩ 0 [7, 8] := by
  have S := carries_secondBuffer
  refine ⟨(S.find_iff ⟨[7, 8, 9], by decide⟩ 0 (by simp)).1.mpr ⟨by decide, by decide⟩, ?_⟩
  refine (S.find_iff ⟨[7], by decide⟩ 0 (by simp)).2.mpr ⟨by decide, fun _ => ?_⟩
  exact ⟨by decide, by decide, by decide⟩

/-- A pattern of one byte: its table has one entry, and the second one is stored to.  If that store
is let pass, a pattern at the end of the content is not told from one that does not occur.  In a
buffer that has never held a byte the search follows a null pointer. -/
theorem find_last_byte :
    ¬ Tells .faults twoRings secondBuffer ⟨[8], by decide⟩ 0 [7, 8] ∧
      secondBuffer.find .faults 6 twoRings [8, 0] 1 = .error .outOfBounds ∧
      secondBuffer.find .passes 6 twoRings [8, 0] 1 = secondBuffer.iterEnd twoRings ∧
      ∀ fuel, (Buffer.new Heap.init).2.find .faults fuel (Buffer.new Heap.init).1 [8, 0] 1 =
        .error .nullPointer :=
  ⟨carries_secondBuffer.not_tells_of_le (by simp) (by decide), rfl, rfl, fun _ => rfl⟩

end Hare.Net
