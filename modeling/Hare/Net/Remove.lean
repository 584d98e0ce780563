import Hare.Net.Splice

/-!
# Copying out of a buffer

`Buffer.remove` walks over the window with the caller's array and then drains what it walked
over.  The copy runs in the wrong direction: the bytes of the array go into the blocks, where
the draining discards them, and the array keeps what it held.  Everything else is as intended:
the number returned, the content left and the counted size.
-/

namespace Hare.Net

open LinkedRing LabelledRun Window

variable {h : Heap} {b : Buffer} {win spare : List ℕ} {content dest : List UInt8} {n length : ℕ}

/-- Writing over the beginning of a block and then over what follows it is writing over the
beginning of both. -/
theorem overwrite_append {d r s : List UInt8} {k m : ℕ} (hm : m = min k r.length) :
    d.take m ++ r.drop m ++ ((d.drop m).take (k - m) ++ s.drop (k - m)) =
      d.take k ++ (r ++ s).drop k := by
  rcases le_total k r.length with hk | hk
  · rw [hm, Nat.min_eq_left hk, Nat.sub_self, List.drop_append_of_le_length hk]
    simp
  · rw [hm, Nat.min_eq_right hk, List.drop_length, List.append_nil, ← List.append_assoc,
      ← List.take_add, Nat.add_sub_cancel' hk, List.drop_append, List.drop_of_length_le hk,
      List.nil_append]

/-- One round of the copy loop: the next bytes of the array go into the block. -/
theorem removeLoop_of_lt {p total : ℕ} {c : Cache} (fuel : ℕ) (hp : h.live p = true)
    (hc : h.cache p = some c) (hv : c.Valid) (hlt : total < length) (hdest : length ≤ dest.length) :
    ∃ c', c'.Valid ∧ c'.readable = (dest.drop total).take (min (length - total) c.readableSize) ++
        c.readable.drop (min (length - total) c.readableSize) ∧
      Buffer.removeLoop dest length (fuel + 1) h p total =
        Buffer.removeLoop dest length fuel (h.withCache p c') (h.next p)
          (total + min (length - total) c.readableSize) := by
  have hlen : ((dest.drop total).take (min (length - total) c.readableSize)).length =
      min (length - total) c.readableSize := by
    rw [List.length_take, List.length_drop]
    omega
  obtain ⟨c', hstore, hv', hread⟩ := Cache.store_readable hv (hlen.trans_le (min_le_right _ _))
  rw [hlen] at hread
  refine ⟨c', hv', hread, ?_⟩
  have hin : ¬ dest.length < total + min (length - total) c.readableSize := by omega
  have hp' : (h.withCache p c').live p = true := hp
  rw [Buffer.removeLoop, if_pos hlt, Heap.block_of_cache hp hc]
  simp only [ok_bind, if_neg hin, hstore, Heap.setCache_of_live hp, Heap.getNext_of_live hp']
  rfl

/-- The copy loop puts the array in front of what the blocks keep. -/
theorem removeLoop_spec (hdest : length ≤ dest.length) :
    ∀ {ns : List ℕ} {h : Heap} {p total fuel : ℕ}, ns.length ≤ fuel → (∀ q ∈ ns.head?, q = p) →
      ns.Nodup → Linked h.next h.prev ns → (∀ q ∈ ns, h.live q = true) →
      (∀ q ∈ ns, ∃ c, h.cache q = some c ∧ c.Valid) →
      total ≤ length → length - total ≤ (h.content ns).length →
      ∃ f, Buffer.removeLoop dest length (fuel + 1) h p total = .ok { h with cache := f } ∧
        (∀ q, q ∉ ns → f q = h.cache q) ∧ (∀ q ∈ ns, ∃ c, f q = some c ∧ c.Valid) ∧
        Heap.content { h with cache := f } ns =
          (dest.drop total).take (length - total) ++ (h.content ns).drop (length - total) := by
  intro ns
  induction ns with
  | nil =>
      intro h p total fuel _ _ _ _ _ _ hle htotal
      have hzero : length - total = 0 := by simpa using htotal
      have hend : ¬ total < length := by omega
      refine ⟨h.cache, by rw [Buffer.removeLoop, if_neg hend]; rfl, fun _ _ => rfl, by simp, ?_⟩
      simp [hzero]
  | cons r ns ih =>
      intro h p total fuel hfuel hfirst hd hlink hlive hblock hle htotal
      obtain rfl : r = p := hfirst r rfl
      by_cases hend : total < length
      · obtain ⟨c, hc, hv⟩ := hblock r List.mem_cons_self
        have hr := hlive r List.mem_cons_self
        obtain ⟨hnot, hd'⟩ := List.nodup_cons.mp hd
        obtain ⟨fuel, rfl⟩ : ∃ k, fuel = k + 1 := ⟨fuel - 1, by simp at hfuel; omega⟩
        obtain ⟨c', hv', hread, hround⟩ := removeLoop_of_lt (fuel + 1) hr hc hv hend hdest
        have hother : ∀ q, q ≠ r → (h.withCache r c').cache q = h.cache q := fun q hq => by
          simp [Heap.withCache, hq]
        have hne : ∀ q ∈ ns, q ≠ r := fun q hq hqr => hnot (hqr ▸ hq)
        have hrest : (h.withCache r c').content ns = h.content ns :=
          Heap.content_congr fun q hq => hother q (hne q hq)
        have hlen := hv.length_readable
        have hcontent : h.content (r :: ns) = c.readable ++ h.content ns := by
          rw [Heap.content_cons, Heap.readable_of_cache hc]
        rw [hcontent, List.length_append, hlen] at htotal
        have hle' : total + min (length - total) c.readableSize ≤ length := by omega
        obtain ⟨f, hrun, hout, hin, hf⟩ := ih (h := h.withCache r c') (p := h.next r)
          (by simpa using hfuel)
          (fun q hq => (List.isChain_cons.mp hlink).1 q hq |>.1.symm) hd'
          (List.isChain_cons.mp hlink).2
          (fun q hq => hlive q (List.mem_cons_of_mem r hq))
          (fun q hq => by
            rw [hother q (hne q hq)]
            exact hblock q (List.mem_cons_of_mem r hq))
          hle' (by rw [hrest]; omega)
        have hfr : f r = some c' := by
          rw [hout r hnot]
          simp [Heap.withCache]
        refine ⟨f, hround.trans hrun, ?_, ?_, ?_⟩
        · intro q hq
          rw [hout q fun h => hq (List.mem_cons_of_mem r h),
            hother q fun h => hq (h ▸ List.mem_cons_self)]
        · intro q hq
          rcases List.mem_cons.mp hq with rfl | hq
          · exact ⟨c', hfr, hv'⟩
          · exact hin q hq
        · have hf' : Heap.content { h with cache := f } ns = _ := hf
          rw [Heap.content_cons, Heap.readable_of_cache hfr, hread, hf', hrest, hcontent,
            ← List.drop_drop, ← Nat.sub_sub]
          exact overwrite_append (by rw [hlen])
      · have hzero : length - total = 0 := by omega
        refine ⟨h.cache, by rw [Buffer.removeLoop, if_neg hend]; rfl, fun _ _ => rfl, hblock, ?_⟩
        simp only [hzero, List.take_zero, List.drop_zero, List.nil_append]

namespace Carries

/-- The copy loop puts the array over the front of the content. -/
theorem removeLoop_carries {k : ℕ} (S : Carries h b win spare content) (hne : content ≠ [])
    (hk : k ≤ content.length) (hdest : k ≤ dest.length) :
    ∃ h', Buffer.removeLoop dest k (h.brk + 1) h b.cacheChain.read 0 = .ok h' ∧
      Carries h' b win spare (dest.take k ++ content.drop k) ∧
      Exchange h h' (win ++ spare) (win ++ spare) := by
  have W := S.chain.window
  obtain ⟨f, hloop, hout, hin, hf⟩ := removeLoop_spec hdest W.length_le_brk
    (fun q hq => Option.some.inj (hq.symm.trans W.first)) W.nodup W.linked W.live
    (fun p hp => by
      obtain ⟨c, hc⟩ := S.blocks p hp (Or.inr hne)
      exact ⟨c, hc, W.valid p hp c hc⟩)
    (Nat.zero_le k) (by rw [S.content_eq]; exact hk)
  rw [S.content_eq, Nat.sub_zero, List.drop_zero] at hf
  refine ⟨_, hloop, ⟨S.chain.recache ?_ ?_, hf, ?_, fun p hp _ => (hin p hp).imp fun _ h => h.1⟩,
    .recache (fun p => S.chain.live_of_mem) fun p hp =>
      hout p fun hw => hp (List.mem_append_left spare hw)⟩
  · intro p hp c hc
    obtain ⟨d, hd, hv⟩ := hin p hp
    exact Option.some.inj (hd.symm.trans hc) ▸ hv
  · intro p hp c hc
    rw [hout p fun hw => (List.nodup_append.mp S.chain.nodup).2.2 p hw p hp rfl] at hc
    exact S.chain.cleared p hp c hc
  · rw [S.size_eq, List.length_append, List.length_take, List.length_drop]
    omega

/-- Draining takes the front off the content. -/
theorem drain_spec (S : Carries h b win spare content) (hne : content ≠ [])
    (hn : n ≤ content.length) :
    ∃ h' l' win' spare', b.cacheChain.drain h n = .ok (h', l') ∧
      Carries h' ⟨l', b.totalLen - n⟩ win' spare' (content.drop n) ∧
      Exchange h h' (win ++ spare) (win' ++ spare') ∧ l'.head = b.cacheChain.head := by
  obtain ⟨h', idx, post, kept, dead, hrun, D⟩ := S.chain.window.drain_spec
    (fun p hp => S.blocks p hp (Or.inr hne)) (S.content_eq ▸ hn)
  refine ⟨h', _, _, _, hrun, ⟨D.chain S.chain, ?_, ?_, fun p hp _ => D.blocks p hp⟩,
    D.exchange S.chain, rfl⟩
  · rw [D.content, S.content_eq]
  · rw [S.size_eq, List.length_drop]

/-- What the call does: all that is intended, except that the caller's array stays as it
was. -/
theorem remove_spec (S : Carries h b win spare content)
    (hdest : min n content.length ≤ dest.length) :
    ∃ h' b' win' spare', b.remove h dest n = .ok (min n content.length, dest, h', b') ∧
      Carries h' b' win' spare' (content.drop (min n content.length)) ∧
      Exchange h h' (win ++ spare) (win' ++ spare') ∧
      b'.cacheChain.head = b.cacheChain.head := by
  have hsize := S.size_eq
  by_cases hzero : n = 0 ∨ b.totalLen = 0
  · have hk : min n content.length = 0 := by omega
    refine ⟨h, b, win, spare, ?_, ?_, .same (fun p => S.chain.live_of_mem) fun _ => Iff.rfl, rfl⟩
    · rw [Buffer.remove, if_pos hzero, hk]
    · rwa [hk, List.drop_zero]
  have hne : content ≠ [] := by
    rintro rfl
    exact hzero (Or.inr hsize)
  have hk : (if n > b.totalLen then b.totalLen else n) = min n content.length := by
    rw [hsize]
    split <;> omega
  have htake : (dest.take (min n content.length)).length = min n content.length := by
    rw [List.length_take]
    omega
  obtain ⟨h₁, hloop, S₁, E₁⟩ := S.removeLoop_carries hne (min_le_right n content.length) hdest
  have hlen := S₁.size_eq
  -- the blocks hold the array now, in front of what is left
  obtain ⟨h', l', win', spare', hdrain, S', E, hhead⟩ := S₁.drain_spec (n := min n content.length)
    (fun hnil => by rw [hnil, List.length_nil] at hlen; omega) (by omega)
  rw [List.drop_left' htake] at S'
  refine ⟨h', _, win', spare', ?_, S', E₁.trans E, hhead⟩
  rw [Buffer.remove, if_neg hzero, hk]
  simp only [hloop, ok_bind, hdrain]
  rfl

end Carries

/-- What `remove` is meant to do: return the number `k` of bytes, put the first `k` bytes of the
content into the array and nothing behind them, and leave the rest of the content. -/
def Delivers (h : Heap) (b : Buffer) (content dest : List UInt8) (n : ℕ) : Prop :=
  ∃ h' b' win' spare', b.remove h dest n = .ok (min n content.length,
      content.take (min n content.length) ++ dest.drop (min n content.length), h', b') ∧
    Carries h' b' win' spare' (content.drop (min n content.length))

/-- **Copying out** delivers exactly when the array already holds what is to be delivered. -/
theorem delivers_iff (S : Carries h b win spare content)
    (hdest : min n content.length ≤ dest.length) :
    Delivers h b content dest n ↔
      dest.take (min n content.length) = content.take (min n content.length) := by
  obtain ⟨h', b', win', spare', hrun, S', -, -⟩ := S.remove_spec hdest
  constructor
  · rintro ⟨h'', b'', win'', spare'', hrun', -⟩
    rw [hrun, Except.ok.injEq, Prod.mk.injEq, Prod.mk.injEq] at hrun'
    have htake := congrArg (List.take (min n content.length)) hrun'.2.1
    rw [htake, List.take_left']
    rw [List.length_take]
    omega
  · intro htake
    refine ⟨h', b', win', spare', ?_, S'⟩
    rw [hrun, ← htake, List.take_append_drop]

/-- An array that holds the bytes already. -/
theorem delivers_iff_firstBuffer : Delivers twoRings firstBuffer [2, 3, 4, 5, 6] [2, 3, 4] 3 :=
  (delivers_iff carries_firstBuffer (by decide)).mpr (by decide)

/-- Four bytes are removed across a block boundary and the array does not change. -/
theorem remove_copies_nothing : Carries twoRings firstBuffer [0, 1] [2] [2, 3, 4, 5, 6] ∧
    ¬ Delivers twoRings firstBuffer [2, 3, 4, 5, 6] [0, 0, 0, 0] 4 := by
  refine ⟨carries_firstBuffer, ?_⟩
  rintro ⟨h', b', win', spare', hrun, -⟩
  have hdest : (firstBuffer.remove twoRings [0, 0, 0, 0] 4).map (fun r => r.2.1) =
      .ok [0, 0, 0, 0] := by decide
  rw [hrun] at hdest
  simp [Except.map] at hdest

end Hare.Net
