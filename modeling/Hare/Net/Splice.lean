import Hare.Net.Chain

/-!
# Taking chains apart and joining them

Draining turns nodes of the window into spares or deletes them, `CacheList.reset` shrinks
a ring to its `head`, and `CacheList.append` splices the window of one chain behind the
window of another.

The splice closes a ring over the two windows whatever stood between `write` and `read` of
the first chain before: its spares are not on the new ring.  The spares of the second
chain become its new ring.
-/

namespace Hare.Net

open LinkedRing LabelledRun Window

variable {h h' : Heap} {l l' : CacheList} {b : Buffer} {win spare : List ℕ}
  {content : List UInt8}

/-! ## Draining -/

section Drain
variable {n idx : ℕ} {post kept dead : List ℕ}

/-- The nodes passed and not deleted join the spares. -/
theorem Window.Drained.chain (D : Drained h l win n h' idx post kept dead)
    (C : Chain h l win spare) :
    Chain h' (l.trimmed idx dead.length) (idx :: post)
      (spare ++ kept) := by
  have hring := D.ring spare C.ring
  rw [List.append_assoc] at hring
  have hd := C.nodup
  rw [D.split] at hd
  have hsep : ∀ p ∈ spare, p ∉ win := fun p hp hw =>
    (List.nodup_append.mp C.nodup).2.2 p hw p hp rfl
  refine ⟨D.window, hring, ?_, ?_, ?_⟩
  · intro p hp
    rw [D.live]
    rcases List.mem_append.mp hp with hp | hp
    · exact ⟨C.live p hp, fun h => hsep p hp (by rw [D.split]; simp [h])⟩
    · refine ⟨C.window.live p (by rw [D.split]; simp [hp]), fun h => ?_⟩
      have hkd := (List.nodup_append.mp (List.nodup_append.mp (List.nodup_append.mp hd).1).1).2.2
      exact hkd p hp p h rfl
  · intro p hp c hc
    rcases List.mem_append.mp hp with hp | hp
    · have hpw := hsep p hp
      rw [D.split] at hpw
      rw [D.cache_other p (fun h => hpw (List.mem_append_left _ h))
        (fun h => hpw (by simp [h]))] at hc
      exact C.cleared p hp c hc
    · obtain ⟨d, hd, hv, hs⟩ := D.cleared p hp
      rw [hd] at hc
      cases hc
      exact ⟨hv, hs⟩
  · have hcount := C.count
    rw [D.split] at hcount
    simp only [List.length_append, List.length_cons] at hcount ⊢
    rw [CacheList.trimmed_nodeSize, sizeSub_of_le (by omega)]
    omega

/-- Draining exchanges the ring for itself without the deleted nodes. -/
theorem Window.Drained.exchange (D : Drained h l win n h' idx post kept dead)
    (C : Chain h l win spare) : Exchange h h' (win ++ spare) (idx :: post ++ (spare ++ kept)) := by
  have hin : ∀ p, p ∈ idx :: post ++ (spare ++ kept) ↔ p ∈ win ++ spare ∧ p ∉ dead := by
    have hd := C.nodup
    rw [D.split] at hd ⊢
    intro p
    constructor
    · intro hp
      refine ⟨by simp only [List.mem_append, List.mem_cons] at hp ⊢; tauto, fun hdead => ?_⟩
      have hperm : (dead ++ (idx :: post ++ (spare ++ kept))).Nodup := by
        refine (List.Perm.nodup_iff ?_).mp hd
        simp only [List.perm_iff_count, List.count_append, List.count_cons]
        intro a
        omega
      exact (List.nodup_append.mp hperm).2.2 p hdead p hp rfl
    · rintro ⟨hp, hdead⟩
      simp only [List.mem_append, List.mem_cons] at hp ⊢
      tauto
  have hout : ∀ p, p ∉ win ++ spare → p ∉ win := fun p hp hw => hp (List.mem_append_left _ hw)
  refine .of_dead dead D.live (fun p hp => C.live_of_mem hp) ?_ hin
    (fun p hp => D.next_other p (hout p hp)) (fun p hp => D.prev_other p (hout p hp)) ?_ D.brk
  · intro p hp
    rw [D.split]
    simp [hp]
  · intro p hp
    have hw := hout p hp
    rw [D.split] at hw
    exact D.cache_other p (fun h => hw (List.mem_append_left _ h)) (fun h => hw (by simp [h]))

/-- **Draining a closed chain** takes exactly the first `n` bytes, whatever the blocks they
are in: the rest is the content of a closed chain again, and a deleted node held none of it. -/
theorem Chain.drain_takes_front (C : Chain h l win spare)
    (hblock : ∀ p ∈ win, ∃ c, h.cache p = some c) (hn : n ≤ (h.content win).length) :
    ∃ h' l' win' spare', l.drain h n = .ok (h', l') ∧ Chain h' l' win' spare' ∧
      h'.content win' = (h.content win).drop n ∧
      Exchange h h' (win ++ spare) (win' ++ spare') ∧
      ∀ p, h.live p = true → h'.live p = false →
        ∃ as bs, win = as ++ p :: bs ∧ (h.content (as ++ [p])).length ≤ n := by
  obtain ⟨h', idx, post, kept, dead, hrun, D⟩ := C.window.drain_spec hblock hn
  refine ⟨h', _, _, _, hrun, D.chain C, D.content, D.exchange C, fun p hp hp' => ?_⟩
  have hdead : p ∈ dead := by
    by_contra hnot
    rw [(D.live p).mpr ⟨hp, hnot⟩] at hp'
    cases hp'
  obtain ⟨ds, bs, hwin, -, hle⟩ := D.covered hdead
  exact ⟨_, bs, hwin, hle⟩

/-- Four bytes of five, across a block boundary. -/
theorem drain_firstBuffer : ∃ h' l' win' spare',
    firstBuffer.cacheChain.drain twoRings 4 = .ok (h', l') ∧ Chain h' l' win' spare' ∧
      h'.content win' = [6] := by
  obtain ⟨h', l', win', spare', hrun, C, hcontent, -, -⟩ :=
    carries_firstBuffer.chain.drain_takes_front (n := 4)
      (fun p hp => carries_firstBuffer.blocks p hp (Or.inr (by simp))) (by decide)
  exact ⟨h', l', win', spare', hrun, C, hcontent.trans (by decide)⟩

/-- **Draining a buffer** that has content. -/
theorem Holds.drain_spec (H : Holds h b win content) (hne : content ≠ [])
    (hn : n ≤ b.totalLen) :
    ∃ h' idx post kept dead,
      b.cacheChain.drain h n = .ok (h', b.cacheChain.trimmed idx dead.length) ∧
      Drained h b.cacheChain win n h' idx post kept dead ∧
      Holds h' ⟨b.cacheChain.trimmed idx dead.length, b.totalLen - n⟩ (idx :: post)
        (content.drop n) := by
  obtain ⟨h', idx, post, kept, dead, hrun, D⟩ :=
    H.window.drain_spec (fun p hp => H.block hne hp)
      (H.content_eq ▸ hn.trans H.size_le : n ≤ (h.content win).length)
  refine ⟨h', idx, post, kept, dead, hrun, D, D.window, ?_, ?_, ?_⟩
  · rw [D.content, H.content_eq]
  · have hsize := H.size_eq
    rw [List.length_drop]
    simp only at hsize ⊢
    omega
  · have hlast := D.window.last
    cases post with
    | nil =>
        simp only [List.getLast?_singleton, Option.some.injEq] at hlast
        exact Or.inl (congrArg (fun p => [p]) hlast)
    | cons q post =>
        have hall : ∀ p ∈ win, h.readable p ≠ [] := by
          refine H.blocks.resolve_left fun hwin => ?_
          have hlen := congrArg List.length (D.split.symm.trans hwin)
          simp only [List.length_append, List.length_cons, List.length_nil] at hlen
          omega
        refine Or.inr fun p hp => ?_
        by_cases hpi : p = idx
        · rw [hpi]
          exact D.stop (by simp) hall
        · have hd := H.window.nodup
          rw [D.split] at hd
          have hpre : p ∉ kept ++ dead := fun h => (List.nodup_append.mp hd).2.2 p h p hp rfl
          rw [Heap.readable, D.cache_other p hpre hpi]
          exact hall p (by rw [D.split]; exact List.mem_append_right _ hp)

/-! ## Writing -/

/-- What one write offers: the first bytes of the first blocks. -/
theorem Holds.offer_spec (H : Holds h b win content) (howmuch : ℕ) :
    ∃ iov, b.offer h howmuch = .ok iov ∧ iov.flatten =
      (h.content (win.take numWriteIovec)).take
        (if howmuch = 0 then b.totalLen else min howmuch b.totalLen) :=
  H.window.offer_spec (fun hne _ => H.block (H.ne_nil_of_size hne)) (H.content_eq ▸ H.size_le)
    howmuch

/-- What is offered is a beginning of the content, within the counted size. -/
theorem Holds.offer_prefix (H : Holds h b win content) {howmuch : ℕ} {iov : List (List UInt8)}
    (ho : b.offer h howmuch = .ok iov) :
    iov.flatten <+: content ∧ iov.flatten.length ≤ b.totalLen := by
  obtain ⟨iov', ho', hflat⟩ := H.offer_spec howmuch
  rw [ho] at ho'
  cases ho'
  constructor
  · rw [hflat, ← H.content_eq]
    refine (List.take_prefix _ _).trans ?_
    conv_rhs => rw [← List.take_append_drop numWriteIovec win, Heap.content_append]
    exact List.prefix_append _ _
  · rw [hflat, List.length_take]
    split_ifs <;> omega

/-- What is taken was there. -/
theorem Holds.ne_nil_of_taken (H : Holds h b win content) {howmuch accept : ℕ}
    {iov : List (List UInt8)} (ho : b.offer h howmuch = .ok iov)
    (hne : iov.flatten.take accept ≠ []) : content ≠ [] := by
  rintro rfl
  rw [List.prefix_nil.mp (H.offer_prefix ho).1] at hne
  simp at hne

/-- **Writing** drains what the socket took. -/
theorem Holds.write_spec (H : Holds h b win content) {howmuch accept : ℕ}
    {iov : List (List UInt8)} (ho : b.offer h howmuch = .ok iov)
    (hne : iov.flatten.take accept ≠ []) :
    ∃ h' idx post kept dead, b.write h howmuch accept = .ok (iov.flatten.take accept, h',
        ⟨b.cacheChain.trimmed idx dead.length,
          b.totalLen - (iov.flatten.take accept).length⟩) ∧
      Drained h b.cacheChain win (iov.flatten.take accept).length h' idx post kept dead ∧
      Holds h' ⟨b.cacheChain.trimmed idx dead.length,
        b.totalLen - (iov.flatten.take accept).length⟩ (idx :: post)
        (content.drop (iov.flatten.take accept).length) := by
  obtain ⟨h', idx, post, kept, dead, hrun, D, H'⟩ :=
    H.drain_spec (n := (iov.flatten.take accept).length) (H.ne_nil_of_taken ho hne)
      ((List.length_take_le' _ _).trans (H.offer_prefix ho).2)
  refine ⟨h', idx, post, kept, dead, ?_, D, H'⟩
  rw [Buffer.write, ho]
  simp only [ok_bind, if_neg hne, hrun]
  rfl

/-- Nothing happens when the socket takes nothing. -/
theorem Buffer.write_of_nil {howmuch accept : ℕ} {iov : List (List UInt8)}
    (ho : b.offer h howmuch = .ok iov) (hnil : iov.flatten.take accept = []) :
    b.write h howmuch accept = .ok ([], h, b) := by
  rw [Buffer.write, ho]
  simp only [ok_bind, if_pos hnil, pure_eq_ok]

/-- Draining `n` bytes deletes `head`: the chain is long enough for the clean-up, and `head`
stands between the first and the last node of the window with all its bytes among the
`n`. -/
def TrimsHead (h : Heap) (l : CacheList) (n : ℕ) : Prop :=
  l.nodeSize > maxChinaSize ∧ ∃ as bs, l.walk h = .ok (as ++ l.head :: bs) ∧
    as ≠ [] ∧ bs ≠ [] ∧ (h.content (as ++ [l.head])).length ≤ n

/-- The clean-up deletes `head` exactly when `TrimsHead` says so. -/
theorem Window.Drained.head_mem_dead_iff (D : Drained h b.cacheChain win n h' idx post kept dead)
    (H : Holds h b win content) (hne : content ≠ []) :
    b.cacheChain.head ∈ dead ↔ TrimsHead h b.cacheChain n := by
  rw [D.mem_dead_iff H.window.nodup fun q hq => H.readable_ne hne hq, TrimsHead,
    H.window.walk_eq]
  simp only [Except.ok.injEq]

/-- Draining nothing deletes nothing. -/
theorem Holds.not_trimsHead_zero (H : Holds h b win content) : ¬ TrimsHead h b.cacheChain 0 := by
  rintro ⟨-, as, bs, hwalk, hne, hbs, hle⟩
  rw [H.window.walk_eq, Except.ok.injEq] at hwalk
  have hall : ∀ p ∈ win, h.readable p ≠ [] := by
    refine H.blocks.resolve_left fun hwin => ?_
    have hlen := congrArg List.length (hwalk.symm.trans hwin)
    have hpos := List.length_pos_iff.mpr hne
    simp only [List.length_append, List.length_cons, List.length_nil] at hlen
    omega
  refine hall b.cacheChain.head (by simp [hwalk]) ?_
  have hnil := List.length_eq_zero_iff.mp (Nat.le_zero.mp hle)
  rw [Heap.content_append] at hnil
  simpa using (List.append_eq_nil_iff.mp hnil).2

end Drain

/-! ## Resetting -/

/-- Clearing the block of a node, if it has one. -/
theorem Heap.clear_spec {p : ℕ} (hp : h.live p = true)
    (hv : ∀ c, h.cache p = some c → c.Valid) :
    ∃ h', (match h.cache p with
        | some c => h.setCache p c.clear
        | none => .ok h) = Except.ok h' ∧
      h'.live = h.live ∧ h'.next = h.next ∧ h'.prev = h.prev ∧ h'.brk = h.brk ∧
      (∀ c, h'.cache p = some c → c.Valid ∧ c.size = 0) ∧
      ∀ q, q ≠ p → h'.cache q = h.cache q := by
  cases hc : h.cache p with
  | none => exact ⟨h, rfl, rfl, rfl, rfl, rfl, by simp [hc], fun _ _ => rfl⟩
  | some c =>
      refine ⟨_, Heap.setCache_of_live hp, rfl, rfl, rfl, rfl, ?_, ?_⟩
      · intro d hd
        simp only [Heap.withCache, Function.update_self, Option.some.injEq] at hd
        exact hd ▸ ⟨Cache.valid_clear (hv c hc), rfl⟩
      · intro q hq
        simp [Heap.withCache, hq]

/-- **Resetting** a chain whose `head` is on its ring: every other node is deleted. -/
theorem Chain.reset_spec (C : Chain h l win spare) (hhead : l.head ∈ win ++ spare) :
    ∃ h', l.reset h = .ok (h', ⟨l.head, l.head, l.head, 1⟩) ∧
      Chain h' ⟨l.head, l.head, l.head, 1⟩ [l.head] [] ∧ h'.readable l.head = [] ∧
      Exchange h h' (win ++ spare) [l.head] := by
  obtain ⟨ms, hring, hmem⟩ := C.ring.exists_from hhead
  have hlive : ∀ p ∈ l.head :: ms, h.live p = true := fun p hp =>
    C.live_of_mem ((hmem p).mp hp)
  have hlen := Heap.length_le_brk hring.nodup hlive
  obtain ⟨hnot, -⟩ := List.nodup_cons.mp hring.nodup
  have hds : (ms ++ [l.head]).Nodup := List.nodup_append_comm.mp hring.nodup
  obtain ⟨h₁, hrun, U⟩ := unlinkLoop_spec (h := h) h.brk 0
    (by simp only [List.length_cons] at hlen; omega) hring.nodup hds hring.linked_around
    (fun p hp => hlive p (by simp only [List.mem_cons, List.mem_append] at hp ⊢; tauto))
  have hhl : h₁.live l.head = true := (U.live l.head).mpr ⟨hlive _ List.mem_cons_self, hnot⟩
  have hone : Ring h₁.next h₁.prev [l.head] := ring_singleton.mpr ⟨U.next_first, U.prev_stop⟩
  obtain ⟨h₂, hclear, hl₂, hn₂, hp₂, hb₂, hc₂, hold₂⟩ := Heap.clear_spec hhl
    fun c hc => C.valid_of_mem hhead (by rw [← U.cache, hc])
  have hhl₂ : h₂.live l.head = true := by rw [hl₂, hhl]
  refine ⟨h₂, ?_, ⟨⟨rfl, rfl, List.nodup_singleton _, linked_singleton _, ?_, ?_⟩, ?_, by simp,
    by simp, rfl⟩, Heap.readable_of_size hc₂, ?_⟩
  · rw [CacheList.reset, hrun]
    simp only [ok_bind, Heap.getCache_of_live hhl]
    cases hc : h₁.cache l.head with
    | none =>
        rw [hc] at hclear
        cases hclear
        rfl
    | some c =>
        rw [hc] at hclear
        simp only at hclear
        simp [hclear]
  · intro p hp
    rw [List.mem_singleton.mp hp, hhl₂]
  · intro p hp c hc
    rw [List.mem_singleton.mp hp] at hc
    exact (hc₂ c hc).1
  · rw [List.append_nil, hn₂, hp₂]
    exact hone
  · have hne : ∀ p, p ∉ win ++ spare → p ≠ l.head := fun p hp h => hp (h ▸ hhead)
    have hdead : ∀ p ∈ ms, p ∈ win ++ spare := fun p hp =>
      (hmem p).mp (List.mem_cons_of_mem _ hp)
    refine .of_dead ms (by rw [hl₂]; exact U.live) (fun p hp => C.live_of_mem hp) hdead
      ?_ ?_ ?_ ?_ (by rw [hb₂, U.brk])
    · intro p
      rw [← hmem p, List.mem_singleton, List.mem_cons]
      constructor
      · rintro rfl
        exact ⟨Or.inl rfl, hnot⟩
      · rintro ⟨hp | hp, hm⟩
        · exact hp
        · exact absurd hp hm
    · intro p hp
      rw [hn₂, U.next_other p (hne p hp)]
    · intro p hp
      rw [hp₂, U.prev_other p (fun hm => hp (hdead p hm)) (hne p hp)]
    · intro p hp
      rw [hold₂ p (hne p hp), U.cache]

/-- Resetting a chain whose `head` has been deleted touches a deleted node. -/
theorem CacheList.reset_of_dead (hhead : h.live l.head = false) (hbrk : 0 < h.brk) :
    l.reset h = .error .useAfterFree := by
  obtain ⟨n, hn⟩ : ∃ n, h.brk = n + 1 := ⟨h.brk - 1, by omega⟩
  rw [CacheList.reset, hn, CacheList.unlinkLoop]
  simp [Heap.getNext, Heap.deref, hhead]

/-- The unlinking loop started outside a ring goes once around it, and comes to a node it has
deleted. -/
theorem unlinkLoop_of_lost {first z : ℕ} : ∀ {ns : List ℕ} {h : Heap} (fuel count : ℕ),
    ns.length < fuel → (first :: ns).Nodup → Route h.next (h.next first) ns z →
    (∀ p ∈ first :: ns, h.live p = true) → (h.live z = false ∨ z ∈ ns) →
    CacheList.unlinkLoop first first fuel h count = .error .useAfterFree := by
  intro ns
  induction ns with
  | nil =>
      intro h fuel count hfuel _ hroute hlive hz
      obtain ⟨fuel, rfl⟩ : ∃ k, fuel = k + 1 := ⟨fuel - 1, by simp at hfuel; omega⟩
      have hfirst := hlive first List.mem_cons_self
      have hdead : h.live z = false := hz.resolve_right List.not_mem_nil
      have hne : z ≠ first := fun heq => by simp [heq, hfirst] at hdead
      have hnext : h.next first = z := hroute
      have hget : h.getNext z = .error .useAfterFree := by simp [Heap.getNext, Heap.deref, hdead]
      rw [CacheList.unlinkLoop, Heap.getNext_of_live hfirst, hnext]
      simp only [ok_bind, if_neg hne, hget, error_bind]
  | cons d ns ih =>
      intro h fuel count hfuel hnodup hroute hlive hz
      obtain ⟨fuel, rfl⟩ : ∃ k, fuel = k + 1 := ⟨fuel - 1, by simp at hfuel; omega⟩
      obtain ⟨hfd, hrest⟩ := hroute
      obtain ⟨hnot, hnodup'⟩ := List.nodup_cons.mp hnodup
      obtain ⟨hfirstd, hfirst⟩ := not_or.mp (List.mem_cons.not.mp hnot)
      have hlf := hlive first List.mem_cons_self
      have hld := hlive d (by simp)
      cases hnx : h.live (h.next d) with
      | false =>
          have hset : h.setPrev (h.next d) first = .error .useAfterFree := by
            simp [Heap.setPrev, Heap.deref, hnx]
          rw [CacheList.unlinkLoop, Heap.getNext_of_live hlf, hfd]
          simp only [ok_bind, if_neg (Ne.symm hfirstd), Heap.getNext_of_live hld, hset, error_bind]
      | true =>
          rw [unlinkLoop_step hlf hld hnx hfd rfl (Ne.symm hfirstd)]
          refine ih fuel (count + 1) (by simpa using hfuel)
            (List.nodup_cons.mpr ⟨hfirst, (List.nodup_cons.mp hnodup').2⟩) ?_ ?_ ?_
          · rw [next_unlink, Function.update_self]
            refine hrest.congr fun x hx => ?_
            have hxf : x ≠ first := fun heq => hfirst (heq ▸ hx)
            exact Function.update_of_ne hxf _ _
          · intro p hp
            rw [live_unlink]
            refine ⟨hlive p ?_, ?_⟩
            · simp only [List.mem_cons] at hp ⊢
              tauto
            · rintro rfl
              rcases List.mem_cons.mp hp with heq | hp
              · exact hfirstd heq.symm
              · exact (List.nodup_cons.mp hnodup').1 hp
          · have hdead : ∀ p, (unlink h first d (h.next d)).live p = false ↔
                h.live p = false ∨ p = d := by
              intro p
              rw [Bool.eq_false_iff, ne_eq, live_unlink]
              simp only [not_and_or, Bool.not_eq_true, not_not, ne_eq]
            rcases hz with hz | hz
            · exact Or.inl ((hdead z).mpr (Or.inl hz))
            · rcases List.mem_cons.mp hz with rfl | hz
              · exact Or.inl ((hdead z).mpr (Or.inr rfl))
              · exact Or.inr hz

/-- Resetting a chain whose `head` leads into a ring it is not on touches a deleted node. -/
theorem CacheList.reset_of_lost {ns : List ℕ} {z : ℕ} (hd : (l.head :: ns).Nodup)
    (hroute : Route h.next (h.next l.head) ns z) (hlive : ∀ p ∈ l.head :: ns, h.live p = true)
    (hz : z ∈ ns) : l.reset h = .error .useAfterFree := by
  have hlen := Heap.length_le_brk hd hlive
  rw [CacheList.reset, unlinkLoop_of_lost h.brk 0 hlen hd hroute hlive
    (Or.inr hz)]
  rfl

/-- **Destroying** a buffer whose `head` is on its ring deletes every node of the ring. -/
theorem Chain.destroy_spec (C : Chain h b.cacheChain win spare)
    (hhead : b.cacheChain.head ∈ win ++ spare) :
    ∃ h', b.destroy h = .ok h' ∧ Exchange h h' (win ++ spare) [] := by
  obtain ⟨h₁, hrun, C₁, -, E⟩ := C.reset_spec hhead
  have hl := C₁.window.live _ List.mem_cons_self
  refine ⟨h₁.without b.cacheChain.head, ?_, E.trans ⟨?_, by simp, ?_, ?_, ?_, le_rfl⟩⟩
  · simp [Buffer.destroy, hrun, Heap.free_of_live hl]
  · intro p
    by_cases hp : p = b.cacheChain.head <;> simp [Heap.without, hp]
  all_goals exact fun p _ _ => rfl

/-! ## Joining -/

/-- What `CacheList.append` does: the two windows form one ring; the spares of the second
chain, or a new node when there are none, are what is left of it. -/
structure Spliced (h : Heap) (l other : CacheList) (wa wb sb : List ℕ) (h' : Heap)
    (l' other' : CacheList) (sb' : List ℕ) : Prop where
  list : l' = { l with write := other.write, nodeSize := l.nodeSize + wb.length }
  window : Window h' l' (wa ++ wb)
  ring : Ring h'.next h'.prev (wa ++ wb)
  cache : ∀ p ∈ wa ++ wb, h'.cache p = h.cache p
  rest : Chain h' other' [other'.write] sb'
  empty : h'.readable other'.write = []
  head : other'.head = other'.write
  spares : ∀ p ∈ sb, p ∈ other'.write :: sb'
  apart : ∀ p ∈ wa ++ wb, p ∉ other'.write :: sb'
  frame : Exchange h h' (wa ++ wb ++ sb) (wa ++ wb ++ other'.write :: sb')

/-- The heap after the four assignments that join the windows. -/
def joined (h : Heap) (l other : CacheList) : Heap :=
  (((h.withNext l.write other.read).withPrev other.read l.write).withPrev l.read
    other.write).withNext other.write l.read

section Append
variable {other : CacheList} {wa wb sb : List ℕ}

theorem ring_joined (A : Window h l wa) (B : Window h other wb) (hd : (wa ++ wb).Nodup) :
    Ring (joined h l other).next (joined h l other).prev (wa ++ wb) :=
  Ring.splice hd A.linked B.linked A.first A.last B.first B.last

/-- Outside the two windows the joining changes nothing. -/
theorem joined_of_not_mem (A : Window h l wa) (B : Window h other wb) {p : ℕ}
    (hp : p ∉ wa ++ wb) :
    (joined h l other).next p = h.next p ∧ (joined h l other).prev p = h.prev p := by
  obtain ⟨ha, hb⟩ := not_or.mp (List.mem_append.not.mp hp)
  have h₁ : p ≠ l.write := fun h => ha (h ▸ A.write_mem)
  have h₂ : p ≠ l.read := fun h => ha (h ▸ A.read_mem)
  have h₃ : p ≠ other.write := fun h => hb (h ▸ B.write_mem)
  have h₄ : p ≠ other.read := fun h => hb (h ▸ B.read_mem)
  constructor <;> simp [joined, Heap.withNext, Heap.withPrev, h₁, h₂, h₃, h₄]

/-- The joined window, in any heap that agrees with the joined one on it. -/
theorem window_joined (A : Window h l wa) (B : Window h other wb)
    (hring : Ring h'.next h'.prev (wa ++ wb)) (hcache : ∀ p ∈ wa ++ wb, h'.cache p = h.cache p)
    (hlive : ∀ p ∈ wa ++ wb, h'.live p = true) (n : ℕ) :
    Window h' { l with write := other.write, nodeSize := n } (wa ++ wb) where
  first := by rw [List.head?_append, A.first]; rfl
  last := by rw [List.getLast?_append, B.last]; rfl
  nodup := hring.nodup
  linked := hring.linked
  live := hlive
  valid := by
    intro p hp c hc
    rw [hcache p hp] at hc
    rcases List.mem_append.mp hp with hp | hp
    · exact A.valid p hp c hc
    · exact B.valid p hp c hc

/-- The second chain is all window: a new node is what is left of it. -/
theorem append_of_no_spare (A : Window h l wa) (B : Chain h other wb [])
    (hdis : ∀ p ∈ wa, p ∉ wb) :
    ∃ h' l' other' sb', l.append h other = .ok (h', l', other') ∧
      Spliced h l other wa wb [] h' l' other' sb' := by
  have hd : (wa ++ wb).Nodup :=
    List.nodup_append.mpr ⟨A.nodup, B.window.nodup, fun a ha b hb hab => hdis a ha (hab ▸ hb)⟩
  have hlive : ∀ p ∈ wa ++ wb, h.live p = true := fun p hp =>
    (List.mem_append.mp hp).elim (A.live p) (B.window.live p)
  have hring := B.ring
  rw [List.append_nil] at hring
  have hprev : h.prev other.read = other.write := hring.prev_first B.window.last B.window.first
  have hj := ring_joined A B.window hd
  obtain ⟨h', hnew, C, hnone, E⟩ := CacheList.new_spec (joined h l other)
  have hcache : ∀ p ∈ wa ++ wb, h'.cache p = h.cache p := fun p hp =>
    E.cache p (hlive p hp) (by simp)
  have hring' : Ring h'.next h'.prev (wa ++ wb) :=
    hj.congr (fun p hp => E.next p (hlive p hp) (by simp))
      (fun p hp => E.prev p (hlive p hp) (by simp))
  refine ⟨h', _, _, [], ?_, rfl, ?_, hring', hcache, C, ?_, rfl, by simp, ?_, ?_⟩
  · have hlw := A.live _ A.write_mem
    have hlr := A.live _ A.read_mem
    have hor := B.window.live _ B.window.read_mem
    have how := B.window.live _ B.window.write_mem
    simp only [joined, Heap.withNext, Heap.withPrev] at hnew
    simp [CacheList.append, B.window.chainSize_eq, Heap.getPrev_of_live hor, hprev, Heap.setNext,
      Heap.setPrev, Heap.deref, Heap.withNext, Heap.withPrev, hlw, hlr, hor, how, hnew, joined]
  · exact window_joined A B.window hring' hcache
      (fun p hp => E.live_of_not_mem (hlive p hp) (by simp)) _
  · rw [Heap.readable, hnone]
    rfl
  · intro p hp hpb
    exact (Heap.lt_brk (hlive p hp)).ne (List.mem_singleton.mp hpb)
  · have hbase : Exchange h (joined h l other) (wa ++ wb) (wa ++ wb) :=
      Exchange.of_same_live rfl hlive (fun p hp => (joined_of_not_mem A B.window hp).1)
        (fun p hp => (joined_of_not_mem A B.window hp).2) (fun _ _ => rfl) rfl
        (fun _ => Iff.rfl)
    have hframe := hbase.trans (E.frame_left fun p hp => hlive p hp)
    simpa using hframe

/-- The heap after the two assignments that close the spares from `s` to `w` into a ring. -/
def closed (h : Heap) (s w : ℕ) : Heap := (h.withNext w s).withPrev s w

/-- Outside the spares the closing changes nothing. -/
theorem closed_of_not_mem {s w p : ℕ} {ns : List ℕ} (hs : s ∈ ns) (hw : w ∈ ns) (hp : p ∉ ns) :
    (closed h s w).next p = h.next p ∧ (closed h s w).prev p = h.prev p := by
  have hpw : p ≠ w := fun h => hp (h ▸ hw)
  have hps : p ≠ s := fun h => hp (h ▸ hs)
  constructor <;> simp [closed, Heap.withNext, Heap.withPrev, hpw, hps]

/-- The closed spares, in a heap with the links between them and the old blocks. -/
theorem chain_closed {s w : ℕ} (B : Chain h other wb (s :: sb))
    (hw : (s :: sb).getLast? = some w) (hlink : Linked h'.next h'.prev (s :: sb))
    (hlive : h'.live = h.live) (hcache : h'.cache = h.cache) :
    Chain (closed h' s w) ⟨s, s, s, sizeSub other.nodeSize wb.length⟩ [s] sb := by
  have hs : s ∈ s :: sb := List.mem_cons_self
  have hsub : ∀ p ∈ sb, p ∈ s :: sb := fun p hp => List.mem_cons_of_mem s hp
  have hl : ∀ p ∈ s :: sb, (closed h' s w).live p = true := fun p hp => hlive ▸ B.live p hp
  have hc : ∀ p ∈ s :: sb, ∀ c, (closed h' s w).cache p = some c → c.Valid ∧ c.size = 0 :=
    fun p hp => hcache ▸ B.cleared p hp
  refine ⟨⟨rfl, rfl, List.nodup_singleton _, linked_singleton _, ?_, ?_⟩,
    Ring.close (List.nodup_append.mp B.nodup).2.1 hlink rfl hw, fun p hp => hl p (hsub p hp),
    fun p hp => hc p (hsub p hp), ?_⟩
  · intro p hp
    rw [List.mem_singleton.mp hp]
    exact hl s hs
  · intro p hp c hcp
    rw [List.mem_singleton.mp hp] at hcp
    exact (hc s hs c hcp).1
  · have hcount := B.count
    simp only [List.length_append, List.length_cons] at hcount
    simp only [List.length_append, List.length_cons, List.length_nil]
    rw [sizeSub_of_le (by omega)]
    omega

/-- What the call does when the second chain has spares. -/
theorem append_eq_of_spare {s w : ℕ} (A : Window h l wa) (B : Chain h other wb (s :: sb))
    (hw : (s :: sb).getLast? = some w) :
    l.append h other = .ok (closed (joined h l other) s w,
      { l with write := other.write, nodeSize := l.nodeSize + wb.length },
      ⟨s, s, s, sizeSub other.nodeSize wb.length⟩) := by
  obtain ⟨-, -, -, hclose⟩ := B.ring.split (List.ne_nil_of_mem B.window.write_mem) (by simp)
  have hprev : h.prev other.read = w := (hclose w hw other.read B.window.first).2
  have hnext : h.next other.write = s := by
    simpa using B.next_write.symm
  have hws : w ∈ s :: sb := List.mem_of_getLast? hw
  have hne : w ≠ other.write := fun h =>
    (List.nodup_append.mp B.nodup).2.2 _ (h ▸ B.window.write_mem) w hws rfl
  have hlw := A.live _ A.write_mem
  have hlr := A.live _ A.read_mem
  have hor := B.window.live _ B.window.read_mem
  have how := B.window.live _ B.window.write_mem
  have hlb := B.live w hws
  have hls := B.live s List.mem_cons_self
  simp [CacheList.append, B.window.chainSize_eq, Heap.getPrev_of_live hor, hprev, hne,
    Heap.getNext_of_live how, hnext, Heap.setNext, Heap.setPrev, Heap.deref, Heap.withNext,
    Heap.withPrev, hlw, hlr, hor, how, hlb, hls, joined, closed]

/-- The second chain has spares: they are closed into a ring of their own. -/
theorem append_of_spare {s : ℕ} (A : Window h l wa) (B : Chain h other wb (s :: sb))
    (hdis : ∀ p ∈ wa, p ∉ wb ++ s :: sb) :
    ∃ h' l' other' sb', l.append h other = .ok (h', l', other') ∧
      Spliced h l other wa wb (s :: sb) h' l' other' sb' := by
  have hd : (wa ++ wb).Nodup :=
    List.nodup_append.mpr ⟨A.nodup, B.window.nodup, fun a ha b hb hab =>
      hdis a ha (hab ▸ List.mem_append_left _ hb)⟩
  have hlive : ∀ p ∈ wa ++ wb, h.live p = true := fun p hp =>
    (List.mem_append.mp hp).elim (A.live p) (B.window.live p)
  have hsep : ∀ p ∈ wa ++ wb, p ∉ s :: sb := fun p hp hs =>
    (List.mem_append.mp hp).elim (fun ha => hdis p ha (List.mem_append_right _ hs))
      (fun hb => (List.nodup_append.mp B.nodup).2.2 p hb p hs rfl)
  obtain ⟨w, hw⟩ : ∃ w, (s :: sb).getLast? = some w := ⟨_, List.getLast?_eq_some_getLast (by simp)⟩
  have hws : w ∈ s :: sb := List.mem_of_getLast? hw
  have hs : s ∈ s :: sb := List.mem_cons_self
  have hkeep : ∀ p ∈ s :: sb, p ∉ wa ++ wb := fun p hp hm => hsep p hm hp
  have hlink : Linked (joined h l other).next (joined h l other).prev (s :: sb) :=
    (linked_append.mp B.ring.linked).2.1.congr_of_mem
      (fun p hp => (joined_of_not_mem A B.window (hkeep p hp)).1)
      (fun p hp => (joined_of_not_mem A B.window (hkeep p hp)).2)
  have hring' : Ring (closed (joined h l other) s w).next (closed (joined h l other) s w).prev
      (wa ++ wb) :=
    (ring_joined A B.window hd).congr (fun p hp => (closed_of_not_mem hs hws (hsep p hp)).1)
      (fun p hp => (closed_of_not_mem hs hws (hsep p hp)).2)
  refine ⟨_, _, _, sb, append_eq_of_spare A B hw, rfl,
    window_joined A B.window hring' (fun _ _ => rfl) hlive _, hring', fun _ _ => rfl,
    chain_closed B hw hlink rfl rfl, Heap.readable_of_size (B.cleared s hs), rfl,
    fun p hp => hp, hsep, ?_⟩
  refine Exchange.of_same_live rfl ?_ ?_ ?_ (fun _ _ => rfl) rfl (fun _ => Iff.rfl)
  · exact fun p hp => (List.mem_append.mp hp).elim (hlive p) (B.live p)
  · intro p hp
    obtain ⟨hwin, hspare⟩ := not_or.mp (List.mem_append.not.mp hp)
    rw [(closed_of_not_mem hs hws hspare).1, (joined_of_not_mem A B.window hwin).1]
  · intro p hp
    obtain ⟨hwin, hspare⟩ := not_or.mp (List.mem_append.not.mp hp)
    rw [(closed_of_not_mem hs hws hspare).2, (joined_of_not_mem A B.window hwin).2]

/-- **Splicing.**  Nothing is assumed about what closes the first window into a ring. -/
theorem Window.append_spec (A : Window h l wa) (B : Chain h other wb sb)
    (hdis : ∀ p ∈ wa, p ∉ wb ++ sb) :
    ∃ h' l' other' sb', l.append h other = .ok (h', l', other') ∧
      Spliced h l other wa wb sb h' l' other' sb' := by
  cases sb with
  | nil => exact append_of_no_spare A B (by simpa using hdis)
  | cons s sb => exact append_of_spare A B hdis

/-- The contents are joined, and nothing is left of the second. -/
theorem Spliced.holds {a b : Buffer} {other' : CacheList} {sb' : List ℕ}
    {ca cb : List UInt8} (A : Holds h a wa ca) (B : Holds h b wb cb) (hca : ca ≠ [])
    (hcb : cb ≠ []) (P : Spliced h a.cacheChain b.cacheChain wa wb sb h' l' other' sb') :
    Holds h' ⟨l', (a.totalLen + b.totalLen) % 2 ^ 64⟩ (wa ++ wb) (ca ++ cb) ∧
      Holds h' ⟨other', 0⟩ [other'.write] [] := by
  refine ⟨⟨P.window, ?_, ?_, Or.inr fun p hp => ?_⟩,
    ⟨P.rest.window, by simp [P.empty], rfl, Or.inl rfl⟩⟩
  · rw [Heap.content_congr P.cache, Heap.content_append, A.content_eq, B.content_eq]
  · rw [A.size_eq, B.size_eq, List.length_append, ← Nat.add_mod]
  · rw [Heap.readable, P.cache p hp]
    exact (List.mem_append.mp hp).elim (fun h => A.readable_ne hca h) fun h => B.readable_ne hcb h

/-- **Appending** another buffer concatenates: the first walks over both contents, the second
is empty and has a closed ring of its own.  Both contents are in memory, so that their lengths
can be added. -/
theorem Buffer.append_concatenates {a b : Buffer} {sa : List ℕ} {x y : List UInt8}
    (A : Carries h a wa sa x) (B : Carries h b wb sb y) (hdis : ∀ p ∈ wa ++ sa, p ∉ wb ++ sb)
    (hmem : x.length + y.length < 2 ^ 64) :
    ∃ h' a' b' wa' wb' sb', a.append h b = .ok (h', a', b') ∧
      a'.cacheChain.walk h' = .ok wa' ∧ h'.content wa' = x ++ y ∧
      a'.totalLen = x.length + y.length ∧
      Chain h' b'.cacheChain wb' sb' ∧ h'.content wb' = [] ∧ b'.totalLen = 0 ∧
      ∀ p ∈ wa', p ∉ wb' ++ sb' := by
  have hsum : (a.totalLen + b.totalLen) % 2 ^ 64 = x.length + y.length := by
    rw [A.size_eq, B.size_eq, Nat.mod_eq_of_lt hmem]
  have hwa : ∀ p ∈ wa, p ∉ wb ++ sb := fun p hp => hdis p (List.mem_append_left sa hp)
  by_cases hy : b.totalLen = 0
  · have hnil : y = [] := List.length_eq_zero_iff.mp (B.size_eq ▸ hy)
    refine ⟨h, a, b, wa, wb, sb, by rw [Buffer.append, if_pos hy], A.chain.window.walk_eq, ?_, ?_,
      B.chain, hnil ▸ B.content_eq, hy, hwa⟩
    · rw [A.content_eq, hnil, List.append_nil]
    · rw [A.size_eq, hnil, List.length_nil, Nat.add_zero]
  by_cases hx : a.totalLen = 0
  · have hnil : x = [] := List.length_eq_zero_iff.mp (A.size_eq ▸ hx)
    refine ⟨h, ⟨b.cacheChain, (a.totalLen + b.totalLen) % 2 ^ 64⟩, ⟨a.cacheChain, 0⟩, wb, wa, sa,
      by rw [Buffer.append, if_neg hy, if_pos hx], B.chain.window.walk_eq, ?_, hsum, A.chain,
      hnil ▸ A.content_eq, rfl, fun p hp hp' => ?_⟩
    · rw [B.content_eq, hnil, List.nil_append]
    · exact hdis p hp' (List.mem_append_left sb hp)
  · obtain ⟨h', l', other', sb', hrun, P⟩ := A.chain.window.append_spec B.chain hwa
    refine ⟨h', ⟨l', _⟩, ⟨other', 0⟩, wa ++ wb, _, sb', ?_, P.window.walk_eq, ?_, hsum, P.rest,
      by simp [P.empty], rfl, by simpa using P.apart⟩
    · rw [Buffer.append, if_neg hy, if_neg hx, hrun]
      rfl
    · rw [Heap.content_congr P.cache, Heap.content_append, A.content_eq, B.content_eq]

/-- The first ring gets the content of the second. -/
theorem append_twoRings : ∃ h' a' b' wa', firstBuffer.append twoRings secondBuffer =
    .ok (h', a', b') ∧ a'.cacheChain.walk h' = .ok wa' ∧
      h'.content wa' = [2, 3, 4, 5, 6, 7, 8] ∧ a'.totalLen = 7 ∧ b'.totalLen = 0 := by
  obtain ⟨h', a', b', wa', wb', sb', hrun, hwalk, hcontent, hsize, -, -, hzero, -⟩ :=
    Buffer.append_concatenates carries_firstBuffer carries_secondBuffer (by decide) (by decide)
  exact ⟨h', a', b', wa', hrun, hwalk, hcontent, hsize, hzero⟩

end Append

end Hare.Net
