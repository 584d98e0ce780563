import Hare.Net.Window

/-!
# Draining a window

`CacheList.drain` runs in three phases: a loop that takes bytes block by block, a last
bite from the block the loop stopped at, and, on long chains, a loop that deletes the
nodes passed except the first.  Each phase has its own specification; `Window.drain_spec`
puts them together.
-/

namespace Hare.Net

open LinkedRing LabelledRun

namespace Window

variable {h h' : Heap} {l : CacheList} {win : List ℕ}

/-! ## The draining loop -/

/-- What the draining loop leaves behind: the blocks `f`, the nodes `pre` it passed, the
node `idx` it stopped at, and the number `rest` of bytes it did not take. -/
structure LoopDrained (h : Heap) (ns : List ℕ) (n : ℕ) (f : ℕ → Option Cache)
    (pre : List ℕ) (idx : ℕ) (post : List ℕ) (rest : ℕ) : Prop where
  split : ns = pre ++ idx :: post
  cleared : ∀ p ∈ pre, ∃ c, f p = some c ∧ c.Valid ∧ c.size = 0
  other : ∀ p, p ∉ pre → p ≠ idx → f p = h.cache p
  here : ∃ c, f idx = some c ∧ c.Valid ∧ rest ≤ (c.readable ++ h.content post).length ∧
    (c.readable ++ h.content post).drop rest = (h.content ns).drop n ∧
    (post ≠ [] → (∀ p ∈ ns, h.readable p ≠ []) → c.readable ≠ [])
  last : rest ≠ 0 → post = []
  passed : (h.content pre).length ≤ n

section Round
variable {write fuel n p q : ℕ} {need : Bool} {c : Cache}

/-- The request ends inside the block. -/
theorem drainLoop_of_lt (hp : h.live p = true) (hc : h.cache p = some c) (hv : c.Valid)
    (hlt : n < c.readableSize) : CacheList.drainLoop write (fuel + 1) h n p need =
      .ok (h.withCache p (c.drain n), 0, p, need) := by
  have hempty : ¬ (c.drain n).empty = true := by
    rw [(Cache.valid_drain hv hlt.le).empty_iff, Cache.readable_drain hv hlt.le,
      List.drop_eq_nil_iff, hv.length_readable]
    omega
  rw [CacheList.drainLoop, Heap.block_of_cache hp hc]
  simp only [ok_bind, Nat.min_eq_left hlt.le]
  rw [if_neg hempty, Heap.setCache_of_live hp]
  simp

theorem empty_drain_readableSize (hv : c.Valid) : (c.drain c.readableSize).empty = true := by
  rw [(Cache.valid_drain hv le_rfl).empty_iff, Cache.readable_drain hv le_rfl,
    ← hv.length_readable, List.drop_length]

theorem clear_drain (c : Cache) (n : ℕ) : (c.drain n).clear = c.clear := rfl

/-- The block runs empty and is the last one. -/
theorem drainLoop_of_le_last (hp : h.live p = true) (hc : h.cache p = some c) (hv : c.Valid)
    (hle : c.readableSize ≤ n) : CacheList.drainLoop p (fuel + 1) h n p need =
      .ok (h.withCache p c.clear, n - c.readableSize, p, need) := by
  rw [CacheList.drainLoop, Heap.block_of_cache hp hc]
  simp only [ok_bind, Nat.min_eq_right hle]
  rw [if_pos (empty_drain_readableSize hv), clear_drain, Heap.setCache_of_live hp]
  simp

/-- The block runs empty and another one follows. -/
theorem drainLoop_of_le (hp : h.live p = true) (hc : h.cache p = some c) (hv : c.Valid)
    (hle : c.readableSize ≤ n) (hne : p ≠ write) (hq : h.next p = q) :
    CacheList.drainLoop write (fuel + 1) h n p need =
      if n - c.readableSize ≠ 0 ∧ q ≠ write then
        CacheList.drainLoop write fuel (h.withCache p c.clear) (n - c.readableSize) q true
      else .ok (h.withCache p c.clear, n - c.readableSize, q, true) := by
  have hnext : (h.withCache p c.clear).getNext p = .ok q := by
    rw [← hq]
    exact Heap.getNext_of_live (h := h.withCache p c.clear) hp
  rw [CacheList.drainLoop, Heap.block_of_cache hp hc]
  simp only [ok_bind, Nat.min_eq_right hle]
  rw [if_pos (empty_drain_readableSize hv), clear_drain, Heap.setCache_of_live hp]
  simp only [ok_bind]
  rw [if_pos hne, hnext]
  simp

end Round

namespace LoopDrained

variable {ns pre post : List ℕ} {n p idx rest : ℕ} {c : Cache} {f : ℕ → Option Cache}

/-- Before the first round. -/
theorem start (hc : h.cache p = some c) (hv : c.Valid) (hn : n ≤ (h.content (p :: ns)).length)
    (hlast : n ≠ 0 → ns = []) : LoopDrained h (p :: ns) n h.cache [] p ns n where
  split := rfl
  cleared := by simp
  other := fun _ _ _ => rfl
  here := by
    have hread := Heap.readable_of_cache hc
    refine ⟨c, hc, hv, ?_, ?_, fun _ hne => ?_⟩
    · rwa [← hread, ← Heap.content_cons]
    · rw [← hread, ← Heap.content_cons]
    · rw [← hread]
      exact hne p List.mem_cons_self
  last := hlast
  passed := Nat.zero_le n

/-- The request ends inside the first block. -/
theorem inside (hc : h.cache p = some c) (hv : c.Valid) (hlt : n < c.readableSize) :
    LoopDrained h (p :: ns) n (h.withCache p (c.drain n)).cache [] p ns 0 where
  split := rfl
  cleared := by simp
  other := fun r _ hr => by simp [Heap.withCache, hr]
  here := by
    have hlen := hv.length_readable
    have hread := Cache.readable_drain hv hlt.le
    refine ⟨c.drain n, by simp [Heap.withCache], Cache.valid_drain hv hlt.le, Nat.zero_le _, ?_,
      fun _ _ hnil => ?_⟩
    · rw [hread, Heap.content_cons, Heap.readable_of_cache hc, List.drop_zero,
        List.drop_append_of_le_length (by omega)]
    · rw [hread, List.drop_eq_nil_iff] at hnil
      omega
  last := by simp
  passed := Nat.zero_le n

/-- The last block runs empty. -/
theorem finish (hc : h.cache p = some c) (hv : c.Valid) (heq : n = c.readableSize) :
    LoopDrained h [p] n (h.withCache p c.clear).cache [] p [] 0 where
  split := rfl
  cleared := by simp
  other := fun r _ hr => by simp [Heap.withCache, hr]
  here := by
    refine ⟨c.clear, by simp [Heap.withCache], Cache.valid_clear hv, Nat.zero_le _, ?_, by simp⟩
    rw [Cache.readable_clear hv, Heap.content_cons, Heap.readable_of_cache hc, heq,
      ← hv.length_readable]
    simp
  last := by simp
  passed := Nat.zero_le n

/-- A block that ran empty before the rest of the path was drained. -/
theorem cons (hp : p ∉ ns) (hc : h.cache p = some c) (hv : c.Valid) (hle : c.readableSize ≤ n)
    (R : LoopDrained (h.withCache p c.clear) ns (n - c.readableSize) f pre idx post rest) :
    LoopDrained h (p :: ns) n f (p :: pre) idx post rest := by
  have hother : ∀ r, r ≠ p → (h.withCache p c.clear).cache r = h.cache r := fun r hr => by
    simp [Heap.withCache, hr]
  have hsame : ∀ {as : List ℕ}, as ⊆ ns → (h.withCache p c.clear).content as = h.content as :=
    fun hsub => Heap.content_congr fun r hr => hother r fun h => hp (h ▸ hsub hr)
  have hpre : pre ⊆ ns := fun r hr => by simp [R.split, hr]
  have hpost : post ⊆ ns := fun r hr => by simp [R.split, hr]
  have hidx : idx ∈ ns := by simp [R.split]
  have hread : h.readable p = c.readable := Heap.readable_of_cache hc
  have hlen := hv.length_readable
  refine ⟨by rw [R.split]; rfl, ?_, ?_, ?_, R.last, ?_⟩
  · intro r hr
    rcases List.mem_cons.mp hr with rfl | hr
    · rw [R.other r (fun h => hp (hpre h)) (fun h => hp (h ▸ hidx))]
      exact ⟨c.clear, by simp [Heap.withCache], Cache.valid_clear hv, rfl⟩
    · exact R.cleared r hr
  · intro r hr hri
    obtain ⟨hrp, hr⟩ := not_or.mp (List.mem_cons.not.mp hr)
    rw [R.other r hr hri, hother r hrp]
  · obtain ⟨d, hfd, hdv, hrest, hdrop, hstop⟩ := R.here
    rw [hsame hpost] at hrest hdrop
    rw [hsame (List.Subset.refl ns)] at hdrop
    refine ⟨d, hfd, hdv, hrest, ?_, fun hne hall => hstop hne fun r hr => ?_⟩
    · have hall : c.readable.drop n = [] := List.drop_of_length_le (by omega)
      rw [hdrop, Heap.content_cons, hread, List.drop_append, hlen, hall, List.nil_append]
    · rw [Heap.readable, hother r fun h => hp (h ▸ hr)]
      exact hall r (List.mem_cons_of_mem p hr)
  · have := R.passed
    rw [hsame hpre] at this
    rw [Heap.content_cons, hread, List.length_append, hlen]
    omega

end LoopDrained

/-- **The draining loop** on a path of nodes with blocks. -/
theorem drainLoop_spec {write : ℕ} : ∀ {ns : List ℕ} {h : Heap} {fuel n index : ℕ} (need : Bool),
    ns.length ≤ fuel → ns.head? = some index → ns.getLast? = some write → ns.Nodup →
    Linked h.next h.prev ns → (∀ p ∈ ns, h.live p = true) →
    (∀ p ∈ ns, ∃ c, h.cache p = some c ∧ c.Valid) → n ≤ (h.content ns).length →
    ∃ f pre idx post rest, CacheList.drainLoop write fuel h n index need =
        .ok ({ h with cache := f }, rest, idx, need || !pre.isEmpty) ∧
      LoopDrained h ns n f pre idx post rest := by
  intro ns
  induction ns with
  | nil => intro h fuel n index need _ hfirst; simp at hfirst
  | cons p ns ih =>
      intro h fuel n index need hfuel hfirst hlast hd hlink hlive hblock hn
      obtain ⟨fuel, rfl⟩ : ∃ k, fuel = k + 1 := ⟨fuel - 1, by simp at hfuel; omega⟩
      simp only [List.head?_cons, Option.some.injEq] at hfirst
      subst hfirst
      obtain ⟨c, hc, hv⟩ := hblock p List.mem_cons_self
      have hpl := hlive p List.mem_cons_self
      have hlen := hv.length_readable
      have hn' := hn
      rw [Heap.content_cons, Heap.readable_of_cache hc, List.length_append, hlen] at hn'
      rcases Nat.lt_or_ge n c.readableSize with hlt | hle
      · refine ⟨_, [], p, ns, 0, ?_, LoopDrained.inside hc hv hlt⟩
        rw [drainLoop_of_lt hpl hc hv hlt]
        simp [Heap.withCache]
      cases ns with
      | nil =>
          simp only [List.getLast?_singleton, Option.some.injEq] at hlast
          subst hlast
          simp only [Heap.content_nil, List.length_nil, Nat.add_zero] at hn'
          refine ⟨_, [], p, [], 0, ?_, LoopDrained.finish hc hv (by omega)⟩
          rw [drainLoop_of_le_last hpl hc hv hle, Nat.sub_eq_zero_of_le hn']
          simp [Heap.withCache]
      | cons q ns =>
          have hne : p ≠ write := ne_of_mem_dropLast hd hlast (by simp)
          obtain ⟨hpn, hdn⟩ := List.nodup_cons.mp hd
          obtain ⟨⟨hpq, -⟩, hrest⟩ := linked_cons_cons.mp hlink
          have hsame : ∀ r ∈ q :: ns, (h.withCache p c.clear).cache r = h.cache r := by
            intro r hr
            have hrp : r ≠ p := fun h => hpn (h ▸ hr)
            simp [Heap.withCache, hrp]
          have hcont := Heap.content_congr hsame
          have hblock' : ∀ r ∈ q :: ns,
              ∃ d, (h.withCache p c.clear).cache r = some d ∧ d.Valid := by
            intro r hr
            rw [hsame r hr]
            exact hblock r (List.mem_cons_of_mem p hr)
          rw [drainLoop_of_le hpl hc hv hle hne hpq]
          by_cases hmore : n - c.readableSize ≠ 0 ∧ q ≠ write
          · obtain ⟨f, pre, idx, post, rest, hrun, R⟩ := ih (n := n - c.readableSize)
              (h := h.withCache p c.clear) true (by simpa using hfuel) rfl
              (by simpa using hlast) hdn hrest
              (fun r hr => hlive r (List.mem_cons_of_mem p hr)) hblock'
              (by rw [hcont]; omega)
            refine ⟨f, p :: pre, idx, post, rest, ?_, R.cons hpn hc hv hle⟩
            rw [if_pos hmore, hrun]
            simp [Heap.withCache]
          · -- the loop stops in front of `q`
            obtain ⟨d, hd', hdv⟩ := hblock' q List.mem_cons_self
            refine ⟨_, [p], q, ns, n - c.readableSize, ?_,
              (LoopDrained.start hd' hdv (by rw [hcont]; omega) ?_).cons hpn hc hv hle⟩
            · rw [if_neg hmore]
              simp [Heap.withCache]
            · intro hzero
              have hqw : q = write := by
                by_contra hqw
                exact hmore ⟨hzero, hqw⟩
              cases ns with
              | nil => rfl
              | cons r ns =>
                  exact absurd hqw (ne_of_mem_dropLast hdn (by simpa using hlast) (by simp))

/-- The bytes the loop left are in the last block, and are taken from there. -/
theorem LoopDrained.settle {ns pre post : List ℕ} {n idx rest : ℕ} {f : ℕ → Option Cache}
    (R : LoopDrained h ns n f pre idx post rest) (hrest : 0 < rest) :
    ∃ c, f idx = some c ∧ rest ≤ c.readableSize ∧
      LoopDrained h ns n (Function.update f idx (some (c.drain rest))) pre idx post 0 := by
  obtain ⟨c, hc, hv, hle, hdrop, -⟩ := R.here
  have hpost := R.last hrest.ne'
  subst hpost
  simp only [Heap.content_nil, List.append_nil] at hle hdrop
  rw [hv.length_readable] at hle
  refine ⟨c, hc, hle, R.split, ?_, ?_, ?_, by simp, R.passed⟩
  · intro p hp
    by_cases hpi : p = idx
    · obtain ⟨d, hd, hdv, hsize⟩ := R.cleared p hp
      -- a cleared node holds no byte, so the rest was not there
      rw [hpi, hc, Option.some.injEq] at hd
      subst hd
      have := hv.readableSize_eq
      omega
    · rw [Function.update_of_ne hpi]
      exact R.cleared p hp
  · intro p hp hpi
    rw [Function.update_of_ne hpi, R.other p hp hpi]
  · refine ⟨c.drain rest, by simp, Cache.valid_drain hv hle, Nat.zero_le _, ?_, by simp⟩
    rw [Cache.readable_drain hv hle]
    simpa using hdrop

/-! ## Unlinking -/

/-- What the unlinking loop leaves behind when it deletes the nodes `dead` between `first`
and `stop`. -/
structure Unlinked (h : Heap) (first : ℕ) (dead : List ℕ) (stop : ℕ) (h' : Heap) : Prop where
  live : ∀ p, h'.live p = true ↔ h.live p = true ∧ p ∉ dead
  next_first : h'.next first = stop
  prev_stop : h'.prev stop = first
  next_other : ∀ p, p ≠ first → h'.next p = h.next p
  prev_other : ∀ p, p ∉ dead → p ≠ stop → h'.prev p = h.prev p
  cache : h'.cache = h.cache
  brk : h'.brk = h.brk

/-- The heap after one round: `d` is deleted and `nx` follows `first`. -/
def unlink (h : Heap) (first d nx : ℕ) : Heap :=
  ((h.withPrev nx first).withNext first nx).without d

section Unlink
variable {first stop d nx fuel count p : ℕ}

theorem live_unlink : (unlink h first d nx).live p = true ↔ h.live p = true ∧ p ≠ d := by
  by_cases hpd : p = d <;> simp [unlink, Heap.without, Heap.withNext, Heap.withPrev, hpd]

theorem next_unlink : (unlink h first d nx).next = Function.update h.next first nx := rfl
theorem prev_unlink : (unlink h first d nx).prev = Function.update h.prev nx first := rfl

theorem unlinkLoop_step (hf : h.live first = true) (hd : h.live d = true)
    (hnx : h.live nx = true) (hfd : h.next first = d) (hdn : h.next d = nx) (hne : d ≠ stop) :
    CacheList.unlinkLoop first stop (fuel + 1) h count =
      CacheList.unlinkLoop first stop fuel (unlink h first d nx) (count + 1) := by
  have hf' : (h.withPrev nx first).live first = true := hf
  have hd' : ((h.withPrev nx first).withNext first nx).live d = true := hd
  rw [CacheList.unlinkLoop, Heap.getNext_of_live hf, hfd]
  simp only [ok_bind, if_neg hne, Heap.getNext_of_live hd, hdn, Heap.setPrev_of_live hnx,
    Heap.setNext_of_live hf', Heap.free_of_live hd', unlink]

/-- The path behind the deleted node follows `first`. -/
theorem linked_unlink {ns : List ℕ} (hlink : Linked h.next h.prev (nx :: ns))
    (hf : first ∉ (nx :: ns).dropLast) (hnx : nx ∉ ns) :
    Linked (unlink h first d nx).next (unlink h first d nx).prev (first :: nx :: ns) := by
  rw [next_unlink, prev_unlink]
  refine linked_cons_cons.mpr ⟨⟨by simp, by simp⟩, hlink.congr ?_ ?_⟩
  · intro p hp
    have hpf : p ≠ first := fun h => hf (h ▸ hp)
    rw [Function.update_of_ne hpf]
  · intro p hp
    have hpn : p ≠ nx := fun h => hnx (h ▸ hp)
    rw [Function.update_of_ne hpn]

/-- One round and the rest of them. -/
theorem Unlinked.cons {dead : List ℕ} {h' : Heap}
    (U : Unlinked (unlink h first d nx) first dead stop h') (hnx : nx ∈ dead ++ [stop]) :
    Unlinked h first (d :: dead) stop h' := by
  refine ⟨?_, U.next_first, U.prev_stop, ?_, ?_, U.cache, U.brk⟩
  · intro p
    rw [U.live, live_unlink, List.mem_cons]
    tauto
  · intro p hp
    rw [U.next_other p hp, next_unlink, Function.update_of_ne hp]
  · intro p hp hps
    obtain ⟨-, hpd⟩ := not_or.mp (List.mem_cons.not.mp hp)
    have hpn : p ≠ nx := by
      rintro rfl
      rcases List.mem_append.mp hnx with h | h
      · exact hpd h
      · exact hps (List.mem_singleton.mp h)
    rw [U.prev_other p hpd hps, prev_unlink, Function.update_of_ne hpn]

end Unlink

/-- **The unlinking loop** deletes the path between its two ends. -/
theorem unlinkLoop_spec {first stop : ℕ} : ∀ {dead : List ℕ} {h : Heap} (fuel count : ℕ),
    dead.length < fuel → (first :: dead).Nodup → (dead ++ [stop]).Nodup →
    Linked h.next h.prev (first :: (dead ++ [stop])) →
    (∀ p ∈ first :: (dead ++ [stop]), h.live p = true) →
    ∃ h', CacheList.unlinkLoop first stop fuel h count = .ok (h', count + dead.length) ∧
      Unlinked h first dead stop h' := by
  intro dead
  induction dead with
  | nil =>
      intro h fuel count hfuel _ _ hlink hlive
      obtain ⟨fuel, rfl⟩ : ∃ k, fuel = k + 1 := ⟨fuel - 1, by simp at hfuel; omega⟩
      obtain ⟨⟨hfs, hsf⟩, -⟩ := linked_cons_cons.mp hlink
      refine ⟨h, ?_, by simp, hfs, hsf, fun _ _ => rfl, fun _ _ _ => rfl, rfl, rfl⟩
      rw [CacheList.unlinkLoop, Heap.getNext_of_live (hlive first List.mem_cons_self)]
      simp [hfs]
  | cons d dead ih =>
      intro h fuel count hfuel hfd hds hlink hlive
      obtain ⟨fuel, rfl⟩ : ∃ k, fuel = k + 1 := ⟨fuel - 1, by simp at hfuel; omega⟩
      rw [List.cons_append] at hds hlink hlive
      obtain ⟨hdmem, hds'⟩ := List.nodup_cons.mp hds
      obtain ⟨hfmem, hdd⟩ := List.nodup_cons.mp hfd
      obtain ⟨hfirstd, hfdead⟩ := not_or.mp (List.mem_cons.not.mp hfmem)
      have hdstop : d ≠ stop := fun h => hdmem (by simp [h])
      -- the node behind `d`
      obtain ⟨nx, ns, hns⟩ : ∃ nx ns, dead ++ [stop] = nx :: ns := by
        cases dead with
        | nil => exact ⟨stop, [], rfl⟩
        | cons a as => exact ⟨a, as ++ [stop], rfl⟩
      have hfront : (nx :: ns).dropLast = dead := by rw [← hns, List.dropLast_concat]
      have hnxs : nx ∉ ns := (List.nodup_cons.mp (hns ▸ hds')).1
      rw [hns] at hlive hlink hdmem
      obtain ⟨⟨hfirst, -⟩, hlink'⟩ := linked_cons_cons.mp hlink
      obtain ⟨⟨hdnx, -⟩, htail⟩ := linked_cons_cons.mp hlink'
      have hpath : Linked (unlink h first d nx).next (unlink h first d nx).prev
          (first :: (dead ++ [stop])) := by
        rw [hns]
        exact linked_unlink htail (by rwa [hfront]) hnxs
      have hlive' : ∀ p ∈ first :: (dead ++ [stop]), (unlink h first d nx).live p = true := by
        intro p hp
        rw [live_unlink]
        rw [hns] at hp
        rcases List.mem_cons.mp hp with rfl | hp
        · exact ⟨hlive p List.mem_cons_self, hfirstd⟩
        · exact ⟨hlive p (List.mem_cons_of_mem _ (List.mem_cons_of_mem _ hp)),
            fun h => hdmem (h ▸ hp)⟩
      obtain ⟨h', hrun, U⟩ := ih fuel (count + 1) (Nat.lt_of_succ_lt_succ hfuel)
        (List.nodup_cons.mpr ⟨hfdead, (List.nodup_cons.mp hdd).2⟩) hds' hpath hlive'
      refine ⟨h', ?_, U.cons (by simp [hns])⟩
      rw [unlinkLoop_step (hlive first (by simp)) (hlive d (by simp)) (hlive nx (by simp)) hfirst
        hdnx hdstop, hrun, List.length_cons]
      congr 2
      omega

/-! ## Draining -/

/-- What `CacheList.drain` does: the window shrinks from `pre ++ idx :: post` to
`idx :: post`; of the nodes before, `kept` stay as spares and `dead` are deleted. -/
structure Drained (h : Heap) (l : CacheList) (win : List ℕ) (n : ℕ) (h' : Heap)
    (idx : ℕ) (post kept dead : List ℕ) : Prop where
  split : win = kept ++ dead ++ idx :: post
  trim : dead = if l.nodeSize > maxChinaSize then (kept ++ dead).tail else []
  window : Window h' (l.trimmed idx dead.length) (idx :: post)
  content : h'.content (idx :: post) = (h.content win).drop n
  live : ∀ p, h'.live p = true ↔ h.live p = true ∧ p ∉ dead
  cleared : ∀ p ∈ kept, ∃ c, h'.cache p = some c ∧ c.Valid ∧ c.size = 0
  blocks : ∀ p ∈ idx :: post, ∃ c, h'.cache p = some c
  next_other : ∀ p, p ∉ win → h'.next p = h.next p
  prev_other : ∀ p, p ∉ win → h'.prev p = h.prev p
  cache_other : ∀ p, p ∉ kept ++ dead → p ≠ idx → h'.cache p = h.cache p
  ring : ∀ spare, Ring h.next h.prev (win ++ spare) →
    Ring h'.next h'.prev (idx :: post ++ spare ++ kept)
  passed : (h.content (kept ++ dead)).length ≤ n
  stop : post ≠ [] → (∀ p ∈ win, h.readable p ≠ []) → h'.readable idx ≠ []
  brk : h'.brk = h.brk

/-- Draining takes bytes, and settles the window at the node it stopped at. -/
theorem drain_eq (W : Window h l win) (hblock : ∀ p ∈ win, ∃ c, h.cache p = some c) {n : ℕ}
    (hn : n ≤ (h.content win).length) :
    ∃ f pre idx post, LoopDrained h win n f pre idx post 0 ∧ l.drain h n = (do
      let (h, deleted) ←
        if (!pre.isEmpty) ∧ l.nodeSize > maxChinaSize then
          CacheList.unlinkLoop l.read idx h.brk { h with cache := f } 0
        else pure ({ h with cache := f }, 0)
      pure (h, l.trimmed idx deleted)) := by
  have hvalid : ∀ p ∈ win, ∃ c, h.cache p = some c ∧ c.Valid := fun p hp => by
    obtain ⟨c, hc⟩ := hblock p hp
    exact ⟨c, hc, W.valid p hp c hc⟩
  obtain ⟨f, pre, idx, post, rest, hrun, R⟩ := drainLoop_spec false W.length_le_brk
    W.first W.last W.nodup W.linked W.live hvalid hn
  rcases Nat.eq_zero_or_pos rest with hzero | hpos
  · subst hzero
    refine ⟨f, pre, idx, post, R, ?_⟩
    rw [CacheList.drain, hrun]
    simp
  · obtain ⟨c, hc, hle, R'⟩ := R.settle hpos
    have hlive : h.live idx = true := W.live idx (by simp [R.split])
    refine ⟨_, pre, idx, post, R', ?_⟩
    have hb : ({ h with cache := f } : Heap).block idx = .ok c := Heap.block_of_cache hlive hc
    have hs : ({ h with cache := f } : Heap).setCache idx (c.drain rest) =
        .ok { h with cache := Function.update f idx (some (c.drain rest)) } :=
      Heap.setCache_of_live hlive
    rw [CacheList.drain, hrun]
    simp [hpos, hb, hle, hs]

/-- The blocks are those the loop left; the links differ at most on the nodes passed and
on the way back from the node it stopped at. -/
theorem LoopDrained.drained (W : Window h l win) (hblock : ∀ p ∈ win, ∃ c, h.cache p = some c)
    {n idx : ℕ} {f : ℕ → Option Cache} {post kept dead : List ℕ}
    (R : LoopDrained h win n f (kept ++ dead) idx post 0)
    (htrim : dead = if l.nodeSize > maxChinaSize then (kept ++ dead).tail else [])
    (hcache : h'.cache = f) (hbrk : h'.brk = h.brk)
    (hlive : ∀ p, h'.live p = true ↔ h.live p = true ∧ p ∉ dead)
    (hnext : ∀ p, p ∉ kept ++ dead → h'.next p = h.next p)
    (hprev : ∀ p, p ∉ kept ++ dead → p ≠ idx → h'.prev p = h.prev p)
    (hring : ∀ spare, Ring h.next h.prev (win ++ spare) →
      Ring h'.next h'.prev (idx :: post ++ spare ++ kept)) :
    Drained h l win n h' idx post kept dead := by
  obtain ⟨c, hc, hv, -, hdrop, hstop⟩ := R.here
  have hd := W.nodup
  rw [R.split] at hd
  obtain ⟨-, hdi, hdis⟩ := List.nodup_append.mp hd
  have hsep : ∀ p ∈ idx :: post, p ∉ kept ++ dead := fun p hp hk => hdis p hk p hp rfl
  have hsub : ∀ p ∈ idx :: post, p ∈ win := fun p hp => by
    rw [R.split]
    exact List.mem_append_right _ hp
  have hpi : ∀ p ∈ post, p ≠ idx := fun p hp h => (List.nodup_cons.mp hdi).1 (h ▸ hp)
  have hpost : ∀ p ∈ post, h'.cache p = h.cache p := fun p hp => by
    rw [hcache, R.other p (hsep p (List.mem_cons_of_mem idx hp)) (hpi p hp)]
  have hidx : h'.cache idx = some c := by rw [hcache, hc]
  have hmem : ∀ p ∈ idx :: post, p = idx ∨ p ∈ post := fun p hp => List.mem_cons.mp hp
  refine ⟨R.split, htrim, ⟨rfl, ?_, hdi, ?_, ?_, ?_⟩, ?_, hlive, ?_, ?_, ?_, ?_, ?_, hring,
    R.passed, ?_, hbrk⟩
  · rw [CacheList.trimmed_write, ← W.last, R.split, List.getLast?_append_of_ne_nil _ (by simp)]
  · have hlink := W.linked
    rw [R.split] at hlink
    refine (linked_append.mp hlink).2.1.congr ?_ ?_
    · intro p hp
      exact hnext p (hsep p (List.dropLast_subset _ hp))
    · intro p hp
      exact hprev p (hsep p (List.mem_cons_of_mem idx hp)) (hpi p hp)
  · intro p hp
    rw [hlive]
    exact ⟨W.live p (hsub p hp), fun h => hsep p hp (List.mem_append_right kept h)⟩
  · intro p hp d hd'
    rcases hmem p hp with rfl | hp
    · rw [hidx] at hd'
      cases hd'
      exact hv
    · rw [hpost p hp] at hd'
      exact W.valid p (hsub p (List.mem_cons_of_mem idx hp)) d hd'
  · rw [Heap.content_cons, Heap.readable_of_cache hidx, Heap.content_congr hpost, ← hdrop]
    rfl
  · intro p hp
    rw [hcache]
    exact R.cleared p (List.mem_append_left dead hp)
  · intro p hp
    rcases hmem p hp with rfl | hp
    · exact ⟨c, hidx⟩
    · rw [hpost p hp]
      exact hblock p (hsub p (List.mem_cons_of_mem idx hp))
  · intro p hp
    exact hnext p fun h => hp (by rw [R.split]; exact List.mem_append_left _ h)
  · intro p hp
    exact hprev p (fun h => hp (by rw [R.split]; exact List.mem_append_left _ h))
      (fun h => hp (h ▸ hsub idx List.mem_cons_self))
  · intro p hp hpi
    rw [hcache, R.other p hp hpi]
  · rw [Heap.readable_of_cache hidx]
    exact hstop

/-- **Draining** at most what the window holds. -/
theorem drain_spec (W : Window h l win) (hblock : ∀ p ∈ win, ∃ c, h.cache p = some c) {n : ℕ}
    (hn : n ≤ (h.content win).length) :
    ∃ h' idx post kept dead, l.drain h n =
        .ok (h', l.trimmed idx dead.length) ∧
      Drained h l win n h' idx post kept dead := by
  obtain ⟨f, pre, idx, post, R, hrun⟩ := W.drain_eq hblock hn
  by_cases htrim : (!pre.isEmpty) ∧ l.nodeSize > maxChinaSize
  · obtain ⟨hpre, hsize⟩ := htrim
    obtain ⟨r, dead, rfl⟩ : ∃ r dead, pre = r :: dead := by
      cases pre with
      | nil => simp at hpre
      | cons r dead => exact ⟨r, dead, rfl⟩
    have hread : r = l.read := by
      have := W.first
      simpa [R.split] using this
    subst hread
    have hlen := W.length_le_brk
    have hd := W.nodup
    have hlink := W.linked
    have hwin : win = (l.read :: (dead ++ [idx])) ++ post := by rw [R.split]; simp
    rw [hwin] at hlen hd hlink
    obtain ⟨hd, -, -⟩ := List.nodup_append.mp hd
    obtain ⟨hrd, hdi⟩ := List.nodup_cons.mp hd
    obtain ⟨h', hun, U⟩ := unlinkLoop_spec (h := { h with cache := f }) h.brk 0
      (by simp at hlen; omega)
      (List.nodup_cons.mpr ⟨fun h => hrd (List.mem_append_left _ h),
        (List.nodup_append.mp hdi).1⟩) hdi (linked_append.mp hlink).1
      (fun p hp => W.live p (by rw [hwin]; exact List.mem_append_left _ hp))
    refine ⟨h', idx, post, [l.read], dead, ?_, ?_⟩
    · rw [hrun, if_pos ⟨hpre, hsize⟩, hun]
      simp
    · refine LoopDrained.drained W hblock R (by simp [hsize]) U.cache U.brk U.live
        (fun p hp => U.next_other p fun h => hp (by simp [h]))
        (fun p hp hpi => U.prev_other p (fun h => hp (by simp [h])) hpi) ?_
      intro spare hring
      have hring' : Ring h.next h.prev (l.read :: dead ++ (idx :: post ++ spare)) := by
        rw [R.split] at hring
        simpa using hring
      have hrest : Ring h'.next h'.prev ([l.read] ++ (idx :: post ++ spare)) :=
        hring'.unlinkSegment (by simp) U.next_first U.prev_stop U.next_other U.prev_other
      exact hrest.rotate
  · refine ⟨{ h with cache := f }, idx, post, pre, [], ?_, ?_⟩
    · rw [hrun, if_neg htrim]
      simp
    · have hdead : ([] : List ℕ) = if l.nodeSize > maxChinaSize then (pre ++ []).tail else [] := by
        split
        · next hsize =>
          have hpre : pre = [] := by simpa [hsize] using htrim
          simp [hpre]
        · rfl
      refine LoopDrained.drained W hblock (by simpa using R) hdead rfl rfl (by simp)
        (fun _ _ => rfl) (fun _ _ _ => rfl) ?_
      intro spare hring
      rw [R.split, List.append_assoc] at hring
      exact hring.rotate

namespace Drained

variable {n idx p : ℕ} {post kept dead : List ℕ}

/-- The bytes behind the node where draining stopped are untouched. -/
theorem content_post (D : Drained h l win n h' idx post kept dead) (hd : win.Nodup) :
    h'.content post = h.content post := by
  rw [D.split] at hd
  obtain ⟨-, hip, hdis⟩ := List.nodup_append.mp hd
  refine Heap.content_congr fun q hq => D.cache_other q ?_ ?_
  · exact fun hk => hdis q hk q (List.mem_cons_of_mem idx hq) rfl
  · exact fun hqi => (List.nodup_cons.mp hip).1 (hqi ▸ hq)

/-- Draining stops at the block in which the request ends. -/
theorem lt_length (D : Drained h l win n h' idx post kept dead) (hd : win.Nodup)
    (hread : h'.readable idx ≠ []) : n < (h.content (kept ++ dead ++ [idx])).length := by
  have hpos := List.length_pos_iff.mpr hread
  have hlen := congrArg List.length D.content
  rw [D.split] at hlen
  simp only [Heap.content_cons, Heap.content_append, List.length_append, List.length_drop,
    D.content_post hd, Heap.content_nil, List.append_nil] at hlen ⊢
  omega

/-- The bytes of a deleted node, and all before it, are among those taken. -/
theorem covered (D : Drained h l win n h' idx post kept dead) (hp : p ∈ dead) :
    ∃ ds bs, win = kept ++ ds ++ p :: bs ∧ bs ≠ [] ∧
      (h.content (kept ++ ds ++ [p])).length ≤ n := by
  obtain ⟨ds, es, rfl⟩ := List.append_of_mem hp
  refine ⟨ds, es ++ idx :: post, by simp [D.split], by simp, le_trans ?_ D.passed⟩
  simp only [Heap.content_append, Heap.content_cons, List.length_append, Heap.content_nil,
    List.append_nil]
  omega

/-- Nodes are deleted from long chains only, and never the first one. -/
theorem of_mem_dead (D : Drained h l win n h' idx post kept dead) (hp : p ∈ dead) :
    l.nodeSize > maxChinaSize ∧ kept ≠ [] := by
  have htrim := D.trim
  by_cases hsize : l.nodeSize > maxChinaSize
  · refine ⟨hsize, ?_⟩
    rintro rfl
    rw [if_pos hsize, List.nil_append] at htrim
    have hlen := congrArg List.length htrim
    have hpos := List.length_pos_of_mem hp
    rw [List.length_tail] at hlen
    omega
  · rw [if_neg hsize] at htrim
    simp [htrim] at hp

/-- **The nodes deleted** by the clean-up are those behind the first one that the request
covers completely. -/
theorem mem_dead_iff (D : Drained h l win n h' idx post kept dead) (hd : win.Nodup)
    (hblocks : ∀ q ∈ win, h.readable q ≠ []) : p ∈ dead ↔ l.nodeSize > maxChinaSize ∧
      ∃ as bs, win = as ++ p :: bs ∧ as ≠ [] ∧ bs ≠ [] ∧
        (h.content (as ++ [p])).length ≤ n := by
  have htrim := D.trim
  constructor
  · intro hp
    obtain ⟨hsize, hkept⟩ := D.of_mem_dead hp
    obtain ⟨ds, bs, hwin, hbs, hle⟩ := D.covered hp
    exact ⟨hsize, kept ++ ds, bs, hwin, by simp [hkept], hbs, hle⟩
  · rintro ⟨hsize, as, bs, hwin, hne, hbs, hle⟩
    rw [if_pos hsize] at htrim
    have heq : as ++ [p] ++ bs = kept ++ dead ++ [idx] ++ post := by
      rw [List.append_assoc, List.append_assoc _ [idx] post]
      exact hwin.symm.trans D.split
    -- a node before another one of the window is not the last, where all may be taken
    have hpos : n < (h.content (kept ++ dead ++ [idx])).length ∨ post = [] := by
      rcases eq_or_ne post [] with hpost | hpost
      · exact Or.inr hpost
      · exact Or.inl (D.lt_length hd (D.stop hpost hblocks))
    have hpre : as ++ [p] <+: kept ++ dead := by
      rcases List.prefix_or_prefix_of_prefix (List.prefix_append (as ++ [p]) bs)
        (heq ▸ List.prefix_append (kept ++ dead ++ [idx]) post) with hp | hp
      · rcases List.prefix_concat_iff.mp hp with hp | hp
        · rcases hpos with hpos | hpost
          · rw [hp] at hle
            omega
          · rw [hp, hpost, List.append_nil, List.append_right_eq_self] at heq
            exact absurd heq hbs
        · exact hp
      · obtain ⟨cs, hcs⟩ := hp
        rcases hpos with hpos | hpost
        · rw [← hcs, Heap.content_append, List.length_append] at hle
          omega
        · rw [← hcs, hpost, List.append_nil, List.append_assoc, List.append_right_eq_self] at heq
          exact absurd (List.append_eq_nil_iff.mp heq).2 hbs
    obtain ⟨cs, hcs⟩ := hpre
    cases as with
    | nil => exact absurd rfl hne
    | cons r as =>
        rw [htrim, ← hcs]
        simp

end Drained

end Window
end Hare.Net
