import Hare.Net.Read
import Hare.Net.Remove

/-!
# What every buffer function does to a ring of its own

One specification per function of the buffer, in the form in which they compose: a buffer that
keeps a content in its own ring has, after the call, another content in another ring, and the
rest of the heap is as it was.  Blocks of the window may be empty, as reads leave them.

Two functions need `head` to survive what they do.  Draining may delete it, and joining two
contents may leave it on the spares that are dropped; the lemmas say so in their hypotheses.
-/

namespace Hare.Net

open LinkedRing LabelledRun Window

variable {h h' : Heap} {l l' : CacheList} {b b' : Buffer} {win spare ring ring' : List ℕ}
  {content bytes : List UInt8} {n : ℕ}

/-- The buffer keeps `content` in the nodes `ring`, and `head` is one of them. -/
structure Kept (h : Heap) (b : Buffer) (ring : List ℕ) (content : List UInt8) : Prop where
  carries : ∃ win spare, ring = win ++ spare ∧ Carries h b win spare content
  head : b.cacheChain.head ∈ ring

theorem Carries.frame (S : Carries h b win spare content) (E : Exchange h h' ring ring')
    (hdis : ∀ p ∈ win ++ spare, p ∉ ring) : Carries h' b win spare content := by
  have hcache : ∀ p ∈ win, h'.cache p = h.cache p := fun p hp =>
    E.cache p (S.chain.window.live p hp) (hdis p (List.mem_append_left spare hp))
  refine ⟨S.chain.frame E hdis, ?_, S.size_eq, fun p hp hor => ?_⟩
  · rw [Heap.content_congr hcache, S.content_eq]
  · rw [hcache p hp]
    exact S.blocks p hp hor

/-- A call on one buffer leaves the others as they are. -/
theorem Kept.frame {given taken : List ℕ} (K : Kept h b ring content)
    (E : Exchange h h' given taken) (hdis : ∀ p ∈ ring, p ∉ given) : Kept h' b ring content := by
  obtain ⟨win, spare, rfl, S⟩ := K.carries
  exact ⟨⟨win, spare, rfl, S.frame E hdis⟩, K.head⟩

theorem Kept.size_eq (K : Kept h b ring content) : b.totalLen = content.length := by
  obtain ⟨win, spare, -, S⟩ := K.carries
  exact S.size_eq

theorem Kept.live_of_mem (K : Kept h b ring content) {p : ℕ} (hp : p ∈ ring) :
    h.live p = true := by
  obtain ⟨win, spare, rfl, S⟩ := K.carries
  exact S.chain.live_of_mem hp

/-- An empty chain of one node. -/
theorem Chain.kept_nil {p : ℕ} (C : Chain h ⟨p, p, p, 1⟩ [p] []) (hread : h.readable p = []) :
    Kept h ⟨⟨p, p, p, 1⟩, 0⟩ [p] [] :=
  ⟨⟨[p], [], rfl, C, by simp [hread], rfl, fun q hq hor =>
    absurd (List.mem_singleton.mp hq) (hor.resolve_right (by simp))⟩, by simp⟩

/-! ## Construction and destruction -/

/-- A new buffer keeps nothing in a new node. -/
theorem Buffer.new_kept (h : Heap) : ∃ h' b, Buffer.new h = (h', b) ∧ Kept h' b [h.brk] [] ∧
    Exchange h h' [] [h.brk] ∧ h'.cache b.cacheChain.write = none ∧
    b.cacheChain = ⟨h.brk, h.brk, h.brk, 1⟩ := by
  obtain ⟨h', hnew, C, hnone, E⟩ := CacheList.new_spec h
  exact ⟨h', _, by simp [Buffer.new, hnew], C.kept_nil (by simp [Heap.readable, hnone]), E, hnone,
    rfl⟩

/-- Destroying a buffer deletes its ring. -/
theorem Kept.destroy (K : Kept h b ring content) :
    ∃ h', b.destroy h = .ok h' ∧ Exchange h h' ring [] := by
  obtain ⟨win, spare, rfl, S⟩ := K.carries
  exact S.chain.destroy_spec K.head

/-- Clearing a buffer deletes its ring but for one node. -/
theorem Kept.clearAll (K : Kept h b ring content) :
    ∃ h' b' ring', b.clearAll h = .ok (h', b') ∧ Kept h' b' ring' [] ∧
      Exchange h h' ring ring' := by
  obtain ⟨win, spare, rfl, S⟩ := K.carries
  obtain ⟨h', hrun, C, hread, E⟩ := S.chain.reset_spec K.head
  exact ⟨h', _, _, Buffer.clearAll_eq hrun, C.kept_nil hread, E⟩

/-! ## Adding -/

/-- Adding bytes within the cap, in a call that does not slide a block. -/
theorem Kept.add (K : Kept h b ring content) (hfits : bytes.length ≤ ptrdiffMax)
    (hcap : content.length + bytes.length ≤ maxSize)
    (hslide : ∀ c, h.cache b.cacheChain.write = some c → ¬ c.Slides bytes.length) :
    ∃ h' b' ring', b.add h bytes = .ok (true, h', b') ∧ Kept h' b' ring' (content ++ bytes) ∧
      Exchange h h' ring ring' := by
  obtain ⟨win, spare, rfl, S⟩ := K.carries
  have hsum : (b.totalLen + bytes.length) % 2 ^ 64 = (content ++ bytes).length := by
    rw [S.size_eq, List.length_append, Nat.mod_eq_of_lt]
    simp only [maxSize] at hcap
    omega
  obtain ⟨h', l', win', spare', hrun, G, hlast, -, -⟩ := S.chain.add_grown hfits
    (by rw [hsum, List.length_append]; exact hcap) hslide
  have hblocks := G.furnished S.chain (fun p hp hne => S.blocks p hp (Or.inl hne)) hlast
  refine ⟨h', _, _, hrun, ⟨⟨win', spare', rfl, G.chain, ?_, hsum, fun p hp _ => hblocks p hp⟩, ?_⟩,
    G.frame⟩
  · rw [G.content, S.content_eq]
  · exact G.head ▸ G.grows K.head

/-! ## Taking off the front -/

/-- A buffer keeps what it carries as long as `head` is alive. -/
theorem Kept.next {b' : Buffer} {content' : List UInt8} (K : Kept h b ring content)
    (S : Carries h' b' win spare content') (E : Exchange h h' ring (win ++ spare))
    (hhead : b'.cacheChain.head = b.cacheChain.head) (hlive : h'.live b'.cacheChain.head = true) :
    Kept h' b' (win ++ spare) content' :=
  ⟨⟨win, spare, rfl, S⟩, ((E.live _).mp hlive).resolve_left fun h => h.2 (hhead ▸ K.head)⟩

/-- Draining, where `head` survives it. -/
theorem Kept.drain (K : Kept h b ring content) (hne : content ≠ []) (hn : n ≤ content.length) :
    ∃ h' l' ring', b.cacheChain.drain h n = .ok (h', l') ∧ Exchange h h' ring ring' ∧
      (h'.live l'.head = true → Kept h' ⟨l', b.totalLen - n⟩ ring' (content.drop n)) := by
  obtain ⟨win, spare, rfl, S⟩ := K.carries
  obtain ⟨h', l', win', spare', hrun, S', E, hhead⟩ := S.drain_spec hne hn
  exact ⟨h', l', _, hrun, E, K.next S' E hhead⟩

/-- Skipping from the front. -/
theorem Kept.skip (K : Kept h b ring content)
    (hhead : ∀ h' b', b.skip h n = .ok (h', b') → h'.live b'.cacheChain.head = true) :
    ∃ h' b' ring', b.skip h n = .ok (h', b') ∧ Kept h' b' ring' (content.drop n) ∧
      Exchange h h' ring ring' := by
  have hlen := K.size_eq
  rcases Nat.lt_or_ge n b.totalLen with hlt | hge
  · have hne : content ≠ [] := by
      rintro rfl
      simp only [List.length_nil] at hlen
      omega
    obtain ⟨h', l', ring', hrun, E, hkept⟩ := K.drain hne (n := n) (by omega)
    have hskip := Buffer.skip_of_lt hlt hrun
    exact ⟨h', _, ring', hskip, hkept (hhead _ _ hskip), E⟩
  · obtain ⟨h', b', ring', hrun, K', E⟩ := K.clearAll
    refine ⟨h', b', ring', (Buffer.skip_of_le hge).trans hrun, ?_, E⟩
    rw [List.drop_of_length_le (hlen ▸ hge)]
    exact K'

/-- Removing from the front.  The caller's array stays as it was. -/
theorem Kept.remove {dest : List UInt8} (K : Kept h b ring content)
    (hdest : min n content.length ≤ dest.length)
    (hhead : ∀ k d h' b', b.remove h dest n = .ok (k, d, h', b') →
      h'.live b'.cacheChain.head = true) :
    ∃ h' b' ring', b.remove h dest n = .ok (min n content.length, dest, h', b') ∧
      Kept h' b' ring' (content.drop n) ∧ Exchange h h' ring ring' := by
  obtain ⟨win, spare, rfl, S⟩ := K.carries
  obtain ⟨h', b', win', spare', hrun, S', E, hsame⟩ := S.remove_spec hdest
  have hdrop : content.drop (min n content.length) = content.drop n := by
    rw [List.drop_eq_drop_iff]
    omega
  exact ⟨h', b', _, hrun, hdrop ▸ K.next S' E hsame (hhead _ _ _ _ hrun), E⟩

/-! ## Writing -/

/-- **Writing** takes a beginning of the content off, which is what is offered as far as the socket
accepts it; of a content in few blocks, as much as is asked for. -/
theorem Kept.write (K : Kept h b ring content) (howmuch accept : ℕ)
    (hhead : ∀ t h' b', b.write h howmuch accept = .ok (t, h', b') →
      h'.live b'.cacheChain.head = true) :
    ∃ taken h' b' ring', b.write h howmuch accept = .ok (taken, h', b') ∧
      taken <+: content ∧ taken.length ≤ accept ∧ (howmuch ≠ 0 → taken.length ≤ howmuch) ∧
      (∃ iov, b.offer h howmuch = .ok iov ∧ taken = iov.flatten.take accept) ∧
      (ring.length ≤ numWriteIovec →
        taken = (content.take (if howmuch = 0 then content.length else howmuch)).take accept) ∧
      Kept h' b' ring' (content.drop taken.length) ∧ Exchange h h' ring ring' := by
  obtain ⟨win, spare, rfl, S⟩ := K.carries
  have hblock (hne : b.totalLen ≠ 0) (p : ℕ) (hp : p ∈ win) : ∃ c, h.cache p = some c :=
    S.blocks p hp (.inr fun hnil => hne (by rw [S.size_eq, hnil, List.length_nil]))
  obtain ⟨iov, ho, hflat⟩ :=
    S.chain.window.offer_spec hblock (by rw [S.content_eq, S.size_eq]) howmuch
  have hpre : iov.flatten.take accept <+: content := by
    rw [hflat, ← S.content_eq]
    refine (List.take_prefix _ _).trans ((List.take_prefix _ _).trans ?_)
    conv_rhs => rw [← List.take_append_drop numWriteIovec win, Heap.content_append]
    exact List.prefix_append _ _
  have hmuch : howmuch ≠ 0 → (iov.flatten.take accept).length ≤ howmuch := by
    intro hz
    rw [hflat, if_neg hz, List.length_take, List.length_take]
    omega
  have hfew : (win ++ spare).length ≤ numWriteIovec → iov.flatten.take accept =
      (content.take (if howmuch = 0 then content.length else howmuch)).take accept := by
    intro hring
    rw [List.length_append] at hring
    rw [hflat, List.take_of_length_le (by omega : win.length ≤ numWriteIovec), S.content_eq,
      S.size_eq]
    split
    · rfl
    · rw [← List.take_eq_take_min]
  by_cases hnil : iov.flatten.take accept = []
  · refine ⟨[], h, b, _, Buffer.write_of_nil ho hnil, List.nil_prefix, Nat.zero_le _,
      fun _ => Nat.zero_le _, ⟨iov, ho, hnil.symm⟩, fun hring => hnil ▸ hfew hring, K,
      .same (fun p hp => K.live_of_mem hp) fun _ => Iff.rfl⟩
  · have hne : content ≠ [] := by
      rintro rfl
      exact hnil (List.prefix_nil.mp hpre)
    obtain ⟨h', l', ring', hdrain, E, hkept⟩ := K.drain hne hpre.length_le
    have hrun : b.write h howmuch accept = .ok (iov.flatten.take accept, h',
        ⟨l', b.totalLen - (iov.flatten.take accept).length⟩) := by
      rw [Buffer.write, ho]
      simp only [ok_bind, if_neg hnil, hdrain]
      rfl
    exact ⟨_, h', _, ring', hrun, hpre, List.length_take_le _ _, hmuch, ⟨iov, ho, rfl⟩, hfew,
      hkept (hhead _ _ _ hrun), E⟩

/-! ## Reading -/

/-- **Reading** appends what arrives, as much of it as was asked for at least. -/
theorem Kept.read {fuel maxRead available howmuch : ℕ} {r : Heap × CacheList × ℕ}
    (K : Kept h b ring content)
    (hexp : b.cacheChain.fastExpand fuel h (Buffer.request maxRead available howmuch) = .ok r)
    (arrived : Option (List UInt8))
    (hmem : content.length + (arrived.getD []).length < 2 ^ 64) :
    ∃ k h' b' ring', b.read fuel h maxRead available howmuch arrived = .ok (k, h', b') ∧
      k ≤ (arrived.getD []).length ∧
      min (arrived.getD []).length (Buffer.request maxRead available howmuch) ≤ k ∧
      Kept h' b' ring' (content ++ (arrived.getD []).take k) ∧ Exchange h h' ring ring' := by
  obtain ⟨win, spare, rfl, S⟩ := K.carries
  obtain ⟨h₁, l₁, win₁, spare₁, E, rfl⟩ := S.chain.expanded_of_ok hexp
  have hroom := E.room
  obtain ⟨bytes, hbytes⟩ : ∃ bytes,
      Buffer.received ((l₁.write :: spare₁).map (vecOf h₁)) arrived = bytes := ⟨_, rfl⟩
  have hlen : bytes.length = min (((l₁.write :: spare₁).map h₁.writeable).sum)
      (arrived.getD []).length := by
    rw [← hbytes, Buffer.received, List.length_take, room_map_vecOf]
  have htake : bytes = (arrived.getD []).take bytes.length := by
    rw [← hbytes, Buffer.received, List.length_take, ← List.take_eq_take_min]
  obtain ⟨h', l', size, win', spare', hread, hsize, S', F, hgrows, hhead⟩ :=
    E.read_spec S (prepareRead_eq E hexp) hbytes
  obtain rfl := hsize (Or.inl (by omega))
  refine ⟨_, h', _, _, hread, by omega, by omega,
    ⟨⟨win', spare', rfl, by rw [← htake]; exact S'⟩, ?_⟩, F⟩
  exact hhead ▸ hgrows K.head

/-! ## Appending -/

/-- **Appending** joins two contents, where the first has no spares to lose. -/
theorem Kept.append {a : Buffer} {ra rb : List ℕ} {x y : List UInt8} (A : Kept h a ra x)
    (B : Kept h b rb y) (hdis : ∀ p ∈ ra, p ∉ rb) (hmem : x.length + y.length < 2 ^ 64)
    (hspare : x = [] ∨ y = [] ∨ h.next a.cacheChain.write = a.cacheChain.read) :
    ∃ h' a' b' ra' rb', a.append h b = .ok (h', a', b') ∧ Kept h' a' ra' (x ++ y) ∧
      Kept h' b' rb' [] ∧ (∀ p ∈ ra', p ∉ rb') ∧ Exchange h h' (ra ++ rb) (ra' ++ rb') := by
  have hlive : ∀ p ∈ ra ++ rb, h.live p = true := fun p hp =>
    (List.mem_append.mp hp).elim A.live_of_mem B.live_of_mem
  have hsum : (a.totalLen + b.totalLen) % 2 ^ 64 = (x ++ y).length := by
    rw [A.size_eq, B.size_eq, List.length_append, Nat.mod_eq_of_lt hmem]
  rcases eq_or_ne y [] with rfl | hy
  · have hz : b.totalLen = 0 := B.size_eq
    exact ⟨h, a, b, ra, rb, by rw [Buffer.append, if_pos hz], by simpa using A, B, hdis,
      .same hlive fun _ => Iff.rfl⟩
  have hb : b.totalLen ≠ 0 := fun hz => hy (List.length_eq_zero_iff.mp (B.size_eq ▸ hz))
  rcases eq_or_ne x [] with rfl | hx
  · -- the chains change hands
    have hz : a.totalLen = 0 := A.size_eq
    have hsize : (a.totalLen + b.totalLen) % 2 ^ 64 = b.totalLen := hsum.trans B.size_eq.symm
    refine ⟨h, b, ⟨a.cacheChain, 0⟩, rb, ra, ?_, B, hz ▸ A, fun p hp hp' => hdis p hp' hp,
      .same hlive fun p => by simp [or_comm]⟩
    rw [Buffer.append, if_neg hb, if_pos hz, hsize]
  · have ha : a.totalLen ≠ 0 := fun hz => hx (List.length_eq_zero_iff.mp (A.size_eq ▸ hz))
    obtain ⟨wa, sa, rfl, SA⟩ := A.carries
    obtain ⟨wb, sb, rfl, SB⟩ := B.carries
    obtain rfl := SA.chain.spare_eq_nil_iff.mpr ((hspare.resolve_left hx).resolve_left hy)
    simp only [List.append_nil] at hdis A ⊢
    obtain ⟨h', l', other', sb', hrun, P⟩ := SA.chain.window.append_spec SB.chain hdis
    have hcount : l'.nodeSize = (wa ++ wb ++ []).length := by
      have := SA.chain.count
      simp only [List.append_nil] at this
      simp [P.list, this]
    refine ⟨h', ⟨l', (a.totalLen + b.totalLen) % 2 ^ 64⟩, ⟨other', 0⟩, wa ++ wb,
      [other'.write] ++ sb', ?_, ⟨⟨wa ++ wb, [], by simp,
        ⟨P.window, by simpa using P.ring, by simp, by simp, hcount⟩, ?_, hsum, ?_⟩, ?_⟩,
      ⟨⟨[other'.write], sb', rfl, P.rest, by simp [P.empty], rfl, ?_⟩, by simp [P.head]⟩, P.apart,
      by simpa using P.frame⟩
    · rw [Buffer.append, if_neg hb, if_neg ha, hrun]
      rfl
    · rw [Heap.content_congr P.cache, Heap.content_append, SA.content_eq, SB.content_eq]
    · intro p hp _
      rw [P.cache p hp]
      exact (List.mem_append.mp hp).elim (fun h => SA.blocks p h (Or.inr hx))
        fun h => SB.blocks p h (Or.inr hy)
    · rw [P.list]
      exact List.mem_append_left wb A.head
    · intro p hp hor
      exact absurd (List.mem_singleton.mp hp) (hor.resolve_right (by simp))

end Hare.Net
