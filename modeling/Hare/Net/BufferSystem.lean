import Hare.Net.Add
import Hare.Net.Splice

/-!
# Several buffers in one heap

Buffers exchange nodes: `Buffer.append` moves the blocks of one buffer behind those of
another.  The system below owns any number of buffers and performs any calls on them.  Its
nodes are well kept (`Partition`) when every chain owns a closed ring, the rings are
disjoint, and together they are all the nodes there are; then every node is deleted once
when the buffers are destroyed.

A call keeps this exactly when it is `Conserving`.  Besides the two conditions known from
a single buffer, a buffer that takes over blocks must not have spares: the splice closes
the ring over the two windows and leaves the spares of the first buffer outside, `head`
possibly among them.
-/

namespace Hare.Net

open LinkedRing LabelledRun Ownership Window

/-- The buffers of a program. -/
structure System where
  heap : Heap
  buffers : List Buffer

/-- The calls on them; buffers are named by their position. -/
inductive SystemCall
  | new
  | add (i : ℕ) (payload : Payload)
  | skip (i n : ℕ)
  | write (i howmuch accept : ℕ)
  | append (i j : ℕ)

namespace System

def init : System := ⟨Heap.init, []⟩

/-- Perform a call on the buffer at a position, if there is one. -/
def on (s : System) (i : ℕ) (call : Buffer → Except Fault (Heap × Buffer)) :
    Except Fault System :=
  match s.buffers[i]? with
  | some b => do
    let (h, b) ← call b
    pure ⟨h, s.buffers.set i b⟩
  | none => .ok s

def step (s : System) : SystemCall → Except Fault System
  | .new =>
    let (h, b) := Buffer.new s.heap
    .ok ⟨h, s.buffers ++ [b]⟩
  | .add i payload => s.on i fun b => do
    let (_, h, b) ← b.add s.heap payload.bytes
    pure (h, b)
  | .skip i n => s.on i fun b => b.skip s.heap n
  | .write i howmuch accept => s.on i fun b => do
    let (_, h, b) ← b.write s.heap howmuch accept
    pure (h, b)
  | .append i j =>
    match s.buffers[i]?, s.buffers[j]? with
    | some a, some b =>
      -- a buffer appended to itself stays as it is
      if i = j then .ok s
      else do
        let (h, a, b) ← a.append s.heap b
        pure ⟨h, (s.buffers.set i a).set j b⟩
    | _, _ => .ok s

/-- The buffers are destroyed one after the other. -/
def destroyAll (h : Heap) : List Buffer → Except Fault Heap
  | [] => .ok h
  | b :: bs => do
    let h ← b.destroy h
    destroyAll h bs

section On
variable {s : System} {i : ℕ} {b b' : Buffer} {h : Heap}
  {call : Buffer → Except Fault (Heap × Buffer)}

theorem on_of_none (hb : s.buffers[i]? = none) : s.on i call = .ok s := by simp [on, hb]

theorem on_of_ok (hb : s.buffers[i]? = some b) (hrun : call b = .ok (h, b')) :
    s.on i call = .ok ⟨h, s.buffers.set i b'⟩ := by
  simp [on, hb, hrun]

/-- A call that changes nothing. -/
theorem on_of_same (hb : s.buffers[i]? = some b) (hrun : call b = .ok (s.heap, b)) :
    s.on i call = .ok s := by
  obtain ⟨hi, rfl⟩ := List.getElem?_eq_some_iff.mp hb
  rw [on_of_ok hb hrun, List.set_getElem_self hi]

end On

end System

/-- Each buffer owns its ring, the rings are disjoint, and every node is on one of them. -/
structure Partition (s : System) (rings : ℕ → List ℕ) : Prop where
  owns : ∀ i b, s.buffers[i]? = some b → OwnsRing s.heap b.cacheChain (rings i)
  disjoint : ∀ i j a b, i ≠ j → s.buffers[i]? = some a → s.buffers[j]? = some b →
    ∀ p ∈ rings i, p ∉ rings j
  all : ∀ p, s.heap.live p = true ↔ ∃ i b, s.buffers[i]? = some b ∧ p ∈ rings i

/-- The nodes are partitioned before and after the call, and appending keeps the nodes of
the two buffers between them. -/
def Conserves (s : System) (call : SystemCall) (s' : System) : Prop :=
  ∃ rings rings', Partition s rings ∧ Partition s' rings' ∧
    ∀ i j a b, call = .append i j → s.buffers[i]? = some a → s.buffers[j]? = some b →
      ∀ p, p ∈ rings i ∨ p ∈ rings j → p ∈ rings' i ∨ p ∈ rings' j

/-- The call slides no block, deletes no `head`, and takes over blocks only into a buffer
without spares. -/
def Conserving (s : System) : SystemCall → Prop
  | .new => True
  | .add i payload => ∀ b, s.buffers[i]? = some b →
    (b.totalLen + payload.bytes.length) % 2 ^ 64 ≤ maxSize →
    ∀ c, s.heap.cache b.cacheChain.write = some c → ¬ c.Slides payload.bytes.length
  | .skip i n => ∀ b, s.buffers[i]? = some b → n < b.totalLen →
    ¬ TrimsHead s.heap b.cacheChain n
  | .write i howmuch accept => ∀ b iov, s.buffers[i]? = some b →
    b.offer s.heap howmuch = .ok iov →
    ¬ TrimsHead s.heap b.cacheChain (min accept iov.flatten.length)
  | .append i j => ∀ a b, i ≠ j → s.buffers[i]? = some a → s.buffers[j]? = some b →
    a.totalLen = 0 ∨ b.totalLen = 0 ∨ s.heap.next a.cacheChain.write = a.cacheChain.read

/-- A buffer with content in a closed ring that `head` is on. -/
structure Sound (h : Heap) (b : Buffer) (ring : List ℕ) : Prop where
  holds : ∃ win spare content, ring = win ++ spare ∧ Holds h b win content ∧
    Chain h b.cacheChain win spare
  head : b.cacheChain.head ∈ ring

theorem Sound.frame {h h' : Heap} {b : Buffer} {ring given taken : List ℕ} (S : Sound h b ring)
    (E : Exchange h h' given taken) (hdis : ∀ p ∈ ring, p ∉ given) : Sound h' b ring := by
  obtain ⟨win, spare, content, rfl, H, C⟩ := S.holds
  exact ⟨⟨win, spare, content, rfl, H.frame E fun p hp => hdis p (List.mem_append_left _ hp),
    C.frame E hdis⟩, S.head⟩

/-- The invariant of the runs, with the ring of each buffer. -/
structure System.Inv (s : System) (rings : ℕ → List ℕ) : Prop where
  sound : ∀ i b, s.buffers[i]? = some b → Sound s.heap b (rings i)
  vacant : ∀ i, s.buffers[i]? = none → rings i = []
  owned : Owned {p | s.heap.live p = true} fun i => {p | p ∈ rings i}

namespace System.Inv

variable {s s' : System} {rings : ℕ → List ℕ}

theorem init : System.init.Inv fun _ => [] :=
  ⟨by simp [System.init], fun _ _ => rfl, by simp, by simp [System.init, Heap.init]⟩

theorem disjoint (I : s.Inv rings) {i j : ℕ} (hij : i ≠ j) : ∀ p ∈ rings i, p ∉ rings j :=
  fun _ hp hp' => hij (I.owned.unique hp hp')

theorem partition (I : s.Inv rings) : Partition s rings := by
  refine ⟨fun i b hb => ?_, fun i j _ _ hij _ _ => I.disjoint hij, fun p => ?_⟩
  · obtain ⟨win, spare, content, hring, -, C⟩ := (I.sound i b hb).holds
    rw [hring]
    exact C.ownsRing (hring ▸ (I.sound i b hb).head)
  · refine (I.owned.all p).trans (exists_congr fun i => ?_)
    cases hb : s.buffers[i]? with
    | none => simp [I.vacant i hb]
    | some b => simp

/-- The invariant along a call on one buffer, or one that makes it. -/
theorem put (I : s.Inv rings) {i : ℕ} {b : Buffer} {ring : List ℕ}
    (hget : s'.buffers[i]? = some b) (hsame : ∀ j, j ≠ i → s'.buffers[j]? = s.buffers[j]?)
    (E : Exchange s.heap s'.heap (rings i) ring) (S : Sound s'.heap b ring) :
    s'.Inv (Function.update rings i ring) := by
  refine ⟨fun j c hc => ?_, fun j hj => ?_, E.owned I.owned⟩ <;> by_cases hji : j = i
  · subst hji
    rw [Function.update_self, Option.some.inj (hc.symm.trans hget)]
    exact S
  · rw [Function.update_of_ne hji]
    exact (I.sound j c (hsame j hji ▸ hc)).frame E (I.disjoint hji)
  · rw [hji, hget] at hj
    cases hj
  · rw [Function.update_of_ne hji]
    exact I.vacant j (hsame j hji ▸ hj)

theorem set (I : s.Inv rings) {i : ℕ} {b b' : Buffer} {h' : Heap} {ring : List ℕ}
    (hb : s.buffers[i]? = some b) (E : Exchange s.heap h' (rings i) ring) (S : Sound h' b' ring) :
    System.Inv ⟨h', s.buffers.set i b'⟩ (Function.update rings i ring) :=
  I.put (List.getElem?_set_self (List.getElem?_eq_some_iff.mp hb).1)
    (fun _ hj => List.getElem?_set_ne (Ne.symm hj)) E S

/-- The invariant along a call on two buffers. -/
theorem set_two (I : s.Inv rings) {i j : ℕ} {a b a' b' : Buffer} {h' : Heap} {ra rb : List ℕ}
    (hij : i ≠ j) (ha : s.buffers[i]? = some a) (hb : s.buffers[j]? = some b)
    (E : Exchange s.heap h' (rings i ++ rings j) (ra ++ rb))
    (A : Sound h' a' ra) (B : Sound h' b' rb) (hdis : ∀ p ∈ ra, p ∉ rb) :
    System.Inv ⟨h', (s.buffers.set i a').set j b'⟩
      (Function.update (Function.update rings i ra) j rb) := by
  have hi : i < s.buffers.length := (List.getElem?_eq_some_iff.mp ha).1
  have hj : j < (s.buffers.set i a').length := by
    rw [List.length_set]
    exact (List.getElem?_eq_some_iff.mp hb).1
  refine ⟨fun k c hc => ?_, fun k hk => ?_, E.owned_two hij I.owned hdis⟩ <;>
    by_cases hkj : k = j <;> by_cases hki : k = i
  · exact absurd (hki.symm.trans hkj) hij
  · rw [hkj, List.getElem?_set_self hj, Option.some.injEq] at hc
    rw [hkj, Function.update_self, ← hc]
    exact B
  · rw [hki, List.getElem?_set_ne (Ne.symm hij), List.getElem?_set_self hi,
      Option.some.injEq] at hc
    rw [hki, Function.update_of_ne hij, Function.update_self, ← hc]
    exact A
  · rw [List.getElem?_set_ne (Ne.symm hkj), List.getElem?_set_ne (Ne.symm hki)] at hc
    rw [Function.update_of_ne hkj, Function.update_of_ne hki]
    refine (I.sound k c hc).frame E fun p hp hp' => ?_
    exact (List.mem_append.mp hp').elim (I.disjoint hki p hp) (I.disjoint hkj p hp)
  · exact absurd (hki.symm.trans hkj) hij
  · rw [hkj, List.getElem?_set_self hj] at hk
    cases hk
  · rw [hki, List.getElem?_set_ne (Ne.symm hij), List.getElem?_set_self hi] at hk
    cases hk
  · rw [List.getElem?_set_ne (Ne.symm hkj), List.getElem?_set_ne (Ne.symm hki)] at hk
    rw [Function.update_of_ne hkj, Function.update_of_ne hki]
    exact I.vacant k hk

/-! ## Steps -/

theorem step_new (I : s.Inv rings) : ∃ s' rings', s.step .new = .ok s' ∧ s'.Inv rings' := by
  obtain ⟨h', b, hnew, C, H, E, hhead, -⟩ := Buffer.new_spec s.heap
  have E' : Exchange s.heap h' (rings s.buffers.length) [s.heap.brk] := by
    rwa [I.vacant _ (List.getElem?_eq_none le_rfl)]
  have hlast : (s.buffers ++ [b])[s.buffers.length]? = some b := by simp
  refine ⟨⟨h', s.buffers ++ [b]⟩, _, by simp [System.step, hnew], I.put hlast (fun i hi => ?_)
    E' ⟨⟨[s.heap.brk], [], [], rfl, H, C⟩, by simp [hhead]⟩⟩
  rcases Nat.lt_or_gt_of_ne hi with hlt | hgt
  · exact List.getElem?_append_left hlt
  · rw [List.getElem?_eq_none (by simp; omega), List.getElem?_eq_none (by omega)]

theorem step_add (I : s.Inv rings) {i : ℕ} {payload : Payload}
    (hcond : Conserving s (.add i payload)) :
    ∃ s' rings', s.step (.add i payload) = .ok s' ∧ s'.Inv rings' := by
  cases hb : s.buffers[i]? with
  | none => exact ⟨s, rings, System.on_of_none hb, I⟩
  | some b =>
      have S := I.sound i b hb
      obtain ⟨win, spare, content, hring, H, C⟩ := S.holds
      by_cases hcap : (b.totalLen + payload.bytes.length) % 2 ^ 64 ≤ maxSize
      · obtain ⟨h', b', win', spare', hrun, H', C', E, hsub, hhead, -⟩ :=
          H.add_spec C payload.fits hcap (hcond b hb hcap)
        exact ⟨_, _, System.on_of_ok hb (by simp [hrun]), I.set hb (hring ▸ E)
          ⟨⟨win', spare', _, rfl, H', C'⟩, hhead ▸ hsub (hring ▸ S.head)⟩⟩
      · exact ⟨s, rings, System.on_of_same hb (by simp [Buffer.add_refused hcap]), I⟩

section Drain
variable {i n idx total : ℕ} {b : Buffer} {h' : Heap} {win spare post kept dead : List ℕ}
  {content content' : List UInt8}

/-- The invariant after the front of a buffer has been drained. -/
theorem drained (I : s.Inv rings) (hb : s.buffers[i]? = some b) (hring : rings i = win ++ spare)
    (C : Chain s.heap b.cacheChain win spare) (hne : content ≠ [])
    (H : Holds s.heap b win content)
    (D : Drained s.heap b.cacheChain win n h' idx post kept dead)
    (H' : Holds h' ⟨b.cacheChain.trimmed idx dead.length, total⟩ (idx :: post) content')
    (htrim : ¬ TrimsHead s.heap b.cacheChain n) :
    System.Inv ⟨h', s.buffers.set i ⟨b.cacheChain.trimmed idx dead.length, total⟩⟩
      (Function.update rings i (idx :: post ++ (spare ++ kept))) := by
  have hhead := (I.sound i b hb).head
  rw [hring] at hhead
  refine I.set hb (hring ▸ D.exchange C) ⟨⟨_, _, _, rfl, H', D.chain C⟩, ?_⟩
  have hdead : b.cacheChain.head ∉ dead := (D.head_mem_dead_iff H hne).not.mpr htrim
  have hmem := (D.exchange C).live b.cacheChain.head
  rw [D.live] at hmem
  exact (hmem.mp ⟨C.live_of_mem hhead, hdead⟩).resolve_left fun h => h.2 hhead

theorem step_skip (I : s.Inv rings) (hcond : Conserving s (.skip i n)) :
    ∃ s' rings', s.step (.skip i n) = .ok s' ∧ s'.Inv rings' := by
  cases hb : s.buffers[i]? with
  | none => exact ⟨s, rings, System.on_of_none hb, I⟩
  | some b =>
      have S := I.sound i b hb
      obtain ⟨win, spare, content, hring, H, C⟩ := S.holds
      rcases Nat.lt_or_ge n b.totalLen with hlt | hge
      · have hne := H.ne_nil_of_size (Nat.ne_of_gt (Nat.zero_lt_of_lt hlt))
        obtain ⟨h', idx, post, kept, dead, hrun, D, H'⟩ := H.drain_spec hne hlt.le
        exact ⟨_, _, System.on_of_ok hb (Buffer.skip_of_lt hlt hrun),
          I.drained hb hring C hne H D H' (hcond b hb hlt)⟩
      · obtain ⟨h', hrun, C', hread, E⟩ := C.reset_spec (hring ▸ S.head)
        have hskip := (Buffer.skip_of_le hge).trans (Buffer.clearAll_eq hrun)
        exact ⟨_, _, System.on_of_ok hb hskip, I.set hb (hring ▸ E)
          ⟨⟨_, [], [], rfl, ⟨C'.window, by simp [hread], rfl, Or.inl rfl⟩, C'⟩, by simp⟩⟩

theorem step_write (I : s.Inv rings) {howmuch accept : ℕ}
    (hcond : Conserving s (.write i howmuch accept)) :
    ∃ s' rings', s.step (.write i howmuch accept) = .ok s' ∧ s'.Inv rings' := by
  cases hb : s.buffers[i]? with
  | none => exact ⟨s, rings, System.on_of_none hb, I⟩
  | some b =>
      obtain ⟨win, spare, content, hring, H, C⟩ := (I.sound i b hb).holds
      obtain ⟨iov, ho, -⟩ := H.offer_spec howmuch
      by_cases hnil : iov.flatten.take accept = []
      · exact ⟨s, rings, System.on_of_same hb (by simp [Buffer.write_of_nil ho hnil]), I⟩
      · obtain ⟨h', idx, post, kept, dead, hrun, D, H'⟩ := H.write_spec ho hnil
        refine ⟨_, _, System.on_of_ok hb (by simp only [hrun]; rfl),
          I.drained hb hring C (H.ne_nil_of_taken ho hnil) H D H' ?_⟩
        rw [List.length_take]
        exact hcond b iov hb ho

end Drain

section Append
variable {i j : ℕ} {a b : Buffer} {wa wb sa sb : List ℕ} {ca cb : List UInt8}

theorem step_append_of_same (ha : s.buffers[i]? = some a) (hb : s.buffers[j]? = some b)
    (hij : i ≠ j) (hrun : a.append s.heap b = .ok (s.heap, a, b)) :
    s.step (.append i j) = .ok s := by
  obtain ⟨hi, rfl⟩ := List.getElem?_eq_some_iff.mp ha
  obtain ⟨hj, rfl⟩ := List.getElem?_eq_some_iff.mp hb
  simp [System.step, ha, hb, hij, hrun]

theorem step_append_of_ok {a' b' : Buffer} {h' : Heap} (ha : s.buffers[i]? = some a)
    (hb : s.buffers[j]? = some b) (hij : i ≠ j) (hrun : a.append s.heap b = .ok (h', a', b')) :
    s.step (.append i j) = .ok ⟨h', (s.buffers.set i a').set j b'⟩ := by
  simp [System.step, ha, hb, hij, hrun]

/-- An empty buffer takes the chain of the other. -/
theorem step_append_swap (I : s.Inv rings) (hij : i ≠ j) (ha : s.buffers[i]? = some a)
    (hb : s.buffers[j]? = some b) (hza : a.totalLen = 0) (hnb : b.totalLen ≠ 0) :
    ∃ s' rings', s.step (.append i j) = .ok s' ∧ s'.Inv rings' ∧
      ∀ p, p ∈ rings i ∨ p ∈ rings j → p ∈ rings' i ∨ p ∈ rings' j := by
  have A := I.sound i a ha
  have B := I.sound j b hb
  obtain ⟨wa, sa, ca, hra, Ha, Ca⟩ := A.holds
  obtain ⟨wb, sb, cb, -, Hb, -⟩ := B.holds
  have hsize : (a.totalLen + b.totalLen) % 2 ^ 64 = b.totalLen := by
    rw [hza, Hb.size_eq, Nat.zero_add, Nat.mod_mod]
  have hrun : a.append s.heap b = .ok (s.heap, b, ⟨a.cacheChain, 0⟩) := by
    rw [Buffer.append, if_neg hnb, if_pos hza, hsize]
  have A' : Sound s.heap ⟨a.cacheChain, 0⟩ (rings i) :=
    ⟨⟨wa, sa, ca, hra, ⟨Ha.window, Ha.content_eq, hza ▸ Ha.size_eq, Ha.blocks⟩, Ca⟩, A.head⟩
  have E : Exchange s.heap s.heap (rings i ++ rings j) (rings j ++ rings i) :=
    .same (fun p hp => (List.mem_append.mp hp).elim I.owned.mem_live I.owned.mem_live)
      fun p => by simp [or_comm]
  refine ⟨_, _, step_append_of_ok ha hb hij hrun,
    I.set_two hij ha hb E B A' (I.disjoint (Ne.symm hij)), fun p hp => ?_⟩
  simpa [hij, or_comm] using hp

/-- What the splice of two buffers with content does. -/
theorem step_append_splice (hij : i ≠ j) (ha : s.buffers[i]? = some a)
    (hb : s.buffers[j]? = some b) (hna : a.totalLen ≠ 0) (hnb : b.totalLen ≠ 0)
    (Ha : Holds s.heap a wa ca) (Hb : Holds s.heap b wb cb)
    (Cb : Chain s.heap b.cacheChain wb sb) (hdis : ∀ p ∈ wa, p ∉ wb ++ sb) :
    ∃ h' l' other' sb', Spliced s.heap a.cacheChain b.cacheChain wa wb sb h' l' other' sb' ∧
      (∃ content, Holds h' ⟨l', (a.totalLen + b.totalLen) % 2 ^ 64⟩ (wa ++ wb) content) ∧
      (∃ content, Holds h' ⟨other', 0⟩ [other'.write] content) ∧
      s.step (.append i j) = .ok ⟨h', (s.buffers.set i ⟨l', (a.totalLen + b.totalLen) % 2 ^ 64⟩).set
        j ⟨other', 0⟩⟩ := by
  obtain ⟨h', l', other', sb', hrun, P⟩ := Ha.window.append_spec Cb hdis
  obtain ⟨Ha', Hb'⟩ := P.holds Ha Hb (Ha.ne_nil_of_size hna) (Hb.ne_nil_of_size hnb)
  refine ⟨h', l', other', sb', P, ⟨_, Ha'⟩, ⟨_, Hb'⟩, step_append_of_ok ha hb hij ?_⟩
  rw [Buffer.append, if_neg hnb, if_neg hna, hrun]
  rfl

theorem step_append (I : s.Inv rings) (hcond : Conserving s (.append i j)) :
    ∃ s' rings', s.step (.append i j) = .ok s' ∧ s'.Inv rings' ∧
      ((∃ a, s.buffers[i]? = some a) → (∃ b, s.buffers[j]? = some b) →
      ∀ p, p ∈ rings i ∨ p ∈ rings j → p ∈ rings' i ∨ p ∈ rings' j) := by
  cases ha : s.buffers[i]? with
  | none => exact ⟨s, rings, by simp [System.step, ha], I, by simp⟩
  | some a =>
    cases hb : s.buffers[j]? with
    | none => exact ⟨s, rings, by simp [System.step, hb], I, by simp⟩
    | some b =>
      by_cases hij : i = j
      · exact ⟨s, rings, by simp [System.step, hb, hij], I, fun _ _ p hp => hp⟩
      by_cases hzb : b.totalLen = 0
      · exact ⟨s, rings, step_append_of_same ha hb hij (by rw [Buffer.append, if_pos hzb]), I,
          fun _ _ p hp => hp⟩
      by_cases hza : a.totalLen = 0
      · obtain ⟨s', rings', hrun, I', hkeep⟩ := I.step_append_swap hij ha hb hza hzb
        exact ⟨s', rings', hrun, I', fun _ _ => hkeep⟩
      have hhead := (I.sound i a ha).head
      obtain ⟨wa, sa, ca, hra, Ha, Ca⟩ := (I.sound i a ha).holds
      obtain ⟨wb, sb, cb, hrb, Hb, Cb⟩ := (I.sound j b hb).holds
      have hdis := I.disjoint hij
      -- without spares nothing is left outside the new ring
      obtain rfl := Ca.spare_eq_nil_iff.mpr
        (((hcond a b hij ha hb).resolve_left hza).resolve_left hzb)
      have hcount := Ca.count
      rw [List.append_nil] at hra hcount
      rw [hra] at hdis hhead
      obtain ⟨h', l', other', sb', P, ⟨ca', Ha'⟩, ⟨cb', Hb'⟩, hrun⟩ :=
        step_append_splice hij ha hb hza hzb Ha Hb Cb (hrb ▸ hdis)
      have hcount' : l'.nodeSize = (wa ++ wb ++ []).length := by simp [P.list, hcount]
      have hE : Exchange s.heap h' (rings i ++ rings j) (wa ++ wb ++ ([other'.write] ++ sb')) := by
        simpa [hra, hrb] using P.frame
      refine ⟨_, _, hrun, I.set_two hij ha hb hE
        ⟨⟨wa ++ wb, [], ca', by simp, Ha', P.window, by simpa using P.ring, by simp, by simp,
          hcount'⟩, by simp [P.list, hhead]⟩
        ⟨⟨_, _, cb', rfl, Hb', P.rest⟩, by simp [P.head]⟩ P.apart, fun _ _ p hp => ?_⟩
      have hspares := P.spares p
      rw [hra, hrb, List.mem_append] at hp
      simp only [Function.update_self, Function.update_of_ne hij, List.mem_append, List.mem_cons,
        List.not_mem_nil, or_false] at hspares ⊢
      tauto

end Append

/-- A call that meets the condition. -/
theorem step_conserving (I : s.Inv rings) {call : SystemCall} (hcond : Conserving s call) :
    ∃ s', s.step call = .ok s' ∧ Conserves s call s' ∧ ∃ rings', s'.Inv rings' := by
  have conserves : ∀ {s' rings'}, s'.Inv rings' → (∀ i j, call ≠ .append i j) →
      Conserves s call s' := fun I' hcall =>
    ⟨_, _, I.partition, I'.partition, fun i j _ _ h => absurd h (hcall i j)⟩
  cases call with
  | new =>
      obtain ⟨s', rings', hrun, I'⟩ := I.step_new
      exact ⟨s', hrun, conserves I' (by simp), rings', I'⟩
  | add i payload =>
      obtain ⟨s', rings', hrun, I'⟩ := I.step_add hcond
      exact ⟨s', hrun, conserves I' (by simp), rings', I'⟩
  | skip i n =>
      obtain ⟨s', rings', hrun, I'⟩ := I.step_skip hcond
      exact ⟨s', hrun, conserves I' (by simp), rings', I'⟩
  | write i howmuch accept =>
      obtain ⟨s', rings', hrun, I'⟩ := I.step_write hcond
      exact ⟨s', hrun, conserves I' (by simp), rings', I'⟩
  | append i j =>
      obtain ⟨s', rings', hrun, I', hkeep⟩ := I.step_append hcond
      refine ⟨s', hrun, ⟨_, _, I.partition, I'.partition, ?_⟩, rings', I'⟩
      rintro i' j' a b heq ha hb
      cases heq
      exact hkeep ⟨a, ha⟩ ⟨b, hb⟩

/-! ## Destruction -/

/-- Destroying the first buffer takes its ring away. -/
theorem destroy {h : Heap} {b : Buffer} {bs : List Buffer} (I : System.Inv ⟨h, b :: bs⟩ rings) :
    ∃ h', b.destroy h = .ok h' ∧ System.Inv ⟨h', bs⟩ fun i => rings (i + 1) := by
  have S := I.sound 0 b rfl
  obtain ⟨win, spare, content, hring, -, C⟩ := S.holds
  obtain ⟨h', hrun, E⟩ := C.destroy_spec (hring ▸ S.head)
  rw [← hring] at E
  refine ⟨h', hrun, fun i c hc => (I.sound (i + 1) c hc).frame E (I.disjoint (by omega)),
    fun i hi => I.vacant (i + 1) hi, fun hi hj => Nat.succ.inj (I.owned.unique hi hj), fun p => ?_⟩
  have hall : h.live p = true ↔ _ := I.owned.all p
  refine (E.live p).trans ?_
  constructor
  · rintro (⟨hp, hr⟩ | hp)
    · obtain ⟨i, hpi⟩ := hall.mp hp
      cases i with
      | zero => exact absurd hpi hr
      | succ i => exact ⟨i, hpi⟩
    · simp at hp
  · rintro ⟨i, hp⟩
    exact Or.inl ⟨hall.mpr ⟨i + 1, hp⟩, I.disjoint (Nat.succ_ne_zero i) p hp⟩

/-- **Every node is deleted exactly once** when the buffers are destroyed. -/
theorem destroyAll {h : Heap} {bs : List Buffer} (I : System.Inv ⟨h, bs⟩ rings) :
    ∃ h', System.destroyAll h bs = .ok h' ∧ ∀ p, h'.live p = false := by
  induction bs generalizing h rings with
  | nil =>
      refine ⟨h, rfl, fun p => ?_⟩
      have hp := I.owned.all p
      simpa [I.vacant _ rfl] using hp
  | cons b bs ih =>
      obtain ⟨h', hrun, I'⟩ := I.destroy
      obtain ⟨h'', hrest, hdead⟩ := ih I'
      exact ⟨h'', by simp [System.destroyAll, hrun, hrest], hdead⟩

/-! ## Calls that break the condition -/

/-- A deleted `head` is on no ring. -/
theorem not_partition_of_dead {i : ℕ} {b : Buffer} (hb : s.buffers[i]? = some b)
    (hdead : ¬ s.heap.live b.cacheChain.head = true) : ¬ Partition s rings := fun P =>
  hdead ((P.owns i b hb).live _ (P.owns i b hb).head)

theorem drained_not_partition {i n idx : ℕ} {b : Buffer} {h' : Heap}
    {win post kept dead : List ℕ} {content : List UInt8} (hb : s.buffers[i]? = some b)
    (hne : content ≠ []) (H : Holds s.heap b win content)
    (D : Drained s.heap b.cacheChain win n h' idx post kept dead)
    (htrim : TrimsHead s.heap b.cacheChain n) {total : ℕ} :
    ¬ Partition ⟨h', s.buffers.set i ⟨b.cacheChain.trimmed idx dead.length, total⟩⟩ rings := by
  have hi : i < s.buffers.length := (List.getElem?_eq_some_iff.mp hb).1
  refine not_partition_of_dead (List.getElem?_set_self hi) ?_
  rw [D.live]
  exact fun h => h.2 ((D.head_mem_dead_iff H hne).mpr htrim)

/-- A spare of the buffer that takes over blocks ends up on no ring. -/
theorem splice_not_partition (I : s.Inv rings) {i j : ℕ} {a b : Buffer} {h' : Heap}
    {l' other' : CacheList} {wa sa wb sb sb' : List ℕ} {total : ℕ} (hij : i ≠ j)
    (ha : s.buffers[i]? = some a) (hb : s.buffers[j]? = some b) (hra : rings i = wa ++ sa)
    (Ca : Chain s.heap a.cacheChain wa sa) (hrb : rings j = wb ++ sb)
    (P : Spliced s.heap a.cacheChain b.cacheChain wa wb sb h' l' other' sb')
    (hnext : s.heap.next a.cacheChain.write ≠ a.cacheChain.read) {rings' : ℕ → List ℕ} :
    ¬ Partition ⟨h', (s.buffers.set i ⟨l', total⟩).set j ⟨other', 0⟩⟩ rings' := by
  intro Q
  have hi : i < s.buffers.length := (List.getElem?_eq_some_iff.mp ha).1
  have hj : j < s.buffers.length := (List.getElem?_eq_some_iff.mp hb).1
  obtain ⟨q, hq⟩ := List.exists_mem_of_ne_nil sa (Ca.spare_eq_nil_iff.not.mpr hnext)
  have hqi : q ∈ rings i := hra ▸ List.mem_append_right wa hq
  have hqw : q ∉ wa := fun hw => (List.nodup_append.mp Ca.nodup).2.2 q hw q hq rfl
  have hlive : s.heap.live q = true := I.owned.mem_live hqi
  have hout : q ∉ wa ++ wb ++ sb := by
    have hqj := I.disjoint hij q hqi
    rw [hrb] at hqj
    rw [List.append_assoc]
    exact fun hm => (List.mem_append.mp hm).elim hqw hqj
  have hnew := P.frame.not_mem hlive hout
  -- it is still there, so it would have to be on some ring
  obtain ⟨k, c, hc, hqk⟩ := (Q.all q).mp (P.frame.live_of_not_mem hlive hout)
  have O := Q.owns k c hc
  by_cases hkj : k = j
  · subst hkj
    rw [List.getElem?_set_self (by rwa [List.length_set]), Option.some.injEq] at hc
    subst hc
    exact hnew (List.mem_append_right _
      (O.ring.mem_of_mem P.rest.ring O.write (by simp) hqk))
  · rw [List.getElem?_set_ne (Ne.symm hkj)] at hc
    by_cases hki : k = i
    · subst hki
      rw [List.getElem?_set_self hi, Option.some.injEq] at hc
      subst hc
      exact hnew (List.mem_append_left _
        (O.ring.mem_of_mem P.ring O.write P.window.write_mem hqk))
    · rw [List.getElem?_set_ne (Ne.symm hki)] at hc
      -- the other buffers still own what they owned
      obtain ⟨wk, sk, -, hrk, -, C⟩ := (I.sound k c hc).holds
      have hdis : ∀ p ∈ wk ++ sk, p ∉ wa ++ wb ++ sb := by
        intro p hp hp'
        have h₁ := I.disjoint hki p (hrk ▸ hp)
        have h₂ := I.disjoint hkj p (hrk ▸ hp)
        rw [hra] at h₁
        rw [hrb] at h₂
        simp only [List.mem_append] at h₁ h₂ hp'
        tauto
      have hmem := O.ring.mem_of_mem (C.frame P.frame hdis).ring O.write C.write_mem hqk
      exact I.disjoint hki q (hrk ▸ hmem) hqi

/-- A call that breaks the condition does not return, or leaves a node on no ring. -/
theorem not_conserves (I : s.Inv rings) {call : SystemCall} (hcond : ¬ Conserving s call)
    (hrun : s.step call = .ok s') : ¬ Conserves s call s' := by
  rintro ⟨-, rings', -, Q, -⟩
  cases call with
  | new => exact hcond trivial
  | add i payload =>
      simp only [Conserving, not_forall, not_not] at hcond
      obtain ⟨b, hb, hcap, c, hc, hslide⟩ := hcond
      obtain ⟨win, spare, content, -, H, -⟩ := (I.sound i b hb).holds
      simp [System.step, System.on, hb, H.add_of_slides hcap hc hslide] at hrun
  | skip i n =>
      simp only [Conserving, not_forall, not_not] at hcond
      obtain ⟨b, hb, hlt, htrim⟩ := hcond
      obtain ⟨win, spare, content, -, H, -⟩ := (I.sound i b hb).holds
      have hne := H.ne_nil_of_size (Nat.ne_of_gt (Nat.zero_lt_of_lt hlt))
      obtain ⟨h', idx, post, kept, dead, hdrain, D, -⟩ := H.drain_spec hne hlt.le
      rw [System.step, System.on_of_ok hb (Buffer.skip_of_lt hlt hdrain), Except.ok.injEq] at hrun
      subst hrun
      exact drained_not_partition hb hne H D htrim Q
  | write i howmuch accept =>
      simp only [Conserving, not_forall, not_not] at hcond
      obtain ⟨b, iov, hb, ho, htrim⟩ := hcond
      obtain ⟨win, spare, content, -, H, -⟩ := (I.sound i b hb).holds
      rw [← List.length_take] at htrim
      by_cases hnil : iov.flatten.take accept = []
      · rw [hnil] at htrim
        exact H.not_trimsHead_zero htrim
      · have hne := H.ne_nil_of_taken ho hnil
        obtain ⟨h', idx, post, kept, dead, hwrite, D, -⟩ := H.write_spec ho hnil
        rw [System.step, System.on_of_ok hb (by simp only [hwrite]; rfl), Except.ok.injEq] at hrun
        subst hrun
        exact drained_not_partition hb hne H D htrim Q
  | append i j =>
      simp only [Conserving, not_forall, not_or] at hcond
      obtain ⟨a, b, hij, ha, hb, hza, hzb, hnext⟩ := hcond
      obtain ⟨wa, sa, ca, hra, Ha, Ca⟩ := (I.sound i a ha).holds
      obtain ⟨wb, sb, cb, hrb, Hb, Cb⟩ := (I.sound j b hb).holds
      have hdis : ∀ p ∈ wa, p ∉ wb ++ sb := fun p hp =>
        hrb ▸ I.disjoint hij p (hra ▸ List.mem_append_left sa hp)
      obtain ⟨h', l', other', sb', P, -, -, hstep⟩ :=
        step_append_splice hij ha hb hza hzb Ha Hb Cb hdis
      rw [hstep, Except.ok.injEq] at hrun
      subst hrun
      exact I.splice_not_partition hij ha hb hra Ca hrb P hnext Q

end System.Inv

/-- **Every node is owned exactly once along exactly the conserving runs.** -/
theorem conserves_iff_conserving (calls : List SystemCall) :
    Performs System.step Conserves System.init calls ↔
      Meets System.step Conserving System.init calls := by
  refine performs_iff (fun s => ∃ rings, s.Inv rings) ?_ ?_ ⟨_, System.Inv.init⟩
  · rintro s call ⟨rings, I⟩ hcond
    exact I.step_conserving hcond
  · rintro s call s' ⟨rings, I⟩ hcond hrun
    exact I.not_conserves hcond hrun

/-- After a conserving run the destructors free every node, each once. -/
theorem destroyAll_of_conserving {calls : List SystemCall}
    (hcond : Meets System.step Conserving System.init calls) :
    ∃ s h', run System.step System.init calls = .ok s ∧
      System.destroyAll s.heap s.buffers = .ok h' ∧ ∀ p, h'.live p = false := by
  obtain ⟨s, hrun, rings, I⟩ := simulates (fun _ _ => ())
    (fun s (_ : Unit) => ∃ rings, s.Inv rings)
    (by
      rintro s _ call ⟨rings, I⟩ hc
      obtain ⟨s', hs', -, I'⟩ := I.step_conserving hc
      exact ⟨s', hs', I'⟩)
    (t := ()) ⟨_, System.Inv.init⟩ hcond
  obtain ⟨h', hdestroy, hdead⟩ := I.destroyAll
  exact ⟨s, h', hrun, hdestroy, hdead⟩

/-- A chain whose `read` is on a ring of two nodes that `head` is not on. -/
theorem not_partition_of_outside {r : Except Fault System}
    (h : r.map (fun s => (s.buffers[0]?.map fun b => [b.cacheChain.head, b.cacheChain.read,
      s.heap.next 2, s.heap.prev 1, s.heap.next 1, s.heap.prev 2])) =
      .ok (some [0, 2, 1, 2, 2, 1])) :
    ∃ s, r = .ok s ∧ ∀ rings, ¬ Partition s rings := by
  obtain ⟨s, hr, hs⟩ := map_eq_ok h
  simp only [Option.map_eq_some_iff, List.cons.injEq, and_true] at hs
  obtain ⟨b, hb, hhead, hread, hn₂, hp₁, hn₁, hp₂⟩ := hs
  refine ⟨s, hr, fun rings P => ?_⟩
  have O := P.owns 0 b hb
  have hring : Ring s.heap.next s.heap.prev ([2] ++ [1]) := by
    refine ring_append (by decide) (linked_singleton 2) (linked_singleton 1) (by simp) (by simp)
      ?_ ?_ <;>
    · intro x hx y hy
      simp only [List.getLast?_singleton, List.head?_cons, Option.mem_def,
        Option.some.injEq] at hx hy
      subst hx hy
      exact ⟨by assumption, by assumption⟩
  have hmem := O.ring.mem_of_mem hring (hread ▸ O.read) (by simp) (hhead ▸ O.head)
  simp at hmem

/-- A buffer with two blocks, the first of them skipped, takes over a block: `head`, which
is the spare, is no longer on its ring. -/
theorem append_drops_head : ∃ s, run System.step System.init
    [.new, .new, .add 0 (.zeros 4096 (by decide)), .add 0 (.zeros 1 (by decide)), .skip 0 4096,
      .add 1 (.zeros 1 (by decide)), .append 0 1] = .ok s ∧ ∀ rings, ¬ Partition s rings :=
  not_partition_of_outside (by decide +kernel)

end Hare.Net
