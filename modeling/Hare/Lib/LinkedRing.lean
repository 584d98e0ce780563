import Mathlib.Data.List.Chain
import Mathlib.Data.List.Nodup
import Mathlib.Logic.Function.Basic

/-!
# Doubly linked rings

A pointer structure is a pair of total maps `next` and `prev` over an arbitrary
address type.  A list of addresses is `Linked` when each element points forward to
its successor and is pointed back to by it, and it is a `Ring` when in addition it
has no repetition and its last element is linked to its first.

The operations on rings are the pointer assignments a program performs: unlinking a
segment behind the first element, inserting behind the last one, and splicing one path
behind another.  Each has one lemma saying what list the resulting maps carry.

## Main definitions

* `Link`, `Linked`, `Ring`: one link, a path of links, a closed path.
* `Ring.rotate`: a ring may be read off from any of its elements.
* `Ring.mem_of_mem`: rings are equal or disjoint.
* `Ring.unlinkSegment`, `Ring.insertLast`, `Ring.close`, `Ring.splice`: the pointer
  surgeries.
-/

namespace LinkedRing

variable {α : Type*}

/-- `p` and `q` are neighbours: forward from `p` and backward from `q`. -/
def Link (next prev : α → α) (p q : α) : Prop := next p = q ∧ prev q = p

/-- Consecutive elements of the list are linked in both directions. -/
def Linked (next prev : α → α) (ns : List α) : Prop := ns.IsChain (Link next prev)

/-- A closed path without repetition. -/
structure Ring (next prev : α → α) (ns : List α) : Prop where
  nodup : ns.Nodup
  linked : Linked next prev ns
  closed : ∀ x ∈ ns.getLast?, ∀ y ∈ ns.head?, Link next prev x y

variable {next prev next' prev' : α → α} {ns as bs : List α} {p q x : α}

/-! ## Paths -/

theorem linked_append : Linked next prev (as ++ bs) ↔ Linked next prev as ∧
    Linked next prev bs ∧ ∀ x ∈ as.getLast?, ∀ y ∈ bs.head?, Link next prev x y :=
  List.isChain_append

@[simp] theorem linked_singleton (p : α) : Linked next prev [p] := List.isChain_singleton p

theorem linked_cons_cons : Linked next prev (p :: q :: ns) ↔
    Link next prev p q ∧ Linked next prev (q :: ns) :=
  List.isChain_cons_cons

/-- A path only depends on `next` before its last element and on `prev` after its
first. -/
theorem Linked.congr (H : Linked next prev ns) (hn : ∀ p ∈ ns.dropLast, next' p = next p)
    (hp : ∀ p ∈ ns.tail, prev' p = prev p) : Linked next' prev' ns := by
  induction ns with
  | nil => exact List.isChain_nil
  | cons a ns ih =>
      cases ns with
      | nil => exact linked_singleton a
      | cons b ns =>
          obtain ⟨⟨hab, hba⟩, hrest⟩ := linked_cons_cons.mp H
          refine linked_cons_cons.mpr ⟨⟨?_, ?_⟩, ih hrest ?_ ?_⟩
          · rw [hn a (by simp), hab]
          · rw [hp b (by simp), hba]
          · intro c hc
            exact hn c (by simp [hc])
          · intro c hc
            exact hp c (List.mem_cons_of_mem b hc)

/-- A path survives any change of the pointers of nodes that are not on it. -/
theorem Linked.congr_of_mem (H : Linked next prev ns) (hn : ∀ p ∈ ns, next' p = next p)
    (hp : ∀ p ∈ ns, prev' p = prev p) : Linked next' prev' ns :=
  H.congr (fun p h => hn p (List.dropLast_subset ns h)) (fun p h => hp p (List.mem_of_mem_tail h))

/-- Following `next` along a path visits it. -/
theorem Linked.iterate_eq (H : Linked next prev (p :: ns)) :
    List.iterate next p (ns.length + 1) = p :: ns := by
  induction ns generalizing p with
  | nil => rfl
  | cons q ns ih =>
      obtain ⟨⟨hpq, -⟩, hrest⟩ := linked_cons_cons.mp H
      rw [List.length_cons, List.iterate, hpq, ih hrest]

/-- The last element of a list without repetition does not occur before its end. -/
theorem ne_of_mem_dropLast {w : α} (hd : ns.Nodup) (hw : ns.getLast? = some w)
    (hp : p ∈ ns.dropLast) : p ≠ w := by
  rintro rfl
  rw [← List.dropLast_append_getLast? p hw] at hd
  exact (List.nodup_append.mp hd).2.2 p hp p (by simp) rfl

/-- The first element of a list without repetition does not occur after it. -/
theorem ne_of_mem_tail {f : α} (hd : ns.Nodup) (hf : ns.head? = some f)
    (hp : p ∈ ns.tail) : p ≠ f := by
  rintro rfl
  cases ns with
  | nil => simp at hp
  | cons a ns =>
      simp only [List.head?_cons, Option.some.injEq] at hf
      subst hf
      exact (List.nodup_cons.mp hd).1 hp

/-! ## Rings -/

/-- Each node of a singleton ring is its own neighbour. -/
theorem ring_singleton : Ring next prev [p] ↔ next p = p ∧ prev p = p := by
  constructor
  · intro H
    exact H.closed p rfl p rfl
  · intro h
    refine ⟨List.nodup_singleton p, linked_singleton p, ?_⟩
    intro x hx y hy
    simp only [List.getLast?_singleton, List.head?_cons, Option.mem_def,
      Option.some.injEq] at hx hy
    subst hx hy
    exact h

/-- A ring survives any change of the pointers of nodes that are not on it. -/
theorem Ring.congr (H : Ring next prev ns) (hn : ∀ p ∈ ns, next' p = next p)
    (hp : ∀ p ∈ ns, prev' p = prev p) : Ring next' prev' ns := by
  refine ⟨H.nodup, H.linked.congr_of_mem hn hp, ?_⟩
  intro x hx y hy
  obtain ⟨hxy, hyx⟩ := H.closed x hx y hy
  refine ⟨?_, ?_⟩
  · rw [hn x (List.mem_of_getLast? hx), hxy]
  · rw [hp y (List.mem_of_head? hy), hyx]

/-- Two paths that are linked end to end in both directions form one ring. -/
theorem ring_append (hd : (as ++ bs).Nodup) (ha : Linked next prev as) (hb : Linked next prev bs)
    (hna : as ≠ []) (hnb : bs ≠ [])
    (hab : ∀ x ∈ as.getLast?, ∀ y ∈ bs.head?, Link next prev x y)
    (hba : ∀ x ∈ bs.getLast?, ∀ y ∈ as.head?, Link next prev x y) :
    Ring next prev (as ++ bs) := by
  refine ⟨hd, linked_append.mpr ⟨ha, hb, hab⟩, ?_⟩
  rw [List.getLast?_append_of_ne_nil _ hnb, List.head?_append_of_ne_nil _ hna]
  exact hba

/-- The two halves of a ring, with the links that join them. -/
theorem Ring.split (H : Ring next prev (as ++ bs)) (hna : as ≠ []) (hnb : bs ≠ []) :
    Linked next prev as ∧ Linked next prev bs ∧
      (∀ x ∈ as.getLast?, ∀ y ∈ bs.head?, Link next prev x y) ∧
      (∀ x ∈ bs.getLast?, ∀ y ∈ as.head?, Link next prev x y) := by
  obtain ⟨ha, hb, hab⟩ := linked_append.mp H.linked
  have hba := H.closed
  rw [List.getLast?_append_of_ne_nil _ hnb, List.head?_append_of_ne_nil _ hna] at hba
  exact ⟨ha, hb, hab, hba⟩

/-- A ring may be read off from any of its elements. -/
theorem Ring.rotate (H : Ring next prev (as ++ bs)) : Ring next prev (bs ++ as) := by
  rcases eq_or_ne as [] with rfl | hna
  · simpa using H
  rcases eq_or_ne bs [] with rfl | hnb
  · simpa using H
  obtain ⟨ha, hb, hab, hba⟩ := H.split hna hnb
  exact ring_append (List.nodup_append_comm.mp H.nodup) hb ha hnb hna hba hab

/-- The successor of the last element of a ring is its first. -/
theorem Ring.next_last (H : Ring next prev ns) (hx : ns.getLast? = some x)
    (hy : ns.head? = some p) : next x = p :=
  (H.closed x hx p hy).1

theorem Ring.prev_first (H : Ring next prev ns) (hx : ns.getLast? = some x)
    (hy : ns.head? = some p) : prev p = x :=
  (H.closed x hx p hy).2

/-- Once around a ring, back to where it started. -/
theorem Ring.linked_around {r : α} (H : Ring next prev (r :: ns)) :
    Linked next prev (r :: (ns ++ [r])) := by
  rw [← List.cons_append]
  refine linked_append.mpr ⟨H.linked, linked_singleton r, ?_⟩
  intro x hx y hy
  exact H.closed x hx y (by simpa using hy)

/-- A ring read off from one of its elements. -/
theorem Ring.exists_from (H : Ring next prev ns) (hx : x ∈ ns) :
    ∃ ms, Ring next prev (x :: ms) ∧ ∀ p, p ∈ x :: ms ↔ p ∈ ns := by
  obtain ⟨as, bs, rfl⟩ := List.append_of_mem hx
  refine ⟨bs ++ as, H.rotate, fun p => ?_⟩
  simp only [List.mem_append, List.mem_cons]
  tauto

/-- A ring is closed under `next`. -/
theorem Ring.next_mem (H : Ring next prev ns) (hx : x ∈ ns) : next x ∈ ns := by
  obtain ⟨ms, hring, hmem⟩ := H.exists_from hx
  have hlink := hring.linked_around
  cases ms with
  | nil =>
      rw [(linked_cons_cons.mp hlink).1.1]
      exact hx
  | cons y ys =>
      rw [(linked_cons_cons.mp hlink).1.1]
      exact (hmem y).mp (by simp)

/-- A path does not leave a set that is closed under `next`. -/
theorem Linked.mem_of_closed {ms : List α} (hstep : ∀ q ∈ ms, next q ∈ ms) (hx : x ∈ ms)
    (H : Linked next prev (x :: ns)) (hp : p ∈ x :: ns) : p ∈ ms := by
  induction ns generalizing x with
  | nil => rwa [List.mem_singleton.mp hp]
  | cons y ys ih =>
      obtain ⟨⟨hxy, -⟩, hrest⟩ := linked_cons_cons.mp H
      rcases List.mem_cons.mp hp with rfl | hp
      · exact hx
      · exact ih (hxy ▸ hstep x hx) hrest hp

/-- Rings with a common element have the same elements. -/
theorem Ring.mem_of_mem {ms : List α} (H : Ring next prev ns) (K : Ring next prev ms)
    (hxn : x ∈ ns) (hxm : x ∈ ms) (hp : p ∈ ns) : p ∈ ms := by
  obtain ⟨ks, hring, hmem⟩ := H.exists_from hxn
  exact hring.linked.mem_of_closed (fun _ hq => K.next_mem hq) hxm ((hmem p).mpr hp)

/-! ## Routes -/

/-- Following `next` from `p` on, the nodes `ns` are visited, and then `q` is next. -/
def Route (next : α → α) : α → List α → α → Prop
  | p, [], q => p = q
  | p, x :: ns, q => p = x ∧ Route next (next x) ns q

theorem Route.append {ms : List α} {r : α} (H : Route next p ns q) (K : Route next q ms r) :
    Route next p (ns ++ ms) r := by
  induction ns generalizing p with
  | nil => exact H.symm ▸ K
  | cons x ns ih => exact ⟨H.1, ih H.2⟩

/-- A route only depends on the nodes that are visited. -/
theorem Route.congr (H : Route next p ns q) (hn : ∀ x ∈ ns, next' x = next x) :
    Route next' p ns q := by
  induction ns generalizing p with
  | nil => exact H
  | cons x ns ih =>
      refine ⟨H.1, ?_⟩
      rw [hn x List.mem_cons_self]
      exact ih H.2 fun y hy => hn y (List.mem_cons_of_mem x hy)

theorem Route.exists_iterate (H : Route next p ns q) (hx : x ∈ ns) :
    ∃ k < ns.length, next^[k] p = x := by
  induction ns generalizing p with
  | nil => cases hx
  | cons y ns ih =>
      obtain ⟨rfl, hrest⟩ := H
      rcases List.mem_cons.mp hx with rfl | hx
      · exact ⟨0, by simp, rfl⟩
      · obtain ⟨k, hk, heq⟩ := ih hrest hx
        exact ⟨k + 1, by simpa using hk, heq⟩

theorem Linked.route (H : Linked next prev (p :: (ns ++ [q]))) : Route next p (p :: ns) q := by
  induction ns generalizing p with
  | nil => exact ⟨rfl, (linked_cons_cons.mp H).1.1⟩
  | cons x ns ih =>
      obtain ⟨⟨hpx, -⟩, hrest⟩ := linked_cons_cons.mp H
      refine ⟨rfl, ?_⟩
      rw [hpx]
      exact ih hrest

/-- Around a ring and back. -/
theorem Ring.route (H : Ring next prev (p :: ns)) : Route next p (p :: ns) p :=
  H.linked_around.route

/-! ## Pointer surgery -/

/-- Unlink the segment `bs` behind the first element `r`: the node behind the segment,
which is `r` itself when nothing is left, becomes the neighbour of `r`. -/
theorem Ring.unlinkSegment {r stop : α} (H : Ring next prev (r :: bs ++ ns))
    (hstop : (ns ++ [r]).head? = some stop)
    (hr : next' r = stop) (hs : prev' stop = r)
    (hn : ∀ p, p ≠ r → next' p = next p)
    (hp : ∀ p, p ∉ bs → p ≠ stop → prev' p = prev p) :
    Ring next' prev' (r :: ns) := by
  have hd : (r :: (bs ++ ns)).Nodup := H.nodup
  obtain ⟨hrd, hbn⟩ := List.nodup_cons.mp hd
  obtain ⟨-, hdn, hdis⟩ := List.nodup_append.mp hbn
  cases ns with
  | nil =>
      -- the whole ring collapses to `r`
      simp only [List.nil_append, List.head?_cons, Option.some.injEq] at hstop
      subst hstop
      exact ring_singleton.mpr ⟨hr, hs⟩
  | cons b ns =>
      simp only [List.cons_append, List.head?_cons, Option.some.injEq] at hstop
      subst hstop
      have hrn : r ∉ b :: ns := fun h => hrd (List.mem_append_right bs h)
      have hrb : r ≠ b := fun h => hrn (h ▸ List.mem_cons_self)
      obtain ⟨-, hlink, -, hclose⟩ := H.split (by simp) (by simp)
      rw [← List.singleton_append]
      refine ring_append (List.nodup_cons.mpr ⟨hrn, hdn⟩) (linked_singleton r)
        (hlink.congr ?_ ?_) (by simp) (by simp) ?_ ?_
      · intro p hpm
        exact hn p fun h => hrn (h ▸ List.dropLast_subset _ hpm)
      · intro p hpm
        refine hp p (fun h => hdis p h p (List.mem_cons_of_mem b hpm) rfl) ?_
        exact fun h => (List.nodup_cons.mp hdn).1 (h ▸ hpm)
      · intro x hx y hy
        simp only [List.getLast?_singleton, List.head?_cons, Option.mem_def,
          Option.some.injEq] at hx hy
        subst hx hy
        exact ⟨hr, hs⟩
      · intro x hx y hy
        simp only [List.head?_cons, Option.mem_def, Option.some.injEq] at hy
        subst hy
        obtain ⟨hxr, hrx⟩ := hclose x hx r (by simp)
        have hxr' : x ≠ r := fun h => hrn (h ▸ List.mem_of_getLast? hx)
        have hrbs : r ∉ bs := fun h => hrd (List.mem_append_left _ h)
        exact ⟨by rw [hn x hxr', hxr], by rw [hp r hrbs hrb, hrx]⟩

section Update
variable [DecidableEq α]

/-- Insert a new node `x` behind the last element `w`: the node takes over the
successor of `w`, and both neighbours are redirected to it. -/
theorem Ring.insertLast (H : Ring next prev ns) {w : α} (hw : ns.getLast? = some w)
    (hx : x ∉ ns) :
    Ring (Function.update (Function.update next x (next w)) w x)
      (Function.update (Function.update prev x w) (next w) x) (ns ++ [x]) := by
  have hne : ns ≠ [] := by rintro rfl; simp at hw
  obtain ⟨f, hf⟩ : ∃ f, ns.head? = some f := by
    cases ns with
    | nil => exact absurd rfl hne
    | cons f _ => exact ⟨f, rfl⟩
  have hnw : next w = f := H.next_last hw hf
  have hwm : w ∈ ns := List.mem_of_getLast? hw
  have hfm : f ∈ ns := List.mem_of_head? hf
  have hwx : w ≠ x := fun h => hx (h ▸ hwm)
  have hfx : f ≠ x := fun h => hx (h ▸ hfm)
  rw [hnw]
  refine ring_append ?_ (H.linked.congr ?_ ?_) (linked_singleton x) hne (by simp) ?_ ?_
  · exact List.nodup_append.mpr ⟨H.nodup, List.nodup_singleton x,
      fun a ha b hb hab => hx (by simp_all)⟩
  · -- before the last element nothing is redirected
    intro p hp
    have hpw : p ≠ w := ne_of_mem_dropLast H.nodup hw hp
    have hpx : p ≠ x := fun h => hx (h ▸ List.dropLast_subset ns hp)
    simp [hpw, hpx]
  · intro p hp
    have hpf : p ≠ f := ne_of_mem_tail H.nodup hf hp
    have hpx : p ≠ x := fun h => hx (h ▸ List.mem_of_mem_tail hp)
    simp [hpf, hpx]
  · intro a ha b hb
    simp only [hw, Option.mem_def, Option.some.injEq, List.head?_cons] at ha hb
    subst ha hb
    exact ⟨by simp, by simp [hfx.symm]⟩
  · intro a ha b hb
    simp only [hf, List.getLast?_singleton, Option.mem_def, Option.some.injEq] at ha hb
    subst ha hb
    exact ⟨by simp [hwx.symm], by simp⟩

/-- Close a path into a ring. -/
theorem Ring.close {f w : α} (hd : ns.Nodup) (hl : Linked next prev ns)
    (hf : ns.head? = some f) (hw : ns.getLast? = some w) :
    Ring (Function.update next w f) (Function.update prev f w) ns := by
  refine ⟨hd, hl.congr ?_ ?_, ?_⟩
  · intro p hp
    rw [Function.update_of_ne (ne_of_mem_dropLast hd hw hp)]
  · intro p hp
    rw [Function.update_of_ne (ne_of_mem_tail hd hf hp)]
  · intro x hx y hy
    rw [hw] at hx
    rw [hf] at hy
    simp only [Option.mem_def, Option.some.injEq] at hx hy
    subst hx hy
    exact ⟨by simp, by simp⟩

/-- Splice the path `bs` behind the path `as` and close the result.  The maps are
those of the four assignments that redirect the two outer ends of both paths. -/
theorem Ring.splice {ra wa rb wb : α} (hd : (as ++ bs).Nodup)
    (ha : Linked next prev as) (hb : Linked next prev bs)
    (hra : as.head? = some ra) (hwa : as.getLast? = some wa)
    (hrb : bs.head? = some rb) (hwb : bs.getLast? = some wb) :
    Ring (Function.update (Function.update next wa rb) wb ra)
      (Function.update (Function.update prev rb wa) ra wb) (as ++ bs) := by
  obtain ⟨hda, hdb, hdis⟩ := List.nodup_append.mp hd
  have hna : as ≠ [] := by rintro rfl; simp at hra
  have hnb : bs ≠ [] := by rintro rfl; simp at hrb
  have hsep : ∀ {a b : α}, a ∈ as → b ∈ bs → a ≠ b := fun h h' => hdis _ h _ h'
  have hwam : wa ∈ as := List.mem_of_getLast? hwa
  have hram : ra ∈ as := List.mem_of_head? hra
  have hwbm : wb ∈ bs := List.mem_of_getLast? hwb
  have hrbm : rb ∈ bs := List.mem_of_head? hrb
  refine ring_append hd (ha.congr ?_ ?_) (hb.congr ?_ ?_) hna hnb ?_ ?_
  · intro p hp
    have hpb : p ≠ wb := hsep (List.dropLast_subset as hp) hwbm
    simp [hpb, ne_of_mem_dropLast hda hwa hp]
  · intro p hp
    have hpb : p ≠ rb := hsep (List.mem_of_mem_tail hp) hrbm
    simp [hpb, ne_of_mem_tail hda hra hp]
  · intro p hp
    have hpa : p ≠ wa := (hsep hwam (List.dropLast_subset bs hp)).symm
    simp [hpa, ne_of_mem_dropLast hdb hwb hp]
  · intro p hp
    have hpa : p ≠ ra := (hsep hram (List.mem_of_mem_tail hp)).symm
    simp [hpa, ne_of_mem_tail hdb hrb hp]
  · intro x hx y hy
    rw [hwa] at hx
    rw [hrb] at hy
    simp only [Option.mem_def, Option.some.injEq] at hx hy
    subst hx hy
    exact ⟨by simp [hsep hwam hwbm], by simp [(hsep hram hrbm).symm]⟩
  · intro x hx y hy
    rw [hwb] at hx
    rw [hra] at hy
    simp only [Option.mem_def, Option.some.injEq] at hx hy
    subst hx hy
    exact ⟨by simp, by simp⟩

end Update

end LinkedRing
