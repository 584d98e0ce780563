import Hare.Base.LocalTime

/-!
# Copies of a time zone

`Clone` takes over the local times of the zone that is copied and its validity, but not its
transitions: the target keeps those it has, which for a new zone are none.  It is not called at
all for an invalid zone, so that an assignment leaves the target as it is.

The two searches of a zone compare a time with the entries of its table, so each of them is a step
function, with rows that can be read off the table: from which time on which offset is found.  In
a table in the order of the times the rows by UTC are its transitions.  A copy behaves as the
original exactly when the rows are the same, but for those that change nothing.
-/

namespace Hare.Time

open Checked UpperBound Threshold

namespace Timezone

variable {tz : Timezone} {t localTime utcOffset : ℤ} {i j : ℕ}
  {transition : Transition} {postTransition : Bool}

/-! ## Copies -/

def clone (tz other : Timezone) : Timezone :=
  if tz.valid then { other with utcOffsets := tz.utcOffsets, valid := tz.valid } else other

/-- The copy constructor. -/
def copy (another : Timezone) : Timezone :=
  if another.valid then another.clone empty else empty

/-- The assignment.  That of a zone to itself changes nothing in either way of the code. -/
def assign (tz another : Timezone) : Timezone :=
  if another.valid then another.clone tz else tz

/-- `ToLocal` with the offset it stores for the caller. -/
def toLocalWithOffset (tz : Timezone) (seconds : ℤ) : DateTime × Option ℤ :=
  (tz.toLocal seconds, tz.findLocalTime seconds)

/-- `FromLocal` with the offset it subtracts; there is none when the search leads out of the local
times. -/
def fromLocalWithOffset (tz : Timezone) (dt : DateTime) (postTransition : Bool) : ℤ × Option ℤ :=
  (tz.fromLocal dt postTransition, tz.findLocalTimeOf (fromUtcTime dt) postTransition)

/-- A copy is valid when the original is, and then converts every time alike. -/
def Preserves (copy tz : Timezone) : Prop :=
  copy.valid = tz.valid ∧ (tz.valid = true →
    (∀ seconds, -2 ^ 63 ≤ seconds → seconds < 2 ^ 63 →
      copy.toLocalWithOffset seconds = tz.toLocalWithOffset seconds) ∧
    ∀ dt postTransition,
      copy.fromLocalWithOffset dt postTransition = tz.fromLocalWithOffset dt postTransition)

/-! ## The rows of a table -/

/-- The comparisons that lead to a position. -/
def positions (tz : Timezone) (key : Transition → ℤ) : Tree ℤ ℕ :=
  match tz.transitions.head? with
  | none => .leaf 0
  | some front =>
    .node (key front) (.leaf 0) (bisection key tz.transitions.length 0 tz.transitions)

/-- The comparisons with the second before the transition at a position. -/
def repeatTree (tz : Timezone) (postTransition : Bool) : ℕ → Tree ℤ (Option ℤ)
  | 0 => .leaf (tz.offsetAt 0)
  | k + 1 =>
    match tz.transitions[k + 1]?, tz.offsetAt k with
    | some transition, some before =>
      .node (transition.utcTime + before)
        (.leaf (if postTransition then tz.offsetAt (k + 1) else some before))
        (.leaf (tz.offsetAt (k + 1)))
    | _, _ => .leaf none

/-- The comparisons with the second before the next transition. -/
def skipTree (tz : Timezone) (postTransition : Bool) : ℕ → Tree ℤ (Option ℤ)
  | 0 => .leaf tz.utcOffsets.head?
  | k + 1 =>
    match tz.transitions[k + 1]?, tz.offsetAt k with
    | none, prior => .leaf prior
    | some _, none => .leaf none
    | some next, some prior =>
      .node (next.utcTime + prior) (tz.repeatTree postTransition k)
        (.leaf (if postTransition then tz.offsetAt (k + 1) else some prior))

/-- By UTC: the times at which another transition is found, with its offset. -/
def utcRows (tz : Timezone) : List (ℤ × Option ℤ) :=
  ((tz.positions Transition.utcTime).bind fun k => .leaf (tz.inForce k)).rows (-2 ^ 63) (2 ^ 63)

/-- By local time: where a transition is found, and within its range where the times it repeats end
and those the next one skips begin. -/
def clockRows (tz : Timezone) (postTransition : Bool) : List (ℤ × Option ℤ) :=
  ((tz.positions Transition.localTime).bind (tz.skipTree postTransition)).rows (-2 ^ 31) (2 ^ 31)

/-- With other transitions the table has the same rows, but for those that change nothing. -/
def SameRows (tz : Timezone) (transitions : List Transition) : Prop :=
  let other := { tz with transitions }
  other.utcRows.destutter Changes = tz.utcRows.destutter Changes ∧
    ∀ postTransition, (other.clockRows postTransition).destutter Changes =
      (tz.clockRows postTransition).destutter Changes

instance (tz : Timezone) (transitions : List Transition) : Decidable (tz.SameRows transitions) :=
  inferInstanceAs (Decidable (_ ∧ _))

/-! ## The searches -/

theorem eval_positions (key : Transition → ℤ) (time : ℤ) :
    (tz.positions key).eval time = tz.position key time := by
  rw [positions, position]
  rcases tz.transitions.head? with - | front
  · rfl
  dsimp only
  rw [Tree.eval, eval_bisection, Nat.zero_add]
  rfl

theorem eval_utc (t : ℤ) :
    ((tz.positions Transition.utcTime).bind fun k => .leaf (tz.inForce k)).eval t =
      tz.findLocalTime t := by
  rw [Tree.eval_bind, eval_positions]
  rfl

theorem eval_node_repeated {k : ℕ} {utcTime priorOffset : ℤ} :
    (Threshold.Tree.node (utcTime + priorOffset)
      (.leaf (if postTransition then tz.offsetAt k else some priorOffset))
      (.leaf (tz.offsetAt k))).eval localTime =
    tz.repeatedOrUnique k localTime (utcTime - 1 + priorOffset) priorOffset postTransition :=
  if_congr (by omega) rfl rfl

theorem eval_clock (localTime : ℤ) (postTransition : Bool) :
    ((tz.positions Transition.localTime).bind (tz.skipTree postTransition)).eval localTime =
      tz.findLocalTimeOf localTime postTransition := by
  rw [Tree.eval_bind, eval_positions, findLocalTimeOf]
  generalize tz.position _ localTime = k
  rcases k with - | k
  · rfl
  rw [skipTree]
  dsimp only
  rcases tz.transitions[k + 1]? with - | next
  · rfl
  rcases hprior : tz.offsetAt k with - | priorOffset
  · rfl
  dsimp only
  rw [Tree.eval]
  rcases lt_or_ge localTime (next.utcTime + priorOffset) with hlt | hge
  · rw [if_pos hlt, if_neg (by omega)]
    rcases k with - | k
    · -- there is nothing before the first transition that it could repeat
      rw [repeatTree, repeatedOrUnique, hprior, ite_self, ite_self]
      rfl
    · rw [repeatTree]
      dsimp only
      rcases tz.transitions[k + 1]? with - | transition
      · rfl
      rcases tz.offsetAt k with - | before
      · rfl
      exact eval_node_repeated
  · rw [if_neg (not_lt.mpr hge)]
    exact (if_pos (by omega)).symm

/-! ## Agreement -/

/-- **The rows are the same** exactly when the searches come to the same. -/
theorem sameRows_iff {transitions : List Transition} :
    tz.SameRows transitions ↔
      (∀ t, -2 ^ 63 ≤ t → t < 2 ^ 63 →
        findLocalTime { tz with transitions } t = tz.findLocalTime t) ∧
      ∀ localTime, InRange localTime → ∀ postTransition,
        findLocalTimeOf { tz with transitions } localTime postTransition =
          tz.findLocalTimeOf localTime postTransition := by
  simp only [SameRows, utcRows, clockRows, Tree.destutter_rows_eq_iff, eval_utc, eval_clock]
  refine and_congr_right fun _ => ⟨fun h localTime hr postTransition => ?_, fun h => ?_⟩
  · exact h postTransition localTime hr.1 hr.2
  · exact fun postTransition localTime hlo hhi => h localTime ⟨hlo, hhi⟩ postTransition

/-- Two zones convert alike when their searches come to the same. -/
theorem converts_iff {other : Timezone} :
    ((∀ seconds, -2 ^ 63 ≤ seconds → seconds < 2 ^ 63 →
        other.toLocalWithOffset seconds = tz.toLocalWithOffset seconds) ∧
      ∀ dt postTransition,
        other.fromLocalWithOffset dt postTransition = tz.fromLocalWithOffset dt postTransition) ↔
    (∀ t, -2 ^ 63 ≤ t → t < 2 ^ 63 → other.findLocalTime t = tz.findLocalTime t) ∧
      ∀ localTime, InRange localTime → ∀ postTransition,
        other.findLocalTimeOf localTime postTransition =
          tz.findLocalTimeOf localTime postTransition := by
  constructor
  · rintro ⟨hto, hfrom⟩
    refine ⟨fun t hlo hhi => congrArg Prod.snd (hto t hlo hhi), fun localTime hr post => ?_⟩
    have hback := congrArg Prod.snd (hfrom (breakTime localTime) post)
    rwa [fromLocalWithOffset, fromLocalWithOffset, fromUtcTime_of_inRange hr] at hback
  · rintro ⟨hfind, hoffset⟩
    constructor
    · intro seconds hlo hhi
      rw [toLocalWithOffset, toLocalWithOffset, toLocal, toLocal, hfind seconds hlo hhi]
    · intro dt postTransition
      have hr : InRange (fromUtcTime dt) := inRange_toInt _
      rw [fromLocalWithOffset, fromLocalWithOffset, fromLocal, fromLocal, localOffset, localOffset,
        hoffset _ hr]

/-- A zone with the same local times and other transitions. -/
theorem preserves_iff_sameRows {transitions : List Transition} (hvalid : tz.valid = true) :
    Preserves { tz with transitions } tz ↔ tz.SameRows transitions := by
  rw [sameRows_iff, ← converts_iff, Preserves]
  exact ⟨fun h => h.2 hvalid, fun h => ⟨rfl, fun _ => h⟩⟩

theorem preserves_assign {a b : Timezone} : (a.assign b).Preserves b ↔
    (b.valid = true → b.SameRows a.transitions) ∧ (b.valid = false → a.valid = false) := by
  cases hb : b.valid with
  | false =>
      rw [Preserves, assign, hb]
      simp
  | true =>
      have hassign : a.assign b = { b with transitions := a.transitions } := by
        rw [assign, clone, hb, if_pos rfl, if_pos rfl, ← hb]
      rw [hassign, preserves_iff_sameRows hb]
      simp

/-! ## Zones that do without their transitions -/

theorem repeatedOrUnique_eq {k : ℕ} {priorSecond priorOffset : ℤ} {offset : Option ℤ}
    (hk : tz.offsetAt k = offset) (hprior : some priorOffset = offset) :
    tz.repeatedOrUnique k localTime priorSecond priorOffset postTransition = offset := by
  rw [repeatedOrUnique, hk, hprior, ite_self, ite_self]

theorem findLocalTimeOf_eq_head
    (h : ∀ i < tz.transitions.length, tz.offsetAt i = tz.utcOffsets.head?) :
    tz.findLocalTimeOf localTime postTransition = tz.utcOffsets.head? := by
  have hlen : tz.position Transition.localTime localTime ≤ tz.transitions.length :=
    position_le_length
  rw [findLocalTimeOf]
  generalize tz.position _ localTime = k at hlen ⊢
  rcases k with - | k
  · rfl
  dsimp only
  have hk := h k hlen
  rcases hnext : tz.transitions[k + 1]? with - | next
  · exact hk
  have hk' := h (k + 1) (List.getElem?_eq_some_iff.mp hnext).1
  rcases hprior : tz.offsetAt k with - | priorOffset
  · exact hprior.symm.trans hk
  have hhead := hprior.symm.trans hk
  dsimp only
  rw [hk', hhead, ite_self]
  refine (if_congr Iff.rfl rfl ?_).trans (ite_self _)
  rcases k with - | k
  · exact repeatedOrUnique_eq hk hhead
  · dsimp only
    have hbefore := h k (Nat.lt_of_succ_lt hlen)
    rw [List.getElem?_eq_getElem (show k + 1 < tz.transitions.length from hlen)]
    rcases hoffset : tz.offsetAt k with - | before
    · exact hoffset.symm.trans hbefore
    · exact repeatedOrUnique_eq hk (hoffset.symm.trans hbefore)

/-- Without transitions there is one row, with the first offset. -/
theorem sameRows_nil_iff :
    tz.SameRows [] ↔ ∀ row ∈ tz.utcRows ++ (tz.clockRows false ++ tz.clockRows true),
      row.2 = tz.utcOffsets.head? := by
  rw [sameRows_iff, List.forall_mem_append, List.forall_mem_append, utcRows, clockRows, clockRows,
    Tree.rows_eq_iff, Tree.rows_eq_iff, Tree.rows_eq_iff]
  simp only [eval_utc, eval_clock]
  refine and_congr (forall_congr' fun t => imp_congr_right fun _ => imp_congr_right fun _ => ?_) ?_
  · exact eq_comm
  · constructor
    · intro h
      exact ⟨fun localTime hlo hhi => (h localTime ⟨hlo, hhi⟩ false).symm,
        fun localTime hlo hhi => (h localTime ⟨hlo, hhi⟩ true).symm⟩
    · rintro ⟨hfalse, htrue⟩ localTime ⟨hlo, hhi⟩ postTransition
      cases postTransition with
      | false => exact (hfalse localTime hlo hhi).symm
      | true => exact (htrue localTime hlo hhi).symm

/-! ## Tables in order -/

/-- The transitions are in the order of their times, which are 64-bit ones. -/
structure InOrder (tz : Timezone) : Prop where
  ordered : tz.transitions.Pairwise fun a b => a.utcTime < b.utcTime
  above : ∀ transition ∈ tz.transitions, -2 ^ 63 < transition.utcTime
  below : ∀ transition ∈ tz.transitions, transition.utcTime < 2 ^ 63

/-- The first offset, and the transitions with theirs. -/
def schedule (tz : Timezone) : List (ℤ × Option ℤ) :=
  (-2 ^ 63, tz.utcOffsets.head?) ::
    tz.transitions.map fun transition =>
      (transition.utcTime, tz.utcOffsets[transition.localTimeIdx]?)

/-- After the first transitions of a table in order, the others are a table of the rest. -/
theorem tabulates_drop (h : tz.InOrder) {k : ℕ} {transitions : List Transition} {lo : ℤ}
    (hdrop : tz.transitions.drop k = transitions)
    (hlo : ∀ transition ∈ transitions, lo < transition.utcTime) (hlt : lo < 2 ^ 63)
    (hpast : ∀ t, lo ≤ t → k ≤ tz.past t) :
    Tabulates tz.findLocalTime lo (2 ^ 63) ((lo, tz.inForce k) ::
      transitions.map fun transition =>
        (transition.utcTime, tz.utcOffsets[transition.localTimeIdx]?)) := by
  induction transitions generalizing k lo with
  | nil =>
      have hlen := List.drop_eq_nil_iff.mp hdrop
      refine .cons hlt le_rfl (fun t hle _ => ?_) (.nil le_rfl)
      have hle' : tz.past t ≤ tz.transitions.length := upperBound_le_length
      have := hpast t hle
      rw [findLocalTime_eq h.ordered, show tz.past t = k by omega]
  | cons transition transitions ih =>
      have hget : tz.transitions[k]? = some transition := by
        rw [← List.head?_drop, hdrop, List.head?_cons]
      have hmem := List.mem_of_getElem? hget
      have hrest : tz.transitions.drop (k + 1) = transitions := by
        rw [← List.tail_drop, hdrop, List.tail_cons]
      have hord : (transition :: transitions).Pairwise fun a b => a.utcTime < b.utcTime :=
        hdrop ▸ h.ordered.sublist (List.drop_sublist _ _)
      have hcount (t : ℤ) : k < tz.past t ↔ transition.utcTime ≤ t :=
        lt_upperBound_iff h.ordered hget
      refine .cons (hlo _ List.mem_cons_self) (h.below _ hmem).le (fun t hle ht => ?_) ?_
      · have := hpast t hle
        have := (hcount t).not.mpr (not_le.mpr ht)
        rw [findLocalTime_eq h.ordered, show tz.past t = k by omega]
      · have hoffset : tz.inForce (k + 1) = tz.utcOffsets[transition.localTimeIdx]? := by
          rw [inForce, offsetAt, hget]
          rfl
        rw [List.map_cons, ← hoffset]
        exact ih hrest (List.pairwise_cons.mp hord).1 (h.below _ hmem)
          fun t ht => (hcount t).mpr ht

theorem InOrder.tabulates (h : tz.InOrder) :
    Tabulates tz.findLocalTime (-2 ^ 63) (2 ^ 63) tz.schedule :=
  tabulates_drop h List.drop_zero h.above (by decide) fun _ _ => Nat.zero_le _

/-- **In a table in order the rows are the transitions.** -/
theorem InOrder.destutter_utcRows (h : tz.InOrder) :
    tz.utcRows.destutter Changes = tz.schedule.destutter Changes := by
  refine (Tree.tabulates_rows _ _ _).destutter.eq_of_isChain
    (h.tabulates.congr fun t _ _ => (eval_utc t).symm).destutter ?_ ?_
  · exact List.isChain_destutter _ _
  · exact List.isChain_destutter _ _

/-- A zone with a table in order does without its transitions when all of them lead to the first
local time. -/
theorem InOrder.sameRows_nil_iff (h : tz.InOrder) :
    tz.SameRows [] ↔ ∀ i < tz.transitions.length, tz.offsetAt i = tz.utcOffsets.head? := by
  constructor
  · intro hsame i hi
    have hall := h.tabulates.forall_mem_iff.mpr fun t hlo hhi =>
      ((sameRows_iff.mp hsame).1 t hlo hhi).symm
    have hget := List.getElem?_eq_getElem hi
    rw [offsetAt, hget]
    exact hall _ (List.mem_cons_of_mem _ (List.mem_map_of_mem (List.getElem_mem hi)))
  · intro hall
    refine sameRows_iff.mpr ⟨fun t hlo hhi => ?_, fun localTime _ postTransition => ?_⟩
    · refine (h.tabulates.forall_mem_iff.mp ?_ t hlo hhi).symm
      refine List.forall_mem_cons.mpr ⟨rfl, List.forall_mem_map.mpr fun transition hmem => ?_⟩
      obtain ⟨i, hi, rfl⟩ := List.mem_iff_getElem.mp hmem
      have hoffset := hall i hi
      rwa [offsetAt, List.getElem?_eq_getElem hi] at hoffset
    · rw [findLocalTimeOf_eq_head hall]
      rfl

end Timezone

end Hare.Time
