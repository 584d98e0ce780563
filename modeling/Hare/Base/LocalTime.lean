import Hare.Base.UtcTime
import Hare.Lib.LabelledRun

/-!
# Local times

`FindLocalTime` looks for the offset of an instant by UTC, and for that of a local time by the
shifted times of the transitions.  A local time may be skipped by a transition or occur twice;
the second search looks at the neighbours of what it finds and chooses by a flag.

It does not look before the first transition, nor behind the last one.  So a local time that
occurs twice because of the first or of the last transition is found once only, and
`FromLocal` does not lead back to the earlier of its instants, whatever the flag.
-/

namespace Hare.Time

open Checked LabelledRun UpperBound

/-- A call while a table is built. -/
inductive TableCall
  | addLocalTime (utcOffset : ℤ)
  | addTransition (utcTime : ℤ) (localTimeIdx : ℕ)
  deriving DecidableEq, Repr

namespace Timezone

/-! ## Tables -/

/-- `AddLocalTime`. -/
def addLocalTime (tz : Timezone) (utcOffset : ℤ) : Timezone :=
  { tz with utcOffsets := tz.utcOffsets ++ [utcOffset] }

/-- `AddTransition`; it throws when there is no local time with the index, as for a negative
one. -/
def addTransition (tz : Timezone) (utcTime : ℤ) (localTimeIdx : ℕ) : Except Unit Timezone :=
  match tz.utcOffsets[localTimeIdx]? with
  | none => .error ()
  | some utcOffset =>
    .ok { tz with transitions := tz.transitions ++ [⟨utcTime, utcTime + utcOffset, localTimeIdx⟩] }

def tableStep (tz : Timezone) : TableCall → Except Unit Timezone
  | .addLocalTime utcOffset => .ok (tz.addLocalTime utcOffset)
  | .addTransition utcTime localTimeIdx => tz.addTransition utcTime localTimeIdx

/-! ## The way back -/

/-- The end of `FindLocalTime`, for the transition at the position `k` and what comes before:
the local time is a repeated one or not. -/
def repeatedOrUnique (tz : Timezone) (k : ℕ) (localTime priorSecond priorOffset : ℤ)
    (postTransition : Bool) : Option ℤ :=
  if localTime ≤ priorSecond then
    if postTransition then tz.offsetAt k else some priorOffset
  else tz.offsetAt k

/-- `FindLocalTime` of a local time, given in seconds. -/
def findLocalTimeOf (tz : Timezone) (localTime : ℤ) (postTransition : Bool) : Option ℤ :=
  match tz.position Transition.localTime localTime with
  | 0 => tz.utcOffsets.head?
  | k + 1 =>
    match tz.transitions[k + 1]?, tz.offsetAt k with
    | none, prior => prior
    | some _, none => none
    | some next, some priorOffset =>
      let priorSecond := next.utcTime - 1 + priorOffset
      if priorSecond < localTime then
        -- it's a skip
        if postTransition then tz.offsetAt (k + 1) else some priorOffset
      else
        match k with
        | 0 => tz.repeatedOrUnique 0 localTime priorSecond priorOffset postTransition
        | j + 1 =>
          match tz.transitions[j + 1]?, tz.offsetAt j with
          | some transition, some priorOffset =>
            tz.repeatedOrUnique (j + 1) localTime (transition.utcTime - 1 + priorOffset)
              priorOffset postTransition
          | _, _ => none

/-- What `FromLocal` subtracts. -/
def localOffset (tz : Timezone) (localTime : ℤ) (postTransition : Bool) : ℤ :=
  (tz.findLocalTimeOf localTime postTransition).getD 0

def fromLocal (tz : Timezone) (dt : DateTime) (postTransition : Bool) : ℤ :=
  let localSeconds := fromUtcTime dt
  localSeconds - tz.localOffset localSeconds postTransition

/-! ## What a table guarantees -/

/-- What `AddLocalTime` and `AddTransition` keep: every transition has an offset, which its
local time is shifted by. -/
def Table (tz : Timezone) : Prop :=
  ∀ (i : ℕ) (transition : Transition), tz.transitions[i]? = some transition → ∃ utcOffset,
    tz.utcOffsets[transition.localTimeIdx]? = some utcOffset ∧
      transition.localTime = transition.utcTime + utcOffset

variable {tz tz' : Timezone} {t localTime : ℤ} {i k : ℕ} {transition next : Transition}
  {postTransition : Bool}

theorem tableStep_table {call : TableCall} (h : tz.Table) (hs : tz.tableStep call = .ok tz') :
    tz'.Table := by
  cases call with
  | addLocalTime utcOffset =>
      cases hs
      intro i transition hi
      obtain ⟨offset, hoffset, hlocal⟩ := h i transition hi
      refine ⟨offset, ?_, hlocal⟩
      have hlt : transition.localTimeIdx < tz.utcOffsets.length := by
        by_contra hge
        rw [List.getElem?_eq_none (Nat.not_lt.mp hge)] at hoffset
        cases hoffset
      exact (List.getElem?_append_left hlt).trans hoffset
  | addTransition utcTime localTimeIdx =>
      rw [tableStep, addTransition] at hs
      split at hs
      · cases hs
      next offset hoffset =>
        cases hs
        intro i transition hi
        rcases Nat.lt_or_ge i tz.transitions.length with hlt | hge
        · exact h i transition ((List.getElem?_append_left hlt).symm.trans hi)
        · have hlast := (List.getElem?_append_right hge).symm.trans hi
          rw [List.mem_singleton.mp (List.mem_of_getElem? hlast)]
          exact ⟨offset, hoffset, rfl⟩

theorem table_of_run {calls : List TableCall} {valid : Bool}
    (hrun : run tableStep ⟨[], [], valid⟩ calls = .ok tz) : tz.Table := by
  have hempty : Table ⟨[], [], valid⟩ := by
    intro i transition hi
    cases hi
  exact invariant_of_step Table (fun _ _ _ h hs => tableStep_table h hs) hempty hrun

namespace Table

theorem offsetAt (h : tz.Table) (hi : tz.transitions[i]? = some transition) :
    ∃ utcOffset, tz.offsetAt i = some utcOffset ∧
      transition.localTime = transition.utcTime + utcOffset := by
  obtain ⟨utcOffset, hoffset, hlocal⟩ := h i transition hi
  refine ⟨utcOffset, ?_, hlocal⟩
  rw [Timezone.offsetAt, hi]
  exact hoffset

/-- With at least one local time there is always an offset in force. -/
theorem inForce (h : tz.Table) (hne : tz.utcOffsets ≠ []) (hk : k ≤ tz.transitions.length) :
    ∃ utcOffset, tz.inForce k = some utcOffset := by
  cases k with
  | zero => exact ⟨_, List.head?_eq_some_head hne⟩
  | succ k =>
      obtain ⟨utcOffset, hoffset, -⟩ := h.offsetAt (List.getElem?_eq_getElem hk)
      exact ⟨utcOffset, hoffset⟩

end Table

/-! ## The search by UTC -/

/-- How many transitions have taken place at an instant. -/
def past (tz : Timezone) (t : ℤ) : ℕ := upperBound Transition.utcTime t tz.transitions

/-- How many transitions have begun when the clock shows a local time. -/
def begun (tz : Timezone) (localTime : ℤ) : ℕ :=
  upperBound Transition.localTime localTime tz.transitions

/-- The offset in force at an instant. -/
def utcOffset (tz : Timezone) (t : ℤ) : ℤ := (tz.inForce (tz.past t)).getD 0

/-- The search by UTC comes to the offset after the transitions so far. -/
theorem findLocalTime_eq (hutc : tz.transitions.Pairwise fun a b => a.utcTime < b.utcTime)
    (t : ℤ) : tz.findLocalTime t = tz.inForce (tz.past t) := by
  rw [findLocalTime, position_eq hutc, past]

theorem Table.inForce_past (h : tz.Table) (hne : tz.utcOffsets ≠ []) (t : ℤ) :
    tz.inForce (tz.past t) = some (tz.utcOffset t) := by
  obtain ⟨offset, hoffset⟩ := h.inForce hne (upperBound_le_length (x := t))
  change tz.inForce (tz.past t) = some offset at hoffset
  rw [Timezone.utcOffset, hoffset]
  rfl

/-! ## The search by local time -/

section Search
variable {priorOffset before : ℤ}

theorem findLocalTimeOf_before (hk : tz.position Transition.localTime localTime = 0) :
    tz.findLocalTimeOf localTime postTransition = tz.inForce 0 := by
  rw [findLocalTimeOf, hk]
  rfl

theorem findLocalTimeOf_last (hk : tz.position Transition.localTime localTime = k + 1)
    (hnext : tz.transitions[k + 1]? = none) :
    tz.findLocalTimeOf localTime postTransition = tz.inForce (k + 1) := by
  rw [findLocalTimeOf, hk]
  dsimp only
  rw [hnext]
  rfl

theorem findLocalTimeOf_skip (hk : tz.position Transition.localTime localTime = k + 1)
    (hnext : tz.transitions[k + 1]? = some next) (hprior : tz.inForce (k + 1) = some priorOffset)
    (hskip : next.utcTime + priorOffset ≤ localTime) :
    tz.findLocalTimeOf localTime postTransition =
      if postTransition then tz.inForce (k + 2) else some priorOffset := by
  rw [inForce] at hprior
  rw [findLocalTimeOf, hk]
  dsimp only
  rw [hnext, hprior]
  exact if_pos (by omega)

/-- Before the first transition there is nothing to repeat. -/
theorem findLocalTimeOf_first (hk : tz.position Transition.localTime localTime = 1)
    (hnext : tz.transitions[1]? = some next) (hprior : tz.inForce 1 = some priorOffset)
    (hskip : localTime < next.utcTime + priorOffset) :
    tz.findLocalTimeOf localTime postTransition = some priorOffset := by
  rw [inForce] at hprior
  rw [findLocalTimeOf, hk]
  dsimp only
  rw [hnext, hprior]
  refine (if_neg (by omega)).trans ?_
  rw [repeatedOrUnique, hprior, ite_self, ite_self]

theorem findLocalTimeOf_repeated (hk : tz.position Transition.localTime localTime = k + 2)
    (hnext : tz.transitions[k + 2]? = some next) (hprior : tz.inForce (k + 2) = some priorOffset)
    (hskip : localTime < next.utcTime + priorOffset)
    (htransition : tz.transitions[k + 1]? = some transition)
    (hbefore : tz.inForce (k + 1) = some before) :
    tz.findLocalTimeOf localTime postTransition =
      if localTime < transition.utcTime + before ∧ postTransition = false then some before
      else some priorOffset := by
  rw [inForce] at hprior hbefore
  rw [findLocalTimeOf, hk]
  dsimp only
  rw [hnext, hprior]
  refine (if_neg (by omega)).trans ?_
  rw [htransition, hbefore]
  dsimp only
  rw [repeatedOrUnique, hprior]
  rcases lt_or_ge localTime (transition.utcTime + before) with hlt | hge
  · rw [if_pos (by omega)]
    cases postTransition with
    | false => exact (if_pos ⟨hlt, rfl⟩).symm
    | true => exact (if_neg fun h => nomatch h.2).symm
  · rw [if_neg (by omega), if_neg fun h => absurd h.1 (not_lt.mpr hge)]

end Search

/-! ## The way back -/

/-- **When one of the flags leads back to an instant**: no later transition turns the clock back
to its local time; or exactly one does, which is neither the first nor the last one, and the next
one does not skip the local time; or the next one does skip it and returns to the offset. -/
def Recoverable (tz : Timezone) (t : ℤ) : Prop :=
  let localTime := t + tz.utcOffset t
  let begun := tz.begun localTime
  begun = tz.past t ∨ ∃ next clock, tz.transitions[begun]? = some next ∧
    tz.inForce begun = some clock ∧
    (localTime < next.utcTime + clock ∧ begun = tz.past t + 1 ∧ 0 < tz.past t ∨
      next.utcTime + clock ≤ localTime ∧ tz.inForce (begun + 1) = some (tz.utcOffset t))

section Recover
variable (h : tz.Table) (hne : tz.utcOffsets ≠ [])
  (hutc : tz.transitions.Pairwise fun a b => a.utcTime < b.utcTime)
  (hlocal : tz.transitions.Pairwise fun a b => a.localTime < b.localTime)
include h hne hutc hlocal

/-- A transition that has taken place has begun on the clock. -/
theorem past_le_begun : tz.past t ≤ tz.begun (t + tz.utcOffset t) := by
  have hle : tz.past t ≤ tz.transitions.length := upperBound_le_length
  have hoff := h.inForce_past hne t
  generalize hp : tz.past t = p at hle hoff
  cases p with
  | zero => exact Nat.zero_le _
  | succ p =>
      have hget := List.getElem?_eq_getElem hle
      obtain ⟨offset, hoffset, hshift⟩ := h.offsetAt hget
      have hsame : some offset = some (tz.utcOffset t) := hoffset.symm.trans hoff
      have hbefore := (lt_upperBound_iff hutc hget (x := t)).mp (Nat.lt_of_succ_le hp.ge)
      refine (lt_upperBound_iff hlocal hget).mpr ?_
      rw [hshift, Option.some.inj hsame]
      omega

/-- After a later transition that the local time has seen begin, the offset is another one. -/
theorem inForce_eq_iff {k : ℕ} (hpast : tz.past t ≤ k) (hk : k ≤ tz.begun (t + tz.utcOffset t)) :
    tz.inForce k = some (tz.utcOffset t) ↔ k = tz.past t := by
  constructor
  · intro hoff
    by_contra hkne
    obtain ⟨j, rfl⟩ : ∃ j, k = j + 1 := Nat.exists_eq_succ_of_ne_zero (by omega)
    have hget := List.getElem?_eq_getElem (Nat.lt_of_lt_of_le hk upperBound_le_length)
    obtain ⟨offset, hoffset, hshift⟩ := h.offsetAt hget
    have hsame : some offset = some (tz.utcOffset t) := hoffset.symm.trans hoff
    have hlater := (lt_upperBound_iff hutc hget (x := t)).not.mp (by rw [← past]; omega)
    have hbegun := (lt_upperBound_iff hlocal hget).mp hk
    rw [hshift, Option.some.inj hsame] at hbegun
    omega
  · rintro rfl
    exact h.inForce_past hne t

/-- The last transition that has begun repeats the local time exactly when it is the only one
that has not taken place. -/
theorem repeats_iff {before : ℤ} (hk : tz.begun (t + tz.utcOffset t) = k + 2)
    (htransition : tz.transitions[k + 1]? = some transition)
    (hbefore : tz.inForce (k + 1) = some before) (hpast : tz.past t ≠ k + 2) :
    t + tz.utcOffset t < transition.utcTime + before ∧ before = tz.utcOffset t ↔
      tz.past t = k + 1 := by
  have hle := past_le_begun h hne hutc hlocal (t := t)
  have hoff := inForce_eq_iff h hne hutc hlocal (t := t) (k := k + 1) (by omega) (by omega)
  rw [hbefore, Option.some_inj] at hoff
  rw [hoff, eq_comm (a := k + 1), and_iff_right_iff_imp]
  intro heq
  have hlater := (lt_upperBound_iff hutc htransition (x := t)).not.mp (by rw [← past]; omega)
  rw [hoff.mpr heq.symm]
  omega

/-- The flags differ at a local time that is repeated: one of them subtracts the offset in force
when at most one of the transitions that have begun has not taken place. -/
theorem localOffset_repeated_iff {clock : ℤ} (hk : tz.begun (t + tz.utcOffset t) = k + 2)
    (hnext : tz.transitions[k + 2]? = some next) (hclock : tz.inForce (k + 2) = some clock)
    (hskip : t + tz.utcOffset t < next.utcTime + clock) :
    (tz.localOffset (t + tz.utcOffset t) false = tz.utcOffset t ∨
      tz.localOffset (t + tz.utcOffset t) true = tz.utcOffset t) ↔
    tz.past t = k + 2 ∨ tz.past t = k + 1 := by
  have hlen : k + 1 < tz.transitions.length := by
    have hle : tz.begun (t + tz.utcOffset t) ≤ tz.transitions.length := upperBound_le_length
    omega
  have hget := List.getElem?_eq_getElem hlen
  obtain ⟨before, hbefore⟩ := h.inForce hne hlen.le
  have hsame := inForce_eq_iff h hne hutc hlocal (past_le_begun h hne hutc hlocal (t := t)) le_rfl
  rw [hk, hclock, Option.some_inj] at hsame
  have hfound := (position_eq hlocal).trans hk
  rw [localOffset, localOffset, findLocalTimeOf_repeated hfound hnext hclock hskip hget hbefore,
    findLocalTimeOf_repeated hfound hnext hclock hskip hget hbefore]
  by_cases hall : tz.past t = k + 2
  · simp [hsame, hall]
  have hclock_ne : clock ≠ tz.utcOffset t := fun heq => hall (hsame.mp heq).symm
  rw [← repeats_iff h hne hutc hlocal hk hget hbefore hall, or_iff_right hall]
  by_cases hlt : t + tz.utcOffset t < tz.transitions[k + 1].utcTime + before
  · simp [hlt, hclock_ne]
  · simp [hlt, hclock_ne]

/-- **What the two flags subtract**, when one of them subtracts the offset in force. -/
theorem localOffset_eq_iff :
    (tz.localOffset (t + tz.utcOffset t) false = tz.utcOffset t ∨
      tz.localOffset (t + tz.utcOffset t) true = tz.utcOffset t) ↔ tz.Recoverable t := by
  have hpast := past_le_begun h hne hutc hlocal (t := t)
  obtain ⟨clock, hclock⟩ := h.inForce hne (upperBound_le_length (x := t + tz.utcOffset t))
  have hsame := inForce_eq_iff h hne hutc hlocal hpast le_rfl
  change tz.inForce (tz.begun _) = some clock at hclock
  rw [hclock, Option.some_inj] at hsame
  rw [Recoverable]
  generalize hk : tz.begun (t + tz.utcOffset t) = k at hpast hclock hsame ⊢
  have hfound := (position_eq hlocal).trans hk
  rcases k with - | k
  · -- before the first transition
    rw [localOffset, localOffset, findLocalTimeOf_before hfound, findLocalTimeOf_before hfound,
      hclock]
    simp [hsame, Nat.le_zero.mp hpast]
  rcases hnext : tz.transitions[k + 1]? with - | next
  · -- after the last one
    rw [localOffset, localOffset, findLocalTimeOf_last hfound hnext,
      findLocalTimeOf_last hfound hnext, hclock]
    simp [hsame]
  rcases lt_or_ge (t + tz.utcOffset t) (next.utcTime + clock) with hskip | hskip
  · rcases k with - | k
    · -- after the first one, where nothing before it is looked at
      rw [localOffset, localOffset, findLocalTimeOf_first hfound hnext hclock hskip,
        findLocalTimeOf_first hfound hnext hclock hskip]
      simp [hsame, hclock, not_le.mpr hskip]
    · -- the transition before the next one may repeat it
      rw [localOffset_repeated_iff h hne hutc hlocal hk hnext hclock hskip]
      constructor
      · rintro (heq | heq)
        · exact .inl heq.symm
        · exact .inr ⟨next, clock, rfl, hclock, .inl ⟨hskip, by omega, by omega⟩⟩
      · rintro (heq | ⟨next', clock', hnext', hclock', ⟨-, heq, -⟩ | ⟨hle, -⟩⟩)
        · exact .inl heq.symm
        · exact .inr (by omega)
        · cases hnext'
          cases hclock.symm.trans hclock'
          omega
  · -- the next transition skips it
    rw [localOffset, localOffset, findLocalTimeOf_skip hfound hnext hclock hskip,
      findLocalTimeOf_skip hfound hnext hclock hskip]
    obtain ⟨after, hafter, -⟩ := h.offsetAt hnext
    change tz.inForce (k + 2) = some after at hafter
    simp [hafter, hsame, hclock, hskip, not_lt.mpr hskip]

end Recover

/-- **A clock of 32 bits can be read back.** -/
theorem fromUtcTime_of_inRange (h : InRange localTime) :
    fromUtcTime (breakTime localTime) = localTime := by
  obtain ⟨hlo, hhi⟩ := h
  have hday := dayNumberOf_eq localTime
  have hmin : -32044 ≤ dayNumberOf localTime := by omega
  obtain ⟨D, hD, hr⟩ := exists_isDateOf hmin
    ((noOverflow_iff hmin).mpr ⟨hmin, by omega⟩)
  exact (fromUtcTime_breakTime hD hr).trans (bmod_eq_of_inRange ⟨hlo, hhi⟩)

/-- **Which instants `FromLocal` leads back to**, with one of the two flags. -/
theorem fromLocal_toLocal_iff {calls : List TableCall} {valid : Bool}
    (hrun : run tableStep ⟨[], [], valid⟩ calls = .ok tz) (hne : tz.utcOffsets ≠ [])
    (hutc : tz.transitions.Pairwise fun a b => a.utcTime < b.utcTime)
    (hlocal : tz.transitions.Pairwise fun a b => a.localTime < b.localTime)
    (hr : InRange (t + tz.utcOffset t)) :
    (tz.fromLocal (tz.toLocal t) false = t ∨ tz.fromLocal (tz.toLocal t) true = t) ↔
      tz.Recoverable t := by
  have htable := table_of_run hrun
  have hfind : tz.findLocalTime t = some (tz.utcOffset t) :=
    (findLocalTime_eq hutc t).trans (htable.inForce_past hne t)
  have hback : ∀ postTransition, tz.fromLocal (tz.toLocal t) postTransition = t ↔
      tz.localOffset (t + tz.utcOffset t) postTransition = tz.utcOffset t := by
    intro postTransition
    rw [fromLocal, toLocal, hfind]
    dsimp only
    rw [fromUtcTime_of_inRange hr]
    omega
  rw [hback, hback]
  exact localOffset_eq_iff htable hne hutc hlocal

/-- Summer time from 10000 to 20000 and again from 30000 on.  The last hour of the first summer
is repeated, and the earlier flag leads back to it. -/
theorem fromLocal_toLocal_summer :
    let tz : Timezone :=
      ⟨[⟨10000, 13600, 1⟩, ⟨20000, 20000, 0⟩, ⟨30000, 33600, 1⟩], [0, 3600], true⟩
    run tableStep ⟨[], [], true⟩ [.addLocalTime 0, .addLocalTime 3600, .addTransition 10000 1,
        .addTransition 20000 0, .addTransition 30000 1] = .ok tz ∧
      (tz.fromLocal (tz.toLocal 19000) false = 19000 ∨
        tz.fromLocal (tz.toLocal 19000) true = 19000) := by
  intro tz
  have hrun : run tableStep ⟨[], [], true⟩ [.addLocalTime 0, .addLocalTime 3600,
      .addTransition 10000 1, .addTransition 20000 0, .addTransition 30000 1] = .ok tz := rfl
  refine ⟨hrun, (fromLocal_toLocal_iff hrun (by decide) (by decide) (by decide)
    (by decide)).mpr ?_⟩
  exact .inr ⟨⟨30000, 33600, 1⟩, 0, by decide, by decide, .inl ⟨by decide, by decide, by decide⟩⟩

/-- A single transition at the epoch, from one hour east of UTC to UTC.  The second before it is
not found again: its local time is taken for the later one with both flags. -/
theorem fromLocal_toLocal_first_transition :
    let tz : Timezone := ⟨[⟨0, 0, 1⟩], [3600, 0], true⟩
    run tableStep ⟨[], [], true⟩ [.addLocalTime 3600, .addLocalTime 0, .addTransition 0 1] =
        .ok tz ∧
      tz.utcOffsets ≠ [] ∧ (tz.transitions.Pairwise fun a b => a.utcTime < b.utcTime) ∧
      (tz.transitions.Pairwise fun a b => a.localTime < b.localTime) ∧
      InRange (-1 + tz.utcOffset (-1)) ∧
      tz.fromLocal (tz.toLocal (-1)) false = 3599 ∧ tz.fromLocal (tz.toLocal (-1)) true = 3599 := by
  intro tz
  have hlocal : fromUtcTime (tz.toLocal (-1)) = 3599 := by decide
  refine ⟨rfl, by decide, by decide, by decide, by decide, ?_, ?_⟩
  · rw [fromLocal, hlocal]
    decide
  · rw [fromLocal, hlocal]
    decide

end Timezone

end Hare.Time
