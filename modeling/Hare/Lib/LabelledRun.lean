import Mathlib.Algebra.Ring.Nat
import Mathlib.Data.List.Basic

/-!
# Runs of a labelled system that may stop

A system is a function `step : σ → ι → Except ε σ`: in a state, a label either
leads to the next state or stops the run.  `run` performs a list of labels, and
`Meets` says that every step of a run starts in a state where a given condition on
state and label holds.

The rules below are the ones a whole-run result goes through.  `simulates` pushes a
relation to an abstract system through a run whose steps meet a condition;
`simulates_iff` turns it into an equivalence when every step that breaks the
condition also breaks the observed property; `run_map` is the rule for an abstract system
that takes and refuses the same labels.  `invariant`, `invariant_of_step` and
`invariant_iff` are the rules for systems whose labels are not always enabled, and
`exists_of_not_meets` and `exists_of_run_error` find the step at which a run goes wrong.
`sum_le_of_step` and `countP_le_of_step` bound the length of a run by a measure, and
`accepts_trace` compares what a run puts out with an automaton.

## Main definitions

* `run`, `Meets`, `Performs`.
* `simulates`, `simulates_iff`, `performs_iff`, `invariant`, `invariant_iff`.
-/

namespace LabelledRun

universe u
variable {σ τ ι ε : Type*}

/-! ## Sequencing -/

section Sequencing
variable {α β : Type u}

@[simp] theorem ok_bind (a : α) (f : α → Except ε β) : (Except.ok a >>= f) = f a := rfl
@[simp] theorem error_bind (e : ε) (f : α → Except ε β) :
    (Except.error e >>= f) = .error e := rfl
@[simp] theorem pure_eq_ok (a : α) : (pure a : Except ε α) = .ok a := rfl

/-- A sequence that succeeds has a first part that does. -/
theorem bind_eq_ok {x : Except ε α} {f : α → Except ε β} {b : β} (h : (x >>= f) = .ok b) :
    ∃ a, x = .ok a ∧ f a = .ok b := by
  cases x with
  | ok a => exact ⟨a, rfl, h⟩
  | error e => cases h

end Sequencing

/-! ## Runs -/

/-- Perform the labels in order. -/
def run (step : σ → ι → Except ε σ) : σ → List ι → Except ε σ
  | s, [] => .ok s
  | s, l :: ls => match step s l with
    | .ok s' => run step s' ls
    | .error e => .error e

/-- Every step of the run starts where the condition holds. -/
def Meets (step : σ → ι → Except ε σ) (cond : σ → ι → Prop) : σ → List ι → Prop
  | _, [] => True
  | s, l :: ls => cond s l ∧ ∀ s', step s l = .ok s' → Meets step cond s' ls

/-- Every step of the run succeeds and does what `Q` says. -/
def Performs (step : σ → ι → Except ε σ) (Q : σ → ι → σ → Prop) : σ → List ι → Prop
  | _, [] => True
  | s, l :: ls => ∃ s', step s l = .ok s' ∧ Q s l s' ∧ Performs step Q s' ls

variable {step : σ → ι → Except ε σ} {cond : σ → ι → Prop} {s s' : σ} {l : ι} {ls ks : List ι}

/-- The error a run stopped with. -/
def stopped : Except ε σ → Option ε
  | .ok _ => none
  | .error e => some e

theorem stopped_eq_some {r : Except ε σ} {e : ε} : stopped r = some e ↔ r = .error e := by
  cases r <;> simp [stopped]

/-- What is computed from the last state of a run is computed from a state. -/
theorem map_eq_ok {r : Except ε σ} {f : σ → τ} {b : τ} (h : r.map f = .ok b) :
    ∃ a, r = .ok a ∧ f a = b := by
  cases r with
  | ok a => exact ⟨a, rfl, Except.ok.inj h⟩
  | error e => cases h

@[simp] theorem run_nil (s : σ) : run step s [] = .ok s := rfl

theorem run_cons_ok (h : step s l = .ok s') : run step s (l :: ls) = run step s' ls := by
  simp [run, h]

theorem run_cons_error {e : ε} (h : step s l = .error e) :
    run step s (l :: ls) = .error e := by
  simp [run, h]

/-- A run that succeeds has a first state. -/
theorem run_cons_eq_ok (h : run step s (l :: ls) = .ok s') :
    ∃ m, step s l = .ok m ∧ run step m ls = .ok s' := by
  cases hl : step s l with
  | ok m => exact ⟨m, rfl, by rw [← run_cons_ok hl]; exact h⟩
  | error e => rw [run_cons_error hl] at h; cases h

theorem run_append (h : run step s ls = .ok s') :
    run step s (ls ++ ks) = run step s' ks := by
  induction ls generalizing s with
  | nil => cases h; rfl
  | cons l ls ih =>
      obtain ⟨m, hl, hm⟩ := run_cons_eq_ok h
      rw [List.cons_append, run_cons_ok hl]
      exact ih hm

/-- A run that succeeds passes through a state after each of its beginnings. -/
theorem run_append_eq_ok (h : run step s (ls ++ ks) = .ok s') :
    ∃ m, run step s ls = .ok m ∧ run step m ks = .ok s' := by
  induction ls generalizing s with
  | nil => exact ⟨s, rfl, h⟩
  | cons l ls ih =>
      obtain ⟨m, hl, hrest⟩ := run_cons_eq_ok h
      obtain ⟨u, hu, hks⟩ := ih hrest
      exact ⟨u, by rw [run_cons_ok hl, hu], hks⟩

/-- Whether a given run meets a decidable condition can be decided. -/
instance decidableMeets [∀ s l, Decidable (cond s l)] :
    ∀ s ls, Decidable (Meets step cond s ls)
  | _, [] => isTrue trivial
  | s, l :: ls =>
    match h : step s l with
    | .ok s' =>
      have := decidableMeets s' ls
      decidable_of_iff (cond s l ∧ Meets step cond s' ls) (by simp [Meets, h])
    | .error _ => decidable_of_iff (cond s l) (by simp [Meets, h])

/-- A condition that holds of the labels in every state is met. -/
theorem meets_of_labels (h : ∀ l ∈ ls, ∀ s, cond s l) : Meets step cond s ls := by
  induction ls generalizing s with
  | nil => trivial
  | cons l ls ih =>
      exact ⟨h l List.mem_cons_self s, fun s' _ => ih fun k hk => h k (List.mem_cons_of_mem l hk)⟩

/-- Every beginning of a run that meets the condition meets it. -/
theorem Meets.of_isPrefix (hm : Meets step cond s ls) (hks : ks <+: ls) : Meets step cond s ks := by
  induction ls generalizing s ks with
  | nil => rw [List.prefix_nil.mp hks]; trivial
  | cons l ls ih =>
      cases ks with
      | nil => trivial
      | cons k ks =>
          obtain ⟨rfl, htail⟩ := List.cons_prefix_cons.mp hks
          exact ⟨hm.1, fun s' hs' => ih (hm.2 s' hs') htail⟩

/-- One more step that meets the condition. -/
theorem Meets.concat (hm : Meets step cond s ls) (hrun : run step s ls = .ok s')
    (hl : cond s' l) : Meets step cond s (ls ++ [l]) := by
  induction ls generalizing s with
  | nil =>
      cases hrun
      exact ⟨hl, fun _ _ => trivial⟩
  | cons k ks ih =>
      obtain ⟨m, hk, hrest⟩ := run_cons_eq_ok hrun
      refine ⟨hm.1, fun m' hm' => ?_⟩
      cases hk.symm.trans hm'
      exact ih (hm.2 m hk) hrest

/-- A condition that follows from another one wherever an invariant holds. -/
theorem Meets.imp {cond' : σ → ι → Prop} (I : σ → Prop)
    (himp : ∀ s l, I s → cond s l → cond' s l)
    (hstep : ∀ s l s', I s → cond s l → step s l = .ok s' → I s') (h : I s)
    (hm : Meets step cond s ls) : Meets step cond' s ls := by
  induction ls generalizing s with
  | nil => trivial
  | cons l ls ih =>
      exact ⟨himp s l h hm.1, fun s' hs' => ih (hstep s l s' h hm.1 hs') (hm.2 s' hs')⟩

/-- Conditions that agree wherever an invariant holds are met by the same runs. -/
theorem meets_congr {cond' : σ → ι → Prop} (I : σ → Prop)
    (hiff : ∀ s l, I s → (cond s l ↔ cond' s l))
    (hstep : ∀ s l s', I s → cond' s l → step s l = .ok s' → I s') (h : I s) :
    Meets step cond s ls ↔ Meets step cond' s ls := by
  induction ls generalizing s with
  | nil => exact Iff.rfl
  | cons l ls ih =>
      constructor
      · rintro ⟨hc, hrest⟩
        have hc' : cond' s l := (hiff s l h).mp hc
        exact ⟨hc', fun s' hs' => (ih (hstep s l s' h hc' hs')).mp (hrest s' hs')⟩
      · rintro ⟨hc', hrest⟩
        exact ⟨(hiff s l h).mpr hc',
          fun s' hs' => (ih (hstep s l s' h hc' hs')).mpr (hrest s' hs')⟩

/-- A step of a run that meets the condition starts where it holds. -/
theorem Meets.cond_of_run (hm : Meets step cond s ls) (hpre : ks ++ [l] <+: ls)
    (hrun : run step s ks = .ok s') : cond s' l := by
  induction ks generalizing s ls with
  | nil =>
      cases hrun
      exact (hm.of_isPrefix hpre).1
  | cons k ks ih =>
      cases ls with
      | nil => cases List.prefix_nil.mp hpre
      | cons l' ls =>
          obtain ⟨rfl, htail⟩ := List.cons_prefix_cons.mp hpre
          obtain ⟨m, hk, hrest⟩ := run_cons_eq_ok hrun
          exact ih (hm.2 m hk) htail hrest

/-- A run that stops has a step that stops it. -/
theorem exists_of_run_error {e : ε} (hrun : run step s ls = .error e) :
    ∃ ks l m, ks ++ [l] <+: ls ∧ run step s ks = .ok m ∧ step m l = .error e := by
  induction ls generalizing s with
  | nil => cases hrun
  | cons l ls ih =>
      cases hl : step s l with
      | error e' =>
          rw [run_cons_error hl] at hrun
          cases hrun
          exact ⟨[], l, s, by simp, rfl, hl⟩
      | ok m =>
          rw [run_cons_ok hl] at hrun
          obtain ⟨ks, k, u, hpre, hks, hk⟩ := ih hrun
          exact ⟨l :: ks, k, u, List.cons_prefix_cons.mpr ⟨rfl, hpre⟩,
            by rw [run_cons_ok hl, hks], hk⟩

/-- A run that does not meet the condition has a first step that breaks it. -/
theorem exists_of_not_meets (hm : ¬ Meets step cond s ls) :
    ∃ ks l m, ks ++ [l] <+: ls ∧ run step s ks = .ok m ∧ ¬ cond m l := by
  induction ls generalizing s with
  | nil => exact absurd trivial hm
  | cons l ls ih =>
      by_cases hc : cond s l
      · have hrest : ∃ s', step s l = .ok s' ∧ ¬ Meets step cond s' ls := by
          by_contra hall
          exact hm ⟨hc, fun s' hs' => by_contra fun hn => hall ⟨s', hs', hn⟩⟩
        obtain ⟨s', hs', hn⟩ := hrest
        obtain ⟨ks, k, m, hpre, hrun, hbad⟩ := ih hn
        exact ⟨l :: ks, k, m, List.cons_prefix_cons.mpr ⟨rfl, hpre⟩,
          by rw [run_cons_ok hs', hrun], hbad⟩
      · exact ⟨[], l, s, by simp, rfl, hc⟩

/-- **Simulation along a run.**  If every step that meets the condition succeeds and
is matched by the abstract step, then so is every run whose steps meet it. -/
theorem simulates (astep : τ → ι → τ) (R : σ → τ → Prop)
    (hstep : ∀ s t l, R s t → cond s l → ∃ s', step s l = .ok s' ∧ R s' (astep t l)) {t : τ}
    (h : R s t) (hm : Meets step cond s ls) :
    ∃ s', run step s ls = .ok s' ∧ R s' (ls.foldl astep t) := by
  induction ls generalizing s t with
  | nil => exact ⟨s, rfl, h⟩
  | cons l ls ih =>
      obtain ⟨s', hs', hR⟩ := hstep s t l h hm.1
      obtain ⟨u, hu, hRu⟩ := ih hR (hm.2 s' hs')
      exact ⟨u, by rw [run_cons_ok hs', hu], hRu⟩

/-- **Exactly the runs that meet the condition are observed to be good.**  Besides the
simulation, a step from a related state that breaks the condition must never reach a
state with the observed property `P`. -/
theorem simulates_iff (astep : τ → ι → τ) (R P : σ → τ → Prop)
    (hstep : ∀ s t l, R s t → cond s l → ∃ s', step s l = .ok s' ∧ R s' (astep t l))
    (hgood : ∀ s t, R s t → P s t)
    (hbad : ∀ s t l s', R s t → ¬ cond s l → step s l = .ok s' → ¬ P s' (astep t l))
    {t : τ} (h : R s t) :
    (∀ ks, ks <+: ls → ∃ s', run step s ks = .ok s' ∧ P s' (ks.foldl astep t)) ↔
      Meets step cond s ls := by
  constructor
  · induction ls generalizing s t with
    | nil => intro _; trivial
    | cons l ls ih =>
        intro hall
        obtain ⟨s₁, hs₁, hP₁⟩ := hall [l] (by simp)
        have hl : step s l = .ok s₁ := by
          obtain ⟨m, hm, hrun⟩ := run_cons_eq_ok hs₁
          cases hrun
          exact hm
        have hc : cond s l := by
          by_contra hc
          exact hbad s t l s₁ h hc hl hP₁
        obtain ⟨s₂, hs₂, hR₂⟩ := hstep s t l h hc
        have heq : s₁ = s₂ := Except.ok.inj (hl.symm.trans hs₂)
        subst heq
        refine ⟨hc, fun s' hs' => ?_⟩
        have heq : s₁ = s' := Except.ok.inj (hl.symm.trans hs')
        subst heq
        refine ih hR₂ fun ks hks => ?_
        obtain ⟨u, hu, hPu⟩ := hall (l :: ks) (List.cons_prefix_cons.mpr ⟨rfl, hks⟩)
        rw [run_cons_ok hl] at hu
        exact ⟨u, hu, hPu⟩
  · intro hm ks hks
    obtain ⟨s', hs', hR⟩ := simulates astep R hstep h (hm.of_isPrefix hks)
    exact ⟨s', hs', hgood s' _ hR⟩

/-- **Exactly the runs that meet the condition perform.** -/
theorem performs_iff (R : σ → Prop) {Q : σ → ι → σ → Prop}
    (hstep : ∀ s l, R s → cond s l → ∃ s', step s l = .ok s' ∧ Q s l s' ∧ R s')
    (hbad : ∀ s l s', R s → ¬ cond s l → step s l = .ok s' → ¬ Q s l s') (h : R s) :
    Performs step Q s ls ↔ Meets step cond s ls := by
  induction ls generalizing s with
  | nil => exact Iff.rfl
  | cons l ls ih =>
      constructor
      · rintro ⟨s₁, hs₁, hQ, hrest⟩
        have hc : cond s l := by
          by_contra hc
          exact hbad s l s₁ h hc hs₁ hQ
        obtain ⟨s₂, hs₂, -, hR⟩ := hstep s l h hc
        have heq : s₁ = s₂ := Except.ok.inj (hs₁.symm.trans hs₂)
        subst heq
        refine ⟨hc, fun s' hs' => ?_⟩
        have heq : s₁ = s' := Except.ok.inj (hs₁.symm.trans hs')
        subst heq
        exact (ih hR).mp hrest
      · rintro ⟨hc, hrest⟩
        obtain ⟨s', hs', hQ, hR⟩ := hstep s l h hc
        exact ⟨s', hs', hQ, (ih hR).mpr (hrest s' hs')⟩

/-- **Invariance along a run.**  Labels may be disabled or stop the run; a property that
every successful step meeting the condition preserves holds in every state reached. -/
theorem invariant (I : σ → Prop)
    (hstep : ∀ s l s', I s → cond s l → step s l = .ok s' → I s')
    (h : I s) (hm : Meets step cond s ls) (hrun : run step s ls = .ok s') : I s' := by
  induction ls generalizing s with
  | nil => cases hrun; exact h
  | cons l ls ih =>
      obtain ⟨m, hl, hrest⟩ := run_cons_eq_ok hrun
      exact ih (hstep s l m h hm.1 hl) (hm.2 m hl) hrest

/-- A property that every successful step preserves holds in every state reached. -/
theorem invariant_of_step (I : σ → Prop) (hstep : ∀ s l s', I s → step s l = .ok s' → I s')
    (h : I s) (hrun : run step s ls = .ok s') : I s' := by
  induction ls generalizing s with
  | nil => cases hrun; exact h
  | cons l ls ih =>
      obtain ⟨m, hl, hrest⟩ := run_cons_eq_ok hrun
      exact ih (hstep s l m h hl) hrest

/-- **Abstraction along a run.**  If every step is the abstract step on what `f` shows of the
state, then so is every run, and both stop together. -/
theorem run_map {astep : τ → ι → Except ε τ} (I : σ → Prop) (f : σ → τ)
    (hinv : ∀ s l s', I s → step s l = .ok s' → I s')
    (hstep : ∀ s l, I s → (step s l).map f = astep (f s) l) (h : I s) :
    (run step s ls).map f = run astep (f s) ls := by
  induction ls generalizing s with
  | nil => rfl
  | cons l ls ih =>
      have hl := hstep s l h
      cases hs : step s l with
      | ok s' =>
          rw [hs] at hl
          rw [run_cons_ok hs, run_cons_ok hl.symm, ih (hinv s l s' h hs)]
      | error e =>
          rw [hs] at hl
          rw [run_cons_error hs, run_cons_error hl.symm]
          rfl

/-- **A measure bounds a run.**  If every step that costs something lowers the measure and
the others raise it by what they pay, a run has no more of the first than the measure and
what is paid. -/
theorem sum_le_of_step (I : σ → Prop) (Φ : σ → ℕ) (cost pay : ι → ℕ) (L : ι → Prop)
    (hinv : ∀ s l s', I s → step s l = .ok s' → I s')
    (hstep : ∀ s l s', I s → L l → step s l = .ok s' → Φ s' + cost l ≤ Φ s + pay l)
    (h : I s) (hL : ∀ l ∈ ls, L l) (hrun : run step s ls = .ok s') :
    Φ s' + (ls.map cost).sum ≤ Φ s + (ls.map pay).sum := by
  induction ls generalizing s with
  | nil =>
      cases hrun
      exact Nat.le_refl _
  | cons l ls ih =>
      obtain ⟨m, hl, hrest⟩ := run_cons_eq_ok hrun
      have hhead := hstep s l m h (hL l List.mem_cons_self) hl
      have htail := ih (hinv s l m h hl) (fun k hk => hL k (List.mem_cons_of_mem l hk)) hrest
      simp only [List.map_cons, List.sum_cons]
      omega

/-- The same, where the steps that count are those with a label in `p`, and those with a label in
`q` pay `c`. -/
theorem countP_le_of_step (I : σ → Prop) (Φ : σ → ℕ) (p q : ι → Bool) (c : ℕ)
    (hinv : ∀ s l s', I s → step s l = .ok s' → I s')
    (hstep : ∀ s l s', I s → step s l = .ok s' → Φ s' + (p l).toNat ≤ Φ s + c * (q l).toNat)
    (h : I s) (hrun : run step s ls = .ok s') : Φ s' + ls.countP p ≤ Φ s + c * ls.countP q := by
  induction ls generalizing s with
  | nil =>
      cases hrun
      exact Nat.le_refl _
  | cons l ls ih =>
      obtain ⟨m, hl, hrest⟩ := run_cons_eq_ok hrun
      have hhead := hstep s l m h hl
      have htail := ih (hinv s l m h hl) hrest
      simp only [List.countP_cons]
      cases hp : p l <;> cases hq : q l <;>
        simp only [hp, hq, Bool.toNat_true, Bool.toNat_false] at hhead ⊢ <;> grind

/-- **Exactly the runs that meet the condition keep the property**, among the runs with
labels in `L`.  Besides the invariance, a step that breaks the condition must be taken and
lose the property. -/
theorem invariant_iff (I P : σ → Prop) (L : ι → Prop)
    (hstep : ∀ s l s', I s → L l → cond s l → step s l = .ok s' → I s')
    (hgood : ∀ s, I s → P s)
    (hbad : ∀ s l, I s → ¬ cond s l → ∃ s', step s l = .ok s' ∧ ¬ P s')
    (h : I s) (hL : ∀ l ∈ ls, L l) :
    (∀ ks s', ks <+: ls → run step s ks = .ok s' → P s') ↔ Meets step cond s ls := by
  induction ls generalizing s with
  | nil =>
      refine ⟨fun _ => trivial, fun _ ks s' hks hrun => ?_⟩
      rw [List.prefix_nil.mp hks] at hrun
      cases hrun
      exact hgood s h
  | cons l ls ih =>
      have hL' : ∀ l' ∈ ls, L l' := fun l' hl' => hL l' (List.mem_cons_of_mem l hl')
      constructor
      · intro hall
        have hc : cond s l := by
          by_contra hc
          obtain ⟨s', hs', hP⟩ := hbad s l h hc
          exact hP (hall [l] s' (by simp) (by rw [run_cons_ok hs', run_nil]))
        refine ⟨hc, fun s' hs' => ?_⟩
        refine (ih (hstep s l s' h (hL l List.mem_cons_self) hc hs') hL').mp ?_
        intro ks u hks hu
        exact hall (l :: ks) u (List.cons_prefix_cons.mpr ⟨rfl, hks⟩)
          (by rw [run_cons_ok hs', hu])
      · rintro ⟨hc, hrest⟩ ks u hks hu
        cases ks with
        | nil =>
            cases hu
            exact hgood s h
        | cons k ks =>
            obtain ⟨rfl, htail⟩ := List.cons_prefix_cons.mp hks
            obtain ⟨m, hm, hrun⟩ := run_cons_eq_ok hu
            exact (ih (hstep s k m h (hL k List.mem_cons_self) hc hm) hL').mpr (hrest m hm) ks u
              htail hrun

/-! ## What a run puts out -/

section Traces
variable {ο α : Type*} {out : σ → ι → List ο} {next : α → ο → Option α} {a : α}

/-- What the steps of a run put out, in order. -/
def trace (step : σ → ι → Except ε σ) (out : σ → ι → List ο) : σ → List ι → List ο
  | _, [] => []
  | s, l :: ls => match step s l with
    | .ok s' => out s l ++ trace step out s' ls
    | .error _ => []

/-- A run puts out what an automaton accepts, if each step that meets the condition does. -/
theorem accepts_trace (R : σ → α → Prop)
    (hstep : ∀ s l s' a, R s a → cond s l → step s l = .ok s' →
      ∃ a', (out s l).foldlM next a = some a' ∧ R s' a')
    (h : R s a) (hm : Meets step cond s ls) (hrun : run step s ls = .ok s') :
    ∃ a', (trace step out s ls).foldlM next a = some a' ∧ R s' a' := by
  induction ls generalizing s a with
  | nil =>
      cases hrun
      exact ⟨a, rfl, h⟩
  | cons l ls ih =>
      obtain ⟨m, hl, hrest⟩ := run_cons_eq_ok hrun
      obtain ⟨b, hb, hR⟩ := hstep s l m a h hm.1 hl
      obtain ⟨a', ha', hR'⟩ := ih hR (hm.2 m hl) hrest
      refine ⟨a', ?_, hR'⟩
      simp [trace, hl, List.foldlM_append, hb, ha']

end Traces

end LabelledRun
