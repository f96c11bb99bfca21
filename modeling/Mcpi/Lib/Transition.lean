import Mathlib.Data.List.Infix

/-!
# Transition systems

A system is a step function on its states: what an event makes of a state, where it can happen.
A property of all runs is proved by an invariant of the steps. Where only the steps that meet a
condition keep the invariant, and any other step breaks the property, the property holds along
exactly the runs all of whose steps meet the condition.
-/

namespace Transition

variable {σ ε : Type} (step : σ → ε → Option σ)

/-- The state after some events, where they can happen one after another. -/
def run : σ → List ε → Option σ
  | s, [] => some s
  | s, e :: events => (step s e).bind fun s => run s events

/-- `good` holds in every state along a run. -/
def Always (good : σ → Prop) (s : σ) (events : List ε) : Prop :=
  ∀ before, before <+: events → ∀ s', run step s before = some s' → good s'

/-- Every event of a run meets `clean` in the state before it. -/
def Clean (clean : σ → ε → Prop) : σ → List ε → Prop
  | _, [] => True
  | s, e :: events => clean s e ∧ ∀ s', step s e = some s' → Clean clean s' events

instance Clean.decide {clean : σ → ε → Prop} [∀ s e, Decidable (clean s e)] :
    ∀ (s : σ) (events : List ε), Decidable (Clean step clean s events)
  | _, [] => .isTrue trivial
  | s, e :: events =>
    have : Decidable (∀ s', step s e = some s' → Clean step clean s' events) :=
      match step s e with
      | none => .isTrue nofun
      | some s' =>
        have : Decidable (Clean step clean s' events) := Clean.decide s' events
        decidable_of_iff (Clean step clean s' events) (by simp)
    inferInstanceAs (Decidable (clean s e ∧ ∀ s', step s e = some s' → Clean step clean s' events))

variable {step}

/-- What a step that looks something up and tests it has found -/
theorem of_guarded {α β : Type} {found : Option α} {test : α → Prop} [DecidablePred test] {next : α → β} {b : β}
    (h : (found.bind fun x => if test x then some (next x) else none) = some b) :
    ∃ x, found = some x ∧ test x ∧ next x = b := by
  obtain ⟨x, hfound, h⟩ := Option.bind_eq_some_iff.mp h
  obtain ⟨htest, h⟩ := Option.ite_none_right_eq_some.mp h
  exact ⟨x, hfound, htest, Option.some.inj h⟩

@[simp] theorem run_nil (s : σ) : run step s [] = some s := rfl

variable {events : List ε}

theorem run_cons {s s'' : σ} {e : ε} :
    run step s (e :: events) = some s'' ↔ ∃ s', step s e = some s' ∧ run step s' events = some s'' :=
  Option.bind_eq_some_iff

theorem run_append {s s'' : σ} {events events' : List ε} :
    run step s (events ++ events') = some s'' ↔ ∃ s', run step s events = some s' ∧ run step s' events' = some s'' := by
  induction events generalizing s with
  | nil => simp
  | cons e events ih =>
    rw [List.cons_append, run_cons]
    simp only [ih, run_cons]
    constructor
    · rintro ⟨s₁, hstep, s', hrun, hrun'⟩
      exact ⟨s', ⟨s₁, hstep, hrun⟩, hrun'⟩
    · rintro ⟨s', ⟨s₁, hstep, hrun⟩, hrun'⟩
      exact ⟨s₁, hstep, s', hrun, hrun'⟩

/-- **Invariants.** What every step keeps holds after every run. -/
theorem invariant {inv : σ → Prop} (hstep : ∀ s e s', inv s → step s e = some s' → inv s') {s s' : σ}
    (hinv : inv s) (hrun : run step s events = some s') : inv s' := by
  induction events generalizing s with
  | nil =>
    cases hrun
    exact hinv
  | cons e events ih =>
    obtain ⟨s₁, hstep₁, hrun⟩ := run_cons.mp hrun
    exact ih (hstep s e s₁ hinv hstep₁) hrun

theorem always_nil {good : σ → Prop} {s : σ} : Always step good s [] ↔ good s := by
  constructor
  · exact fun h => h [] (List.prefix_refl []) s rfl
  · rintro h before hbefore s' hrun
    obtain rfl := List.prefix_nil.mp hbefore
    cases hrun
    exact h

theorem always_cons {good : σ → Prop} {s : σ} {e : ε} :
    Always step good s (e :: events) ↔ good s ∧ ∀ s', step s e = some s' → Always step good s' events := by
  constructor
  · intro h
    refine ⟨h [] List.nil_prefix s rfl, fun s' hstep before hbefore s'' hrun => ?_⟩
    exact h (e :: before) (List.cons_prefix_cons.mpr ⟨rfl, hbefore⟩) s'' (run_cons.mpr ⟨s', hstep, hrun⟩)
  · rintro ⟨hgood, h⟩ before hbefore s'' hrun
    cases before with
    | nil =>
      cases hrun
      exact hgood
    | cons e' before =>
      obtain ⟨rfl, hrest⟩ := List.cons_prefix_cons.mp hbefore
      obtain ⟨s', hstep, hrun⟩ := run_cons.mp hrun
      exact h s' hstep before hrest s'' hrun

section Conditions

variable {good inv : σ → Prop} {clean : σ → ε → Prop}

/-- **Invariants of clean runs.** -/
theorem always_of_clean (hgood : ∀ s, inv s → good s)
    (hclean : ∀ s e s', inv s → clean s e → step s e = some s' → inv s') {s : σ}
    (hinv : inv s) (h : Clean step clean s events) : Always step good s events := by
  induction events generalizing s with
  | nil => exact always_nil.mpr (hgood s hinv)
  | cons e events ih =>
    refine always_cons.mpr ⟨hgood s hinv, fun s' hstep => ?_⟩
    exact ih (hclean s e s' hinv h.1 hstep) (h.2 s' hstep)

/-- **The condition is exact** where a step that does not meet it breaks the property. -/
theorem always_iff_clean (hgood : ∀ s, inv s → good s)
    (hclean : ∀ s e s', inv s → clean s e → step s e = some s' → inv s')
    (hbad : ∀ s e s', inv s → ¬ clean s e → step s e = some s' → ¬ good s') {s s'' : σ}
    (hinv : inv s) (hrun : run step s events = some s'') :
    Always step good s events ↔ Clean step clean s events := by
  refine ⟨fun h => ?_, always_of_clean hgood hclean hinv⟩
  induction events generalizing s with
  | nil => trivial
  | cons e events ih =>
    obtain ⟨s', hstep, hrun⟩ := run_cons.mp hrun
    have hnext := (always_cons.mp h).2 s' hstep
    have hmeets : clean s e := by
      by_contra hnot
      exact hbad s e s' hinv hnot hstep (hnext [] List.nil_prefix s' rfl)
    refine ⟨hmeets, fun s₁ hstep₁ => ?_⟩
    obtain rfl := Option.some.inj (hstep.symm.trans hstep₁)
    exact ih (hclean s e s' hinv hmeets hstep) hrun hnext

end Conditions

end Transition
