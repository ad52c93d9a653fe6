import Mathlib.Tactic

/-!
# Machines and specifications

A machine answers one input at a time.  A specification says which answers are
allowed and what they do to an abstract state.  A machine whose steps are all
allowed, seen through an abstraction, does what the specification allows in every
run.
-/

namespace AstraApi.Simulation

variable {σ ι ο α : Type*}

def run (step : σ → ι → ο × σ) : σ → List ι → List ο × σ
  | state, [] => ([], state)
  | state, input :: inputs =>
    let (answer, state) := step state input
    let (answers, state) := run step state inputs
    (answer :: answers, state)

theorem run_cons (step : σ → ι → ο × σ) (state : σ) (input : ι) (inputs : List ι) :
    run step state (input :: inputs) =
      ((step state input).1 :: (run step (step state input).2 inputs).1,
        (run step (step state input).2 inputs).2) := rfl

/-- Each input is legal in the state that it meets. -/
def LegalRun (step : σ → ι → ο × σ) (legal : σ → ι → Prop) : σ → List ι → Prop
  | _, [] => True
  | state, input :: inputs =>
    legal state input ∧ LegalRun step legal (step state input).2 inputs

/-- Two conditions on steps agree along a run if they agree in every state that
is reached while they hold. -/
theorem legalRun_iff {step : σ → ι → ο × σ} {legal P Q : σ → ι → Prop} (inv : σ → Prop)
    (hstep : ∀ state input, inv state → legal state input →
      (P state input ↔ Q state input) ∧ (P state input → inv (step state input).2))
    (inputs : List ι) {state : σ} (hinv : inv state) (hlegal : LegalRun step legal state inputs) :
    LegalRun step P state inputs ↔ LegalRun step Q state inputs := by
  induction inputs generalizing state with
  | nil => exact Iff.rfl
  | cons input inputs ih =>
    have first := hstep _ _ hinv hlegal.1
    constructor
    · intro h
      exact ⟨first.1.mp h.1, (ih (first.2 h.1) hlegal.2).mp h.2⟩
    · intro h
      have hp := first.1.mpr h.1
      exact ⟨hp, (ih (first.2 hp) hlegal.2).mpr h.2⟩

theorem legalRun_iff_forall₂ {step : σ → ι → ο × σ} {P : ι → ο → Prop} (inputs : List ι)
    (state : σ) :
    LegalRun step (fun state input => P input (step state input).1) state inputs ↔
      List.Forall₂ P inputs (run step state inputs).1 := by
  induction inputs generalizing state with
  | nil => exact iff_of_true trivial .nil
  | cons input inputs ih => rw [LegalRun, run_cons, List.forall₂_cons, ih]

theorem legalRun_congr {step : σ → ι → ο × σ} {P Q : σ → ι → Prop}
    (h : ∀ state input, P state input ↔ Q state input) (state : σ) (inputs : List ι) :
    LegalRun step P state inputs ↔ LegalRun step Q state inputs := by
  induction inputs generalizing state with
  | nil => exact Iff.rfl
  | cons input inputs ih => exact and_congr (h _ _) (ih _)

/-- Steps of a specification one after the other. -/
inductive Transitions (spec : α → ι → ο → α → Prop) : α → List ι → List ο → α → Prop
  | nil (state : α) : Transitions spec state [] [] state
  | cons {first middle last : α} {input : ι} {answer : ο} {inputs : List ι} {answers : List ο} :
      spec first input answer middle → Transitions spec middle inputs answers last →
        Transitions spec first (input :: inputs) (answer :: answers) last

/-- From one step to a whole run. -/
theorem run_refines {step : σ → ι → ο × σ} {legal : σ → ι → Prop}
    {spec : α → ι → ο → α → Prop} (inv : σ → Prop) (abstraction : σ → α)
    (hstep : ∀ state input, inv state → legal state input → inv (step state input).2 ∧
        spec (abstraction state) input (step state input).1 (abstraction (step state input).2))
    (inputs : List ι) {state : σ} (hinv : inv state) (hlegal : LegalRun step legal state inputs) :
    inv (run step state inputs).2 ∧
      Transitions spec (abstraction state) inputs (run step state inputs).1
        (abstraction (run step state inputs).2) := by
  induction inputs generalizing state with
  | nil => exact ⟨hinv, .nil _⟩
  | cons input inputs ih =>
    have first := hstep _ _ hinv hlegal.1
    have rest := ih first.1 hlegal.2
    exact ⟨rest.1, .cons first.2 rest.2⟩

end AstraApi.Simulation
