import Mathlib.Tactic

/-!
# Exit stacks

Contexts that were entered are left in reverse order.  A context is left
normally or with the exception in flight; it may let that exception pass,
suppress it or raise another one, and the next context is left with whatever is
then in flight.
-/

namespace AstraApi.ExitStack

/-- How a context ends once it is left. -/
inductive Ending (X : Type*) where
  | returns
  | raises (exc : X)
  deriving DecidableEq

/-- The code of a context after its entry: left normally, or with an exception
thrown into it. -/
structure Context (X : Type*) where
  close : Ending X
  throw : X → Ending X

/-- What is in flight while a stack unwinds: an exception, whether it was raised
during the unwinding, and whether an earlier one was suppressed. -/
structure Flight (X : Type*) where
  exc : Option X
  pending : Bool := false
  suppressed : Bool := false

variable {N X : Type*} [DecidableEq X]

def Context.leave (context : Context X) (flight : Flight X) : Flight X :=
  match flight.exc with
  | none =>
    match context.close with
    | .returns => flight
    | .raises exc =>
      { flight with
        exc := some exc
        pending := true }
  | some exc =>
    match context.throw exc with
    | .returns =>
      { exc := none
        pending := false
        suppressed := true }
    | .raises exc' =>
      if exc' = exc then flight
      else
        { flight with
          exc := some exc'
          pending := true }

/-- Leave all contexts, the one entered last first; the log says with what each
was left. -/
def unwind : List (N × Context X) → Flight X → List (N × Option X) × Flight X
  | [], flight => ([], flight)
  | (name, context) :: rest, flight =>
    let (log, final) := unwind rest (context.leave flight)
    ((name, flight.exc) :: log, final)

/-- `__aexit__`: raise what is pending, or tell whether the exception was
suppressed. -/
def aexit (contexts : List (N × Context X)) (exc : Option X) :
    List (N × Option X) × Except X Bool :=
  let (log, final) := unwind contexts { exc := exc }
  match final.pending, final.exc with
  | true, some exc => (log, .error exc)
  | _, _ => (log, .ok (exc.isSome && final.suppressed))

def aclose (contexts : List (N × Context X)) : List (N × Option X) × Except X Bool :=
  aexit contexts none

/-! ## Every context is left once -/

theorem unwind_names (contexts : List (N × Context X)) (flight : Flight X) :
    (unwind contexts flight).1.map Prod.fst = contexts.map Prod.fst := by
  induction contexts generalizing flight with
  | nil => rfl
  | cons context rest ih => simp [unwind, ih]

@[simp]
theorem aexit_names (contexts : List (N × Context X)) (exc : Option X) :
    (aexit contexts exc).1.map Prod.fst = contexts.map Prod.fst := by
  simp only [aexit]
  split <;> exact unwind_names _ _

@[simp]
theorem aclose_names (contexts : List (N × Context X)) :
    (aclose contexts).1.map Prod.fst = contexts.map Prod.fst :=
  aexit_names _ _

@[simp]
theorem aexit_nil (exc : Option X) :
    aexit ([] : List (N × Context X)) exc = ([], .ok false) := by
  simp [aexit, unwind]

@[simp]
theorem aclose_nil : aclose ([] : List (N × Context X)) = ([], .ok false) :=
  aexit_nil _

/-! ## With what a context is left -/

theorem leave_exc {context : Context X} {flight : Flight X} {exc : X}
    (hflight : flight.exc = some exc) :
    (context.leave flight).exc = some exc ↔ context.throw exc = .raises exc := by
  simp only [Context.leave, hflight]
  cases context.throw exc with
  | returns => simp
  | raises exc' =>
    by_cases hsame : exc' = exc
    · simp [hsame, hflight]
    · simp [hsame]

/-- All contexts are left with the exception exactly when all but the one left
last let it pass. -/
theorem unwind_received {contexts : List (N × Context X)} {flight : Flight X} {exc : X}
    (hflight : flight.exc = some exc) :
    (∀ entry ∈ (unwind contexts flight).1, entry.2 = some exc) ↔
      ∀ context ∈ contexts.dropLast, context.2.throw exc = .raises exc := by
  induction contexts generalizing flight with
  | nil => simp [unwind]
  | cons first rest ih =>
    cases rest with
    | nil => simp [unwind, hflight]
    | cons second rest =>
      by_cases hpass : (first.2.leave flight).exc = some exc
      · have hrest := ih hpass
        simp only [unwind, List.mem_cons, forall_eq_or_imp, hflight, true_and,
          List.dropLast_cons_cons] at hrest ⊢
        rw [hrest]
        simp [(leave_exc hflight).mp hpass]
      · have hnot : ¬ first.2.throw exc = .raises exc := by
          rw [← leave_exc hflight]
          exact hpass
        simp only [unwind, List.mem_cons, forall_eq_or_imp, List.dropLast_cons_cons, hnot,
          false_and, iff_false, not_and]
        intro _ hsecond
        exact absurd hsecond hpass

theorem aexit_received (contexts : List (N × Context X)) (exc : X) :
    (∀ entry ∈ (aexit contexts (some exc)).1, entry.2 = some exc) ↔
      ∀ context ∈ contexts.dropLast, context.2.throw exc = .raises exc := by
  have hlog : (aexit contexts (some exc)).1 = (unwind contexts { exc := some exc }).1 := by
    simp only [aexit]
    split <;> rfl
  rw [hlog]
  exact unwind_received rfl

/-- The context entered last is closed normally. -/
theorem aclose_first (name : N) (context : Context X) (rest : List (N × Context X)) :
    (name, none) ∈ (aclose ((name, context) :: rest)).1 := by
  simp only [aclose, aexit, unwind]
  split <;> exact List.mem_cons_self

end AstraApi.ExitStack
