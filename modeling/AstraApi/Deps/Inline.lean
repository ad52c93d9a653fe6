import AstraApi.Deps.Node
import AstraApi.Lib.Coroutine

/-!
# The inline coroutine solver

`_fast_solve_multi_inline` resolves up to three coroutine dependencies without
an event loop: it starts each coroutine and expects it to end at once.  When
one suspends it is closed, and a second coroutine, `_yield_fallback`, awaits
all dependencies from the first one on.
-/

namespace AstraApi.Deps

open List
open Coroutine

/-- Exceptions other than `HTTPException` become a 500; those that are not
`Exception`s pass. -/
def PyExc.translate : PyExc → PyExc
  | .other message => .http 500 message
  | exc => exc

/-- What closing a coroutine lets through: its own exit and every `Exception`
are suppressed. -/
def PyExc.escapesClose : PyExc → Bool
  | .base _ => true
  | _ => false

inductive Observation (E : Type*) where
  | started (name : Name)
  | inside (event : Event E)
  | ended (name : Name)
  deriving DecidableEq

section Solver

variable {σ E V : Type*}

/-- Calling a coroutine function may itself raise (a missing argument). -/
abbrev CoroNode (E V : Type*) := FastNode (Kwargs V → Except PyExc (Coro E V PyExc V)) V

inductive Pass (V : Type*) where
  | finished (resolved : Kwargs V) (errors : List MissingError)
  | raised (exc : PyExc)
  | suspended (errors : List MissingError)

/-- What a solver gives its caller: the injected values, the errors, and the
request's keyword arguments that are left. -/
structure Solved (V : Type*) where
  injected : Kwargs V
  errors : List MissingError
  remaining : Kwargs V

variable (isNone : V → Bool) (env : Environment σ E V PyExc) (kwargs : Kwargs V)

/-- The loop of `_fast_solve_multi_inline`. -/
def inlinePass : List (CoroNode E V) → Kwargs V → List MissingError → σ →
    Pass V × σ × List (Observation E)
  | [], resolved, errors, s => (.finished resolved errors, s, [])
  | node :: nodes, resolved, errors, s =>
    let missing := checkNodeRequired isNone kwargs node
    if missing ≠ [] then inlinePass nodes resolved (errors ++ missing) s
    else
      match node.call (buildNodeKwargs kwargs node resolved) with
      | .error exc => (.raised exc, s, [])
      | .ok coro =>
        match coro.send env s with
        | (.returned value, s', events) =>
          let (pass, s'', rest) := inlinePass nodes (storeResult resolved node value) errors s'
          (pass, s'', .started node.name :: events.map .inside ++ .ended node.name :: rest)
        | (.raised exc, s', events) =>
          (.raised exc.translate, s',
            .started node.name :: events.map .inside ++ [.ended node.name])
        | (.yielded next, s', events) =>
          let (step, s'', cleanup) := (next (.error .generatorExit)).send env s'
          let pass : Pass V :=
            match step with
            | .raised exc => if exc.escapesClose then .raised exc else .suspended errors
            | _ => .suspended errors
          (pass, s'', .started node.name :: (events ++ cleanup).map .inside)

def yieldFallback : List (CoroNode E V) → Kwargs V → σ →
    Except PyExc (Kwargs V) × σ × List (Observation E)
  | [], resolved, s => (.ok resolved, s, [])
  | node :: nodes, resolved, s =>
    match node.call (buildNodeKwargs kwargs node resolved) with
    | .error exc => (.error exc.translate, s, [])
    | .ok coro =>
      match coro.run env s with
      | (.ok value, s', events) =>
        let (outcome, s'', rest) :=
          yieldFallback nodes (storeResult resolved node value) s'
        (outcome, s'',
          .started node.name :: events.map .inside ++ .ended node.name :: rest)
      | (.error exc, s', events) =>
        (.error exc.translate, s',
          .started node.name :: events.map .inside ++ [.ended node.name])

/-- `_fast_solve_multi_inline` without overrides, and the coroutine it may
return driven to its end.  The result keeps the injectable names, and the
consumed parameters leave the request's keyword arguments. -/
def fastSolveMultiInline (nodes : List (CoroNode E V)) (injectable consumed : List Name)
    (s : σ) : Except PyExc (Solved V) × σ × List (Observation E) :=
  let solved (resolved : Kwargs V) (errors : List MissingError) : Solved V :=
    { injected := resolved.restrict injectable
      errors := errors
      remaining := kwargs.removeAll consumed }
  match inlinePass isNone env kwargs nodes Kwargs.empty [] s with
  | (.finished resolved errors, s', seen) => (.ok (solved resolved errors), s', seen)
  | (.raised exc, s', seen) => (.error exc, s', seen)
  | (.suspended errors, s', seen) =>
    let (outcome, s'', rest) := yieldFallback env kwargs nodes Kwargs.empty s'
    (outcome.map fun resolved => solved resolved errors, s'', seen ++ rest)

/-- Each dependency awaited once from start to end, in node order: the same
checks and arguments, and nothing driven by hand. -/
def solveOnce : List (CoroNode E V) → Kwargs V → List MissingError → σ →
    Except PyExc (Kwargs V × List MissingError) × σ × List (Observation E)
  | [], resolved, errors, s => (.ok (resolved, errors), s, [])
  | node :: nodes, resolved, errors, s =>
    let missing := checkNodeRequired isNone kwargs node
    if missing ≠ [] then solveOnce nodes resolved (errors ++ missing) s
    else
      match node.call (buildNodeKwargs kwargs node resolved) with
      | .error exc => (.error exc, s, [])
      | .ok coro =>
        match coro.run env s with
        | (.ok value, s', events) =>
          let (solved, s'', rest) := solveOnce nodes (storeResult resolved node value) errors s'
          (solved, s'', .started node.name :: events.map .inside ++ .ended node.name :: rest)
        | (.error exc, s', events) =>
          (.error exc.translate, s',
            .started node.name :: events.map .inside ++ [.ended node.name])

/-! ## Starts and ends -/

def Observation.weight : Observation E → ℤ
  | .started _ => 1
  | .inside _ => 0
  | .ended _ => -1

/-- Coroutines that were started and did not end. -/
def abandoned (observations : List (Observation E)) : ℤ :=
  (observations.map Observation.weight).sum

@[simp]
theorem abandoned_nil : abandoned ([] : List (Observation E)) = 0 := rfl

@[simp]
theorem abandoned_cons (observation : Observation E) (rest : List (Observation E)) :
    abandoned (observation :: rest) = observation.weight + abandoned rest := by
  simp [abandoned]

@[simp]
theorem abandoned_append (left right : List (Observation E)) :
    abandoned (left ++ right) = abandoned left + abandoned right := by
  simp [abandoned]

@[simp]
theorem abandoned_inside (events : List (Event E)) :
    abandoned (events.map Observation.inside) = 0 := by
  induction events with
  | nil => rfl
  | cons event events ih => simp [Observation.weight, ih]

/-- Nothing in these observations had to be waited for. -/
def Quiet (observations : List (Observation E)) : Prop :=
  ∀ event, .inside event ∈ observations → event.isAwaited = false

theorem abandoned_yieldFallback (nodes : List (CoroNode E V)) (resolved : Kwargs V) (s : σ) :
    abandoned (yieldFallback env kwargs nodes resolved s).2.2 = 0 := by
  induction nodes generalizing resolved s with
  | nil => rfl
  | cons node nodes ih =>
    simp only [yieldFallback]
    split
    · rfl
    · split
      · simp [Observation.weight, ih]
      · simp [Observation.weight]

theorem abandoned_solveOnce (nodes : List (CoroNode E V)) (resolved : Kwargs V)
    (errors : List MissingError) (s : σ) :
    abandoned (solveOnce isNone env kwargs nodes resolved errors s).2.2 = 0 := by
  induction nodes generalizing resolved errors s with
  | nil => rfl
  | cons node nodes ih =>
    simp only [solveOnce]
    split
    · exact ih _ _ s
    · split
      · rfl
      · split
        · simp [Observation.weight, ih]
        · simp [Observation.weight]

/-! ## The first pass -/

/-- The first pass does what awaiting each dependency once does, as long as
nothing has to be waited for. -/
theorem inlinePass_of_quiet (nodes : List (CoroNode E V)) (resolved : Kwargs V)
    (errors : List MissingError) (s : σ)
    (hquiet : Quiet (solveOnce isNone env kwargs nodes resolved errors s).2.2) :
    (inlinePass isNone env kwargs nodes resolved errors s).2.2 =
        (solveOnce isNone env kwargs nodes resolved errors s).2.2 ∧
      ∀ errors', (inlinePass isNone env kwargs nodes resolved errors s).1 ≠ .suspended errors' := by
  induction nodes generalizing resolved errors s with
  | nil => simp [inlinePass, solveOnce]
  | cons node nodes ih =>
    simp only [inlinePass, solveOnce] at hquiet ⊢
    split
    · rename_i hmissing
      rw [if_pos hmissing] at hquiet
      exact ih _ _ s hquiet
    · rename_i hmissing
      rw [if_neg hmissing] at hquiet
      cases hcall : node.call (buildNodeKwargs kwargs node resolved) with
      | error exc => simp
      | ok coro =>
        simp only [hcall] at hquiet ⊢
        rcases hsend : coro.send env s with ⟨step, s', events⟩
        cases step with
        | returned value =>
          obtain ⟨hrun, _⟩ := run_of_send hsend rfl
          simp only [hrun] at hquiet ⊢
          have hrest := ih (storeResult resolved node value) errors s' (by
            intro event hmem
            apply hquiet _
            simp [hmem])
          exact ⟨by rw [hrest.1], hrest.2⟩
        | raised exc =>
          obtain ⟨hrun, _⟩ := run_of_send hsend rfl
          simp [hrun]
        | yielded next =>
          have hfirst : (coro.send env s).1 = .yielded next := by rw [hsend]
          obtain ⟨event, hmem, hawaited⟩ := awaited_of_yielded hfirst
          have hquiet' : event.isAwaited = false := by
            apply hquiet _
            rcases hrun : coro.run env s with ⟨outcome, s'', events'⟩
            rw [hrun] at hmem
            cases outcome <;> simp [hmem]
          rw [hawaited] at hquiet'
          simp at hquiet'

theorem abandoned_inlinePass (nodes : List (CoroNode E V)) (resolved : Kwargs V)
    (errors : List MissingError) (s : σ)
    (hwaits : ¬ Quiet (solveOnce isNone env kwargs nodes resolved errors s).2.2) :
    abandoned (inlinePass isNone env kwargs nodes resolved errors s).2.2 = 1 := by
  induction nodes generalizing resolved errors s with
  | nil => simp [solveOnce, Quiet] at hwaits
  | cons node nodes ih =>
    simp only [inlinePass, solveOnce] at hwaits ⊢
    split
    · rename_i hmissing
      rw [if_pos hmissing] at hwaits
      exact ih _ _ s hwaits
    · rename_i hmissing
      rw [if_neg hmissing] at hwaits
      cases hcall : node.call (buildNodeKwargs kwargs node resolved) with
      | error exc => simp [hcall, Quiet] at hwaits
      | ok coro =>
        simp only [hcall] at hwaits ⊢
        rcases hsend : coro.send env s with ⟨step, s', events⟩
        cases step with
        | returned value =>
          obtain ⟨hrun, hevents⟩ := run_of_send hsend rfl
          simp only [hrun] at hwaits
          have hrest := ih _ _ _ (by
            intro hquiet
            apply hwaits
            intro event hmem
            simp only [cons_append, mem_cons, mem_append, mem_map,
              reduceCtorEq, Observation.inside.injEq, exists_eq_right, false_or] at hmem
            rcases hmem with hmem | hmem
            · exact hevents _ hmem
            · exact hquiet _ hmem)
          simp [Observation.weight, hrest]
        | raised exc =>
          obtain ⟨hrun, hevents⟩ := run_of_send hsend rfl
          exfalso
          apply hwaits
          intro event hmem
          simp only [hrun, cons_append, mem_cons, mem_append, mem_map,
            reduceCtorEq, Observation.inside.injEq, exists_eq_right, false_or,
            not_mem_nil, or_false] at hmem
          exact hevents _ hmem
        | yielded next => simp [Observation.weight]

/-- What is observed while one request is resolved is each dependency run once
from start to end, in node order, exactly when no dependency of that run has to
wait. -/
theorem fastSolveMultiInline_once_iff (nodes : List (CoroNode E V))
    (injectable consumed : List Name) (s : σ) :
    (fastSolveMultiInline isNone env kwargs nodes injectable consumed s).2.2 =
        (solveOnce isNone env kwargs nodes Kwargs.empty [] s).2.2 ↔
      Quiet (solveOnce isNone env kwargs nodes Kwargs.empty [] s).2.2 := by
  constructor
  · intro hsame
    by_contra hwaits
    have hone := abandoned_inlinePass _ _ _ _ _ [] s hwaits
    have hnone := abandoned_solveOnce isNone env kwargs nodes Kwargs.empty [] s
    rw [← hsame] at hnone
    simp only [fastSolveMultiInline] at hnone
    rcases hpass : inlinePass isNone env kwargs nodes Kwargs.empty [] s with ⟨pass, s', seen⟩
    cases pass with
    | finished resolved errors => simp_all
    | raised exc => simp_all
    | suspended errors =>
      have hfallback := abandoned_yieldFallback env kwargs nodes Kwargs.empty s'
      simp_all
  · intro hquiet
    obtain ⟨hseen, hends⟩ := inlinePass_of_quiet _ _ _ _ _ [] s hquiet
    simp only [fastSolveMultiInline]
    rcases hpass : inlinePass isNone env kwargs nodes Kwargs.empty [] s with ⟨pass, s', seen⟩
    rw [hpass] at hseen hends
    cases pass with
    | finished resolved errors => exact hseen
    | raised exc => exact hseen
    | suspended errors => exact absurd rfl (hends _)

end Solver

/-- A dependency that inserts a row and then waits for the commit. -/
def insertAndWait : CoroNode String ℕ where
  name := "session"
  call := fun _ => .ok (.perform "insert" fun _ => .suspend "commit" fun _ => .ret 1)

/-- The row is inserted twice. -/
theorem fastSolveMultiInline_not_once : ¬ ∀ (isNone : ℕ → Bool)
    (env : Environment Unit String ℕ PyExc) (kwargs : Kwargs ℕ) (nodes : List (CoroNode String ℕ))
    (injectable consumed : List Name), nodes.length ≤ 3 →
      (fastSolveMultiInline isNone env kwargs nodes injectable consumed ()).2.2 =
        (solveOnce isNone env kwargs nodes Kwargs.empty [] ()).2.2 := by
  intro hall
  have hsame := hall (fun _ => false) ⟨fun _ _ => (0, ()), fun _ _ => (.ok 0, ())⟩ Kwargs.empty
    [insertAndWait] [] [] (by decide)
  revert hsame
  decide

end AstraApi.Deps
