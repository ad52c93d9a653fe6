import Mathlib.Tactic

/-!
# Coroutines

A coroutine is a tree of the effects it performs and the points at which it
suspends.  The environment answers effects and decides what a suspension is
resumed with, an answer or an exception.  A coroutine can be awaited, which
resumes every suspension until it ends, or driven by hand: `send` takes it to
its first suspension, and closing it there throws an exit exception into it.
-/

namespace AstraApi.Coroutine

/-- Effects `E` are answered by values of `A`; the coroutine ends with a value of
`V` or an exception of `X`. -/
inductive Coro (E A X V : Type*) where
  | ret (value : V)
  | throw (exc : X)
  | perform (effect : E) (next : A → Coro E A X V)
  | suspend (awaitable : E) (next : Except X A → Coro E A X V)

/-- The world a coroutine runs in, with a state of its own. -/
structure Environment (σ E A X : Type*) where
  perform : σ → E → A × σ
  resume : σ → E → Except X A × σ

inductive Event (E : Type*) where
  | performed (effect : E)
  | awaited (awaitable : E)
  deriving DecidableEq

/-- Where a coroutine stands after it was started. -/
inductive FirstStep (E A X V : Type*) where
  | returned (value : V)
  | raised (exc : X)
  | yielded (next : Except X A → Coro E A X V)

variable {σ E A X V : Type*}

/-- Run up to the end or to the first suspension. -/
def Coro.send (env : Environment σ E A X) : Coro E A X V → σ →
    FirstStep E A X V × σ × List (Event E)
  | .ret value, s => (.returned value, s, [])
  | .throw exc, s => (.raised exc, s, [])
  | .perform effect next, s =>
    let (answer, s') := env.perform s effect
    let (step, s'', events) := (next answer).send env s'
    (step, s'', .performed effect :: events)
  | .suspend awaitable next, s => (.yielded next, s, [.awaited awaitable])

/-- Await the coroutine: every suspension is resumed by the environment. -/
def Coro.run (env : Environment σ E A X) : Coro E A X V → σ →
    Except X V × σ × List (Event E)
  | .ret value, s => (.ok value, s, [])
  | .throw exc, s => (.error exc, s, [])
  | .perform effect next, s =>
    let (answer, s') := env.perform s effect
    let (outcome, s'', events) := (next answer).run env s'
    (outcome, s'', .performed effect :: events)
  | .suspend awaitable next, s =>
    let (answer, s') := env.resume s awaitable
    let (outcome, s'', events) := (next answer).run env s'
    (outcome, s'', .awaited awaitable :: events)

def Event.isAwaited : Event E → Bool
  | .performed _ => false
  | .awaited _ => true

def FirstStep.outcome : FirstStep E A X V → Option (Except X V)
  | .returned value => some (.ok value)
  | .raised exc => some (.error exc)
  | .yielded _ => none

variable {env : Environment σ E A X} {coro : Coro E A X V} {s s' : σ} {events : List (Event E)}

theorem run_of_send {step : FirstStep E A X V} {outcome : Except X V}
    (hsend : coro.send env s = (step, s', events)) (houtcome : step.outcome = some outcome) :
    coro.run env s = (outcome, s', events) ∧ ∀ event ∈ events, event.isAwaited = false := by
  induction coro generalizing s s' events with
  | ret value =>
    obtain ⟨rfl, rfl, rfl⟩ : .returned value = step ∧ s = s' ∧ [] = events := by
      simpa [Coro.send] using hsend
    obtain rfl : .ok value = outcome := by simpa [FirstStep.outcome] using houtcome
    simp [Coro.run]
  | throw exc =>
    obtain ⟨rfl, rfl, rfl⟩ : .raised exc = step ∧ s = s' ∧ [] = events := by
      simpa [Coro.send] using hsend
    obtain rfl : .error exc = outcome := by simpa [FirstStep.outcome] using houtcome
    simp [Coro.run]
  | perform effect next ih =>
    simp only [Coro.send, Prod.mk.injEq] at hsend
    obtain ⟨hstep, hstate, rfl⟩ := hsend
    have hnext : (next (env.perform s effect).1).send env (env.perform s effect).2 =
        (step, s', ((next (env.perform s effect).1).send env (env.perform s effect).2).2.2) := by
      rw [← hstep, ← hstate]
    obtain ⟨hrun, hevents⟩ := ih _ hnext
    constructor
    · simp [Coro.run, hrun]
    · intro event hevent
      rcases List.mem_cons.mp hevent with rfl | hevent
      · rfl
      · exact hevents _ hevent
  | suspend awaitable next _ =>
    obtain ⟨rfl, _⟩ : .yielded next = step ∧ _ := by simpa [Coro.send] using hsend
    simp [FirstStep.outcome] at houtcome

theorem awaited_of_yielded
    {next : Except X A → Coro E A X V} (hsend : (coro.send env s).1 = .yielded next) :
    ∃ event ∈ (coro.run env s).2.2, event.isAwaited = true := by
  induction coro generalizing s with
  | ret value | throw value => simp [Coro.send] at hsend
  | perform effect continuation ih =>
    obtain ⟨event, hmem, hawaited⟩ := ih _ hsend
    exact ⟨event, List.mem_cons_of_mem _ hmem, hawaited⟩
  | suspend awaitable continuation _ =>
    exact ⟨.awaited awaitable, List.mem_cons_self, rfl⟩

/-! ## Composition -/

/-- Go on with the result. -/
def Coro.bind {W : Type*} : Coro E A X V → (V → Coro E A X W) → Coro E A X W
  | .ret value, rest => rest value
  | .throw exc, _ => .throw exc
  | .perform effect next, rest => .perform effect fun answer => (next answer).bind rest
  | .suspend awaitable next, rest => .suspend awaitable fun answer => (next answer).bind rest

/-- An exception for which there is no handler passes. -/
def Coro.tryCatch (handler : X → Option (Coro E A X V)) : Coro E A X V → Coro E A X V
  | .ret value => .ret value
  | .throw exc => (handler exc).getD (.throw exc)
  | .perform effect next => .perform effect fun answer => (next answer).tryCatch handler
  | .suspend awaitable next => .suspend awaitable fun answer => (next answer).tryCatch handler

/-! ## Effects a coroutine can still perform -/

/-- No effect of this kind is performed, whatever the answers. -/
def Coro.Avoids (p : E → Prop) : Coro E A X V → Prop
  | .ret _ => True
  | .throw _ => True
  | .perform effect next => ¬ p effect ∧ ∀ answer, (next answer).Avoids p
  | .suspend _ next => ∀ answer, (next answer).Avoids p

theorem Coro.Avoids.not_performed {p : E → Prop} (havoids : coro.Avoids p)
    (env : Environment σ E A X) (s : σ) :
    ∀ effect, .performed effect ∈ (coro.send env s).2.2 → ¬ p effect := by
  induction coro generalizing s with
  | ret value | throw value => simp [Coro.send]
  | perform first next ih =>
    intro effect hmem
    rcases List.mem_cons.mp hmem with heq | hmem
    · cases heq
      exact havoids.1
    · exact ih _ (havoids.2 _) _ _ hmem
  | suspend awaitable next _ => simp [Coro.send]

theorem Coro.Avoids.yielded {p : E → Prop} (havoids : coro.Avoids p)
    (env : Environment σ E A X) (s : σ) {next : Except X A → Coro E A X V}
    (hsend : (coro.send env s).1 = .yielded next) (answer : Except X A) :
    (next answer).Avoids p := by
  induction coro generalizing s with
  | ret value | throw value => simp [Coro.send] at hsend
  | perform first continuation ih =>
    exact ih _ (havoids.2 _) _ hsend
  | suspend awaitable continuation _ =>
    obtain rfl : continuation = next := by simpa [Coro.send] using hsend
    exact havoids _

/-! ## Runs of compositions -/

theorem Coro.bind_assoc {W Z : Type*} (coro : Coro E A X V) (rest : V → Coro E A X W)
    (last : W → Coro E A X Z) :
    (coro.bind rest).bind last = coro.bind fun value => (rest value).bind last := by
  induction coro with
  | ret value => rfl
  | throw exc => rfl
  | perform effect next ih | suspend effect next ih =>
    simp only [Coro.bind]
    congr 1
    funext answer
    exact ih _

/-- A run with the events that came before it. -/
def preceded (events : List (Event E)) (result : Except X V × σ × List (Event E)) :
    Except X V × σ × List (Event E) :=
  (result.1, result.2.1, events ++ result.2.2)

@[simp]
theorem preceded_nil (result : Except X V × σ × List (Event E)) : preceded [] result = result := rfl

theorem preceded_preceded (first second : List (Event E))
    (result : Except X V × σ × List (Event E)) :
    preceded first (preceded second result) = preceded (first ++ second) result := by
  simp [preceded]

theorem Coro.run_bind_eq {W : Type*} (rest : V → Coro E A X W) (coro : Coro E A X V) (s : σ) :
    (coro.bind rest).run env s =
      match coro.run env s with
      | (.ok value, s', events) => preceded events ((rest value).run env s')
      | (.error exc, s', events) => (.error exc, s', events) := by
  induction coro generalizing s with
  | ret => rfl
  | throw exc => rfl
  | perform effect next ih | suspend effect next ih =>
    simp only [Coro.bind, Coro.run, ih]
    rcases (next _).run env _ with ⟨outcome, s', events⟩
    cases outcome with
    | ok value => simp [preceded]
    | error exc => rfl

theorem Coro.run_bind {W : Type*}
    {value : V} (hrun : coro.run env s = (.ok value, s', events))
    (rest : V → Coro E A X W) :
    (coro.bind rest).run env s = preceded events ((rest value).run env s') := by
  rw [run_bind_eq, hrun]

theorem Coro.run_bind_error {W : Type*} {exc : X}
    (hrun : coro.run env s = (.error exc, s', events)) (rest : V → Coro E A X W) :
    (coro.bind rest).run env s = (.error exc, s', events) := by
  rw [run_bind_eq, hrun]

theorem Coro.run_tryCatch (env : Environment σ E A X) (handler : X → Option (Coro E A X V))
    (coro : Coro E A X V) (s : σ) :
    (coro.tryCatch handler).run env s =
      match coro.run env s with
      | (.ok value, s', events) => (.ok value, s', events)
      | (.error exc, s', events) =>
        preceded events (((handler exc).getD (.throw exc)).run env s') := by
  induction coro generalizing s with
  | ret value => rfl
  | throw exc => rfl
  | perform effect next ih | suspend effect next ih =>
    simp only [Coro.tryCatch, Coro.run, ih]
    rcases (next _).run env _ with ⟨outcome, s', events⟩
    cases outcome with
    | ok value => rfl
    | error exc => rfl

/-- A coroutine that returned did not need the handler. -/
theorem Coro.run_tryCatch_bind {W : Type*} {value : V}
    (hrun : coro.run env s = (.ok value, s', events)) (rest : V → Coro E A X W)
    (handler : X → Option (Coro E A X W)) :
    ((coro.bind rest).tryCatch handler).run env s =
      preceded events (((rest value).tryCatch handler).run env s') := by
  rw [Coro.run_tryCatch, Coro.run_tryCatch, Coro.run_bind hrun]
  rcases (rest value).run env s' with ⟨outcome, s'', later⟩
  cases outcome with
  | ok result => rfl
  | error exc => exact (preceded_preceded _ _ _).symm

theorem Coro.send_bind {W : Type*}
    {value : V}
    (hsend : coro.send env s = (.returned value, s', events)) (rest : V → Coro E A X W) :
    (coro.bind rest).send env s = (((rest value).send env s').1, ((rest value).send env s').2.1,
        events ++ ((rest value).send env s').2.2) := by
  induction coro generalizing s events with
  | ret =>
    obtain ⟨rfl, rfl, rfl⟩ := hsend
    rfl
  | throw exc => simp [Coro.send] at hsend
  | perform effect next ih =>
    simp only [Coro.send, Prod.mk.injEq] at hsend
    obtain ⟨hstep, hstate, rfl⟩ := hsend
    have hnext := ih _ (Prod.ext hstep (Prod.ext hstate rfl))
    simp [Coro.bind, Coro.send, hnext]
  | suspend awaitable next _ => simp [Coro.send] at hsend

/-! ## Observation -/

section Observation

variable {O : Type*} (view : Event E → List O) (env : Environment σ E A X)

/-- A run, as an observer sees it. -/
def observed (result : Except X V × σ × List (Event E)) : Except X V × σ × List O :=
  (result.1, result.2.1, result.2.2.flatMap view)

/-- An observer cannot tell the coroutines apart. -/
def Coro.Alike (first second : Coro E A X V) : Prop :=
  ∀ s, observed view (first.run env s) = observed view (second.run env s)

variable {view env}

theorem Coro.Alike.rfl : coro.Alike view env coro := fun _ => Eq.refl _

theorem Coro.Alike.trans {first second third : Coro E A X V} (hfirst : first.Alike view env second)
    (hsecond : second.Alike view env third) : first.Alike view env third :=
  fun s => (hfirst s).trans (hsecond s)

theorem observed_preceded {first second : List (Event E)}
    {left right : Except X V × σ × List (Event E)} (hevents : first.flatMap view = second.flatMap view)
    (hresults : observed view left = observed view right) :
    observed view (preceded first left) = observed view (preceded second right) := by
  simp only [observed, Prod.mk.injEq] at hresults
  simp [observed, preceded, hevents, hresults]

/-- Like coroutines that are followed by like coroutines. -/
theorem Coro.Alike.bind {W : Type*} {first second : Coro E A X V} {left right : V → Coro E A X W}
    (hfirst : first.Alike view env second)
    (hrest : ∀ value, (left value).Alike view env (right value)) :
    (first.bind left).Alike view env (second.bind right) := by
  intro s
  have hs := hfirst s
  rcases hleft : first.run env s with ⟨outcome, s', events⟩
  rcases hright : second.run env s with ⟨outcome', s'', events'⟩
  simp only [hleft, hright, observed, Prod.mk.injEq] at hs
  obtain ⟨rfl, rfl, hevents⟩ := hs
  cases outcome with
  | ok value =>
    rw [Coro.run_bind hleft, Coro.run_bind hright]
    exact observed_preceded hevents (hrest _ _)
  | error exc =>
    rw [Coro.run_bind_error hleft, Coro.run_bind_error hright]
    simp [observed, hevents]

theorem Coro.Alike.tryCatch {first second : Coro E A X V} (halike : first.Alike view env second)
    (handler : X → Option (Coro E A X V)) :
    (first.tryCatch handler).Alike view env (second.tryCatch handler) := by
  intro s
  have hs := halike s
  rw [Coro.run_tryCatch, Coro.run_tryCatch]
  rcases hleft : first.run env s with ⟨outcome, s', events⟩
  rcases hright : second.run env s with ⟨outcome', s'', events'⟩
  simp only [hleft, hright, observed, Prod.mk.injEq] at hs
  obtain ⟨rfl, rfl, hevents⟩ := hs
  cases outcome with
  | ok value => simp [observed, hevents]
  | error exc => exact observed_preceded hevents (Eq.refl _)

end Observation

end AstraApi.Coroutine
