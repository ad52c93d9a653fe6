import AstraApi.Server.Handlers

/-!
# Driving a coroutine that has started

C++ takes the first step of an endpoint's coroutine.  `_drive_coro` takes the others: it
awaits what the coroutine yields and sends the result in, or throws the exception in.
The first await stands outside of the loop that does so.
-/

namespace AstraApi.Server

open Coroutine

section DriveCoro

variable {σ O X V : Type*}

/-- How a step ends: `StopIteration`, another exception, or a yield. -/
inductive Stepped (O X V : Type*) where
  | stopIteration (value : V)
  | raised (exc : X)
  | yielded (op : Op O) (coro : Except X (Answer O) → Handler O X V)

/-- A run up to the next yield. -/
def step (env : Environment σ (Op O) (Answer O) X) : Handler O X V → σ →
    Stepped O X V × σ × List (Event (Op O))
  | .ret value, s => (.stopIteration value, s, [])
  | .throw exc, s => (.raised exc, s, [])
  | .perform op next, s =>
    let (answer, s') := env.perform s op
    let (stepped, s'', events) := step env (next answer) s'
    (stepped, s'', .performed op :: events)
  | .suspend op next, s => (.yielded op next, s, [])

/-- The outcome of what was yielded; nothing is awaited for `None`. -/
def awaitYield (env : Environment σ (Op O) (Answer O) X) (s : σ) :
    Op O → Except X (Answer O) × σ × List (Event (Op O))
  | .wait none => (.ok .nothing, s, [])
  | op => ((env.resume s op).1, (env.resume s op).2, [.awaited op])

/-- The loop of `_drive_coro`; without fuel it has not ended. -/
def driveLoop (env : Environment σ (Op O) (Answer O) X) :
    ℕ → Stepped O X V → σ → Option (Except X V × σ × List (Event (Op O)))
  | _, .stopIteration value, s => some (.ok value, s, [])
  | _, .raised exc, s => some (.error exc, s, [])
  | 0, .yielded _ _, _ => none
  | fuel + 1, .yielded op coro, s =>
    match awaitYield env s op with
    | (.error exc, s', awaited) =>
      let (stepped, s'', events) := step env (coro (.error exc)) s'
      (driveLoop env fuel stepped s'').map (preceded (awaited ++ events))
    | (.ok result, s', awaited) =>
      let (stepped, s'', events) := step env (coro (.ok result)) s'
      (driveLoop env fuel stepped s'').map (preceded (awaited ++ events))

def driveYielded (env : Environment σ (Op O) (Answer O) X) (fuel : ℕ)
    (coro : Except X (Answer O) → Handler O X V) (firstYield : Op O) (s : σ) :
    Option (Except X V × σ × List (Event (Op O))) :=
  match awaitYield env s firstYield with
  | (.error exc, s', awaited) => some (.error exc, s', awaited)
  | (.ok result, s', awaited) =>
    let (stepped, s'', events) := step env (coro (.ok result)) s'
    (driveLoop env fuel stepped s'').map (preceded (awaited ++ events))

/-- The reference driver: every outcome is handed to the coroutine. -/
def reference (env : Environment σ (Op O) (Answer O) X) : Handler O X V → σ →
    Except X V × σ × List (Event (Op O))
  | .ret value, s => (.ok value, s, [])
  | .throw exc, s => (.error exc, s, [])
  | .perform op next, s =>
    preceded [.performed op] (reference env (next (env.perform s op).1) (env.perform s op).2)
  | .suspend op next, s =>
    let awaited := awaitYield env s op
    preceded awaited.2.2 (reference env (next awaited.1) awaited.2.1)

/-- The driver of a coroutine whose first step gave `firstYield` ends as the reference does. -/
def Drives (env : Environment σ (Op O) (Answer O) X) (coro : Handler O X V) (s : σ)
    (next : Except X (Answer O) → Handler O X V) (firstYield : Op O) (s' : σ)
    (events : List (Event (Op O))) : Prop :=
  ∃ least, ∀ fuel ≥ least, (driveYielded env fuel next firstYield s').map (preceded events) =
    some (reference env coro s)

/-- The coroutine raises the exception and does nothing else but yield `None`. -/
def PassesOn (exc : X) : Handler O X V → Prop
  | .throw raised => raised = exc
  | .suspend (.wait none) next => PassesOn exc (next (.ok .nothing))
  | _ => False

variable {env : Environment σ (Op O) (Answer O) X}

theorem driveLoop_yielded (fuel : ℕ) (op : Op O) (coro : Except X (Answer O) → Handler O X V)
    (s : σ) : driveLoop env (fuel + 1) (.yielded op coro) s =
      let awaited := awaitYield env s op
      let result := step env (coro awaited.1) awaited.2.1
      (driveLoop env fuel result.1 result.2.1).map (preceded (awaited.2.2 ++ result.2.2)) := by
  rw [driveLoop]
  rcases awaitYield env s op with ⟨outcome, s', awaited⟩
  cases outcome with
  | error exc => rfl
  | ok result => rfl

theorem preceded_append (first second : List (Event (Op O))) :
    (preceded (first ++ second) : Except X V × σ × List (Event (Op O)) → _) =
      preceded first ∘ preceded second := by
  funext result
  exact (preceded_preceded _ _ _).symm

variable (env) in
/-- From a step on, the loop does what the reference does. -/
theorem driveLoop_step (coro : Handler O X V) (s : σ) :
    ∃ least, ∀ fuel ≥ least, (driveLoop env fuel (step env coro s).1 (step env coro s).2.1).map
        (preceded (step env coro s).2.2) = some (reference env coro s) := by
  induction coro generalizing s with
  | ret value | throw value => exact ⟨0, fun fuel _ => by cases fuel <;> rfl⟩
  | perform op next ih =>
    have ⟨least, hleast⟩ := ih (env.perform s op).1 (env.perform s op).2
    refine ⟨least, fun fuel hfuel => ?_⟩
    have hnext := congrArg (Option.map (preceded [.performed op])) (hleast fuel hfuel)
    rw [Option.map_map, ← preceded_append] at hnext
    exact hnext
  | suspend op next ih =>
    have ⟨least, hleast⟩ := ih (awaitYield env s op).1 (awaitYield env s op).2.1
    refine ⟨least + 1, fun fuel hfuel => ?_⟩
    obtain ⟨fuel, rfl⟩ := Nat.exists_eq_add_one_of_ne_zero (Nat.ne_zero_of_lt hfuel)
    have hnext := congrArg (Option.map (preceded (awaitYield env s op).2.2))
      (hleast fuel (Nat.le_of_succ_le_succ hfuel))
    rw [Option.map_map, ← preceded_append] at hnext
    change (driveLoop env (fuel + 1) (.yielded op next) s).map (preceded []) = _
    rw [driveLoop_yielded]
    exact (congrFun Option.map_id _).trans hnext

/-- The coroutine of the handlers that drives the rest is the reference. -/
theorem run_driveRest (coro : Handler O X V) (s : σ) :
    (driveRest coro).run env s = reference env coro s := by
  induction coro generalizing s with
  | ret value => rfl
  | throw exc => rfl
  | perform op next ih =>
    rw [driveRest, reference, ← ih]
    rfl
  | suspend op next ih =>
    rw [reference, ← ih]
    match op with
    | .wait none => rfl
    | .wait (some _) | .write _ | .isClosing => rfl

theorem driveYielded_ok (next : Except X (Answer O) → Handler O X V) {firstYield : Op O} {s s' : σ}
    {result : Answer O} {awaited : List (Event (Op O))}
    (hawait : awaitYield env s firstYield = (.ok result, s', awaited)) :
    ∃ least, ∀ fuel ≥ least, driveYielded env fuel next firstYield s =
      some (preceded awaited (reference env (next (.ok result)) s')) := by
  have ⟨least, hleast⟩ := driveLoop_step env (next (.ok result)) s'
  refine ⟨least, fun fuel hfuel => ?_⟩
  rw [driveYielded, hawait]
  dsimp only
  rw [preceded_append, ← Option.map_map, hleast _ hfuel]
  rfl

theorem driveYielded_error {next : Except X (Answer O) → Handler O X V} {firstYield : Op O}
    {s s' : σ} {exc : X} {awaited : List (Event (Op O))}
    (hawait : awaitYield env s firstYield = (.error exc, s', awaited)) (fuel : ℕ) :
    driveYielded env fuel next firstYield s = some (preceded awaited (.error exc, s', [])) := by
  rw [driveYielded, hawait, preceded, List.append_nil]

theorem run_awaited {op : Op O} (next : Except X (Answer O) → Handler O X V) (s : σ)
    (hawait : awaitYield env s op = ((env.resume s op).1, (env.resume s op).2, [.awaited op]))
    (hdrive : driveCoro (.suspend op next) = .suspend op (fun
      | .ok answer => driveRest (next (.ok answer))
      | .error exc => .throw exc)) :
    (driveCoro (.suspend op next)).run env s =
      match awaitYield env s op with
      | (.ok result, s', awaited) => preceded awaited (reference env (next (.ok result)) s')
      | (.error exc, s', awaited) => preceded awaited (.error exc, s', []) := by
  rw [hawait, hdrive, Coro.run]
  rcases env.resume s op with ⟨outcome, s'⟩
  cases outcome with
  | ok result =>
    dsimp only
    rw [run_driveRest]
    rfl
  | error exc => rfl

theorem run_driveCoro (next : Except X (Answer O) → Handler O X V) (op : Op O) (s : σ) :
    (driveCoro (.suspend op next)).run env s =
      match awaitYield env s op with
      | (.ok result, s', awaited) => preceded awaited (reference env (next (.ok result)) s')
      | (.error exc, s', awaited) => preceded awaited (.error exc, s', []) := by
  cases op with
  | write | isClosing => exact run_awaited next s rfl rfl
  | wait awaitable =>
    cases awaitable with
    | none => exact run_driveRest _ s
    | some awaitable => exact run_awaited next s rfl rfl

/-- The driver does what the coroutine of the handlers does. -/
theorem driveYielded_eq_run (next : Except X (Answer O) → Handler O X V) (firstYield : Op O)
    (s : σ) : ∃ least, ∀ fuel ≥ least, driveYielded env fuel next firstYield s =
      some ((driveCoro (.suspend firstYield next)).run env s) := by
  rw [run_driveCoro]
  rcases hawait : awaitYield env s firstYield with ⟨outcome, s', awaited⟩
  cases outcome with
  | ok result => exact driveYielded_ok _ hawait
  | error exc => exact ⟨0, fun fuel _ => driveYielded_error hawait _⟩

/-- The first step belongs to the reference's run too. -/
theorem reference_of_step {coro : Handler O X V} {s s' : σ} {firstYield : Op O}
    {next : Except X (Answer O) → Handler O X V} {events : List (Event (Op O))}
    (hstep : step env coro s = (.yielded firstYield next, s', events)) :
    reference env coro s = preceded events (reference env (.suspend firstYield next) s') := by
  induction coro generalizing s events with
  | ret value => cases hstep
  | throw exc => cases hstep
  | perform op continuation ih =>
    have hnext : step env (continuation (env.perform s op).1) (env.perform s op).2 =
        (.yielded firstYield next, s',
          (step env (continuation (env.perform s op).1) (env.perform s op).2).2.2) := by
      have hfirst := congrArg Prod.fst hstep
      have hstate := congrArg (fun result => result.2.1) hstep
      exact Prod.ext hfirst (Prod.ext hstate rfl)
    have hevents : .performed op ::
        (step env (continuation (env.perform s op).1) (env.perform s op).2).2.2 = events :=
      congrArg (fun result => result.2.2) hstep
    have hrest := congrArg (preceded [.performed op]) (ih _ hnext)
    rw [← hevents]
    exact hrest
  | suspend op continuation _ =>
    cases hstep
    rfl

variable (env) in
theorem passesOn_iff (coro : Handler O X V) (exc : X) (s : σ) :
    PassesOn exc coro ↔ reference env coro s = (.error exc, s, []) := by
  induction coro generalizing s with
  | ret value => exact ⟨False.elim, fun h => by cases congrArg Prod.fst h⟩
  | throw raised =>
    constructor
    · intro h
      have hsame : raised = exc := h
      rw [hsame]
      rfl
    · exact fun h => Except.error.inj (congrArg Prod.fst h)
  | perform op next _ =>
    exact ⟨False.elim, fun h => by cases congrArg (fun result => result.2.2) h⟩
  | suspend op next ih =>
    match op with
    | .wait none => exact ih (.ok .nothing) s
    | .wait (some _) | .write _ | .isClosing =>
      exact ⟨False.elim, fun h => by cases congrArg (fun result => result.2.2) h⟩

theorem preceded_injective (events : List (Event (Op O))) :
    Function.Injective (preceded events : Except X V × σ × List (Event (Op O)) → _) := by
  intro left right h
  have houtcome := congrArg Prod.fst h
  have hstate := congrArg (fun result => result.2.1) h
  have hevents : events ++ left.2.2 = events ++ right.2.2 :=
    congrArg (fun result => result.2.2) h
  exact Prod.ext houtcome (Prod.ext hstate (List.append_cancel_left hevents))

/-- `_drive_coro` does what the reference does if and only if the coroutine would pass on an
exception of the first await. -/
theorem drives_iff {coro : Handler O X V} {s s' : σ} {firstYield : Op O}
    {next : Except X (Answer O) → Handler O X V} {events : List (Event (Op O))}
    (hstep : step env coro s = (.yielded firstYield next, s', events)) :
    Drives env coro s next firstYield s' events ↔
      ∀ exc, (awaitYield env s' firstYield).1 = .error exc → PassesOn exc (next (.error exc)) := by
  have hreference := reference_of_step hstep
  rw [reference] at hreference
  rw [Drives, hreference]
  rcases hawait : awaitYield env s' firstYield with ⟨outcome, s'', awaited⟩
  cases outcome with
  | ok result =>
    have ⟨least, hleast⟩ := driveYielded_ok next hawait
    constructor
    · exact fun _ exc herror => by cases herror
    · intro _
      refine ⟨least, fun fuel hfuel => ?_⟩
      rw [hleast _ hfuel]
      rfl
  | error exc =>
    constructor
    · rintro ⟨least, hleast⟩ raised herror
      have hsame := hleast _ le_rfl
      rw [driveYielded_error hawait, Option.map_some, Option.some.injEq] at hsame
      have hrun := preceded_injective _ (preceded_injective _ hsame)
      rw [← Except.error.inj herror]
      exact (passesOn_iff _ _ _ _).mpr hrun.symm
    · intro hpasses
      refine ⟨0, fun fuel _ => ?_⟩
      have hrun := (passesOn_iff env _ _ s'').mp (hpasses _ rfl)
      rw [driveYielded_error hawait]
      rw [hrun]
      rfl

end DriveCoro

/-- An endpoint that awaits `()` and answers 500 if that fails. -/
def guarded : Handler Unit Unit ℕ :=
  .suspend (.wait (some ())) fun
    | .ok _ => .ret 200
    | .error _ => .ret 500

def awaits (fails : Bool) : Environment Unit (Op Unit) (Answer Unit) Unit where
  perform s _ := (.nothing, s)
  resume s _ := (if fails then .error () else .ok .nothing, s)

theorem drives_guarded :
    Drives (awaits false) guarded ()
      (fun | .ok _ => .ret 200 | .error _ => .ret 500) (.wait (some ())) () [] :=
  (drives_iff rfl).mpr fun exc herror => by cases herror

/-- The handler around the first await does not run. -/
theorem drives_failing_first :
    ¬ ∀ (env : Environment Unit (Op Unit) (Answer Unit) Unit) (coro : Handler Unit Unit ℕ)
        (next : Except Unit (Answer Unit) → Handler Unit Unit ℕ) (s s' : Unit)
        (firstYield : Op Unit) (events : List (Event (Op Unit))),
      step env coro s = (.yielded firstYield next, s', events) →
      Drives env coro s next firstYield s' events := by
  intro hall
  have ⟨least, hleast⟩ := hall (awaits true) guarded _ () () _ [] rfl
  have hsame := congrArg (Option.map Prod.fst) (hleast _ le_rfl)
  cases hsame

end AstraApi.Server
