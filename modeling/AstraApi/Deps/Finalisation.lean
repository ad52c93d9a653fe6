import AstraApi.Deps.Generators

/-!
# Finalisation of generator dependencies

The part of `_response_shim` from the endpoint call to the return, with every
exit on which the two exit stacks are left, or not.
-/

namespace AstraApi.Deps

open List
open ExitStack

/-- What the endpoint (or an exception handler) returned, with the exception
that turning it into a response raises: while a streaming body is iterated, or
while any other response is built (a missing file, a failed response validation
or serialisation). -/
inductive Returned where
  | streaming (failure : Option PyExc)
  | other (failure : Option PyExc)
  deriving DecidableEq

/-- The code around the endpoint.  `prepare` is `false` when a parameter model
or the body is rejected with a 422 after the dependencies were resolved. -/
structure Handling (V : Type*) where
  prepare : Kwargs V → Except PyExc Bool := fun _ => .ok true
  endpoint : Kwargs V → Except PyExc Returned
  handler : PyExc → Option (Except PyExc Returned) := fun _ => none
  middleware : Returned → Except PyExc Returned := .ok
  background : Option PyExc := none

/-- The end of a request: which dependency or endpoint exception there was, and
how the handling ended. -/
structure Handled where
  events : List GenEvent
  raised : Option PyExc := none
  result : Except PyExc Unit := .ok ()

def PyExc.isHttp : PyExc → Bool
  | .http _ _ => true
  | _ => false

/-- The error of an endpoint exception that a dependency suppressed. -/
def notAwaited : PyExc :=
  .other ("Response not awaited. There's a high chance that the application code is raising " ++
    "an exception and a dependency with yield has a block with a bare except, or a block with " ++
    "except Exception, and is not raising the exception again.")

def exitStackOnError (exits : Stacks) (exc : PyExc) : List GenEvent × Except PyExc Bool :=
  let (log, result) := aexit exits.function (some exc)
  match result with
  | .error exc' => (resumedEvents .function log, .error exc')
  | .ok suppressed =>
    let (log', result') := aexit exits.request (some exc)
    (resumedEvents .function log ++ resumedEvents .request log',
      result'.map fun suppressed' => suppressed' || suppressed)

/-- The last steps for a response that is not streamed: an `HTTPException` of the
function stack becomes the response, other `Exception`s are logged. -/
def closeBoth (exits : Stacks) : List GenEvent × Except PyExc Unit :=
  let (log, result) := aclose exits.function
  let continues :=
    match result with
    | .error exc => exc.isException && !exc.isHttp
    | .ok _ => true
  if continues then
    let (log', result') := closeQuietly exits.request
    (resumedEvents .function log ++ resumedEvents .request log', result')
  else (resumedEvents .function log, result.map fun _ => ())

/-- A streaming body is iterated between the two stacks, and exceptions of the
stacks pass. -/
def closeAround (exits : Stacks) (failure : Option PyExc) : List GenEvent × Except PyExc Unit :=
  let (log, result) := aclose exits.function
  match result, failure.filter fun exc => !exc.isException with
  | .error exc, _ => (resumedEvents .function log, .error exc)
  | .ok _, some exc => (resumedEvents .function log, .error exc)
  | .ok _, none =>
    let (log', result') := aclose exits.request
    (resumedEvents .function log ++ resumedEvents .request log', result'.map fun _ => ())

section Shim

variable {V : Type*} (handling : Handling V)

/-- An `Exception` of the middleware is dropped. -/
def Handling.applyMiddleware (returned : Returned) : Except PyExc Returned :=
  match handling.middleware returned with
  | .ok final => .ok final
  | .error exc => if exc.isException then .ok returned else .error exc

/-- `_response_shim` once the endpoint or an exception handler has returned. -/
def finishResponse (exits : Stacks) (returned : Returned) : List GenEvent × Except PyExc Unit :=
  match handling.applyMiddleware returned with
  | .error exc => ([], .error exc)
  | .ok (.streaming failure) =>
    let (events, result) := closeAround exits failure
    match result, handling.background with
    | .ok _, some exc => (events, .error exc)
    | _, _ => (events, result)
  | .ok (.other (some exc)) => ([], .error exc)
  | .ok (.other none) =>
    match handling.background with
    | some exc => ([], .error exc)
    | none => closeBoth exits

def callEndpoint (exits : Stacks) (kwargs : Kwargs V) : Handled :=
  match handling.endpoint kwargs with
  | .ok returned =>
    let (events, result) := finishResponse handling exits returned
    { events := events
      result := result }
  | .error exc =>
    if exc.isException then
      let (events, result) := exitStackOnError exits exc
      match result with
      | .error exc' =>
        { events := events
          raised := some exc
          result := .error exc' }
      | .ok true =>
        { events := events
          raised := some exc
          result := .error notAwaited }
      | .ok false =>
        match handling.handler exc with
        | none =>
          { events := events
            raised := some exc
            result := .error exc }
        | some (.error exc') =>
          { events := events
            raised := some exc
            result := .error exc' }
        | some (.ok returned) =>
          -- Both stacks are empty by now.
          let (events', result) := finishResponse handling {} returned
          { events := events ++ events'
            raised := some exc
            result := result }
    else
      { events := []
        raised := some exc
        result := .error exc }

/-- A request to a route with generator dependencies.  Errors of the
dependencies are answered with a 422, by `_handle_async_di` or by the shim. -/
def handleRequest (isNone : V → Bool) (nodes : List (GenNode V)) (injectable consumed : List Name)
    (kwargs : Kwargs V) : Handled :=
  let (events, resolution) := resolveDepsGen isNone kwargs nodes 0 Kwargs.empty [] {}
  match resolution with
  | .raised dependency exc =>
    { events := events
      raised := some dependency
      result := .error exc }
  | .resolved values errors exits =>
    if errors ≠ [] then { events := events }
    else
      let endpointKwargs := (kwargs.removeAll consumed).update (values.restrict injectable)
      match handling.prepare endpointKwargs with
      | .error exc =>
        { events := events
          result := .error exc }
      | .ok false => { events := events }
      | .ok true =>
        let handled := callEndpoint handling exits endpointKwargs
        { handled with events := events ++ handled.events }

end Shim

/-! ## What finalisation means -/

def enteredIn (scope : Scope) (events : List GenEvent) : List ℕ :=
  events.filterMap fun
    | .entered scope' node => if scope' = scope then some node else none
    | .resumed _ _ _ => none

def resumedIn (scope : Scope) (events : List GenEvent) : List ℕ :=
  events.filterMap fun
    | .entered _ _ => none
    | .resumed scope' node _ => if scope' = scope then some node else none

/-- Every generator that was entered is resumed once, in reverse order within its
scope, and receives the exception of a later dependency or of the endpoint. -/
structure Handled.Finalised (handled : Handled) : Prop where
  once : ∀ scope, resumedIn scope handled.events = (enteredIn scope handled.events).reverse
  received : ∀ exc, handled.raised = some exc →
    ∀ scope node received, .resumed scope node received ∈ handled.events → received = some exc

/-! ## Events of the two scopes -/

@[simp]
theorem resumedIn_append (scope : Scope) (left right : List GenEvent) :
    resumedIn scope (left ++ right) = resumedIn scope left ++ resumedIn scope right := by
  simp [resumedIn]

@[simp]
theorem enteredIn_append (scope : Scope) (left right : List GenEvent) :
    enteredIn scope (left ++ right) = enteredIn scope left ++ enteredIn scope right := by
  simp [enteredIn]

@[simp]
theorem resumedIn_nil (scope : Scope) : resumedIn scope [] = [] := rfl

@[simp]
theorem enteredIn_nil (scope : Scope) : enteredIn scope [] = [] := rfl

theorem resumedIn_resumedEvents_self (scope : Scope) (log : List (ℕ × Option PyExc)) :
    resumedIn scope (resumedEvents scope log) = log.map Prod.fst := by
  induction log with
  | nil => rfl
  | cons entry log ih =>
    simp only [resumedIn, resumedEvents, map_cons, filterMap_cons] at ih ⊢
    simp

theorem resumedIn_resumedEvents_of_ne {scope other : Scope} (hne : other ≠ scope)
    (log : List (ℕ × Option PyExc)) : resumedIn scope (resumedEvents other log) = [] := by
  induction log with
  | nil => rfl
  | cons entry log ih =>
    simp only [resumedIn, resumedEvents, map_cons, filterMap_cons] at ih ⊢
    simp [hne]

@[simp]
theorem enteredIn_resumedEvents (scope other : Scope) (log : List (ℕ × Option PyExc)) :
    enteredIn scope (resumedEvents other log) = [] := by
  induction log with
  | nil => rfl
  | cons entry log ih =>
    exact ih

def Stacks.contexts (exits : Stacks) : Scope → List (ℕ × Context PyExc)
  | .function => exits.function
  | .request => exits.request

/-- Every context of both stacks was left once, the last entered first. -/
def Stacks.AllLeft (exits : Stacks) (events : List GenEvent) : Prop :=
  ∀ scope, resumedIn scope events = (exits.contexts scope).map Prod.fst

def Stacks.IsEmpty (exits : Stacks) : Prop :=
  exits.function = [] ∧ exits.request = []

theorem allLeft_function_iff {exits : Stacks} {log : List (ℕ × Option PyExc)}
    (hlog : log.map Prod.fst = exits.function.map Prod.fst) :
    exits.AllLeft (resumedEvents .function log) ↔ exits.request = [] := by
  constructor
  · intro hall
    have hrequest := hall .request
    rw [resumedIn_resumedEvents_of_ne (by decide)] at hrequest
    exact map_eq_nil_iff.mp hrequest.symm
  · intro hrequest scope
    cases scope with
    | function => rw [resumedIn_resumedEvents_self, hlog]; rfl
    | request => rw [resumedIn_resumedEvents_of_ne (by decide), Stacks.contexts, hrequest]; rfl

theorem allLeft_both {exits : Stacks} {log log' : List (ℕ × Option PyExc)}
    (hlog : log.map Prod.fst = exits.function.map Prod.fst)
    (hlog' : log'.map Prod.fst = exits.request.map Prod.fst) :
    exits.AllLeft (resumedEvents .function log ++ resumedEvents .request log') := by
  intro scope
  rw [resumedIn_append]
  cases scope with
  | function =>
    rw [resumedIn_resumedEvents_self, resumedIn_resumedEvents_of_ne (by decide), hlog]
    simp [Stacks.contexts]
  | request =>
    rw [resumedIn_resumedEvents_self, resumedIn_resumedEvents_of_ne (by decide), hlog']
    simp [Stacks.contexts]

theorem allLeft_nil_iff {exits : Stacks} : exits.AllLeft [] ↔ exits.IsEmpty := by
  constructor
  · intro hall
    constructor
    · exact map_eq_nil_iff.mp (hall .function).symm
    · exact map_eq_nil_iff.mp (hall .request).symm
  · intro hempty scope
    cases scope with
    | function => rw [Stacks.contexts, hempty.1]; rfl
    | request => rw [Stacks.contexts, hempty.2]; rfl

/-! ## Closing the stacks -/

@[simp]
theorem closeQuietly_names (contexts : List (ℕ × Context PyExc)) :
    (closeQuietly contexts).1.map Prod.fst = contexts.map Prod.fst := by
  rw [← aclose_names]
  simp only [closeQuietly]
  cases (aclose contexts).2 <;> rfl

/-- The function stack may not raise an `HTTPException`, nor anything but an
`Exception`, if there is a request stack. -/
theorem closeBoth_allLeft_iff (exits : Stacks) :
    exits.AllLeft (closeBoth exits).1 ↔
      exits.request = [] ∨ ∀ exc, (aclose exits.function).2 = .error exc →
        exc.isException = true ∧ exc.isHttp = false := by
  simp only [closeBoth]
  cases hresult : (aclose exits.function).2 with
  | ok suppressed =>
    simp only [if_true, reduceCtorEq, false_implies, implies_true, or_true, iff_true]
    exact allLeft_both (aclose_names _) (closeQuietly_names _)
  | error exc =>
    by_cases hcontinues : (exc.isException && !exc.isHttp) = true
    · simp only [hcontinues, if_true]
      have hexc : exc.isException = true ∧ exc.isHttp = false := by simpa using hcontinues
      have hall : exits.AllLeft (resumedEvents .function (aclose exits.function).1 ++
          resumedEvents .request (closeQuietly exits.request).1) :=
        allLeft_both (aclose_names _) (closeQuietly_names _)
      simp [hall, hexc]
    · simp only [hcontinues, if_false, Except.error.injEq, forall_eq', Bool.false_eq_true]
      rw [allLeft_function_iff (aclose_names _)]
      have hexc : ¬ (exc.isException = true ∧ exc.isHttp = false) := by simpa using hcontinues
      simp [hexc]

/-- Neither the function stack nor the iteration of the body may raise past the
request stack. -/
theorem closeAround_allLeft_iff (exits : Stacks) (failure : Option PyExc) :
    exits.AllLeft (closeAround exits failure).1 ↔
      exits.request = [] ∨ (∃ suppressed, (aclose exits.function).2 = .ok suppressed) ∧
        ∀ exc, failure = some exc → exc.isException = true := by
  simp only [closeAround]
  cases hresult : (aclose exits.function).2 with
  | error exc =>
    simp only [reduceCtorEq, exists_false, false_and, or_false]
    exact allLeft_function_iff (aclose_names _)
  | ok suppressed =>
    have hall : exits.AllLeft (resumedEvents .function (aclose exits.function).1 ++
        resumedEvents .request (aclose exits.request).1) :=
      allLeft_both (aclose_names _) (aclose_names _)
    cases failure with
    | none =>
      simp [hall]
    | some exc =>
      cases hexc : exc.isException with
      | true => simp [Option.filter, hexc, hall]
      | false =>
        simp only [Option.filter, hexc, Bool.not_false, if_true, Option.some.injEq,
          forall_eq', Bool.false_eq_true, and_false, or_false]
        exact allLeft_function_iff (aclose_names _)

section Tidy

variable {V : Type*} (handling : Handling V)

/-- A returned response that is built without an exception, after which both
stacks are closed. -/
def ReturnsTidily (exits : Stacks) (returned : Returned) : Prop :=
  match handling.applyMiddleware returned with
  | .error _ => False
  | .ok (.streaming failure) =>
    exits.request = [] ∨ (∃ suppressed, (aclose exits.function).2 = .ok suppressed) ∧
      ∀ exc, failure = some exc → exc.isException = true
  | .ok (.other failure) =>
    failure = none ∧ handling.background = none ∧
      (exits.request = [] ∨ ∀ exc, (aclose exits.function).2 = .error exc →
        exc.isException = true ∧ exc.isHttp = false)

/-- An endpoint exception that passes through both stacks. -/
def RaisesTidily (exits : Stacks) (exc : PyExc) : Prop :=
  exc.isException = true ∧
    (exits.request = [] ∨
      ∃ suppressed, (aexit exits.function (some exc)).2 = .ok suppressed) ∧
    ∀ scope, ∀ context ∈ (exits.contexts scope).dropLast, context.2.throw exc = .raises exc

theorem closeBoth_empty : (closeBoth {}).1 = [] := by
  simp [closeBoth, closeQuietly, resumedEvents]

theorem closeAround_empty (failure : Option PyExc) : (closeAround {} failure).1 = [] := by
  simp only [closeAround, aclose_nil]
  split <;> rfl

theorem finishResponse_empty (returned : Returned) : (finishResponse handling {} returned).1 = [] := by
  simp only [finishResponse]
  split
  · rfl
  · split
    · exact closeAround_empty _
    · exact closeAround_empty _
  · rfl
  · split
    · rfl
    · exact closeBoth_empty

theorem finishResponse_allLeft_iff (exits : Stacks) (returned : Returned) :
    exits.AllLeft (finishResponse handling exits returned).1 ↔
      exits.IsEmpty ∨ ReturnsTidily handling exits returned := by
  have hempty : exits.IsEmpty → exits.AllLeft (finishResponse handling exits returned).1 := by
    intro hempty
    obtain rfl : exits = {} := by
      cases exits
      simp only [Stacks.IsEmpty] at hempty
      simp [hempty.1, hempty.2]
    rw [finishResponse_empty]
    exact allLeft_nil_iff.mpr hempty
  have htidy : ¬ exits.IsEmpty → (exits.AllLeft (finishResponse handling exits returned).1 ↔
      ReturnsTidily handling exits returned) := by
    intro hnonempty
    simp only [finishResponse, ReturnsTidily]
    cases handling.applyMiddleware returned with
    | error exc => simpa [allLeft_nil_iff] using hnonempty
    | ok final =>
      cases final with
      | streaming failure =>
        simp only
        rw [← closeAround_allLeft_iff]
        cases (closeAround exits failure).2 <;> cases handling.background <;> rfl
      | other failure =>
        cases failure with
        | some exc => simpa [allLeft_nil_iff] using hnonempty
        | none =>
          cases handling.background with
          | some exc => simpa [allLeft_nil_iff] using hnonempty
          | none => simpa using closeBoth_allLeft_iff _
  by_cases hcase : exits.IsEmpty
  · simp only [hcase, true_or, iff_true]
    exact hempty hcase
  · simp only [hcase, false_or]
    exact htidy hcase

/-! ## The endpoint raises -/

theorem mem_resumedEvents {scope other : Scope} {node : ℕ} {received : Option PyExc}
    {log : List (ℕ × Option PyExc)} :
    .resumed scope node received ∈ resumedEvents other log ↔
      other = scope ∧ (node, received) ∈ log := by
  simp only [resumedEvents, mem_map, GenEvent.resumed.injEq]
  constructor
  · rintro ⟨entry, hmem, rfl, rfl, rfl⟩
    exact ⟨rfl, hmem⟩
  · rintro ⟨rfl, hmem⟩
    exact ⟨(node, received), hmem, rfl, rfl, rfl⟩

/-- Every event of these resumes a generator with this exception. -/
def AllReceive (exc : PyExc) (events : List GenEvent) : Prop :=
  ∀ scope node received, .resumed scope node received ∈ events → received = some exc

theorem allReceive_append (exc : PyExc) (left right : List GenEvent) :
    AllReceive exc (left ++ right) ↔ AllReceive exc left ∧ AllReceive exc right := by
  constructor
  · intro hall
    constructor
    · intro scope node received hmem
      exact hall _ _ _ (mem_append_left _ hmem)
    · intro scope node received hmem
      exact hall _ _ _ (mem_append_right _ hmem)
  · intro hall scope node received hmem
    rcases mem_append.mp hmem with hmem | hmem
    · exact hall.1 scope node received hmem
    · exact hall.2 scope node received hmem

theorem allReceive_aexit (exc : PyExc) (scope : Scope) (contexts : List (ℕ × Context PyExc)) :
    AllReceive exc (resumedEvents scope (aexit contexts (some exc)).1) ↔
      ∀ context ∈ contexts.dropLast, context.2.throw exc = .raises exc := by
  rw [← aexit_received]
  constructor
  · intro hall entry hmem
    exact hall _ _ _ (mem_resumedEvents.mpr ⟨rfl, hmem⟩)
  · intro hall other node received hmem
    exact hall (node, received) (mem_resumedEvents.mp hmem).2

theorem exitStackOnError_finalised_iff (exits : Stacks) {exc : PyExc}
    (hexc : exc.isException = true) :
    exits.AllLeft (exitStackOnError exits exc).1 ∧ AllReceive exc (exitStackOnError exits exc).1 ↔
      RaisesTidily exits exc := by
  simp only [exitStackOnError, RaisesTidily, hexc, true_and]
  cases hresult : (aexit exits.function (some exc)).2 with
  | error exc' =>
    simp only [allLeft_function_iff (aexit_names _ _), allReceive_aexit, reduceCtorEq,
      exists_false, or_false]
    constructor
    · intro h
      refine ⟨h.1, ?_⟩
      intro scope
      cases scope with
      | function => exact h.2
      | request => simp [Stacks.contexts, h.1]
    · intro h
      exact ⟨h.1, h.2 .function⟩
  | ok suppressed =>
    have hall : exits.AllLeft (resumedEvents .function (aexit exits.function (some exc)).1 ++
        resumedEvents .request (aexit exits.request (some exc)).1) :=
      allLeft_both (aexit_names _ _) (aexit_names _ _)
    simp only [hall, true_and, allReceive_append, allReceive_aexit, Except.ok.injEq, exists_eq',
      or_true]
    constructor
    · intro h scope
      cases scope with
      | function => exact h.1
      | request => exact h.2
    · intro h
      exact ⟨h .function, h .request⟩

theorem callEndpoint_of_raised (exits : Stacks) {kwargs : Kwargs V} {exc : PyExc}
    (hendpoint : handling.endpoint kwargs = .error exc) :
    (callEndpoint handling exits kwargs).raised = some exc ∧
      (callEndpoint handling exits kwargs).events =
        if exc.isException then (exitStackOnError exits exc).1 else [] := by
  simp only [callEndpoint, hendpoint]
  cases exc.isException with
  | false => exact ⟨rfl, rfl⟩
  | true =>
    cases (exitStackOnError exits exc).2 with
    | error exc' => exact ⟨rfl, rfl⟩
    | ok suppressed =>
      cases suppressed with
      | true => exact ⟨rfl, rfl⟩
      | false =>
        cases handling.handler exc with
        | none => exact ⟨rfl, rfl⟩
        | some answer =>
          cases answer with
          | error exc' => exact ⟨rfl, rfl⟩
          | ok returned => simp [finishResponse_empty]

theorem raisesTidily_of_isEmpty {exits : Stacks} (hempty : exits.IsEmpty) {exc : PyExc}
    (hexc : exc.isException = true) : RaisesTidily exits exc := by
  refine ⟨hexc, Or.inl hempty.2, ?_⟩
  intro scope
  cases scope with
  | function => simp [Stacks.contexts, hempty.1]
  | request => simp [Stacks.contexts, hempty.2]

/-- The endpoint returns or raises such that both stacks are left rightly. -/
def EndsTidily (exits : Stacks) (kwargs : Kwargs V) : Prop :=
  match handling.endpoint kwargs with
  | .error exc => RaisesTidily exits exc
  | .ok returned => ReturnsTidily handling exits returned

theorem callEndpoint_finalised_iff (exits : Stacks) (kwargs : Kwargs V) :
    exits.AllLeft (callEndpoint handling exits kwargs).events ∧
        (∀ exc, (callEndpoint handling exits kwargs).raised = some exc →
          AllReceive exc (callEndpoint handling exits kwargs).events) ↔
      exits.IsEmpty ∨ EndsTidily handling exits kwargs := by
  simp only [EndsTidily]
  cases hendpoint : handling.endpoint kwargs with
  | ok returned =>
    simp only [callEndpoint, hendpoint, reduceCtorEq, false_implies, implies_true, and_true]
    exact finishResponse_allLeft_iff handling _ _
  | error exc =>
    obtain ⟨hraised, hevents⟩ := callEndpoint_of_raised handling _ hendpoint
    rw [hraised, hevents]
    simp only [Option.some.injEq, forall_eq']
    cases hexc : exc.isException with
    | true =>
      simp only [if_true]
      rw [exitStackOnError_finalised_iff _ hexc]
      constructor
      · exact Or.inr
      · intro h
        rcases h with hempty | htidy
        · exact raisesTidily_of_isEmpty hempty hexc
        · exact htidy
    | false =>
      have hreceive : AllReceive exc [] := by
        intro scope node received hmem
        cases hmem
      simp [allLeft_nil_iff, hreceive, RaisesTidily, hexc]

/-! ## The dependencies -/

theorem push_names (exits : Stacks) (scope other : Scope) (node : ℕ) (context : Context PyExc) :
    ((exits.push scope node context).contexts other).map Prod.fst =
      (if scope = other then [node] else []) ++ (exits.contexts other).map Prod.fst := by
  cases scope <;> cases other <;> rfl

/-- The solver enters generators, and then either stops with their contexts on
the stacks or aborts with those that are there. -/
theorem resolveDepsGen_spec (isNone : V → Bool) (kwargs : Kwargs V) (nodes : List (GenNode V))
    (position : ℕ) (values : Kwargs V) (errors : List MissingError) (exits : Stacks) :
    ∃ (entered : List GenEvent) (exits' : Stacks), (∀ scope, resumedIn scope entered = []) ∧
      (∀ scope, (exits'.contexts scope).map Prod.fst =
        (enteredIn scope entered).reverse ++ (exits.contexts scope).map Prod.fst) ∧
      ((∃ values' errors', resolveDepsGen isNone kwargs nodes position values errors exits =
          (entered, .resolved values' errors' exits')) ∨
        ∃ exc, resolveDepsGen isNone kwargs nodes position values errors exits =
          (entered ++ (abortResolution exits' exc : List GenEvent × Resolution V).1,
            (abortResolution exits' exc).2)) := by
  induction nodes generalizing position values errors exits with
  | nil => exact ⟨[], exits, fun _ => rfl, fun _ => rfl, Or.inl ⟨values, errors, rfl⟩⟩
  | cons node nodes ih =>
    simp only [resolveDepsGen]
    rcases node.checkRequired isNone (genNodeKwargs kwargs node values) errors with
      ⟨skipped, errors'⟩
    cases skipped with
    | true => exact ih _ _ _ _
    | false =>
      cases node.invoke (genNodeKwargs kwargs node values) with
      | error exc => exact ⟨[], exits, fun _ => rfl, fun _ => rfl, Or.inr ⟨exc, rfl⟩⟩
      | ok result =>
        obtain ⟨value, context⟩ := result
        cases context with
        | none => exact ih _ _ _ _
        | some context =>
          obtain ⟨scope, context⟩ := context
          obtain ⟨entered, exits', hresumed, hnames, hresult⟩ :=
            ih (position + 1) (node.store values value) errors' (exits.push scope position context)
          refine ⟨.entered scope position :: entered, exits', ?_, ?_, ?_⟩
          · exact hresumed
          · intro other
            rw [hnames, push_names]
            simp only [enteredIn, filterMap_cons]
            by_cases hscope : scope = other
            · simp [hscope]
            · simp [hscope]
          · rcases hresult with ⟨values', errors'', hresult⟩ | ⟨exc, hresult⟩
            · left
              exact ⟨values', errors'', by simp [hresult]⟩
            · right
              exact ⟨exc, by simp [hresult]⟩

theorem eq_empty_of_isEmpty {exits : Stacks} (hempty : exits.IsEmpty) : exits = {} := by
  obtain ⟨function, request⟩ := exits
  obtain ⟨rfl, rfl⟩ : function = [] ∧ request = [] := hempty
  rfl

theorem abortResolution_empty (exc : PyExc) :
    (abortResolution {} exc : List GenEvent × Resolution V).1 = [] := by
  cases exc <;> rfl

theorem abortResolution_raised (exits : Stacks) (exc : PyExc) :
    ∃ exc', (abortResolution exits exc : List GenEvent × Resolution V).2 = .raised exc exc' := by
  simp only [abortResolution]
  split
  · cases (cleanupOnError exits).2 with
    | error exc' => exact ⟨exc', rfl⟩
    | ok => exact ⟨exc, rfl⟩
  · exact ⟨exc, rfl⟩

theorem closeQuietly_log (contexts : List (ℕ × Context PyExc)) :
    (closeQuietly contexts).1 = (aclose contexts).1 := by
  simp only [closeQuietly]
  cases (aclose contexts).2 <;> rfl

/-- The clean-up closes the context entered last as if nothing had been
raised. -/
theorem cleanupOnError_closes {exits : Stacks} (hnonempty : ¬ exits.IsEmpty) :
    ∃ scope node, .resumed scope node none ∈ (cleanupOnError exits).1 := by
  obtain ⟨function, request⟩ := exits
  simp only [cleanupOnError]
  cases function with
  | cons first rest =>
    have hfirst : (first.1, none) ∈ (closeQuietly (first :: rest)).1 := by
      rw [closeQuietly_log]
      exact aclose_first _ _ _
    have hevent : .resumed .function first.1 none ∈
        resumedEvents .function (closeQuietly (first :: rest)).1 :=
      mem_resumedEvents.mpr ⟨rfl, hfirst⟩
    refine ⟨.function, first.1, ?_⟩
    cases (closeQuietly (first :: rest)).2 with
    | error exc => exact hevent
    | ok => exact mem_append_left _ hevent
  | nil =>
    cases request with
    | nil => exact absurd ⟨rfl, rfl⟩ hnonempty
    | cons first rest =>
      have hfirst : (first.1, none) ∈ (closeQuietly (first :: rest)).1 := by
        rw [closeQuietly_log]
        exact aclose_first _ _ _
      refine ⟨.request, first.1, ?_⟩
      have hquiet : (closeQuietly []).2 = .ok () := by simp [closeQuietly]
      exact mem_append_right _ (mem_resumedEvents.mpr ⟨rfl, hfirst⟩)

theorem abortResolution_events (exits : Stacks) (exc : PyExc) :
    (abortResolution exits exc : List GenEvent × Resolution V).1 =
      if exc.isException then (cleanupOnError exits).1 else [] := by
  simp only [abortResolution]
  split
  · cases (cleanupOnError exits).2 <;> rfl
  · rfl

theorem abortResolution_finalised_iff (exits : Stacks) (exc : PyExc) :
    exits.AllLeft (abortResolution exits exc : List GenEvent × Resolution V).1 ∧
        AllReceive exc (abortResolution exits exc : List GenEvent × Resolution V).1 ↔
      exits.IsEmpty := by
  constructor
  · intro h
    by_contra hnonempty
    rw [abortResolution_events] at h
    split at h
    · obtain ⟨scope, node, hmem⟩ := cleanupOnError_closes hnonempty
      have hnone := h.2 scope node none hmem
      cases hnone
    · exact hnonempty (allLeft_nil_iff.mp h.1)
  · intro hempty
    obtain rfl := eq_empty_of_isEmpty hempty
    rw [abortResolution_empty]
    refine ⟨allLeft_nil_iff.mpr hempty, ?_⟩
    intro scope node received hmem
    cases hmem

/-! ## No generator is entered after the dependencies -/

theorem enteredIn_cleanupOnError (scope : Scope) (exits : Stacks) :
    enteredIn scope (cleanupOnError exits).1 = [] := by
  simp only [cleanupOnError]
  cases (closeQuietly exits.function).2 <;> simp

theorem enteredIn_abortResolution (scope : Scope) (exits : Stacks) (exc : PyExc) :
    enteredIn scope (abortResolution exits exc : List GenEvent × Resolution V).1 = [] := by
  rw [abortResolution_events]
  split
  · exact enteredIn_cleanupOnError _ _
  · rfl

theorem enteredIn_exitStackOnError (scope : Scope) (exits : Stacks) (exc : PyExc) :
    enteredIn scope (exitStackOnError exits exc).1 = [] := by
  simp only [exitStackOnError]
  cases (aexit exits.function (some exc)).2 <;> simp

theorem enteredIn_closeBoth (scope : Scope) (exits : Stacks) :
    enteredIn scope (closeBoth exits).1 = [] := by
  simp only [closeBoth]
  generalize (match (aclose exits.function).2 with
    | .error exc => exc.isException && !exc.isHttp
    | .ok _ => true) = continues
  cases continues <;> simp

theorem enteredIn_closeAround (scope : Scope) (exits : Stacks) (failure : Option PyExc) :
    enteredIn scope (closeAround exits failure).1 = [] := by
  simp only [closeAround]
  split <;> simp

theorem enteredIn_finishResponse (scope : Scope) (exits : Stacks) (returned : Returned) :
    enteredIn scope (finishResponse handling exits returned).1 = [] := by
  simp only [finishResponse]
  split
  · rfl
  · split
    · exact enteredIn_closeAround _ _ _
    · exact enteredIn_closeAround _ _ _
  · rfl
  · split
    · rfl
    · exact enteredIn_closeBoth _ _

theorem enteredIn_callEndpoint (scope : Scope) (exits : Stacks) (kwargs : Kwargs V) :
    enteredIn scope (callEndpoint handling exits kwargs).events = [] := by
  cases hendpoint : handling.endpoint kwargs with
  | ok returned =>
    simp only [callEndpoint, hendpoint]
    exact enteredIn_finishResponse handling _ _ _
  | error exc =>
    rw [(callEndpoint_of_raised handling _ hendpoint).2]
    split
    · exact enteredIn_exitStackOnError _ _ _
    · rfl

/-- Every generator entered before is finalised by the events after. -/
theorem finalised_iff {entered after : List GenEvent} {exits : Stacks}
    (hresumed : ∀ scope, resumedIn scope entered = [])
    (hnames : ∀ scope, (exits.contexts scope).map Prod.fst = (enteredIn scope entered).reverse)
    (hafter : ∀ scope, enteredIn scope after = []) (raised : Option PyExc)
    (result : Except PyExc Unit) :
    (Handled.mk (entered ++ after) raised result).Finalised ↔
      exits.AllLeft after ∧ ∀ exc, raised = some exc → AllReceive exc after := by
  have hentered : ∀ scope node received, .resumed scope node received ∉ entered := by
    intro scope node received hmem
    have hnode : node ∈ resumedIn scope entered :=
      mem_filterMap.mpr ⟨_, hmem, by simp⟩
    rw [hresumed] at hnode
    cases hnode
  constructor
  · intro hfinal
    constructor
    · intro scope
      have honce := hfinal.once scope
      rw [resumedIn_append, enteredIn_append, hresumed, hafter, append_nil, nil_append] at honce
      rw [honce, hnames]
    · intro exc hraised scope node received hmem
      exact hfinal.received _ hraised _ _ _ (mem_append_right _ hmem)
  · intro h
    constructor
    · intro scope
      rw [resumedIn_append, enteredIn_append, hresumed, hafter, append_nil, nil_append, h.1, hnames]
    · intro exc hraised scope node received hmem
      rcases mem_append.mp hmem with hmem | hmem
      · exact absurd hmem (hentered _ _ _)
      · exact h.2 exc hraised scope node received hmem

/-! ## The whole request -/

/-- No generator was entered; or no dependency raised, no parameter was missing,
the request was not rejected before the endpoint, and the endpoint ended such
that both stacks are left rightly. -/
def Tidy (isNone : V → Bool) (nodes : List (GenNode V)) (injectable consumed : List Name)
    (kwargs : Kwargs V) : Prop :=
  match resolveDepsGen isNone kwargs nodes 0 Kwargs.empty [] {} with
  | (events, .raised _ _) => ∀ scope, enteredIn scope events = []
  | (_, .resolved values errors exits) =>
    let endpointKwargs := (kwargs.removeAll consumed).update (values.restrict injectable)
    exits.IsEmpty ∨
      errors = [] ∧ handling.prepare endpointKwargs = .ok true ∧
        EndsTidily handling exits endpointKwargs

theorem isEmpty_iff_names {exits : Stacks} :
    exits.IsEmpty ↔ ∀ scope, (exits.contexts scope).map Prod.fst = [] := by
  rw [← allLeft_nil_iff]
  constructor
  · intro h scope
    exact (h _).symm
  · intro h scope
    exact (h _).symm

/-- Generator dependencies are finalised rightly exactly on tidy requests. -/
theorem handleRequest_finalised_iff (isNone : V → Bool) (nodes : List (GenNode V))
    (injectable consumed : List Name) (kwargs : Kwargs V) :
    (handleRequest handling isNone nodes injectable consumed kwargs).Finalised ↔
      Tidy handling isNone nodes injectable consumed kwargs := by
  obtain ⟨entered, exits, hresumed, hnames, hresult⟩ :=
    resolveDepsGen_spec isNone kwargs nodes 0 Kwargs.empty [] {}
  have hnames' : ∀ scope, (exits.contexts scope).map Prod.fst =
      (enteredIn scope entered).reverse := by
    intro scope
    rw [hnames]
    cases scope <;> simp [Stacks.contexts]
  rcases hresult with ⟨values, errors, hresult⟩ | ⟨exc, hresult⟩
  · simp only [handleRequest, Tidy, hresult]
    have hstop : ∀ result : Except PyExc Unit,
        (Handled.mk entered none result).Finalised ↔ exits.IsEmpty := by
      intro result
      have hiff := finalised_iff hresumed hnames' (fun scope => enteredIn_nil _) none result
      rw [append_nil] at hiff
      simp [hiff, allLeft_nil_iff]
    by_cases herrors : errors = []
    · simp only [herrors, ne_eq, not_true_eq_false, if_false, true_and]
      cases hprepare : handling.prepare
          ((kwargs.removeAll consumed).update (values.restrict injectable)) with
      | error exc => simp [hstop]
      | ok prepared =>
        cases prepared with
        | false => simp [hstop]
        | true =>
          simp only [true_and]
          rw [← callEndpoint_finalised_iff]
          exact finalised_iff hresumed hnames'
            (fun scope => enteredIn_callEndpoint handling _ _ _) _ _
    · simp only [herrors, ne_eq, not_false_eq_true, if_true, false_and, or_false]
      exact hstop _
  · obtain ⟨exc', hraised⟩ := abortResolution_raised (V := V) exits exc
    simp only [handleRequest, Tidy, hresult, hraised]
    rw [finalised_iff hresumed hnames' (fun scope => enteredIn_abortResolution _ _ _)]
    simp only [Option.some.injEq, forall_eq', abortResolution_finalised_iff, enteredIn_append,
      enteredIn_abortResolution, append_nil]
    rw [isEmpty_iff_names]
    simp [hnames']

end Tidy

/-- A session that commits when it is closed and passes on an exception. -/
def sessionNode : GenNode ℕ where
  name := "session"
  call := .generator .function fun _ =>
    .ok (1, { close := .returns
              throw := .raises })

def forbiddenNode : GenNode ℕ where
  name := "user"
  call := .plain fun _ => .error (.http 403 "Forbidden")

/-- The session is closed as if the request had succeeded, although a later
dependency raised. -/
theorem handleRequest_not_finalised : ¬ ∀ (handling : Handling ℕ) (isNone : ℕ → Bool)
    (nodes : List (GenNode ℕ)) (injectable consumed : List Name) (kwargs : Kwargs ℕ),
      (handleRequest handling isNone nodes injectable consumed kwargs).Finalised := by
  intro hall
  have hfinal := hall { endpoint := fun _ => .ok (.other none) } (fun _ => false)
    [sessionNode, forbiddenNode] [] [] Kwargs.empty
  have hreceived := hfinal.received _ rfl .function 0 none (by decide)
  cases hreceived

end AstraApi.Deps
