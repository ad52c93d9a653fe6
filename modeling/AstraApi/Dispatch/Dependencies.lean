import AstraApi.Dispatch.Request

/-!
# Dependencies before endpoints

The dependency step of `dispatch_one_request` calls the route's solver and
leaves a mark in the dictionary.  The registered shim takes the dictionary as
its keyword arguments and decides from the marks whether the solver still has
to run.  A multipart body jumps over the dependency step, so that there the
shim alone decides.
-/

namespace AstraApi.Dispatch

open List
open Deps (Name Kwargs PyExc MissingError)

variable {kwargs kwargs' : Kwargs Value} {name : Name} {route : Route} {request : Request}

/-- What a solver returns: the injected values, the errors, the background
tasks and the dictionary it leaves.  `suspended` when it is a coroutine that
did not end at once. -/
structure Solution where
  values : Kwargs Value := Kwargs.empty
  errors : List MissingError := []
  tasks : Option Value := none
  rest : Kwargs Value
  suspended : Bool := false

/-- A solver executes every dependency of the route, or raises, or reports
errors. -/
abbrev Solver := Kwargs Value → Except PyExc Solution

/-- The checks that answer a request with an error before its endpoint.  They
read declared parameters, and the last one also the raw body. -/
structure Checks where
  params : Kwargs Value → Bool
  body : Kwargs Value → Bool
  shimParams : Kwargs Value → Bool
  shimBody : Kwargs Value → Bool

/-- What a request makes happen: a solver call and what the response shim reads,
each with the values it finds under its reserved names, and the endpoint. -/
inductive Event where
  | solver (keys : Kwargs Value) (result : Except PyExc Solution)
  | shim (keys : Kwargs Value)
  | endpoint (kwargs : Kwargs Value)

section Route

variable (route : Route) (solver : Solver) (checks : Checks)

/-! ## Shims -/

def callSolver (kwargs : Kwargs Value) (next : Solution → List Event) : List Event :=
  let result := solver kwargs
  .solver (kwargs.restrict solverKeys) result ::
    match result with
    | .error _ => []
    | .ok solution => if solution.errors ≠ [] then [] else next solution

/-- The end of the shim: a rejected body, or the endpoint without the reserved
names. -/
def finish (kwargs : Kwargs Value) : List Event :=
  if checks.shimBody kwargs then []
  else [.endpoint (kwargs.removeAll (methodKey :: pathKey :: contentTypeKey :: internalKeys))]

/-- What the response shim removes before it decides about the solver. -/
def poppedKeys : List Name :=
  [authSchemeKey, authCredentialsKey, bgTasksKey, depsRanKey] ++
    if route.requestParam then [rawHeadersKey, methodKey, pathKey] else []

def responseShim (kwargs : Kwargs Value) : List Event :=
  .shim (kwargs.restrict shimKeys) ::
    if checks.shimParams (kwargs.removeAll internalKeys) then []
    else
      let cppBg := (kwargs bgTasksKey).filter (!·.isNone)
      let depsRan := (kwargs depsRanKey).any Value.truthy
      let kwargs := kwargs.removeAll (poppedKeys route)
      -- tasks of the dependencies join those of the endpoint, or an exception is raised
      let merge : List Event :=
        if route.bgParam && cppBg.any (!·.hasTasks) then [] else finish checks kwargs
      if depsRan then merge
      else if cppBg.isSome then merge
      else if (kwargs genDepsRanKey).any Value.truthy then finish checks kwargs
      else
        let kwargs := if route.bgParam then kwargs.set bgTasksKey (.backgroundTasks 0) else kwargs
        callSolver solver kwargs fun solution => finish checks (solution.rest.update solution.values)

def fastDepShim (kwargs : Kwargs Value) : List Event :=
  let kwargs := kwargs.removeAll (methodKey :: pathKey :: contentTypeKey :: internalKeys)
  if checks.shimParams kwargs then [] else [.endpoint kwargs]

/-- `_asgi_shim`: the route's own application resolves the dependencies of the
request it is given. -/
def asgiShim (kwargs : Kwargs Value) : List Event :=
  .shim (kwargs.restrict shimKeys) ::
    callSolver solver kwargs fun solution => finish checks (solution.rest.update solution.values)

def registered (kwargs : Kwargs Value) : List Event :=
  match route.kind with
  | .fast _ _ true _ => fastDepShim checks kwargs
  | .custom => asgiShim solver checks kwargs
  | _ => responseShim route solver checks kwargs

/-! ## The dispatcher -/

def splitAuthorization (authorization : String) : String × String :=
  let scheme := authorization.toList.takeWhile (· ≠ ' ')
  (String.ofList scheme, String.ofList (authorization.toList.drop (scheme.length + 1)))

def setDefault (kwargs : Kwargs Value) (name : Name) (value : Value) : Kwargs Value :=
  if (kwargs name).isSome then kwargs else kwargs.set name value

def injectMetadata (request : Request) (kwargs : Kwargs Value) : Kwargs Value :=
  ((kwargs.set rawHeadersKey (.headers request.headers)).set methodKey
    (.text request.method)).set pathKey (.text request.path)

def injectAuthorization (request : Request) (kwargs : Kwargs Value) : Kwargs Value :=
  if request.authorization = "" then kwargs
  else
    let (scheme, credentials) := splitAuthorization request.authorization
    (kwargs.set authSchemeKey (.text scheme)).set authCredentialsKey (.text credentials)

def injectBody (request : Request) (kwargs : Kwargs Value) : Kwargs Value :=
  let kwargs := if request.body = [] then kwargs else setDefault kwargs bodyKey (.bytes request.body)
  if request.contentType = "" then kwargs
  else setDefault kwargs contentTypeKey (.text request.contentType)

/-- The values the dependency step supplies; `metadata` is the inject mask. -/
def injectRequest (metadata : Bool) (request : Request) (kwargs : Kwargs Value) : Kwargs Value :=
  injectBody request
    (injectAuthorization request (if metadata then injectMetadata request kwargs else kwargs))

def afterSolver (solution : Solution) : Kwargs Value :=
  let kwargs := (solution.rest.update solution.values).set depsRanKey (.bool true)
  match solution.tasks.filter (!·.isNone) with
  | some tasks => kwargs.set bgTasksKey tasks
  | none => kwargs

/-- `_handle_async_di`: the dictionary after a solver that was awaited.  Only
exit stacks leave a mark. -/
def afterAsyncSolver (solution : Solution) : Kwargs Value :=
  let marked :=
    match (solution.values exitStackKey).filter (!·.isNone) with
    | some stack => (solution.rest.set exitStackKey stack).set genDepsRanKey (.bool true)
    | none => solution.rest
  marked.update (solution.values.removeAll [exitStackKey])

def dependencyStep (request : Request) (kwargs : Kwargs Value) : List Event :=
  callSolver solver (injectRequest false request kwargs) fun solution =>
    if solution.suspended then registered route solver checks (afterAsyncSolver solution)
    else
      let kwargs := afterSolver solution
      if checks.body (kwargs.removeAll internalKeys) then []
      else registered route solver checks kwargs

def afterBody (request : Request) (kwargs : Kwargs Value) : List Event :=
  if skipsDependencyStep route.kind request.payload then registered route solver checks kwargs
  else
    match route.kind with
    | .grouped => registered route solver checks (kwargs.set methodKey (.text request.method))
    | .custom =>
      -- the registered solver resolves nothing
      registered route solver checks
        ((injectRequest true request kwargs).set depsRanKey (.bool true))
    | _ => dependencyStep route solver checks request kwargs

def dispatch (params : Kwargs Value) (request : Request) : List Event :=
  let kwargs := params.restrict route.declared
  if checks.params kwargs then []
  else
    match bodyStep route.kind request.payload kwargs with
    | none => []
    | some kwargs => afterBody route solver checks request kwargs

end Route

/-! ## The property -/

/-- The endpoint comes after a solver call, and every solver call executed all
dependencies without an exception or an error. -/
def NotBypassed (events : List Event) : Prop :=
  ∀ before kwargs after, events = before ++ .endpoint kwargs :: after →
    (∃ keys solution, .solver keys (.ok solution) ∈ before) ∧
      ∀ keys result, .solver keys result ∈ events →
        ∃ solution, result = .ok solution ∧ solution.errors = []

inductive Reading where
  | solver (keys : Kwargs Value)
  | shim (keys : Kwargs Value)

def Event.reading : Event → Option Reading
  | .solver keys _ => some (.solver keys)
  | .shim keys => some (.shim keys)
  | .endpoint _ => none

/-- The solver calls and shims of a request with what each reads. -/
def readings (events : List Event) : List Reading :=
  events.filterMap Event.reading

/-- Whatever the dependencies, the checks and the declared parameters do, the
dependencies are not bypassed, and neither the solver calls nor what is read
under reserved names depends on body fields of those names. -/
def Guarded (route : Route) (request : Request) : Prop :=
  ∀ params solver checks,
    NotBypassed (dispatch route solver checks params request) ∧
      readings (dispatch route solver checks params request) =
        readings (dispatch route solver checks params (request.without internalKeys route.kind))

/-- The reserved names whose value in the dictionary is still used after the body
step: the dependency step replaces the authorization when there is a header,
the response shim discards it, and the light shim discards everything. -/
def consultedKeys (route : Route) (request : Request) : List Name :=
  if skipsDependencyStep route.kind request.payload then shimKeys
  else
    let keys := match route.kind with
      | .fast _ _ true _ => solverKeys
      | _ => internalKeys
    if request.authorization ≠ "" then keys.filter (· ∉ authKeys) else keys

/-- The shim alone decides whether the solver runs. -/
def shimDecides (route : Route) (request : Request) : Bool :=
  match route.kind with
  | .grouped => true
  | kind => skipsDependencyStep kind request.payload

/-- No copied body field has a name that is consulted, and where the shim
decides no declared parameter has the name of a flag. -/
def Isolated (route : Route) (request : Request) : Prop :=
  (∀ name ∈ mergedNames route.kind request.payload, name ∉ consultedKeys route request) ∧
    (shimDecides route request = true → ∀ name ∈ flagKeys, name ∉ route.declared)

instance (route : Route) (request : Request) : Decidable (Isolated route request) :=
  inferInstanceAs (Decidable (_ ∧ _))

/-! ## Endpoints after solver calls -/

/-- Every solver call of a request that reaches its endpoint was successful. -/
def Clean (events : List Event) : Prop :=
  ∀ kwargs, .endpoint kwargs ∈ events → ∀ keys result, .solver keys result ∈ events →
    ∃ solution, result = .ok solution ∧ solution.errors = []

theorem clean_of_no_solver {events : List Event}
    (h : ∀ keys result, .solver keys result ∉ events) : Clean events := by
  intro kwargs _ keys result hmem
  exact absurd hmem (h _ _)

theorem Clean.cons_shim {events : List Event} (h : Clean events) (keys : Kwargs Value) :
    Clean (.shim keys :: events) := by
  intro kwargs hend keys' result hmem
  simp only [mem_cons, reduceCtorEq, false_or] at hend hmem
  exact h _ hend _ _ hmem

theorem NotBypassed.cons_shim {events : List Event} (h : NotBypassed events)
    (keys : Kwargs Value) : NotBypassed (.shim keys :: events) := by
  intro before kwargs after hsplit
  cases before with
  | nil => simp at hsplit
  | cons event before =>
    simp only [cons_append, List.cons.injEq] at hsplit
    obtain ⟨rfl, hsplit⟩ := hsplit
    obtain ⟨⟨keys', solution, hmem⟩, hall⟩ := h _ _ _ hsplit
    constructor
    · exact ⟨keys', solution, mem_cons_of_mem _ hmem⟩
    · intro keys'' result hmem''
      simp only [mem_cons, reduceCtorEq, false_or] at hmem''
      exact hall _ _ hmem''

theorem notBypassed_nil : NotBypassed [] := by
  intro before kwargs after hsplit
  simp at hsplit

section Calls

variable {solver : Solver} {next : Solution → List Event}

theorem clean_callSolver (kwargs : Kwargs Value)
    (h : ∀ solution, solution.errors = [] → Clean (next solution)) :
    Clean (callSolver solver kwargs next) := by
  intro endKwargs hend keys result hmem
  simp only [callSolver, mem_cons, reduceCtorEq, false_or] at hend hmem
  split at hend
  · simp at hend
  · rename_i solution hsolution
    split at hend
    · simp at hend
    · rename_i herrors
      simp only [ne_eq, not_not] at herrors
      simp only [hsolution, herrors, ne_eq, not_true_eq_false, if_false] at hmem
      cases hmem with
      | inl heq =>
        simp only [Event.solver.injEq] at heq
        exact ⟨solution, heq.2, herrors⟩
      | inr hmem => exact h _ herrors _ hend _ _ hmem

theorem notBypassed_callSolver (kwargs : Kwargs Value)
    (h : ∀ solution, solution.errors = [] → Clean (next solution)) :
    NotBypassed (callSolver solver kwargs next) := by
  intro before endKwargs after hsplit
  have hend : .endpoint endKwargs ∈ callSolver solver kwargs next := by
    rw [hsplit]
    simp
  have hall := clean_callSolver _ h _ hend
  apply And.intro _ hall
  cases before with
  | nil => simp [callSolver] at hsplit
  | cons event before =>
    simp only [callSolver, cons_append, List.cons.injEq] at hsplit
    obtain ⟨rfl, -⟩ := hsplit
    obtain ⟨solution, heq, -⟩ := hall _ _ (by exact mem_cons_self)
    exact ⟨_, solution, by rw [heq]; exact mem_cons_self⟩

end Calls

section Shims

variable (route : Route) (solver : Solver) (checks : Checks)

theorem clean_finish (kwargs : Kwargs Value) : Clean (finish checks kwargs) := by
  apply clean_of_no_solver
  intro keys result
  unfold finish
  split <;> simp

theorem clean_responseShim (kwargs : Kwargs Value) :
    Clean (responseShim route solver checks kwargs) := by
  apply Clean.cons_shim
  have merged (p : Prop) [Decidable p] (kwargs : Kwargs _) :
      Clean (if p then [] else finish checks kwargs) := by
    split
    · exact clean_of_no_solver (by simp)
    · exact clean_finish _ _
  split
  · exact clean_of_no_solver (by simp)
  · dsimp only
    split
    · exact merged _ _
    · split
      · exact merged _ _
      · split
        · exact clean_finish _ _
        · exact clean_callSolver _ fun solution _ => clean_finish _ _

theorem clean_registered (kwargs : Kwargs Value) :
    Clean (registered route solver checks kwargs) := by
  unfold registered
  split
  · apply clean_of_no_solver
    intro keys result
    simp only [fastDepShim]
    split <;> simp
  · exact Clean.cons_shim (clean_callSolver _ fun solution _ => clean_finish _ _) _
  · exact clean_responseShim _ _ _ _

theorem notBypassed_dependencyStep (request : Request) (kwargs : Kwargs Value) :
    NotBypassed (dependencyStep route solver checks request kwargs) := by
  apply notBypassed_callSolver
  intro solution _
  split
  · exact clean_registered _ _ _ _
  · dsimp only
    split
    · exact clean_of_no_solver (by simp)
    · exact clean_registered _ _ _ _

/-- Without flags the response shim calls the solver itself. -/
theorem notBypassed_responseShim (h : ∀ name ∈ flagKeys, kwargs name = none) :
    NotBypassed (responseShim route solver checks kwargs) := by
  apply NotBypassed.cons_shim
  have depsRan : kwargs depsRanKey = none := h _ (by simp [flagKeys])
  have bgTasks : kwargs bgTasksKey = none := h _ (by simp [flagKeys])
  have genDepsRan (popped : List _) : (kwargs.removeAll popped) genDepsRanKey = none := by
    simp [Kwargs.removeAll, h genDepsRanKey (by simp [flagKeys])]
  split
  · exact notBypassed_nil
  · simp only [depsRan, bgTasks, genDepsRan, Option.any_none, Option.filter_none,
      Option.isSome_none, Bool.false_eq_true, if_false]
    exact notBypassed_callSolver _ fun solution _ => clean_finish _ _

theorem afterBody_without (names : List Name) (request : Request) (kwargs : Kwargs Value) :
    afterBody route solver checks (request.without names route.kind) kwargs =
      afterBody route solver checks request kwargs := by
  have skips := skipsDependencyStep_without names route.kind request.payload
  simp only [afterBody, Request.without, skips]
  rfl

/-! ## What the dictionary decides -/

theorem removeAll_congr {names : List Name}
    (h : ∀ name, name ∉ names → kwargs name = kwargs' name) :
    kwargs.removeAll names = kwargs'.removeAll names := by
  funext name
  simp only [Kwargs.removeAll]
  split
  · rfl
  · exact h _ ‹_›

theorem restrict_congr {names : List Name}
    (h : ∀ name ∈ names, kwargs name = kwargs' name) :
    kwargs.restrict names = kwargs'.restrict names := by
  funext name
  simp only [Kwargs.restrict]
  split
  · exact h _ ‹_›
  · rfl

theorem responseShim_congr (h : ∀ name, name ∉ authKeys → kwargs name = kwargs' name) :
    responseShim route solver checks kwargs = responseShim route solver checks kwargs' := by
  have shim : kwargs.restrict shimKeys = kwargs'.restrict shimKeys :=
    restrict_congr fun name hname => h _ (by revert name; decide)
  have visible : kwargs.removeAll internalKeys = kwargs'.removeAll internalKeys :=
    removeAll_congr fun name hname => h _ fun hauth => hname (authKeys_internal _ hauth)
  have popped : kwargs.removeAll (poppedKeys route) = kwargs'.removeAll (poppedKeys route) := by
    apply removeAll_congr
    intro name hname
    apply h _
    intro hauth
    apply hname
    apply mem_append_left
    clear hname
    revert name
    decide
  have bgTasks : kwargs bgTasksKey = kwargs' bgTasksKey := h _ (by decide)
  have depsRan : kwargs depsRanKey = kwargs' depsRanKey := h _ (by decide)
  simp [responseShim, shim, visible, popped, bgTasks, depsRan]

end Shims

theorem setDefault_apply (kwargs : Kwargs Value) (key : Name) (value : Value) (name : Name) :
    setDefault kwargs key value name =
      if name = key then (kwargs name).or (some value) else kwargs name := by
  unfold setDefault
  by_cases hname : name = key
  · subst hname
    cases h : kwargs name <;> simp [h, Kwargs.set_apply]
  · split
    · rfl
    · simp [Kwargs.set_apply, hname]

section Inject

variable {request : Request} {name : Name}

theorem injectAuthorization_of_header (h : request.authorization ≠ "") (hname : name ∈ authKeys)
    (kwargs kwargs' : Kwargs Value) :
    injectAuthorization request kwargs name = injectAuthorization request kwargs' name := by
  simp only [authKeys, mem_cons, not_mem_nil, or_false] at hname
  simp only [injectAuthorization, h, if_false, Kwargs.set_apply]
  rcases hname with rfl | rfl <;> simp

theorem injectAuthorization_of_notMem (h : request.authorization ≠ "" → name ∉ authKeys)
    (kwargs : Kwargs Value) : injectAuthorization request kwargs name = kwargs name := by
  unfold injectAuthorization
  split
  · rfl
  · rename_i header
    have hname := h header
    simp only [authKeys, mem_cons, not_mem_nil, or_false, not_or] at hname
    simp [Kwargs.set_apply, hname.1, hname.2]

theorem injectMetadata_congr (h : kwargs name = kwargs' name) :
    injectMetadata request kwargs name = injectMetadata request kwargs' name := by
  simp [injectMetadata, Kwargs.set_apply, h]

theorem injectBody_congr (h : kwargs name = kwargs' name) :
    injectBody request kwargs name = injectBody request kwargs' name := by
  unfold injectBody
  split <;> split <;> simp only [setDefault_apply, h]

/-- Each reserved name is supplied on its own. -/
theorem injectRequest_congr (metadata : Bool)
    (h : (request.authorization ≠ "" → name ∉ authKeys) → kwargs name = kwargs' name) :
    injectRequest metadata request kwargs name = injectRequest metadata request kwargs' name := by
  apply injectBody_congr
  by_cases hauth : request.authorization ≠ "" → name ∉ authKeys
  · rw [injectAuthorization_of_notMem hauth, injectAuthorization_of_notMem hauth]
    cases metadata
    · exact h hauth
    · exact injectMetadata_congr (h hauth)
  · push Not at hauth
    exact injectAuthorization_of_header hauth.1 hauth.2 _ _

theorem injectRequest_of_some {value : Value}
    (hauth : request.authorization ≠ "" → name ∉ authKeys) (h : kwargs name = some value) :
    injectRequest false request kwargs name = some value := by
  have before : injectAuthorization request kwargs name = some value := by
    rw [injectAuthorization_of_notMem hauth, h]
  simp only [injectRequest, injectBody, Bool.false_eq_true, if_false]
  split <;> split <;> simp [setDefault_apply, before]

/-- What the dependency step supplies for a name without a value is the body. -/
theorem injectRequest_of_none {value : Value}
    (hauth : request.authorization ≠ "" → name ∉ authKeys) (h : kwargs name = none)
    (hname : name ≠ contentTypeKey)
    (hvalue : injectRequest false request kwargs name = some value) : value.isBytes = true := by
  have before : injectAuthorization request kwargs name = none := by
    rw [injectAuthorization_of_notMem hauth, h]
  have supplied : (injectBody request (injectAuthorization request kwargs)) name =
      if request.body = [] then none
      else if name = bodyKey then some (.bytes request.body) else none := by
    unfold injectBody
    split <;> split <;> simp [setDefault_apply, before, hname]
  simp only [injectRequest, Bool.false_eq_true, if_false, supplied] at hvalue
  split at hvalue
  · simp at hvalue
  · split at hvalue
    · cases hvalue
      rfl
    · simp at hvalue

end Inject

/-! ## Isolation is enough -/

section Isolated

variable {route : Route} {request : Request} (solver : Solver) (checks : Checks)

theorem mem_consultedKeys_of_internal (hname : name ∈ internalKeys)
    (hskip : skipsDependencyStep route.kind request.payload = false)
    (hlight : ∀ bodyParams embed bodyParamName,
      route.kind ≠ .fast bodyParams embed true bodyParamName)
    (hauth : request.authorization ≠ "" → name ∉ authKeys) :
    name ∈ consultedKeys route request := by
  have keys : consultedKeys route request =
      if request.authorization ≠ "" then internalKeys.filter (· ∉ authKeys) else internalKeys := by
    unfold consultedKeys
    simp [hskip]
  rw [keys]
  split
  · rename_i header
    exact mem_filter.mpr ⟨hname, by simpa using hauth header⟩
  · exact hname

theorem mem_consultedKeys_of_solver {bodyParams embed : Bool} {bodyParamName : Option Name}
    (hname : name ∈ solverKeys)
    (hlight : route.kind = .fast bodyParams embed true bodyParamName)
    (hauth : request.authorization ≠ "" → name ∉ authKeys) :
    name ∈ consultedKeys route request := by
  unfold consultedKeys
  simp only [hlight, skipsDependencyStep, Bool.false_eq_true, if_false]
  split
  · rename_i header
    exact mem_filter.mpr ⟨hname, by simpa using hauth header⟩
  · exact hname

/-- Two dictionaries that agree on what is consulted and on all names that are
not reserved. -/
def Alike (route : Route) (request : Request) (kwargs kwargs' : Kwargs Value) : Prop :=
  ∀ name, (name ∈ internalKeys → name ∈ consultedKeys route request) → kwargs name = kwargs' name

theorem Alike.injectRequest_eq (h : Alike route request kwargs kwargs') (metadata : Bool)
    (hskip : skipsDependencyStep route.kind request.payload = false)
    (hlight : ∀ bodyParams embed bodyParamName,
      route.kind ≠ .fast bodyParams embed true bodyParamName) :
    injectRequest metadata request kwargs = injectRequest metadata request kwargs' := by
  funext name
  apply injectRequest_congr
  intro hauth
  apply h
  intro hname
  exact mem_consultedKeys_of_internal hname hskip hlight hauth

theorem readings_fastDepShim (kwargs : Kwargs Value) : readings (fastDepShim checks kwargs) = [] := by
  simp only [fastDepShim]
  split <;> rfl

/-- The light shim reads nothing, so the solver call is the only reading. -/
theorem readings_dependencyStep_light {bodyParams embed : Bool} {bodyParamName : Option Name}
    (hlight : route.kind = .fast bodyParams embed true bodyParamName) (kwargs : Kwargs Value) :
    readings (dependencyStep route solver checks request kwargs) =
      [.solver ((injectRequest false request kwargs).restrict solverKeys)] := by
  have shim (kwargs : Kwargs _) : readings (registered route solver checks kwargs) = [] := by
    simp only [registered, hlight]
    exact readings_fastDepShim _ _
  have rest (events : List _) (keys : Kwargs _) (result : Except _ _)
      (h : readings events = []) : readings (.solver keys result :: events) = [.solver keys] := by
    simp only [readings] at h
    simp [readings, Event.reading, h]
  apply rest
  split
  · rfl
  · split
    · rfl
    · dsimp only
      split
      · exact shim _
      · split
        · rfl
        · exact shim _

theorem Alike.readings_afterBody (h : Alike route request kwargs kwargs') :
    readings (afterBody route solver checks request kwargs) =
      readings (afterBody route solver checks request kwargs') := by
  by_cases hskip : skipsDependencyStep route.kind request.payload = true
  · have form : registered route solver checks = responseShim route solver checks := by
      unfold registered
      split
      · rename_i heq
        simp [heq, skipsDependencyStep] at hskip
      · rename_i heq
        simp [heq, skipsDependencyStep] at hskip
      · rfl
    simp only [afterBody, hskip, if_true, form]
    congr 1
    apply responseShim_congr
    intro name hname
    apply h
    intro hinternal
    simp only [consultedKeys, hskip, if_true]
    revert hname
    revert name
    decide
  · have hskip := Bool.eq_false_iff.mpr hskip
    simp only [afterBody, hskip, Bool.false_eq_true, if_false]
    cases hkind : route.kind with
    | grouped =>
      simp only [registered, hkind]
      congr 1
      apply responseShim_congr
      intro name hname
      have : kwargs name = kwargs' name := h _ fun hinternal =>
        mem_consultedKeys_of_internal hinternal hskip (by simp [hkind]) fun _ => hname
      simp [Kwargs.set_apply, this]
    | custom => simp [h.injectRequest_eq _ hskip (by simp [hkind])]
    | form embed =>
      simp [dependencyStep, h.injectRequest_eq _ hskip (by simp [hkind])]
    | slow => simp [dependencyStep, h.injectRequest_eq _ hskip (by simp [hkind])]
    | fast bodyParams embed light bodyParamName =>
      cases light with
      | false => simp [dependencyStep, h.injectRequest_eq _ hskip (by simp [hkind])]
      | true =>
        rw [readings_dependencyStep_light _ _ hkind, readings_dependencyStep_light _ _ hkind]
        congr 2
        apply restrict_congr
        intro name hname
        apply injectRequest_congr
        intro hauth
        apply h
        intro _
        exact mem_consultedKeys_of_solver hname hkind hauth

end Isolated

theorem registered_of_shimDecides
    (h : shimDecides route request = true) (solver : Solver) (checks : Checks) :
    registered route solver checks = responseShim route solver checks := by
  funext kwargs
  cases hkind : route.kind with
  | form | slow | grouped => simp [registered, hkind]
  | fast | custom => simp [shimDecides, hkind, skipsDependencyStep] at h

theorem afterBody_of_shimDecides
    (h : shimDecides route request = true) (solver : Solver) (checks : Checks)
    (kwargs : Kwargs Value) :
    ∃ kwargs', afterBody route solver checks request kwargs =
        responseShim route solver checks kwargs' ∧
      ∀ name, name ≠ methodKey → kwargs' name = kwargs name := by
  have shim := registered_of_shimDecides h solver checks
  by_cases hskip : skipsDependencyStep route.kind request.payload = true
  · refine ⟨kwargs, ?_, fun _ _ => rfl⟩
    simp [afterBody, hskip, shim]
  · have hkind : route.kind = .grouped := by
      unfold shimDecides at h
      split at h
      · assumption
      · exact absurd h hskip
    refine ⟨kwargs.set methodKey (.text request.method), ?_, ?_⟩
    · simp only [afterBody, hskip, shim]
      simp [hkind]
    · intro name hname
      simp [Kwargs.set_apply, hname]

theorem notBypassed_afterBody
    (hflags : shimDecides route request = true → ∀ name ∈ flagKeys, kwargs name = none)
    (solver : Solver) (checks : Checks) :
    NotBypassed (afterBody route solver checks request kwargs) := by
  by_cases hshim : shimDecides route request = true
  · obtain ⟨kwargs', hevents, hsame⟩ := afterBody_of_shimDecides hshim _ _ _
    rw [hevents]
    apply notBypassed_responseShim
    intro name hname
    have hmethod : name ≠ methodKey := by
      revert name
      decide
    rw [hsame _ hmethod]
    exact hflags hshim _ hname
  · have hskip : skipsDependencyStep route.kind request.payload = false := by
      unfold shimDecides at hshim
      split at hshim
      · exact absurd rfl hshim
      · exact Bool.eq_false_iff.mpr hshim
    simp only [afterBody, hskip, Bool.false_eq_true, if_false]
    split
    · rename_i hkind
      simp [shimDecides, hkind] at hshim
    · rename_i hkind
      simp only [registered, hkind, asgiShim]
      apply NotBypassed.cons_shim
      exact notBypassed_callSolver _ fun solution _ => clean_finish _ _
    · exact notBypassed_dependencyStep _ _ _ _ _

theorem grouped_or_skips (h : shimDecides route request = true) :
    route.kind = .grouped ∨ skipsDependencyStep route.kind request.payload = true := by
  unfold shimDecides at h
  split at h
  · exact .inl ‹_›
  · exact .inr h

theorem flag_of_bodyStep
    (h : ∀ name ∈ mergedNames route.kind request.payload, name ∉ consultedKeys route request)
    (hshim : shimDecides route request = true) {filled : Kwargs Value}
    (hfilled : bodyStep route.kind request.payload kwargs = some filled) (hname : name ∈ flagKeys) :
    filled name = kwargs name := by
  apply bodyStep_of_notMem (grouped_or_skips hshim) hfilled
  intro hmem
  rcases grouped_or_skips hshim with hkind | hskip
  · simp [hkind, mergedNames] at hmem
  · apply h _ hmem
    simp only [consultedKeys, hskip, if_true]
    exact flagKeys_shim _ hname

theorem guarded_of_isolated (h : Isolated route request) :
    Guarded route request := by
  intro params solver checks
  simp only [dispatch]
  split
  · exact ⟨notBypassed_nil, rfl⟩
  · rcases bodyStep_without route.kind request.payload internalKeys
      (params.restrict route.declared) with ⟨hnone, hnone'⟩ | ⟨filled, reference, hsome, hsome', hsep⟩
    · rw [hnone, Request.without, hnone']
      exact ⟨notBypassed_nil, rfl⟩
    · have alike : Alike route request filled reference := by
        intro name hname
        apply hsep.agree
        intro hinternal hmerged
        exact h.1 name hmerged (hname hinternal)
      have reads := alike.readings_afterBody solver checks
      rw [← afterBody_without _ _ _ _ _ reference] at reads
      rw [hsome, Request.without, hsome']
      constructor
      · apply notBypassed_afterBody
        intro hshim name hname
        rw [flag_of_bodyStep h.1 hshim hsome hname]
        simp [Kwargs.restrict, h.2 hshim name hname]
      · exact reads

/-! ## Isolation is needed -/

/-- A solver that waits for something and then has nothing to inject. -/
def idleSolver : Solver := fun kwargs => .ok { rest := kwargs, suspended := true }

def noChecks : Checks where
  params _ := false
  body _ := false
  shimParams _ := false
  shimBody _ := false

theorem afterAsyncSolver_idle (kwargs : Kwargs Value) :
    afterAsyncSolver { rest := kwargs, suspended := true } = kwargs := by
  funext name
  simp [afterAsyncSolver, Kwargs.empty, Kwargs.update, Kwargs.removeAll]

theorem readings_responseShim_head (route : Route) (solver : Solver) (checks : Checks)
    (kwargs : Kwargs Value) :
    ∃ rest, readings (responseShim route solver checks kwargs) =
      .shim (kwargs.restrict shimKeys) :: rest := by
  exact ⟨_, rfl⟩

/-- With the idle solver the dictionary that the dependency step makes is what
both the solver and the response shim read. -/
theorem readings_dependencyStep_idle (route : Route) (request : Request)
    (kwargs : Kwargs Value) :
    readings (dependencyStep route idleSolver noChecks request kwargs) =
      .solver ((injectRequest false request kwargs).restrict solverKeys) ::
        readings (registered route idleSolver noChecks (injectRequest false request kwargs)) := by
  simp only [dependencyStep, callSolver, idleSolver, ne_eq, not_true_eq_false, if_false, if_true,
    afterAsyncSolver_idle]
  rfl

theorem apply_eq_of_restrict_eq {names : List Name}
    (h : kwargs.restrict names = kwargs'.restrict names) (hname : name ∈ names) :
    kwargs name = kwargs' name := by
  have := congrFun h name
  simpa [Kwargs.restrict, hname] using this

theorem consultedKeys_internal :
    ∀ name ∈ consultedKeys route request, name ∈ internalKeys := by
  have shim : ∀ name ∈ shimKeys, name ∈ internalKeys := by decide
  have solver : ∀ name ∈ solverKeys, name ∈ internalKeys := by decide
  intro name hname
  unfold consultedKeys at hname
  split at hname
  · exact shim _ hname
  · dsimp only at hname
    split at hname
    · replace hname := (mem_filter.mp hname).1
      split at hname
      · exact solver _ hname
      · exact hname
    · split at hname
      · exact solver _ hname
      · exact hname

theorem consultedKeys_not_auth (hskip : skipsDependencyStep route.kind request.payload = false)
    (hname : name ∈ consultedKeys route request) :
    request.authorization ≠ "" → name ∉ authKeys := by
  intro header
  simp only [consultedKeys, hskip, Bool.false_eq_true, if_false, header, ne_eq, not_false_eq_true,
    if_true] at hname
  simpa using (mem_filter.mp hname).2

theorem solverKeys_of_light {bodyParams embed : Bool}
    {bodyParamName : Option Name}
    (hlight : route.kind = .fast bodyParams embed true bodyParamName)
    (hname : name ∈ consultedKeys route request) : name ∈ solverKeys := by
  simp only [consultedKeys, hlight, skipsDependencyStep, Bool.false_eq_true, if_false] at hname
  split at hname
  · exact (mem_filter.mp hname).1
  · exact hname

/-- A client's value under a consulted name shows in what is read. -/
theorem readings_afterBody_ne {filled reference : Kwargs Value} {value : Value}
    (hname : name ∈ consultedKeys route request)
    (hmerged : mergedNames route.kind request.payload ≠ [])
    (hfilled : filled name = some value) (hvalue : value.isBytes = false)
    (hreference : reference name = none) :
    readings (afterBody route idleSolver noChecks request filled) ≠
      readings (afterBody route idleSolver noChecks request reference) := by
  intro heq
  by_cases hskip : skipsDependencyStep route.kind request.payload = true
  · have hshim : shimDecides route request = true := by
      unfold shimDecides
      split
      · rfl
      · exact hskip
    simp only [afterBody, hskip, if_true, registered_of_shimDecides hshim] at heq
    obtain ⟨rest, hrest⟩ := readings_responseShim_head _ _ _ _
    obtain ⟨rest', hrest'⟩ := readings_responseShim_head _ _ _ _
    simp only [consultedKeys, hskip, if_true] at hname
    rw [hrest, hrest'] at heq
    simp only [List.cons.injEq, Reading.shim.injEq] at heq
    have := apply_eq_of_restrict_eq heq.1 hname
    simp [hfilled, hreference] at this
  · have hskip := Bool.eq_false_iff.mpr hskip
    have hauth := consultedKeys_not_auth hskip hname
    have hcontent : name ≠ contentTypeKey := by
      have := consultedKeys_internal _ hname
      intro hcontent
      subst hcontent
      revert this
      decide
    have differ : injectRequest false request filled name ≠
        injectRequest false request reference name := by
      intro hsame
      rw [injectRequest_of_some hauth hfilled] at hsame
      have := injectRequest_of_none hauth hreference hcontent hsame.symm
      simp [hvalue] at this
    have step (kwargs : Kwargs _) : afterBody route idleSolver noChecks request kwargs =
        dependencyStep route idleSolver noChecks request kwargs := by
      simp only [afterBody, hskip, Bool.false_eq_true, if_false]
      split
      · simp_all [mergedNames]
      · simp_all [mergedNames]
      · rfl
    rw [step, step, readings_dependencyStep_idle, readings_dependencyStep_idle] at heq
    simp only [List.cons.injEq, Reading.solver.injEq] at heq
    by_cases hsolver : name ∈ solverKeys
    · exact differ (apply_eq_of_restrict_eq heq.1 hsolver)
    · -- only the response shim reads the name, so the route is not a light one
      have hshimKey : name ∈ shimKeys := by
        have others : ∀ name ∈ internalKeys, name ∉ solverKeys → name ∈ shimKeys := by decide
        exact others _ (consultedKeys_internal _ hname) hsolver
      have shim : registered route idleSolver noChecks = responseShim route idleSolver noChecks := by
        unfold registered
        split
        · rename_i hkind
          exact absurd (solverKeys_of_light hkind hname) hsolver
        · rename_i hkind
          simp [hkind, mergedNames] at hmerged
        · rfl
      obtain ⟨rest, hrest⟩ := readings_responseShim_head _ _ _
        _
      obtain ⟨rest', hrest'⟩ := readings_responseShim_head _ _ _
        _
      rw [shim, hrest, hrest'] at heq
      simp only [List.cons.injEq, Reading.shim.injEq] at heq
      exact differ (apply_eq_of_restrict_eq heq.2.1 hshimKey)

/-- A value that the shim takes for a mark of a solver, whatever flag it is under. -/
def markedParams (flag : Name) : Kwargs Value :=
  Kwargs.empty.set flag (.backgroundTasks 0)

/-- The shim goes on to the endpoint when it finds a mark. -/
theorem bypassed_of_flag (route : Route) (solver : Solver) {flag : Name}
    (hflag : flag ∈ flagKeys)
    (h : ∀ name ∈ flagKeys, kwargs name = markedParams flag name) :
    ¬ NotBypassed (responseShim route solver noChecks kwargs) := by
  have events : ∃ keys last, responseShim route solver noChecks kwargs = [.shim keys, .endpoint last] := by
    have depsRan := h depsRanKey (by decide)
    have bgTasks := h bgTasksKey (by decide)
    have genDepsRan : (kwargs.removeAll (poppedKeys route)) genDepsRanKey =
        markedParams flag genDepsRanKey := by
      have : genDepsRanKey ∉ poppedKeys route := by
        unfold poppedKeys
        split <;> decide
      simp [Kwargs.removeAll, this, h genDepsRanKey (by decide)]
    simp only [flagKeys, mem_cons, not_mem_nil, or_false] at hflag
    simp only [responseShim, noChecks, depsRan, bgTasks, genDepsRan, Bool.false_eq_true, if_false,
      finish]
    rcases hflag with rfl | rfl | rfl
    · simp [markedParams, Kwargs.set_apply, Value.truthy, Kwargs.empty, depsRanKey, bgTasksKey]
    · simp [markedParams, Kwargs.set_apply, Value.isNone, Value.hasTasks]
    · simp [markedParams, Kwargs.set_apply, Value.truthy, Kwargs.empty, bgTasksKey, genDepsRanKey]
  obtain ⟨keys, last, hevents⟩ := events
  intro hnot
  obtain ⟨⟨keys', solution, hmem⟩, -⟩ := hnot [.shim keys] last [] (by simp [hevents])
  simp at hmem

theorem isolated_of_guarded (h : Guarded route request) :
    Isolated route request := by
  have fields : ∀ name ∈ mergedNames route.kind request.payload,
      name ∉ consultedKeys route request := by
    intro name hmerged hname
    have hinternal := consultedKeys_internal _ hname
    have empty : Kwargs.empty.restrict route.declared = (Kwargs.empty : Kwargs Value) := by
      funext name
      simp [Kwargs.restrict, Kwargs.empty]
    have reads := (h Kwargs.empty idleSolver noChecks).2
    simp only [dispatch, empty] at reads
    rcases bodyStep_without route.kind request.payload internalKeys Kwargs.empty with
      ⟨hnone, -⟩ | ⟨filled, reference, hsome, hsome', hsep⟩
    · obtain ⟨filled, hsome⟩ := bodyStep_isSome (.inr (.inr (ne_nil_of_mem hmerged))) Kwargs.empty
      simp [hnone] at hsome
    · obtain ⟨⟨value, hfilled, hvalue⟩, hreference⟩ := hsep.chosen _ hinternal hmerged rfl
      have ne := readings_afterBody_ne hname (ne_nil_of_mem hmerged) hfilled hvalue hreference
      rw [← afterBody_without _ _ _ _ _ reference] at ne
      rw [hsome, Request.without, hsome'] at reads
      exact ne reads
  refine ⟨fields, ?_⟩
  intro hshim flag hflag hdeclared
  have marked : (markedParams flag).restrict route.declared = markedParams flag := by
    funext name
    by_cases hname : name = flag
    · simp [Kwargs.restrict, hname, hdeclared]
    · simp [Kwargs.restrict, markedParams, Kwargs.set_apply, hname, Kwargs.empty]
  obtain ⟨filled, hfilled⟩ : ∃ filled, bodyStep route.kind request.payload (markedParams flag) =
      some filled := by
    rcases grouped_or_skips hshim with hkind | hskip
    · exact bodyStep_isSome (.inl hkind) _
    · exact bodyStep_isSome (.inr (.inl hskip)) _
  obtain ⟨kwargs, hevents, hsame⟩ := afterBody_of_shimDecides hshim _ _ filled
  have safe := (h (markedParams flag) idleSolver noChecks).1
  rw [dispatch, marked, hfilled] at safe
  have flags : ∀ name ∈ flagKeys, kwargs name = markedParams flag name := by
    intro name hname
    have hmethod : name ≠ methodKey := by
      revert name
      decide
    rw [hsame _ hmethod, flag_of_bodyStep fields hshim hfilled hname]
  apply bypassed_of_flag _ _ hflag flags
  rw [← hevents]
  exact safe

/-- The dependencies are safe from the body exactly when no body field is copied
under a name that is consulted, and, where the shim decides alone, no declared
parameter is named like a flag. -/
theorem guarded_iff (route : Route) (request : Request) :
    Guarded route request ↔ Isolated route request :=
  ⟨isolated_of_guarded, guarded_of_isolated⟩

/-- A multipart form with a field `__deps_ran__`. -/
def markedForm : Request where
  method := "POST"
  path := "/upload"
  headers := []
  contentType := "multipart/form-data; boundary=x"
  authorization := ""
  body := ascii
    "--x\r\nContent-Disposition: form-data; name=\"__deps_ran__\"\r\n\r\n1\r\n--x--\r\n"
  payload := .multipart true [(depsRanKey, "1")] []

/-- The form reaches the endpoint of a route whose dependency rejects everyone. -/
theorem dispatch_bypassed :
    ¬ NotBypassed (dispatch { kind := .form true, declared := [] }
      (fun _ => .error (.http 401 "Not authenticated")) noChecks Kwargs.empty markedForm) := by
  intro h
  obtain ⟨⟨keys, solution, hmem⟩, -⟩ := h [.shim _] _ [] rfl
  simp at hmem

end AstraApi.Dispatch
