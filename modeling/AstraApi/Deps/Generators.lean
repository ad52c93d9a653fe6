import AstraApi.Deps.Node
import AstraApi.Lib.ExitStack

/-!
# Generator dependencies

`_resolve_deps_gen` enters generator dependencies into one of two exit stacks:
contexts of function scope are meant to be left when the endpoint returns, those
of request scope when the response body was consumed.  `_response_shim` calls
the endpoint, builds the response and leaves both exits.

The keyword arguments here are those a callable can see; the keys that C++ and
the shims pass to each other are not among them.
-/

namespace AstraApi.Deps

open ExitStack

def PyExc.isException : PyExc → Bool
  | .http _ _ => true
  | .other _ => true
  | .base _ => false
  | .generatorExit => false

inductive Scope where
  | function
  | request
  deriving DecidableEq

/-- What a node calls.  Entering a generator runs it to its `yield`; the context
is the rest of it.  The credentials of a security scheme come from the request,
and a header that cannot be decoded is stored without the aliases. -/
inductive GenCall (V : Type*) where
  | plain (call : Kwargs V → Except PyExc V)
  | generator (scope : Scope) (enter : Kwargs V → Except PyExc (V × Context PyExc))
  | security (credentials : Except PyExc V) (aliased : Bool)

/-- The per-node data of `_resolve_deps_gen`; `injected` has the `Request`,
`Response`, `BackgroundTasks` and `SecurityScopes` objects the node asks for. -/
structure GenNode (V : Type*) where
  name : Name
  call : GenCall V
  aliases : List Name := []
  childNames : List Name := []
  paramNames : List Name := []
  paramDefaults : List (Name × V) := []
  requiredQueryParams : List Name := []
  requiredBodyParams : List Name := []
  injected : List (Name × V) := []

inductive GenEvent where
  | entered (scope : Scope) (node : ℕ)
  | resumed (scope : Scope) (node : ℕ) (received : Option PyExc)
  deriving DecidableEq

/-- The contexts of each scope, the one entered last first. -/
structure Stacks where
  function : List (ℕ × Context PyExc) := []
  request : List (ℕ × Context PyExc) := []

def Stacks.push (exits : Stacks) (scope : Scope) (node : ℕ) (context : Context PyExc) : Stacks :=
  match scope with
  | .function => { exits with function := (node, context) :: exits.function }
  | .request => { exits with request := (node, context) :: exits.request }

def resumedEvents (scope : Scope) (log : List (ℕ × Option PyExc)) : List GenEvent :=
  log.map fun entry => .resumed scope entry.1 entry.2

section Resolve

variable {V : Type*} (isNone : V → Bool) (kwargs : Kwargs V)

def genNodeKwargs (node : GenNode V) (values : Kwargs V) : Kwargs V :=
  ((Kwargs.empty.copyFrom values node.childNames).copyFrom kwargs node.paramNames).fill
    node.paramDefaults

/-- The checks of required parameters, which security nodes skip: whether the
node is passed over, and the errors so far.  A node with required parameters is
passed over once there is any error. -/
def GenNode.checkRequired (node : GenNode V) (depKwargs : Kwargs V) (errors : List MissingError) :
    Bool × List MissingError :=
  let queryErrors := errors ++
    missingAt .query (fun name => (depKwargs name).all isNone) node.requiredQueryParams
  let bodyErrors := queryErrors ++
    missingAt .body (fun name => (depKwargs name).isNone) node.requiredBodyParams
  match node.call with
  | .security _ _ => (false, errors)
  | _ =>
    if node.requiredQueryParams ≠ [] ∧ queryErrors ≠ [] then (true, queryErrors)
    else if node.requiredBodyParams ≠ [] ∧ bodyErrors ≠ [] then (true, bodyErrors)
    else (false, bodyErrors)

def GenNode.invoke (node : GenNode V) (depKwargs : Kwargs V) :
    Except PyExc (V × Option (Scope × Context PyExc)) :=
  let depKwargs := node.injected.foldl (fun kwargs entry => kwargs.set entry.1 entry.2) depKwargs
  match node.call with
  | .plain call => (call depKwargs).map fun value => (value, none)
  | .generator scope enter => (enter depKwargs).map fun result => (result.1, some (scope, result.2))
  | .security credentials _ => credentials.map fun value => (value, none)

def GenNode.store (node : GenNode V) (values : Kwargs V) (value : V) : Kwargs V :=
  let aliases :=
    match node.call with
    | .security _ false => []
    | _ => node.aliases
  (values.set node.name value).setAll aliases value

/-- Close a stack and drop an `Exception` of it. -/
def closeQuietly (contexts : List (ℕ × Context PyExc)) :
    List (ℕ × Option PyExc) × Except PyExc Unit :=
  let (log, result) := aclose contexts
  match result with
  | .error exc => (log, if exc.isException then .ok () else .error exc)
  | .ok _ => (log, .ok ())

/-- `_cleanup_on_error`: both stacks are closed as if nothing had been
raised. -/
def cleanupOnError (exits : Stacks) : List GenEvent × Except PyExc Unit :=
  let (log, result) := closeQuietly exits.function
  match result with
  | .error exc => (resumedEvents .function log, .error exc)
  | .ok () =>
    let (log', result') := closeQuietly exits.request
    (resumedEvents .function log ++ resumedEvents .request log', result')

/-- How the dependencies were resolved; `raised` has the exception of the
dependency and the one that leaves the solver. -/
inductive Resolution (V : Type*) where
  | raised (dependency exc : PyExc)
  | resolved (values : Kwargs V) (errors : List MissingError) (exits : Stacks)

/-- A dependency raised: an `Exception` leads to a clean-up, any other exception
does not. -/
def abortResolution (exits : Stacks) (exc : PyExc) : List GenEvent × Resolution V :=
  if exc.isException then
    let (events, result) := cleanupOnError exits
    match result with
    | .error exc' => (events, .raised exc exc')
    | .ok () => (events, .raised exc exc)
  else ([], .raised exc exc)

def resolveDepsGen : List (GenNode V) → ℕ → Kwargs V → List MissingError → Stacks →
    List GenEvent × Resolution V
  | [], _, values, errors, exits => ([], .resolved values errors exits)
  | node :: nodes, position, values, errors, exits =>
    let depKwargs := genNodeKwargs kwargs node values
    match node.checkRequired isNone depKwargs errors with
    | (true, errors) => resolveDepsGen nodes (position + 1) values errors exits
    | (false, errors) =>
      match node.invoke depKwargs with
      | .error exc => abortResolution exits exc
      | .ok (value, none) =>
        resolveDepsGen nodes (position + 1) (node.store values value) errors exits
      | .ok (value, some (scope, context)) =>
        let (events, resolution) :=
          resolveDepsGen nodes (position + 1) (node.store values value) errors
            (exits.push scope position context)
        (.entered scope position :: events, resolution)

end Resolve

end AstraApi.Deps
