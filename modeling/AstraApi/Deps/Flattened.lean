import AstraApi.Deps.Recursion

/-!
# The flattened solvers

`_make_dep_solver` resolves the nodes of the flat list in order.  Results go
into one dictionary by parameter name, and a node finds its sub-dependencies
there.  The solvers differ in what happens to a name that is already taken, in
which dictionary they look for required parameters, and in whether they can
find a sub-dependency by its cache key.
-/

namespace AstraApi.Deps

open Dependant

variable {C K V : Type*}

/-- The solvers without generators that `_make_dep_solver` returns. -/
inductive SolverKind where
  | fastSync
  | fastInline
  | sync
  | async
  deriving DecidableEq

/-- The choice of `_make_dep_solver`. -/
def solverKind (nodes : List (FlatNode C K V)) : SolverKind :=
  if nodes.length ≤ 3 ∧ nodes.all (·.source.isCoroutine) then .fastInline
  else if nodes.length ≤ 3 ∧ nodes.all (!·.source.isCoroutine) then .fastSync
  else if nodes.any (·.source.isCoroutine) then .async
  else .sync

/-! ## Nodes -/

section Nodes

variable (childAutoName : C → Name)

/-- The name that a parent looks a sub-dependency up by. -/
def Dependant.childName (child : Dependant C K V) : Name :=
  child.name.getD (childAutoName child.call)

def requiredAt (location : Location) (params : List (Param V)) : List (Param V) :=
  params.filter fun param => param.location = location && param.required

def FlatNode.toFast (node : FlatNode C K V) : FastNode C V where
  name := node.name
  call := node.source.call
  paramNames := node.source.params.map Param.name
  defaults := node.source.params.filterMap fun param =>
    if param.location = .path then none else param.default.map (param.name, ·)
  reqQuery := (requiredAt .query node.source.params).map Param.name
  reqHeader := (requiredAt .header node.source.params).map Param.aliasName
  reqCookie := (requiredAt .cookie node.source.params).map Param.aliasName
  reqBody := (requiredAt .body node.source.params).map Param.name
  childNames := node.source.dependencies.map (childName childAutoName)
  aliases := node.aliases

end Nodes

/-! ## Solvers -/

structure Resolving (C K V : Type*) where
  resolved : Kwargs V := Kwargs.empty
  /-- Results by cache key; only `_resolve_deps_sync` looks here. -/
  resolvedByKey : C × K → Option V := fun _ => none
  errors : List MissingError := []
  calls : List (C × Kwargs V) := []

/-- The required parameters that `_resolve_deps_sync` and `_resolve_deps_async`
miss among the arguments; the first location with an error ends the check. -/
def missingArguments (isNone : V → Bool) (args : Kwargs V) (node : FastNode C V) :
    List MissingError :=
  let query := missingAt .query (fun name => (args name).all isNone) node.reqQuery
  let body := missingAt .body (fun name => (args name).isNone) node.reqBody
  let header := missingAt .header
    (fun name => (args name).isNone && (args (underscored name)).isNone) node.reqHeader
  let cookie := missingAt .cookie (fun name => (args name).isNone) node.reqCookie
  if query ≠ [] then query else if body ≠ [] then body else if header ≠ [] then header else cookie

def storeFirst (resolved : Kwargs V) (node : FastNode C V) (value : V) : Kwargs V :=
  (node.name :: node.aliases).foldl
    (fun resolved name => if (resolved name).isSome then resolved else resolved.set name value)
    resolved

section Solvers

variable [DecidableEq C] [DecidableEq K] (childAutoName : C → Name) (isNone : V → Bool)
  (apply : C → Kwargs V → V) (kwargs : Kwargs V)

/-- The sub-dependencies of a node in `_resolve_deps_sync`: by cache key, or else
by name. -/
def childrenByKey (resolving : Resolving C K V) (node : FlatNode C K V) : Kwargs V :=
  node.source.dependencies.foldl
    (fun values child =>
      let name := child.childName childAutoName
      values.setSome name
        ((resolving.resolvedByKey child.cacheKey).or (resolving.resolved name)))
    Kwargs.empty

def nodeArguments (kind : SolverKind) (resolving : Resolving C K V) (node : FlatNode C K V) :
    Kwargs V :=
  let fast := node.toFast childAutoName
  match kind with
  | .fastSync | .fastInline => buildNodeKwargs kwargs fast resolving.resolved
  | .async =>
    ((Kwargs.empty.copyFrom resolving.resolved fast.childNames).copyFrom kwargs
      fast.paramNames).fill fast.defaults
  | .sync =>
    ((childrenByKey childAutoName resolving node).copyFrom kwargs fast.paramNames).fill
      fast.defaults

/-- The missing parameters of a node: the fast solvers look into the request's
dictionary, the others into the arguments. -/
def missingOf (kind : SolverKind) (args : Kwargs V) (node : FlatNode C K V) :
    List MissingError :=
  let fast := node.toFast childAutoName
  match kind with
  | .fastSync | .fastInline => checkNodeRequired isNone kwargs fast
  | .async | .sync => missingArguments isNone args fast

def storeOf (kind : SolverKind) (resolved : Kwargs V) (node : FlatNode C K V) (value : V) :
    Kwargs V :=
  match kind with
  | .sync => storeFirst resolved (node.toFast childAutoName) value
  | _ => storeResult resolved (node.toFast childAutoName) value

def callNode (kind : SolverKind) (resolving : Resolving C K V) (node : FlatNode C K V) :
    Resolving C K V :=
  let args := nodeArguments childAutoName kwargs kind resolving node
  let value := apply node.source.call args
  { resolved := storeOf childAutoName kind resolving.resolved node value
    resolvedByKey := Function.update resolving.resolvedByKey node.source.cacheKey (some value)
    errors := resolving.errors
    calls := resolving.calls ++ [(node.source.call, args)] }

/-- One round of a solver: a node with missing parameters is skipped. -/
def resolveNode (kind : SolverKind) (resolving : Resolving C K V) (node : FlatNode C K V) :
    Resolving C K V :=
  let args := nodeArguments childAutoName kwargs kind resolving node
  let missing := missingOf childAutoName isNone kwargs kind args node
  if missing ≠ [] then { resolving with errors := resolving.errors ++ missing }
  else callNode childAutoName apply kwargs kind resolving node

/-- The loop of `_fast_solve_multi_sync`, `_resolve_deps_sync` and
`_resolve_deps_async`. -/
def resolveNodes (kind : SolverKind) (nodes : List (FlatNode C K V))
    (resolving : Resolving C K V) : Resolving C K V :=
  nodes.foldl (resolveNode childAutoName isNone apply kwargs kind) resolving

/-- All nodes called in order, as in `_yield_fallback`. -/
def callNodes (kind : SolverKind) (nodes : List (FlatNode C K V)) (resolving : Resolving C K V) :
    Resolving C K V :=
  nodes.foldl (callNode childAutoName apply kwargs kind) resolving

/-- The loop of `_fast_solve_multi_inline` over the remaining nodes.  When a
coroutine suspends, all nodes are called again from the first one. -/
def resolveInline (suspends : C → Bool) (nodes : List (FlatNode C K V)) :
    List (FlatNode C K V) → Resolving C K V → Resolving C K V
  | [], resolving => resolving
  | node :: rest, resolving =>
    let args := nodeArguments childAutoName kwargs .fastInline resolving node
    let missing := missingOf childAutoName isNone kwargs .fastInline args node
    if missing ≠ [] then
      resolveInline suspends nodes rest { resolving with errors := resolving.errors ++ missing }
    else if suspends node.source.call then
      callNodes childAutoName apply kwargs .fastInline nodes
        { errors := resolving.errors
          calls := resolving.calls ++ [(node.source.call, args)] }
    else
      resolveInline suspends nodes rest
        (callNode childAutoName apply kwargs .fastInline resolving node)

def resolve (suspends : C → Bool) (kind : SolverKind) (nodes : List (FlatNode C K V)) :
    Resolving C K V :=
  match kind with
  | .fastInline => resolveInline childAutoName isNone apply kwargs suspends nodes nodes {}
  | kind => resolveNodes childAutoName isNone apply kwargs kind nodes {}

/-- The values a solver hands to the endpoint. -/
def injected (tree : Dependencies C K V) (resolving : Resolving C K V) : Kwargs V :=
  resolving.resolved.restrict (tree.roots.filterMap Dependant.name)

end Solvers

end AstraApi.Deps
