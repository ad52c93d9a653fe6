import AstraApi.Lib.Dict
import AstraApi.Router.CompilePath

/-!
# Routes and mounts in a scope

A route matches the path of the scope without the root path.  A mount keeps what is left
behind its prefix for the routes below it, and moves the prefix into the root path.
-/

namespace AstraApi.Routing

open Greedy

inductive ScopeType where
  | http
  | websocket
  | lifespan
  deriving DecidableEq

structure Scope (E : Type*) where
  type : ScopeType
  method : Text
  path : Text
  rootPath : Option Text
  appRootPath : Option Text
  pathParams : Option (Dict Text Text)
  endpoint : Option E

/-- The keys that `matches` sets. -/
structure ChildScope (E : Type*) where
  endpoint : Option E := none
  pathParams : Option (Dict Text Text) := none
  appRootPath : Option Text := none
  rootPath : Option Text := none

inductive Match where
  | NONE
  | PARTIAL
  | FULL
  deriving DecidableEq

variable {E : Type*}

def Scope.update (scope : Scope E) (child : ChildScope E) : Scope E :=
  { scope with
    rootPath := child.rootPath.or scope.rootPath
    appRootPath := child.appRootPath.or scope.appRootPath
    pathParams := child.pathParams.or scope.pathParams
    endpoint := child.endpoint.or scope.endpoint }

def requestScope (path : Text) : Scope E where
  type := .http
  method := plainText "GET"
  path := path
  rootPath := none
  appRootPath := none
  pathParams := none
  endpoint := none

def Scope.root (scope : Scope E) : Text := scope.rootPath.getD []

def getRoutePath (scope : Scope E) : Text :=
  if scope.root = [] then scope.path
  else if ¬ scope.root <+: scope.path then scope.path
  else if scope.path = scope.root then []
  else if scope.path[scope.root.length]? = some slashChar then scope.path.drop scope.root.length
  else scope.path

/-- A compiled pattern. -/
structure PathRegex where
  pieces : List Piece
  distinct : (paramNames pieces).Nodup

theorem keys_regexMatch {pieces : List Piece} {path : Text} {bound : List (Text × Text)}
    (h : regexMatch pieces path = some bound) : bound.map Prod.fst = paramNames pieces := by
  rw [← names_item]
  exact run_names _ h

theorem PathRegex.distinct_regexMatch (regex : PathRegex) {path : Text} :
    ∀ bound, regexMatch regex.pieces path = some bound → (bound.map Prod.fst).Nodup := by
  intro bound h
  rw [keys_regexMatch h]
  exact regex.distinct

/-- `match.groupdict()`.  The convertors of the string type return the value. -/
def PathRegex.groupdict (regex : PathRegex) (path : Text) : Option (Dict Text Text) :=
  (regexMatch regex.pieces path).pmap Dict.mk regex.distinct_regexMatch

theorem PathRegex.groupdict_eq_some_iff {regex : PathRegex} {path : Text}
    {dict : Dict Text Text} :
    regex.groupdict path = some dict ↔ regexMatch regex.pieces path = some dict.items := by
  rw [groupdict, Option.pmap_eq_some_iff]
  constructor
  · rintro ⟨bound, hdistinct, hbound, rfl⟩
    exact hbound
  · intro h
    exact ⟨dict.items, dict.distinct, h, rfl⟩

theorem PathRegex.groupdict_eq_none_iff {regex : PathRegex} {path : Text} :
    regex.groupdict path = none ↔ regexMatch regex.pieces path = none := by
  rw [groupdict, Option.pmap_eq_none_iff]

/-- What `Route.__init__` stores. -/
structure Route (E : Type*) where
  path : Text
  endpoint : E
  name : Text
  methods : Option (List Text)
  pathRegex : PathRegex
  compiled : compileRoute path = some pathRegex.pieces

def Route.refuses (route : Route E) (method : Text) : Bool :=
  match route.methods with
  | none => false
  | some methods => !methods.isEmpty && decide (method ∉ methods)

def Route.matches (route : Route E) (scope : Scope E) : Match × ChildScope E :=
  if scope.type = .http then
    match route.pathRegex.groupdict (getRoutePath scope) with
    | none => (.NONE, {})
    | some matchedParams =>
      (if route.refuses scope.method then .PARTIAL else .FULL,
        { endpoint := some route.endpoint
          pathParams := some ((scope.pathParams.getD .empty).update matchedParams) })
  else (.NONE, {})

end AstraApi.Routing
