import Mathlib.Tactic

/-!
# Dependency nodes

At registration a dependency tree is flattened into a list of nodes.  A solver
walks the list in order: it checks that the parameters a node requires are
there, builds its keyword arguments from the request's and from the results of
earlier nodes, and stores the result under the node's name and aliases.  This
module has what the fast solvers share.
-/

namespace AstraApi.Deps

abbrev Name := String

/-- A dictionary of keyword arguments. -/
abbrev Kwargs (V : Type*) := Name → Option V

section Kwargs

variable {V : Type*}

def Kwargs.empty : Kwargs V := fun _ => none

def Kwargs.set (kwargs : Kwargs V) (name : Name) (value : V) : Kwargs V :=
  Function.update kwargs name (some value)

def Kwargs.setAll (kwargs : Kwargs V) (names : List Name) (value : V) : Kwargs V :=
  names.foldl (fun kwargs name => kwargs.set name value) kwargs

/-- Copy the given names, those that are present, from one dictionary to
another. -/
def Kwargs.copyFrom (kwargs source : Kwargs V) (names : List Name) : Kwargs V :=
  names.foldl
    (fun kwargs name =>
      match source name with
      | some value => kwargs.set name value
      | none => kwargs)
    kwargs

def Kwargs.fill (kwargs : Kwargs V) (defaults : List (Name × V)) : Kwargs V :=
  defaults.foldl
    (fun kwargs entry =>
      match kwargs entry.1 with
      | some _ => kwargs
      | none => kwargs.set entry.1 entry.2)
    kwargs

def Kwargs.removeAll (kwargs : Kwargs V) (names : List Name) : Kwargs V :=
  fun name => if name ∈ names then none else kwargs name

def Kwargs.update (kwargs other : Kwargs V) : Kwargs V :=
  fun name => (other name).or (kwargs name)

def Kwargs.restrict (kwargs : Kwargs V) (names : List Name) : Kwargs V :=
  fun name => if name ∈ names then kwargs name else none

theorem Kwargs.set_apply (kwargs : Kwargs V) (name : Name) (value : V) (other : Name) :
    kwargs.set name value other = if other = name then some value else kwargs other := by
  simp [Kwargs.set, Function.update_apply]

theorem Kwargs.setAll_apply (kwargs : Kwargs V) (names : List Name) (value : V) (name : Name) :
    kwargs.setAll names value name = if name ∈ names then some value else kwargs name := by
  induction names generalizing kwargs with
  | nil => simp [Kwargs.setAll]
  | cons first names ih =>
    have step : kwargs.setAll (first :: names) value =
        (kwargs.set first value).setAll names value := rfl
    rw [step, ih, Kwargs.set_apply]
    by_cases hname : name ∈ names
    · simp [hname]
    · simp [hname]

theorem Kwargs.copyFrom_apply (kwargs source : Kwargs V) (names : List Name) (name : Name) :
    kwargs.copyFrom source names name =
      if name ∈ names then (source name).or (kwargs name) else kwargs name := by
  induction names generalizing kwargs with
  | nil => simp [Kwargs.copyFrom]
  | cons first names ih =>
    have step : kwargs.copyFrom source (first :: names) = (match source first with
          | some value => kwargs.set first value
          | none => kwargs).copyFrom source names := rfl
    rw [step, ih]
    cases hfirst : source first with
    | none =>
      by_cases hname : name = first
      · simp [hname, hfirst]
      · simp [hname]
    | some value =>
      by_cases hname : name = first
      · simp [hname, hfirst, Kwargs.set_apply]
      · simp [hname, Kwargs.set_apply]

theorem Kwargs.fill_apply (kwargs : Kwargs V) (defaults : List (Name × V)) (name : Name) :
    kwargs.fill defaults name =
      (kwargs name).or ((defaults.find? fun entry => entry.1 = name).map Prod.snd) := by
  induction defaults generalizing kwargs with
  | nil => simp [Kwargs.fill]
  | cons entry defaults ih =>
    have step : kwargs.fill (entry :: defaults) = (match kwargs entry.1 with
          | some _ => kwargs
          | none => kwargs.set entry.1 entry.2).fill defaults := rfl
    rw [step, ih]
    by_cases hname : entry.1 = name
    · subst hname
      cases hentry : kwargs entry.1 <;> simp [hentry, Kwargs.set_apply]
    · cases hentry : kwargs entry.1 <;>
        simp [hname, Kwargs.set_apply, Ne.symm hname]

end Kwargs

/-- Exceptions as the solvers tell them apart: an `HTTPException`, another
`Exception`, or one that is not an `Exception`. -/
inductive PyExc where
  | http (status : ℕ) (detail : String)
  | other (message : String)
  | base (message : String)
  | generatorExit
  deriving DecidableEq

inductive Location where
  | path
  | query
  | header
  | cookie
  | body
  deriving DecidableEq

structure MissingError where
  type : String := "missing"
  loc : Location × Name
  msg : String := "Field required"
  deriving DecidableEq

/-- The per-node data of the fast solvers; `C` is the type of callables. -/
structure FastNode (C V : Type*) where
  name : Name
  call : C
  paramNames : List Name := []
  defaults : List (Name × V) := []
  reqQuery : List Name := []
  reqHeader : List Name := []
  reqCookie : List Name := []
  reqBody : List Name := []
  childNames : List Name := []
  aliases : List Name := []

def underscored (name : Name) : Name :=
  String.ofList (name.toList.map fun c => if c = '-' then '_' else c)

section Checks

variable {C V : Type*} (isNone : V → Bool) (kwargs : Kwargs V)

def missingAt (location : Location) (absent : Name → Bool) (names : List Name) :
    List MissingError :=
  (names.filter absent).map fun name => { loc := (location, name) }

/-- `_check_node_required`.  A query parameter may not be `None` either, and a
header parameter may be present under its underscored name. -/
def checkNodeRequired (node : FastNode C V) : List MissingError :=
  missingAt .query (fun name => (kwargs name).all isNone) node.reqQuery ++
    missingAt .header
      (fun name => (kwargs name).isNone && (kwargs (underscored name)).isNone) node.reqHeader ++
    missingAt .cookie (fun name => (kwargs name).isNone) node.reqCookie ++
    missingAt .body (fun name => (kwargs name).isNone) node.reqBody

end Checks

def buildNodeKwargs {C V : Type*} (kwargs : Kwargs V) (node : FastNode C V)
    (resolved : Kwargs V) : Kwargs V :=
  ((Kwargs.empty.copyFrom kwargs node.paramNames).copyFrom resolved node.childNames).fill
    node.defaults

/-- Store a result under the node's name and then under its aliases. -/
def storeResult {C V : Type*} (resolved : Kwargs V) (node : FastNode C V) (value : V) :
    Kwargs V :=
  (resolved.set node.name value).setAll node.aliases value

end AstraApi.Deps
