import AstraApi.Deps.Inline
import AstraApi.Deps.Resolution

/-!
# Dependencies that fail

A dependency with a missing parameter is left out, and with it everything that depends
on it should be.  The solvers skip a node that misses a parameter of its own; a node
whose sub-dependency was skipped is called without it, unless it is skipped for itself.
-/

namespace AstraApi.Deps

open List Option
open Dependant

variable {C K V : Type*}

variable {nodes : List (FlatNode C K V)} {resolving : Resolving C K V}

/-! ## Solvers whose calls may raise -/

/-- What becomes of a call: binding its arguments may be refused, and in the end there is
a value or an exception.  `close` is what closing a coroutine that waits lets through. -/
structure Behaviour (C V : Type*) where
  refuses : C → Kwargs V → Option PyExc
  close : C → Option PyExc
  result : C → Kwargs V → Except PyExc V

inductive CallEnd (V : Type*) where
  | value (value : V)
  | raises (exc : PyExc)
  | waits

def plainCall (behaviour : Behaviour C V) (translate : PyExc → PyExc) (call : C)
    (args : Kwargs V) : CallEnd V :=
  match behaviour.refuses call args with
  | some exc => .raises (translate exc)
  | none =>
    match behaviour.result call args with
    | .ok value => .value value
    | .error exc => .raises (translate exc)

/-- One `send`: the arguments are bound outside of the `try`. -/
def inlineCall (behaviour : Behaviour C V) (suspends : C → Bool) (call : C) (args : Kwargs V) :
    CallEnd V :=
  match behaviour.refuses call args with
  | some exc => .raises exc
  | none =>
    if suspends call then
      match behaviour.close call with
      | some exc => .raises exc
      | none => .waits
    else
      match behaviour.result call args with
      | .ok value => .value value
      | .error exc => .raises exc.translate

def callEnd (behaviour : Behaviour C V) (suspends : C → Bool) (kind : SolverKind) (call : C)
    (args : Kwargs V) : CallEnd V :=
  match kind with
  | .fastSync => plainCall behaviour PyExc.translate call args
  | .fastInline => inlineCall behaviour suspends call args
  | .sync | .async => plainCall behaviour id call args

inductive WalkEnd where
  | finished
  | raised (exc : PyExc)
  | suspended

section Solvers

variable [DecidableEq C] [DecidableEq K] (childAutoName : C → Name) (isNone : V → Bool)
  (kwargs : Kwargs V) (kind : SolverKind)

def missed (resolving : Resolving C K V) (node : FlatNode C K V) : List MissingError :=
  missingOf childAutoName isNone kwargs kind
    (nodeArguments childAutoName kwargs kind resolving node) node

/-- The loop of a solver up to the first exception, or to a coroutine that waits. -/
def walk (checks : Bool) (ends : C → Kwargs V → CallEnd V) :
    List (FlatNode C K V) → Resolving C K V → Resolving C K V × WalkEnd
  | [], resolving => (resolving, .finished)
  | node :: rest, resolving =>
    let args := nodeArguments childAutoName kwargs kind resolving node
    let missing := missed childAutoName isNone kwargs kind resolving node
    if checks = true ∧ missing ≠ [] then
      walk checks ends rest { resolving with errors := resolving.errors ++ missing }
    else
      match ends node.source.call args with
      | .value value =>
        walk checks ends rest (callNode childAutoName (fun _ _ => value) kwargs kind resolving node)
      | .raises exc =>
        ({ resolving with calls := resolving.calls ++ [(node.source.call, args)] }, .raised exc)
      | .waits =>
        ({ resolving with calls := resolving.calls ++ [(node.source.call, args)] }, .suspended)

/-- A solver without overrides: what it has resolved, and the exception it raises.  After
a coroutine that waits, all nodes are called from the first one on, unchecked. -/
def solve (behaviour : Behaviour C V) (suspends : C → Bool) (nodes : List (FlatNode C K V)) :
    Resolving C K V × Option PyExc :=
  match walk childAutoName isNone kwargs kind true (callEnd behaviour suspends kind) nodes {} with
  | (resolving, .finished) => (resolving, none)
  | (resolving, .raised exc) => (resolving, some exc)
  | (resolving, .suspended) =>
    match walk childAutoName isNone kwargs kind false (plainCall behaviour PyExc.translate) nodes
        { errors := resolving.errors, calls := resolving.calls } with
    | (resolving, .raised exc) => (resolving, some exc)
    | (resolving, _) => (resolving, none)

section Steps

variable {childAutoName isNone kwargs kind} {checks : Bool} {ends : C → Kwargs V → CallEnd V}
  {node : FlatNode C K V} {resolving : Resolving C K V}

end Steps

/-! ## Callables that always return -/

/-- Callables without exceptions. -/
def returning (apply : C → Kwargs V → V) : Behaviour C V where
  refuses := fun _ _ => none
  close := fun _ => none
  result := fun call args => .ok (apply call args)

section Walks

variable {childAutoName isNone kwargs kind} {ends : C → Kwargs V → CallEnd V} {checks : Bool}
  {node : FlatNode C K V}

end Walks

/-! ## What a missing parameter leads to -/

/-- The request has no value for a required parameter of the dependency itself. -/
def lacks (dependant : Dependant C K V) : Bool :=
  dependant.params.any fun param =>
    param.required &&
      if param.location = .query then (kwargs param.name).all isNone
      else (kwargs param.name).isNone

/-- Some dependency at or below this one lacks a parameter. -/
def stopped (dependant : Dependant C K V) : Bool :=
  dependant.positions.any (lacks isNone kwargs)

/-- The check of a callable's own parameters finds one missing in the request, even if
each of its sub-dependencies has a result. -/
def Refused (dependant : Dependant C K V) : Prop :=
  ¬ (QueriesGiven isNone kwargs dependant ∧ BodiesGiven kwargs dependant ∧
    AliasesFound kind kwargs dependant)

section Containment

variable {childAutoName isNone kwargs kind} {tree : Dependencies C K V}
  {autoName : ℕ → C → Name} {suspends : C → Bool} {node : FlatNode C K V}

omit [DecidableEq C] [DecidableEq K] in
theorem Refused.congr {a b : Dependant C K V} (h : Refused isNone kwargs kind a)
    (ha : a ∈ tree.positions) (hb : b ∈ tree.positions) (hcall : a.call = b.call) :
    Refused isNone kwargs kind b := by
  obtain ⟨hparams, hsignatures⟩ := tree.coherent a ha b hb hcall
  have hnames : a.dependencies.map Dependant.name = b.dependencies.map Dependant.name := by
    have := congrArg (map Prod.fst) hsignatures
    rwa [List.map_map, List.map_map] at this
  have hchildren (name : Name) : a.dependencies.any (fun child => child.name = some name) =
      b.dependencies.any fun child => child.name = some name := by
    have := congrArg (any · (fun declared => decide (declared = some name))) hnames
    rwa [List.any_map, List.any_map] at this
  have hhas : hasName kind kwargs a = hasName kind kwargs b := by
    funext name
    cases kind with
    | fastSync | fastInline => rfl
    | sync | async => rw [hasName, hasName, hparams, hchildren]
  rw [Refused, QueriesGiven, BodiesGiven, AliasesFound, hparams, hhas] at h
  exact h

end Containment

end Solvers

end AstraApi.Deps
