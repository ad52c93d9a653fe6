import AstraApi.Deps.Failure
import AstraApi.Deps.Generators

/-!
# The parameters of the endpoint

The parameters of an endpoint and of all its dependencies are entries of one
dictionary.  A solver takes out the names that dependencies have used, and what is
left is what the endpoint gets.
-/

namespace AstraApi.Deps

open List
open Dependant

variable {C K V : Type*}

/-! ## What a solver takes out -/

/-- The entries that describe the request. -/
def requestKeys : List Name :=
  ["__raw_headers__", "__method__", "__path__", "__auth_scheme__", "__auth_credentials__"]

def bodyKeys : List Name := ["__body__", "__content_type__"]

/-- The solvers that `_make_dep_solver` can return. -/
inductive Solver where
  | empty
  | generator
  | plain (kind : SolverKind)
  deriving DecidableEq

/-- What `_build_nodes` makes of the overrides, and the parameters of the query string. -/
structure Overridden (C K V : Type*) where
  nodes : List (FlatNode C K V)
  injectable : List Name
  query : List (Name × V)

/-- With overrides a fast solver leaves the nodes to one of the other two. -/
def SolverKind.loop (overridden : Option (Overridden C K V)) : SolverKind → SolverKind
  | .fastSync => if overridden.isSome then .sync else .fastSync
  | .fastInline => if overridden.isSome then .async else .fastInline
  | kind => kind

def Solver.takes (overridden : Option (Overridden C K V)) : Solver → List Name
  | .empty => requestKeys
  | .generator => requestKeys
  | .plain kind =>
    match kind.loop overridden with
    | .fastSync | .fastInline => []
    | .sync | .async => requestKeys ++ bodyKeys

def paramNames (nodes : List (FlatNode C K V)) : List Name :=
  nodes.flatMap fun node => node.source.params.map Param.name

/-- `dep_consumed_params`: not the path parameters of the endpoint's direct
dependencies. -/
def depConsumedParams (tree : Dependencies C K V) (nodes : List (FlatNode C K V)) : List Name :=
  (paramNames nodes).filter fun name =>
    !tree.roots.any fun sub => sub.params.any fun f => f.location = .path && f.name = name

def consumedParams (tree : Dependencies C K V) (nodes : List (FlatNode C K V))
    (overridden : Option (Overridden C K V)) : List Name :=
  depConsumedParams tree nodes ++ overridden.elim [] fun found => paramNames found.nodes

/-! ## Solvers -/

structure Callables (C V : Type*) where
  behaviour : Behaviour C V
  suspends : C → Bool
  genCall : C → GenCall V
  injected : C → List (Name × V)

/-- A node as `_resolve_deps_gen` reads it. -/
def FlatNode.toGen (childAutoName : C → Name) (callables : Callables C V)
    (node : FlatNode C K V) : GenNode V :=
  let fast := node.toFast childAutoName
  { name := fast.name
    call := callables.genCall fast.call
    aliases := fast.aliases
    childNames := fast.childNames
    paramNames := fast.paramNames
    paramDefaults := fast.defaults
    requiredQueryParams := fast.reqQuery
    requiredBodyParams := fast.reqBody
    injected := callables.injected fast.call }

section Run

variable [DecidableEq C] [DecidableEq K] (childAutoName : C → Name) (isNone : V → Bool)
  (callables : Callables C V) (tree : Dependencies C K V) (nodes : List (FlatNode C K V))
  (overridden : Option (Overridden C K V)) (tasks : Option V)

/-- A solver applied to the request's dictionary.  `tasks` are the background tasks
that the loop makes if some callable wants them. -/
def Solver.run (solver : Solver) (kwargs : Kwargs V) : Except PyExc (Solved V) :=
  let given := overridden.elim nodes Overridden.nodes
  let injectable := overridden.elim (tree.roots.filterMap Dependant.name) Overridden.injectable
  let consumed := consumedParams tree nodes overridden
  let background := tasks.toList.map fun value => ("__bg_tasks__", value)
  match solver with
  | .empty =>
    .ok { injected := Kwargs.empty, errors := [], remaining := kwargs.removeAll requestKeys }
  | .generator =>
    let kept := kwargs.removeAll (Solver.takes overridden .generator)
    match (resolveDepsGen isNone kept (given.map (·.toGen childAutoName callables)) 0
      Kwargs.empty [] {}).2 with
    | .raised _ exc => .error exc
    | .resolved values errors _ => .ok {
        injected := values.restrict injectable
        errors := errors
        remaining := (kept.fill background).removeAll consumed }
  | .plain kind =>
    let kind := kind.loop overridden
    let query := overridden.elim [] Overridden.query
    let kept := (kwargs.fill query).removeAll (Solver.takes overridden solver)
    match solve childAutoName isNone kept kind callables.behaviour callables.suspends given with
    | (_, some exc) => .error exc
    | (resolving, none) => .ok {
        injected := resolving.resolved.restrict injectable
        errors := resolving.errors
        remaining :=
          match kind with
          | .fastSync | .fastInline => kept.removeAll consumed
          | .sync | .async => (kept.fill background).removeAll consumed }

def Solver.Removes (solver : Solver) (name : Name) : Prop :=
  name ∈ solver.takes overridden ∨
    solver ≠ .empty ∧ name ∈ consumedParams tree nodes overridden

/-! ## Entries that stay -/

omit [DecidableEq C] [DecidableEq K] in
theorem bgTasks_notMem_takes (solver : Solver) : "__bg_tasks__" ∉ solver.takes overridden := by
  have kinds (kind : SolverKind) : "__bg_tasks__" ∉ (Solver.plain kind).takes overridden := by
    rw [Solver.takes]
    cases kind.loop overridden <;> decide
  cases solver with
  | empty | generator => exact kinds .sync ∘ mem_append_left bodyKeys
  | plain kind => exact kinds kind

theorem Kwargs.fill_of_isSome {kwargs : Kwargs V} {name : Name} (h : (kwargs name).isSome)
    (defaults : List (Name × V)) : kwargs.fill defaults name = kwargs name := by
  obtain ⟨value, hvalue⟩ := Option.isSome_iff_exists.mp h
  rw [Kwargs.fill_apply, hvalue]
  rfl

/-- An entry is left as it was unless it is taken or consumed; new background tasks do
not come in its place. -/
theorem Kwargs.remaining_iff {kwargs : Kwargs V} {name : Name} (h : (kwargs name).isSome)
    {taken : List Name} (htaken : "__bg_tasks__" ∉ taken) (consumed : List Name) :
    ((kwargs.removeAll taken).fill (tasks.toList.map fun value =>
        ("__bg_tasks__", value))).removeAll consumed name = kwargs name ↔
      ¬ (name ∈ taken ∨ name ∈ consumed) := by
  obtain ⟨value, hvalue⟩ := Option.isSome_iff_exists.mp h
  rw [Kwargs.removeAll]
  by_cases hconsumed : name ∈ consumed
  · simp [hconsumed, hvalue]
  · by_cases hname : name ∈ taken
    · have hne : "__bg_tasks__" ≠ name := fun heq => htaken (heq ▸ hname)
      have hempty : kwargs.removeAll taken name = none := if_pos hname
      have hnone : (tasks.toList.map fun value => ("__bg_tasks__", value)).find?
          (fun entry => entry.1 = name) = none := by
        rw [find?_eq_none]
        intro entry hentry
        obtain ⟨task, -, rfl⟩ := mem_map.mp hentry
        simpa using hne
      simp [Kwargs.fill_apply, hempty, hnone, hvalue, hname]
    · have hkept : kwargs.removeAll taken name = kwargs name := if_neg hname
      rw [Kwargs.fill_of_isSome (hkept ▸ h), hkept]
      simp [hname, hconsumed]

variable {childAutoName isNone callables tree nodes overridden tasks}

theorem Solver.run_remaining {solver : Solver} {kwargs : Kwargs V} {solved : Solved V}
    (hrun : solver.run childAutoName isNone callables tree nodes overridden tasks kwargs =
      .ok solved) {name : Name} (hname : (kwargs name).isSome) :
    solved.remaining name = kwargs name ↔ ¬ solver.Removes tree nodes overridden name := by
  have htakes := bgTasks_notMem_takes overridden solver
  cases solver with
  | empty =>
    cases hrun
    have hkept := Kwargs.remaining_iff (V := V) none hname htakes []
    simpa [Solver.Removes, Kwargs.removeAll, Kwargs.fill, Solver.takes] using hkept
  | generator =>
    have hkept := Kwargs.remaining_iff tasks hname htakes (consumedParams tree nodes overridden)
    have hremoves : Solver.generator.Removes tree nodes overridden name ↔
        name ∈ Solver.generator.takes overridden ∨ name ∈ consumedParams tree nodes overridden := by
      simp [Solver.Removes]
    rw [hremoves, ← hkept]
    rw [Solver.run] at hrun
    split at hrun
    · cases hrun
    · cases hrun
      rfl
  | plain kind =>
    have hremoves : (Solver.plain kind).Removes tree nodes overridden name ↔
        name ∈ (Solver.plain kind).takes overridden ∨
          name ∈ consumedParams tree nodes overridden := by
      simp [Solver.Removes]
    have hfill := Kwargs.fill_of_isSome hname (overridden.elim [] Overridden.query)
    have hquery : (kwargs.fill (overridden.elim [] Overridden.query) name).isSome := by
      rw [hfill]
      exact hname
    have hkept (tasks : Option V) := Kwargs.remaining_iff tasks hquery htakes
      (consumedParams tree nodes overridden)
    rw [hremoves, ← hfill]
    rw [Solver.run] at hrun
    split at hrun
    · cases hrun
    · cases hrun
      cases kind.loop overridden with
      | fastSync | fastInline => exact hkept none
      | sync => exact hkept _
      | async => exact hkept _

end Run

/-! ## Names that are shared -/

/-- Some dependency, at any depth, has a parameter of this name. -/
def Dependencies.Uses (tree : Dependencies C K V) (name : Name) : Prop :=
  ∃ dependant ∈ tree.positions, ∃ param ∈ dependant.params, param.name = name

def Dependencies.InPath (tree : Dependencies C K V) (name : Name) : Prop :=
  ∃ root ∈ tree.roots, ∃ param ∈ root.params, param.location = .path ∧ param.name = name

/-- What becomes of an entry: the solver wants it for itself, or a dependency has a
parameter of this name that is not a path parameter of a direct one, or an overriding
dependency has any. -/
def Solver.Wants (solver : Solver) (tree : Dependencies C K V)
    (overridden : Option (Overridden C K V)) (name : Name) : Prop :=
  name ∈ solver.takes overridden ∨
    solver ≠ .empty ∧ (tree.Uses name ∧ ¬ tree.InPath name ∨
      ∃ found ∈ overridden, name ∈ paramNames found.nodes)

variable [DecidableEq C] [DecidableEq K] {autoName : ℕ → C → Name} {tree : Dependencies C K V}

theorem mem_paramNames_nodes {name : Name} :
    name ∈ paramNames (tree.nodes autoName) ↔ tree.Uses name := by
  rw [paramNames, mem_flatMap]
  constructor
  · rintro ⟨node, hnode, hname⟩
    obtain ⟨param, hparam, heq⟩ := mem_map.mp hname
    exact ⟨node.source, Dependencies.source_mem _ _ hnode, param, hparam, heq⟩
  · rintro ⟨dependant, hdependant, param, hparam, heq⟩
    obtain ⟨node, hnode, hcall⟩ := Dependencies.exists_node _ _ hdependant
    have hsource := Dependencies.source_mem _ _ hnode
    have hparams := (tree.coherent _ hsource _ hdependant hcall).1
    refine ⟨node, hnode, mem_map.mpr ⟨param, ?_, heq⟩⟩
    rwa [hparams]

theorem Solver.removes_iff (solver : Solver) (overridden : Option (Overridden C K V))
    (name : Name) :
    solver.Removes tree (tree.nodes autoName) overridden name ↔
      solver.Wants tree overridden name := by
  have hconsumed : name ∈ consumedParams tree (tree.nodes autoName) overridden ↔
      tree.Uses name ∧ ¬ tree.InPath name ∨
        ∃ found ∈ overridden, name ∈ paramNames found.nodes := by
    rw [consumedParams, mem_append, depConsumedParams, mem_filter, mem_paramNames_nodes]
    apply or_congr
    · apply and_congr_right'
      simp [Dependencies.InPath]
    · cases overridden <;> simp
  rw [Solver.Removes, hconsumed, Solver.Wants]

/-- The endpoint gets its own parameters as they were exactly when the solver wants
none of them that the request has. -/
theorem run_keepsOwn_iff (childAutoName : C → Name) (isNone : V → Bool)
    (callables : Callables C V) (autoName : ℕ → C → Name) (tree : Dependencies C K V)
    (overridden : Option (Overridden C K V)) (tasks : Option V) (solver : Solver)
    (own : List Name) (kwargs : Kwargs V) {solved : Solved V}
    (hrun : solver.run childAutoName isNone callables tree (tree.nodes autoName) overridden tasks
      kwargs = .ok solved) :
    (∀ name ∈ own, (kwargs name).isSome → solved.remaining name = kwargs name) ↔
      ∀ name ∈ own, (kwargs name).isSome → ¬ solver.Wants tree overridden name := by
  apply forall₂_congr
  intro name _
  apply forall_congr'
  intro hname
  rw [Solver.run_remaining hrun hname, Solver.removes_iff]

def limitedPage : Dependencies String Unit String where
  roots := [.mk (some "page") "get_page" () true false
    [{ name := "limit", location := .query, aliasName := "limit" }] []]
  rootNames := by decide
  named := by decide
  distinct := by
    simp [allPositions, Dependant.positions, Dependant.params, Dependant.dependencies]
  coherent := by
    simp [allPositions, Dependant.positions]

def namedCallables : Callables String String where
  behaviour := returning fun call _ => call
  suspends := fun _ => false
  genCall := fun call => .plain fun _ => .ok call
  injected := fun _ => []

def limitAndOffset : Kwargs String :=
  (Kwargs.empty.set "limit" "10").set "offset" "20"

/-- An offset, which no dependency has, is kept. -/
theorem limitedPage_keeps_offset : ∃ solved,
    (Solver.plain .fastSync).run id (· = "None") namedCallables limitedPage
      (limitedPage.nodes fun _ call => call) none none limitAndOffset = .ok solved ∧
    solved.remaining "offset" = some "20" := by
  have hfree : ¬ (Solver.plain .fastSync).Wants limitedPage none "offset" := by
    simp [Solver.Wants, Solver.takes, SolverKind.loop, Dependencies.Uses, Dependencies.positions,
      limitedPage, allPositions, Dependant.positions, Dependant.params]
  refine ⟨_, rfl, ?_⟩
  refine (run_keepsOwn_iff _ (· = "None") namedCallables _ limitedPage none none
    (.plain .fastSync) ["offset"] limitAndOffset rfl).mpr ?_ "offset" (by decide) (by decide)
  intro name hname _
  rw [mem_singleton.mp hname]
  exact hfree

/-- The limit of the endpoint itself is gone once `get_page` has used it. -/
theorem limitedPage_removes_limit : ¬ ∀ (own : List Name) (kwargs : Kwargs String)
    (tree : Dependencies String Unit String) (solved : Solved String),
    let nodes := tree.nodes fun _ call => call
    (Solver.plain (solverKind nodes)).run id (· = "None") namedCallables tree nodes none none kwargs =
      .ok solved → solved.errors = [] →
        ∀ name ∈ own, (kwargs name).isSome → solved.remaining name = kwargs name := by
  intro h
  have hkept := h ["limit"] limitAndOffset limitedPage _ rfl (by decide) "limit" (by decide)
    (by decide)
  revert hkept
  decide

end AstraApi.Deps
