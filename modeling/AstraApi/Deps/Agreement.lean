import AstraApi.Deps.Flattened

/-!
# Agreement with the recursion

When does a flattened solver call every dependency with the arguments of the
recursion and hand its values to the endpoint?  Names are the only thing that
can go wrong: exactly when each name that is looked up leads to a node of the
callable that is meant, each required header and cookie is found under its alias,
and no required query parameter is `None`.
-/

namespace AstraApi.Deps

open List Option
open Dependant

variable {C K V : Type*}

variable {params : List (Param V)} {name : Name} {param : Param V}

/-! ## Arguments name by name -/

section Values

variable (apply : C → Kwargs V → V) (kwargs : Kwargs V)

omit apply kwargs in
theorem setSome_apply (kwargs : Kwargs V) (name : Name) (value : Option V) (other : Name) :
    kwargs.setSome name value other =
      if other = name then value.or (kwargs other) else kwargs other := by
  cases value <;> simp [Kwargs.setSome, Kwargs.set_apply]

omit apply kwargs in
/-- Entries under distinct names do not disturb each other. -/
theorem setSome_foldl {α : Type*} (name : α → Name) (value : α → Option V) (entries : List α)
    (kwargs : Kwargs V) (other : Name) :
    (other ∉ entries.map name →
      entries.foldl (fun kwargs entry => kwargs.setSome (name entry) (value entry)) kwargs other =
        kwargs other) ∧
    ∀ entry ∈ entries, (entries.map name).Nodup → name entry = other →
      entries.foldl (fun kwargs entry => kwargs.setSome (name entry) (value entry)) kwargs other =
        (value entry).or (kwargs other) := by
  induction entries generalizing kwargs with
  | nil => simp
  | cons first entries ih =>
    obtain ⟨out, hit⟩ := ih (kwargs.setSome (name first) (value first))
    simp only [map_cons, mem_cons, not_or, foldl_cons, nodup_cons]
    constructor
    · intro hother
      rw [out hother.2, setSome_apply, if_neg hother.1]
    · rintro entry (rfl | hentry) ⟨hfirst, hnodup⟩ rfl
      · rw [out hfirst, setSome_apply, if_pos rfl]
      · have hne : name entry ≠ name first := by
          intro heq
          exact hfirst (heq ▸ mem_map_of_mem hentry)
        rw [hit entry hentry hnodup rfl, setSome_apply, if_neg hne]

theorem paramValues_of_notMem
    (h : name ∉ params.map Param.name) : paramValues kwargs params name = none :=
  (setSome_foldl _ _ _ _ _).1 h

theorem paramValues_of_mem (hmem : param ∈ params)
    (h : (params.map Param.name).Nodup) :
    paramValues kwargs params param.name = param.value kwargs := by
  have := (setSome_foldl _ (Param.value kwargs) _ Kwargs.empty _).2 param hmem h rfl
  rw [paramValues, this]
  exact or_none

theorem evalDependants_of_notMem {dependants : List (Dependant C K V)}
    (h : name ∉ dependants.filterMap Dependant.name) (values : Kwargs V) :
    evalDependants apply kwargs dependants values name = values name := by
  induction dependants generalizing values with
  | nil => rw [evalDependants]
  | cons dependant dependants ih =>
    rw [evalDependants]
    cases hname : dependant.name with
    | none =>
      rw [filterMap_cons_none hname] at h
      exact ih h _
    | some first =>
      rw [filterMap_cons_some hname, mem_cons, not_or] at h
      rw [ih h.2, Kwargs.setOption, Kwargs.set_apply, if_neg h.1]

theorem evalDependants_of_mem {dependants : List (Dependant C K V)}
    (h : (dependants.filterMap Dependant.name).Nodup) {dependant : Dependant C K V}
    (hmem : dependant ∈ dependants) (hname : dependant.name = some name) (values : Kwargs V) :
    evalDependants apply kwargs dependants values name =
      some (evalDependant apply kwargs dependant) := by
  induction dependants generalizing values with
  | nil => simp at hmem
  | cons first dependants ih =>
    rw [evalDependants]
    rcases mem_cons.mp hmem with rfl | hmem
    · rw [filterMap_cons_some hname, nodup_cons] at h
      rw [evalDependants_of_notMem _ _ h.1, hname, Kwargs.setOption, Kwargs.set_apply, if_pos rfl]
    · apply ih _ hmem
      cases hfirst : first.name with
      | none => rwa [filterMap_cons_none hfirst] at h
      | some _ =>
        rw [filterMap_cons_some hfirst, nodup_cons] at h
        exact h.2

variable {tree : Dependencies C K V} {dependant : Dependant C K V} (hmem : dependant ∈ tree.positions)

include hmem

theorem params_nodup : (dependant.params.map Param.name).Nodup :=
  (nodup_append.mp (tree.distinct _ hmem)).1

theorem children_nodup : (dependant.dependencies.filterMap Dependant.name).Nodup :=
  (nodup_append.mp (tree.distinct _ hmem)).2.1

theorem param_ne_child (hparam : name ∈ dependant.params.map Param.name) :
    name ∉ dependant.dependencies.filterMap Dependant.name := by
  intro hchild
  exact (nodup_append.mp (tree.distinct _ hmem)).2.2 name hparam name hchild rfl

theorem arguments_param (hparam : param ∈ dependant.params) :
    arguments apply kwargs dependant param.name = param.value kwargs := by
  have hname := mem_map_of_mem (f := Param.name) hparam
  rw [arguments, Kwargs.update, paramValues_of_mem _ hparam (params_nodup hmem),
    evalDependants_of_notMem _ _ (param_ne_child hmem hname)]
  exact or_none

theorem arguments_child {child : Dependant C K V}
    (hchild : child ∈ dependant.dependencies) (hname : child.name = some name) :
    arguments apply kwargs dependant name = some (evalDependant apply kwargs child) := by
  have hout : name ∉ dependant.params.map Param.name := by
    intro hparam
    exact param_ne_child hmem hparam (mem_filterMap.mpr ⟨child, hchild, hname⟩)
  rw [arguments, Kwargs.update, paramValues_of_notMem _ hout,
    evalDependants_of_mem _ _ (children_nodup hmem) hchild hname]
  rfl

omit hmem in
theorem arguments_other (hparam : name ∉ dependant.params.map Param.name)
    (hchild : name ∉ dependant.dependencies.filterMap Dependant.name) :
    arguments apply kwargs dependant name = none := by
  rw [arguments, Kwargs.update, paramValues_of_notMem kwargs hparam,
    evalDependants_of_notMem apply kwargs hchild]
  rfl

end Values

section NodeArguments

variable (childAutoName : C → Name) (kwargs : Kwargs V)

theorem find_defaults_of_notMem (h : name ∉ params.map Param.name) :
    (params.filterMap fun param =>
        if param.location = .path then none else param.default.map (param.name, ·)).find?
      (fun entry => entry.1 = name) = none := by
  rw [find?_eq_none]
  intro entry hentry
  obtain ⟨param, hparam, heq⟩ := mem_filterMap.mp hentry
  split at heq
  · simp at heq
  · obtain ⟨value, -, rfl⟩ := map_eq_some_iff.mp heq
    simp only [decide_eq_true_eq]
    intro hname
    exact h (hname ▸ mem_map_of_mem hparam)

theorem find_defaults_of_mem (h : (params.map Param.name).Nodup) (hmem : param ∈ params) :
    ((params.filterMap fun param =>
        if param.location = .path then none else param.default.map (param.name, ·)).find?
      (fun entry => entry.1 = param.name)).map Prod.snd =
        if param.location = .path then none else param.default := by
  induction params with
  | nil => simp at hmem
  | cons first params ih =>
    rw [map_cons, nodup_cons] at h
    rcases mem_cons.mp hmem with rfl | hmem
    · have rest := find_defaults_of_notMem h.1
      rw [filterMap_cons]
      split <;> rename_i hfirst
      · rw [rest]
        split at hfirst
        · simp_all
        · simp_all
      · rename_i entry
        split at hfirst
        · simp at hfirst
        · obtain ⟨value, hvalue, rfl⟩ := map_eq_some_iff.mp hfirst
          simp_all
    · have hne : first.name ≠ param.name := by
        intro heq
        exact h.1 (heq ▸ mem_map_of_mem hmem)
      rw [filterMap_cons]
      split
      · exact ih h.2 hmem
      · rename_i entry hfirst
        have hentry : entry.1 = first.name := by
          split at hfirst
          · simp at hfirst
          · obtain ⟨value, -, rfl⟩ := map_eq_some_iff.mp hfirst
            rfl
        rw [find?_cons_of_neg]
        · exact ih h.2 hmem
        · simpa [hentry] using hne

variable {tree : Dependencies C K V} {node : FlatNode C K V} (hmem : node.source ∈ tree.positions)

include hmem

theorem childNames_eq :
    (node.toFast childAutoName).childNames = node.source.dependencies.filterMap Dependant.name := by
  have named := tree.named _ hmem
  simp only [FlatNode.toFast]
  generalize node.source.dependencies = dependencies at named
  induction dependencies with
  | nil => rfl
  | cons child dependencies ih =>
    have hchild := named _ mem_cons_self
    obtain ⟨name, hname⟩ := isSome_iff_exists.mp hchild
    rw [map_cons, filterMap_cons_some, ih fun other hother => named _ (mem_cons_of_mem _ hother)]
    simp [childName, hname]

theorem map_childName : node.source.dependencies.map (childName childAutoName) =
    node.source.dependencies.filterMap Dependant.name :=
  childNames_eq _ hmem

theorem childrenByKey_of_notMem (resolving : Resolving C K V)
    (hchild : name ∉ node.source.dependencies.filterMap Dependant.name) :
    childrenByKey childAutoName resolving node name = none := by
  rw [← map_childName _ hmem] at hchild
  exact (setSome_foldl _ _ _ _
    _).1 hchild

omit hmem in
/-- What a solver finds for a sub-dependency. -/
def foundChild (kind : SolverKind) (resolving : Resolving C K V) (child : Dependant C K V) :
    Option V :=
  let byName := resolving.resolved (child.childName childAutoName)
  match kind with
  | .sync => (resolving.resolvedByKey child.cacheKey).or byName
  | _ => byName

theorem nodeArguments_param (kind : SolverKind) (resolving : Resolving C K V)
    (hparam : param ∈ node.source.params) :
    nodeArguments childAutoName kwargs kind resolving node param.name = param.value kwargs := by
  have hname : param.name ∈ node.source.params.map Param.name := mem_map_of_mem hparam
  have hchild := param_ne_child hmem hname
  have hnames := childNames_eq childAutoName hmem
  have hparams : (node.toFast childAutoName).paramNames = node.source.params.map Param.name := rfl
  have hdefaults : (((node.toFast childAutoName).defaults).find?
      fun entry => entry.1 = param.name).map Prod.snd =
        if param.location = .path then none else param.default :=
    find_defaults_of_mem (params_nodup hmem) hparam
  have hkeyed := childrenByKey_of_notMem childAutoName hmem resolving hchild
  cases kind <;>
    simp only [nodeArguments, buildNodeKwargs, Kwargs.fill_apply, Kwargs.copyFrom_apply, hnames,
      hchild, hparams, hname, hdefaults, hkeyed, if_true, if_false, Kwargs.empty, or_none,
      Param.value]

theorem nodeArguments_child (kind : SolverKind) (resolving : Resolving C K V)
    {child : Dependant C K V} (hchild : child ∈ node.source.dependencies)
    (hname : child.name = some name) :
    nodeArguments childAutoName kwargs kind resolving node name =
      foundChild childAutoName kind resolving child := by
  have hin : name ∈ node.source.dependencies.filterMap Dependant.name :=
    mem_filterMap.mpr ⟨child, hchild, hname⟩
  have hparam : name ∉ node.source.params.map Param.name := fun h => param_ne_child hmem h hin
  have hnames := childNames_eq childAutoName hmem
  have hchildName : child.childName childAutoName = name := by
    simp [childName, hname]
  have hparams : (node.toFast childAutoName).paramNames = node.source.params.map Param.name := rfl
  have hdefaults : (((node.toFast childAutoName).defaults).find?
      fun entry => entry.1 = name).map Prod.snd = none := by
    rw [map_eq_none_iff]
    exact find_defaults_of_notMem hparam
  have hkeyed : childrenByKey childAutoName resolving node name =
      (resolving.resolvedByKey child.cacheKey).or (resolving.resolved name) := by
    have hnodup : (node.source.dependencies.map (childName childAutoName)).Nodup := by
      rw [map_childName _ hmem]
      exact children_nodup hmem
    have := (setSome_foldl _ (fun child => (resolving.resolvedByKey child.cacheKey).or
        (resolving.resolved (child.childName childAutoName)))
      _ Kwargs.empty _).2 child hchild hnodup hchildName
    rw [hchildName] at this
    exact this.trans or_none
  cases kind <;>
    simp only [nodeArguments, buildNodeKwargs, Kwargs.fill_apply, Kwargs.copyFrom_apply, hnames,
      hin, hparams, hparam, hdefaults, hkeyed, if_true, if_false, Kwargs.empty, or_none,
      foundChild, hchildName]

theorem nodeArguments_other (kind : SolverKind) (resolving : Resolving C K V)
    (hparam : name ∉ node.source.params.map Param.name)
    (hchild : name ∉ node.source.dependencies.filterMap Dependant.name) :
    nodeArguments childAutoName kwargs kind resolving node name = none := by
  have hnames := childNames_eq childAutoName hmem
  have hparams : (node.toFast childAutoName).paramNames = node.source.params.map Param.name := rfl
  have hdefaults : (((node.toFast childAutoName).defaults).find?
      fun entry => entry.1 = name).map Prod.snd = none := by
    rw [map_eq_none_iff]
    exact find_defaults_of_notMem hparam
  have hkeyed := childrenByKey_of_notMem childAutoName hmem resolving hchild
  cases kind <;>
    simp only [nodeArguments, buildNodeKwargs, Kwargs.fill_apply, Kwargs.copyFrom_apply, hnames,
      hchild, hparams, hparam, hdefaults, hkeyed, if_false, Kwargs.empty, or_none]

end NodeArguments

/-! ## Which node a name leads to -/

section Lookup

variable [DecidableEq C] [DecidableEq K] (childAutoName : C → Name)

def lastStored (name : Name) (nodes : List (FlatNode C K V)) : Option (FlatNode C K V) :=
  nodes.foldl (fun found node => if name ∈ node.names then some node else found) none

def firstStored (name : Name) (nodes : List (FlatNode C K V)) : Option (FlatNode C K V) :=
  nodes.find? fun node => name ∈ node.names

def lastOfKey (key : C × K) (nodes : List (FlatNode C K V)) : Option (FlatNode C K V) :=
  nodes.foldl (fun found node => if node.source.cacheKey = key then some node else found) none

def storedNode (kind : SolverKind) (name : Name) (nodes : List (FlatNode C K V)) :
    Option (FlatNode C K V) :=
  match kind with
  | .sync => firstStored name nodes
  | _ => lastStored name nodes

/-- The node that a sub-dependency is taken from. -/
def childNode (kind : SolverKind) (child : Dependant C K V) (nodes : List (FlatNode C K V)) :
    Option (FlatNode C K V) :=
  let byName := storedNode kind (child.childName childAutoName) nodes
  match kind with
  | .sync => (lastOfKey child.cacheKey nodes).or byName
  | _ => byName

/-- Each sub-dependency of each node is taken from a node of its callable. -/
def ChildrenFound (kind : SolverKind) : List (FlatNode C K V) → List (FlatNode C K V) → Prop
  | _, [] => True
  | before, node :: nodes =>
    (∀ child ∈ node.source.dependencies,
      (childNode childAutoName kind child before).map (·.source.call) = some child.call) ∧
    ChildrenFound kind (before ++ [node]) nodes

/-- Each dependency of the endpoint is taken from a node of its callable. -/
def RootsFound (kind : SolverKind) (tree : Dependencies C K V) (nodes : List (FlatNode C K V)) :
    Prop :=
  ∀ root ∈ tree.roots, ∀ name ∈ root.name,
    (storedNode kind name nodes).map (·.source.call) = some root.call

/-- The names that a solver's check for required parameters knows. -/
def hasName (kind : SolverKind) (kwargs : Kwargs V) (dependant : Dependant C K V) (name : Name) :
    Bool :=
  match kind with
  | .fastSync | .fastInline => (kwargs name).isSome
  | .async | .sync =>
    dependant.params.any (fun param => param.name = name && (param.value kwargs).isSome) ||
      dependant.dependencies.any (fun child => child.name = some name)

def AliasesFound (kind : SolverKind) (kwargs : Kwargs V) (dependant : Dependant C K V) : Prop :=
  (∀ param ∈ requiredAt .header dependant.params,
    hasName kind kwargs dependant param.aliasName = true ∨
      hasName kind kwargs dependant (underscored param.aliasName) = true) ∧
  ∀ param ∈ requiredAt .cookie dependant.params,
    hasName kind kwargs dependant param.aliasName = true

/-- A required query parameter counts as missing when its value is `None`. -/
def QueriesGiven (isNone : V → Bool) (kwargs : Kwargs V) (dependant : Dependant C K V) : Prop :=
  ∀ param ∈ requiredAt .query dependant.params, (kwargs param.name).all isNone = false

def throughFirst (suspends : C → Bool) : List (FlatNode C K V) → List (FlatNode C K V)
  | [] => []
  | node :: nodes =>
    if suspends node.source.call then [node] else node :: throughFirst suspends nodes

def checkedNodes (suspends : C → Bool) (kind : SolverKind) (nodes : List (FlatNode C K V)) :
    List (FlatNode C K V) :=
  match kind with
  | .fastInline => throughFirst suspends nodes
  | _ => nodes

/-- No name misleads the solver, and the recursion stays within its depth limit. -/
structure Unambiguous (isNone : V → Bool) (autoName : ℕ → C → Name) (suspends : C → Bool)
    (kind : SolverKind) (tree : Dependencies C K V) (kwargs : Kwargs V) : Prop where
  depth : allLevels tree.roots ≤ maxDependencyDepth
  queries : ∀ node ∈ checkedNodes suspends kind (tree.nodes autoName),
    QueriesGiven isNone kwargs node.source
  aliases : ∀ node ∈ checkedNodes suspends kind (tree.nodes autoName),
    AliasesFound kind kwargs node.source
  children : ChildrenFound childAutoName kind [] (tree.nodes autoName)
  roots : RootsFound kind tree (tree.nodes autoName)

instance (kind : SolverKind) (kwargs : Kwargs V) (dependant : Dependant C K V) :
    Decidable (AliasesFound kind kwargs dependant) :=
  inferInstanceAs (Decidable (_ ∧ _))

instance (isNone : V → Bool) (kwargs : Kwargs V) (dependant : Dependant C K V) :
    Decidable (QueriesGiven isNone kwargs dependant) :=
  inferInstanceAs (Decidable (∀ param ∈ requiredAt .query dependant.params, _))

instance decidableChildrenFound (kind : SolverKind) : ∀ before nodes : List (FlatNode C K V),
    Decidable (ChildrenFound childAutoName kind before nodes)
  | _, [] => inferInstanceAs (Decidable True)
  | before, node :: nodes =>
    have := decidableChildrenFound kind (before ++ [node]) nodes
    inferInstanceAs (Decidable (_ ∧ _))

instance (kind : SolverKind) (tree : Dependencies C K V) (nodes : List (FlatNode C K V)) :
    Decidable (RootsFound kind tree nodes) :=
  inferInstanceAs (Decidable (∀ root ∈ tree.roots, ∀ name ∈ root.name, _))

end Lookup

/-- A solver's result is that of the recursion: no errors, the same calls and the
same values for the endpoint. -/
def Agrees [DecidableEq C] [DecidableEq K] (apply : C → Kwargs V → V) (kwargs : Kwargs V)
    (tree : Dependencies C K V) (resolving : Resolving C K V) : Prop :=
  ∃ solved, solveDependencies apply kwargs tree = .ok solved ∧ resolving.errors = solved.errors ∧
    (∀ made, made ∈ resolving.calls ↔ made ∈ solved.calls) ∧
    injected tree resolving = solved.values

/-! ## Runs of a solver -/

section Runs

variable [DecidableEq C] [DecidableEq K] (childAutoName : C → Name) (isNone : V → Bool)
  (apply : C → Kwargs V → V) (kwargs : Kwargs V) (kind : SolverKind)

omit [DecidableEq C] [DecidableEq K] in
theorem storeResult_apply (resolved : Kwargs V) (node : FlatNode C K V) (value : V) (name : Name) :
    storeResult resolved (node.toFast childAutoName) value name =
      if name ∈ node.names then some value else resolved name := by
  rw [storeResult, Kwargs.setAll_apply, Kwargs.set_apply]
  simp only [FlatNode.toFast, FlatNode.names, mem_cons]
  by_cases halias : name ∈ node.aliases
  · simp [halias]
  · by_cases hname : name = node.name
    · simp [hname]
    · simp [halias, hname]

omit [DecidableEq C] [DecidableEq K] in
theorem storeFirst_apply (resolved : Kwargs V) (node : FlatNode C K V) (value : V) (name : Name) :
    storeFirst resolved (node.toFast childAutoName) value name =
      (resolved name).or (if name ∈ node.names then some value else none) := by
  have entries (names : List Name) : names.foldl
      (fun resolved name => if (resolved name).isSome then resolved else resolved.set name value)
      resolved name = (resolved name).or (if name ∈ names then some value else none) := by
    induction names generalizing resolved with
    | nil => simp
    | cons first names ih =>
      rw [foldl_cons, ih]
      by_cases hname : name = first
      · subst hname
        cases hresolved : resolved name <;> simp [hresolved, Kwargs.set_apply]
      · split <;> simp [hname, Kwargs.set_apply]
  exact entries node.names

omit [DecidableEq C] [DecidableEq K] in
theorem lastStored_append (name : Name) (nodes : List (FlatNode C K V)) (node : FlatNode C K V) :
    lastStored name (nodes ++ [node]) =
      if name ∈ node.names then some node else lastStored name nodes := by
  simp [lastStored, foldl_append]

omit [DecidableEq C] [DecidableEq K] in
theorem firstStored_append (name : Name) (nodes : List (FlatNode C K V)) (node : FlatNode C K V) :
    firstStored name (nodes ++ [node]) =
      (firstStored name nodes).or (if name ∈ node.names then some node else none) := by
  simp [firstStored, find?_append, find?_cons]
  split <;> simp_all

theorem lastOfKey_append (key : C × K) (nodes : List (FlatNode C K V)) (node : FlatNode C K V) :
    lastOfKey key (nodes ++ [node]) =
      if node.source.cacheKey = key then some node else lastOfKey key nodes := by
  simp [lastOfKey]

/-- The dictionaries hold a value for each node that a name or a key leads to. -/
structure Tracks (value : FlatNode C K V → V) (nodes : List (FlatNode C K V))
    (resolving : Resolving C K V) : Prop where
  resolved : ∀ name, resolving.resolved name = (storedNode kind name nodes).map value
  resolvedByKey : ∀ key, resolving.resolvedByKey key = (lastOfKey key nodes).map value

theorem Tracks.nil (value : FlatNode C K V → V) : Tracks kind value [] {} := by
  constructor
  · intro name
    cases kind <;> rfl
  · intro key
    rfl

variable {kind} {value : FlatNode C K V → V} {nodes : List (FlatNode C K V)}
  {resolving : Resolving C K V}

theorem Tracks.callNode {node : FlatNode C K V} (h : Tracks kind value nodes resolving)
    (hvalue : apply node.source.call
      (nodeArguments childAutoName kwargs kind resolving node) = value node) :
    Tracks kind value (nodes ++ [node]) (callNode childAutoName apply kwargs kind resolving node) := by
  constructor
  · intro name
    simp only [Deps.callNode, hvalue]
    have before := h.resolved name
    cases kind with
    | sync =>
      simp only [storeOf, storeFirst_apply, storedNode, firstStored_append, before]
      cases firstStored name nodes <;> split <;> rfl
    | _ =>
      simp only [storeOf, storeResult_apply, storedNode, lastStored_append, before]
      split <;> rfl
  · intro key
    simp only [Deps.callNode, hvalue, lastOfKey_append, Function.update_apply, h.resolvedByKey]
    by_cases hkey : node.source.cacheKey = key
    · simp [hkey]
    · simp [hkey, Ne.symm hkey]

theorem Tracks.foundChild (h : Tracks kind value nodes resolving) (child : Dependant C K V) :
    foundChild childAutoName kind resolving child =
      (childNode childAutoName kind child nodes).map value := by
  simp only [Deps.foundChild, childNode, h.resolved, h.resolvedByKey]
  cases kind with
  | sync =>
    cases lastOfKey child.cacheKey nodes <;> rfl
  | _ => rfl

/-! ### Calling all nodes -/

variable (kind)

theorem callNodes_append (nodes : List (FlatNode C K V)) (node : FlatNode C K V)
    (resolving : Resolving C K V) :
    callNodes childAutoName apply kwargs kind (nodes ++ [node]) resolving =
      callNode childAutoName apply kwargs kind
        (callNodes childAutoName apply kwargs kind nodes resolving) node := by
  simp [callNodes]

theorem callNodes_errors (nodes : List (FlatNode C K V)) :
    (callNodes childAutoName apply kwargs kind nodes {}).errors = [] := by
  induction nodes using List.reverseRecOn with
  | nil => rfl
  | append_singleton nodes node ih => rw [callNodes_append, callNode, ih]

/-- The calls made are those of the nodes, each at its place. -/
theorem mem_callNodes_calls {nodes : List (FlatNode C K V)} {made : C × Kwargs V} :
    made ∈ (callNodes childAutoName apply kwargs kind nodes {}).calls ↔
      ∃ before node after, nodes = before ++ node :: after ∧
        made = (node.source.call, nodeArguments childAutoName kwargs kind
          (callNodes childAutoName apply kwargs kind before {}) node) := by
  induction nodes using List.reverseRecOn with
  | nil => simp [callNodes]
  | append_singleton nodes last ih =>
    rw [callNodes_append, callNode]
    simp only [mem_append, mem_singleton, ih]
    constructor
    · rintro (⟨before, node, after, rfl, rfl⟩ | rfl)
      · exact ⟨before, node, after ++ [last], by simp, rfl⟩
      · exact ⟨nodes, last, [], rfl, rfl⟩
    · rintro ⟨before, node, after, hsplit, rfl⟩
      rcases eq_nil_or_concat' after with rfl | ⟨after, other, rfl⟩
      · obtain ⟨rfl, hlast⟩ := append_inj' hsplit rfl
        cases hlast
        exact .inr rfl
      · rw [← cons_append, ← append_assoc] at hsplit
        obtain ⟨rfl, -⟩ := append_inj' hsplit rfl
        exact .inl ⟨before, node, after, rfl, rfl⟩

theorem tracks_callNodes (value : FlatNode C K V → V) (nodes : List (FlatNode C K V))
    (h : ∀ before node after, nodes = before ++ node :: after →
      Tracks kind value before (callNodes childAutoName apply kwargs kind before {}) →
      apply node.source.call (nodeArguments childAutoName kwargs kind
        (callNodes childAutoName apply kwargs kind before {}) node) = value node) :
    Tracks kind value nodes (callNodes childAutoName apply kwargs kind nodes {}) := by
  induction nodes using List.reverseRecOn with
  | nil => exact Tracks.nil _ _
  | append_singleton nodes node ih =>
    have before := ih fun before other after hsplit =>
      h _ _ (after ++ [node]) (by simp [hsplit])
    rw [callNodes_append]
    exact before.callNode _ _ _ (h _ _ [] rfl before)

/-! ### Checking required parameters -/

/-- The nodes that are checked have all their parameters. -/
def Passes (suspends : C → Bool) (nodes : List (FlatNode C K V)) : Prop :=
  ∀ before node after, nodes = before ++ node :: after →
    (kind = .fastInline → ∀ earlier ∈ before, suspends earlier.source.call = false) →
    missingOf childAutoName isNone kwargs kind (nodeArguments childAutoName kwargs kind
      (callNodes childAutoName apply kwargs kind before {}) node) node = []

theorem resolveNodes_append (nodes : List (FlatNode C K V)) (node : FlatNode C K V)
    (resolving : Resolving C K V) :
    resolveNodes childAutoName isNone apply kwargs kind (nodes ++ [node]) resolving =
      resolveNode childAutoName isNone apply kwargs kind
        (resolveNodes childAutoName isNone apply kwargs kind nodes resolving) node := by
  simp [resolveNodes]

theorem resolveNodes_of_passes (nodes : List (FlatNode C K V))
    (h : ∀ before node after, nodes = before ++ node :: after →
      missingOf childAutoName isNone kwargs kind (nodeArguments childAutoName kwargs kind
        (callNodes childAutoName apply kwargs kind before {}) node) node = []) :
    resolveNodes childAutoName isNone apply kwargs kind nodes {} =
      callNodes childAutoName apply kwargs kind nodes {} := by
  induction nodes using List.reverseRecOn with
  | nil => rfl
  | append_singleton nodes node ih =>
    rw [resolveNodes_append, callNodes_append, ih fun before other after hsplit =>
      h _ _ (after ++ [node]) (by simp [hsplit])]
    simp [resolveNode, h _ _ [] _]

theorem passes_of_errors (nodes : List (FlatNode C K V))
    (h : (resolveNodes childAutoName isNone apply kwargs kind nodes {}).errors = []) :
    ∀ before node after, nodes = before ++ node :: after →
      missingOf childAutoName isNone kwargs kind (nodeArguments childAutoName kwargs kind
        (callNodes childAutoName apply kwargs kind before {}) node) node = [] := by
  induction nodes using List.reverseRecOn with
  | nil => simp
  | append_singleton nodes last ih =>
    rw [resolveNodes_append, resolveNode] at h
    split at h
    · rename_i hmissing
      simp only [append_eq_nil_iff] at h
      exact absurd h.2 hmissing
    · rename_i hpasses
      have earlier := ih h
      have same := resolveNodes_of_passes _ _ _ _ _ _ earlier
      rw [same, ne_eq, not_not] at hpasses
      intro before node after hsplit
      rcases eq_nil_or_concat' after with rfl | ⟨after, other, rfl⟩
      · obtain ⟨rfl, hlast⟩ := append_inj' hsplit rfl
        cases hlast
        exact hpasses
      · rw [← cons_append, ← append_assoc] at hsplit
        obtain ⟨rfl, -⟩ := append_inj' hsplit rfl
        exact earlier _ _ _ rfl

theorem callNodes_frame (nodes : List (FlatNode C K V)) (errors : List MissingError)
    (calls : List (C × Kwargs V)) :
    callNodes childAutoName apply kwargs kind nodes { errors := errors, calls := calls } =
      { callNodes childAutoName apply kwargs kind nodes {} with
        errors := errors
        calls := calls ++ (callNodes childAutoName apply kwargs kind nodes {}).calls } := by
  induction nodes using List.reverseRecOn with
  | nil => simp [callNodes]
  | append_singleton nodes node ih =>
    have same (resolving : Resolving C K V) (errors : List _) (calls : List _) :
        nodeArguments childAutoName kwargs kind
          { resolving with errors := errors, calls := calls } node =
            nodeArguments childAutoName kwargs kind resolving node := by
      cases kind <;> rfl
    rw [callNodes_append, callNodes_append, ih]
    simp [callNode, same]

variable (suspends : C → Bool)

theorem resolveInline_errors (nodes rest : List (FlatNode C K V)) (resolving : Resolving C K V)
    (h : (resolveInline childAutoName isNone apply kwargs suspends nodes rest resolving).errors =
      []) :
    resolving.errors = [] ∧ ∀ node ∈ throughFirst suspends rest,
      checkNodeRequired isNone kwargs (node.toFast childAutoName) = [] := by
  induction rest generalizing resolving with
  | nil => exact ⟨h, by simp [throughFirst]⟩
  | cons node rest ih =>
    rw [resolveInline] at h
    split at h
    · rename_i hmissing
      have := (ih _ h).1
      simp only [append_eq_nil_iff] at this
      exact absurd this.2 hmissing
    · rename_i hpasses
      simp only [missingOf, ne_eq, not_not] at hpasses
      rw [throughFirst]
      split at h
      · rename_i hsuspends
        rw [callNodes_frame] at h
        simp only [hsuspends, if_true, mem_singleton, forall_eq]
        exact ⟨h, hpasses⟩
      · rename_i hends
        obtain ⟨herrors, hrest⟩ := ih _ h
        simp only [hends, Bool.false_eq_true, if_false, mem_cons, forall_eq_or_imp]
        exact ⟨herrors, hpasses, hrest⟩

theorem resolveInline_of_passes (nodes before rest : List (FlatNode C K V))
    (hsplit : nodes = before ++ rest)
    (h : ∀ node ∈ throughFirst suspends rest,
      checkNodeRequired isNone kwargs (node.toFast childAutoName) = []) :
    let called := callNodes childAutoName apply kwargs .fastInline nodes {}
    let resolving := resolveInline childAutoName isNone apply kwargs suspends nodes rest
      (callNodes childAutoName apply kwargs .fastInline before {})
    resolving.errors = [] ∧ resolving.resolved = called.resolved ∧
      ∀ made, made ∈ resolving.calls ↔ made ∈ called.calls := by
  induction rest generalizing before with
  | nil =>
    rw [append_nil] at hsplit
    subst hsplit
    exact ⟨callNodes_errors _ _ _ .fastInline _, rfl, fun _ => Iff.rfl⟩
  | cons node rest ih =>
    rw [throughFirst] at h
    have hpasses : checkNodeRequired isNone kwargs (node.toFast childAutoName) = [] := by
      split at h <;> exact h _ mem_cons_self
    rw [resolveInline]
    simp only [missingOf, hpasses, ne_eq, not_true_eq_false, if_false]
    split
    · have earlier : ∀ made, made ∈ (callNodes childAutoName apply kwargs .fastInline before
          {}).calls ++ [(node.source.call, nodeArguments childAutoName kwargs .fastInline
            (callNodes childAutoName apply kwargs .fastInline before {}) node)] →
          made ∈ (callNodes childAutoName apply kwargs .fastInline nodes {}).calls := by
        intro made hmade
        rw [mem_callNodes_calls]
        rcases mem_append.mp hmade with hmade | hmade
        · obtain ⟨first, other, after, rfl, rfl⟩ :=
            (mem_callNodes_calls _ _ _ .fastInline).mp hmade
          exact ⟨first, other, after ++ node :: rest, by simp [hsplit], rfl⟩
        · exact ⟨before, node, rest, hsplit, mem_singleton.mp hmade⟩
      rw [callNodes_frame]
      refine ⟨callNodes_errors _ _ _ .fastInline _, rfl, ?_⟩
      intro made
      simp only [mem_append]
      constructor
      · rintro (hmade | hmade)
        · exact earlier _ (mem_append.mpr hmade)
        · exact hmade
      · exact .inr
    · rename_i hends
      rw [← callNodes_append]
      apply ih _ (by simp [hsplit])
      intro other hother
      simp only [hends, Bool.false_eq_true, if_false] at h
      exact h _ (mem_cons_of_mem _ hother)

omit [DecidableEq C] [DecidableEq K] in
theorem mem_throughFirst {nodes : List (FlatNode C K V)} {node : FlatNode C K V} :
    node ∈ throughFirst suspends nodes ↔ ∃ before after, nodes = before ++ node :: after ∧
      ∀ earlier ∈ before, suspends earlier.source.call = false := by
  induction nodes with
  | nil => simp [throughFirst]
  | cons first nodes ih =>
    rw [throughFirst]
    constructor
    · intro hmem
      split at hmem
      · rw [mem_singleton.mp hmem]
        exact ⟨[], nodes, rfl, by simp⟩
      · rename_i hends
        rcases mem_cons.mp hmem with rfl | hmem
        · exact ⟨[], nodes, rfl, by simp⟩
        · obtain ⟨before, after, rfl, hbefore⟩ := ih.mp hmem
          refine ⟨first :: before, after, rfl, ?_⟩
          intro earlier hearlier
          rcases mem_cons.mp hearlier with rfl | hearlier
          · simpa using hends
          · exact hbefore earlier hearlier
    · rintro ⟨before, after, hsplit, hbefore⟩
      cases before with
      | nil =>
        cases hsplit
        split <;> simp
      | cons head before =>
        obtain ⟨rfl, rfl⟩ := List.cons.inj hsplit
        have hends := hbefore first mem_cons_self
        simp only [hends, Bool.false_eq_true, if_false]
        apply mem_cons_of_mem
        exact ih.mpr ⟨before, after, rfl, fun earlier hearlier =>
          hbefore earlier (mem_cons_of_mem _ hearlier)⟩

/-- A solver without errors has passed its checks and has called all nodes. -/
theorem resolve_spec (nodes : List (FlatNode C K V)) :
    let called := callNodes childAutoName apply kwargs kind nodes {}
    let resolving := resolve childAutoName isNone apply kwargs suspends kind nodes
    (resolving.errors = [] ↔ Passes childAutoName isNone apply kwargs kind suspends nodes) ∧
      (resolving.errors = [] → resolving.resolved = called.resolved ∧
        ∀ made, made ∈ resolving.calls ↔ made ∈ called.calls) := by
  have loop (kind : SolverKind) (hkind : kind ≠ .fastInline) :
      let called := callNodes childAutoName apply kwargs kind nodes {}
      let resolving := resolveNodes childAutoName isNone apply kwargs kind nodes {}
      (resolving.errors = [] ↔ Passes childAutoName isNone apply kwargs kind suspends nodes) ∧
        (resolving.errors = [] → resolving.resolved = called.resolved ∧
          ∀ made, made ∈ resolving.calls ↔ made ∈ called.calls) := by
    have passes := passes_of_errors childAutoName isNone apply kwargs kind nodes
    have same := resolveNodes_of_passes childAutoName isNone apply kwargs kind nodes
    constructor
    · constructor
      · intro herrors before node after hsplit _
        exact passes herrors _ _ _ hsplit
      · intro h
        rw [same fun before node after hsplit => h _ _ _ hsplit fun heq =>
          absurd heq hkind]
        exact callNodes_errors _ _ _ _ _
    · intro herrors
      rw [same (passes herrors)]
      exact ⟨rfl, fun _ => Iff.rfl⟩
  cases kind with
  | fastSync => exact loop .fastSync (by simp)
  | sync => exact loop .sync (by simp)
  | async => exact loop .async (by simp)
  | fastInline =>
    have static : Passes childAutoName isNone apply kwargs .fastInline suspends nodes ↔
        ∀ node ∈ throughFirst suspends nodes,
          checkNodeRequired isNone kwargs (node.toFast childAutoName) = [] := by
      simp only [Passes, missingOf, true_implies, mem_throughFirst]
      constructor
      · rintro h node ⟨before, after, hsplit, hbefore⟩
        exact h _ _ _ hsplit hbefore
      · intro h before node after hsplit hbefore
        exact h _ ⟨before, after, hsplit, hbefore⟩
    have errors := resolveInline_errors childAutoName isNone apply kwargs suspends nodes nodes {}
    have passed := resolveInline_of_passes childAutoName isNone apply kwargs suspends _ [] nodes rfl
    rw [static]
    constructor
    · constructor
      · intro herrors
        exact (errors herrors).2
      · intro h
        exact (passed h).1
    · intro herrors
      exact (passed (errors herrors).2).2

end Runs

end AstraApi.Deps
