import AstraApi.Deps.Agreement

/-!
# When the flattened solvers agree with the recursion

The condition `Unambiguous` is exact: if no name misleads a solver it agrees with
the recursion for all callables, and if some name does, there are callables whose
results show it.
-/

namespace AstraApi.Deps

open List
open Dependant

variable {C K V : Type*}

variable {kind : SolverKind} {resolving : Resolving C K V}

/-! ## The check for required parameters -/

section Required

variable (childAutoName : C → Name) (isNone : V → Bool) (kwargs : Kwargs V)
  {tree : Dependencies C K V} {node : FlatNode C K V}

theorem missingAt_eq_nil (location : Location) {absent : Name → Bool} {names : List Name} :
    missingAt location absent names = [] ↔ ∀ name ∈ names, absent name = false := by
  simp [missingAt]

theorem firstErrors_eq_nil (query body header cookie : List MissingError) :
    (if query ≠ [] then query else if body ≠ [] then body else if header ≠ [] then header
      else cookie) = [] ↔ query = [] ∧ body = [] ∧ header = [] ∧ cookie = [] := by
  by_cases hquery : query = []
  · by_cases hbody : body = []
    · by_cases hheader : header = []
      · simp [hquery, hbody, hheader]
      · simp [hquery, hbody, hheader]
    · simp [hquery, hbody]
  · simp [hquery]

theorem mem_requiredAt {location : Location} {params : List (Param V)} {param : Param V} :
    param ∈ requiredAt location params ↔
      param ∈ params ∧ param.location = location ∧ param.required = true := by
  simp [requiredAt]

def FoundAmong (has : Name → Bool) (dependant : Dependant C K V) : Prop :=
  (∀ param ∈ requiredAt .header dependant.params,
    has param.aliasName = true ∨ has (underscored param.aliasName) = true) ∧
  ∀ param ∈ requiredAt .cookie dependant.params, has param.aliasName = true

def BodiesGiven (dependant : Dependant C K V) : Prop :=
  ∀ param ∈ requiredAt .body dependant.params, (kwargs param.name).isSome

variable {kwargs} in
theorem bodiesGiven_of_holds (hholds : tree.HoldsRequired kwargs)
    (hmem : node.source ∈ tree.positions) : BodiesGiven kwargs node.source := by
  intro param hparam
  obtain ⟨hin, -, hrequired⟩ := mem_requiredAt.mp hparam
  exact hholds _ hmem _ hin hrequired

variable {kwargs} in
theorem value_of_requiredAt {location : Location} (hpath : location ≠ .path)
    {params : List (Param V)} {param : Param V} (hparam : param ∈ requiredAt location params) :
    param.value kwargs = kwargs param.name := by
  obtain ⟨-, rfl, hrequired⟩ := mem_requiredAt.mp hparam
  have hdefault : param.default = none := by simpa [Param.required, hpath] using hrequired
  rw [Param.value, if_neg hpath, hdefault, Option.or_none]

theorem checkNodeRequired_eq_nil :
    checkNodeRequired isNone kwargs (node.toFast childAutoName) = [] ↔
      QueriesGiven isNone kwargs node.source ∧ BodiesGiven kwargs node.source ∧
        FoundAmong (fun name => (kwargs name).isSome) node.source := by
  have spelled : checkNodeRequired isNone kwargs (node.toFast childAutoName) = [] ↔
      (QueriesGiven isNone kwargs node.source ∧
        FoundAmong (fun name => (kwargs name).isSome) node.source) ∧
          BodiesGiven kwargs node.source := by
    simp only [checkNodeRequired, append_eq_nil_iff, FlatNode.toFast, missingAt_eq_nil,
      forall_mem_map, Bool.and_eq_false_iff, Option.isNone_eq_false_iff]
    exact and_congr_left fun _ => and_assoc
  rw [spelled, and_assoc, and_comm (a := FoundAmong _ _)]

theorem missingArguments_eq_nil {args : Kwargs V}
    (hargs : ∀ param ∈ node.source.params, args param.name = param.value kwargs) :
    missingArguments isNone args (node.toFast childAutoName) = [] ↔
      QueriesGiven isNone kwargs node.source ∧ BodiesGiven kwargs node.source ∧
        FoundAmong (fun name => (args name).isSome) node.source := by
  have same {location : Location} (hpath : location ≠ .path) :
      ∀ param ∈ requiredAt location node.source.params, args param.name = kwargs param.name :=
    fun param hparam => (hargs _ (mem_requiredAt.mp hparam).1).trans
      (value_of_requiredAt hpath hparam)
  have query : missingAt .query (fun name => (args name).all isNone)
      ((requiredAt .query node.source.params).map Param.name) = [] ↔
        QueriesGiven isNone kwargs node.source := by
    rw [missingAt_eq_nil, forall_mem_map, QueriesGiven]
    exact forall₂_congr fun param hparam => by rw [same (by simp) _ hparam]
  have body : missingAt .body (fun name => (args name).isNone)
      ((requiredAt .body node.source.params).map Param.name) = [] ↔
        BodiesGiven kwargs node.source := by
    rw [missingAt_eq_nil, forall_mem_map, BodiesGiven]
    exact forall₂_congr fun param hparam => by
      rw [same (by simp) _ hparam, Option.isNone_eq_false_iff]
  have header : missingAt .header
      (fun name => (args name).isNone && (args (underscored name)).isNone)
      ((requiredAt .header node.source.params).map Param.aliasName) = [] ↔
        ∀ param ∈ requiredAt .header node.source.params, (args param.aliasName).isSome = true ∨
            (args (underscored param.aliasName)).isSome = true := by
    rw [missingAt_eq_nil, forall_mem_map]
    simp only [Bool.and_eq_false_iff, Option.isNone_eq_false_iff]
  have cookie : missingAt .cookie (fun name => (args name).isNone)
      ((requiredAt .cookie node.source.params).map Param.aliasName) = [] ↔
        ∀ param ∈ requiredAt .cookie node.source.params, (args param.aliasName).isSome = true := by
    rw [missingAt_eq_nil, forall_mem_map]
    simp
  apply (firstErrors_eq_nil _ _ _ _).trans
  simp only [FlatNode.toFast, query, body, header, cookie]
  rfl

theorem FoundAmong.mono {has has' : Name → Bool} {dependant : Dependant C K V}
    (h : FoundAmong has dependant) (himp : ∀ name, has name = true → has' name = true) :
    FoundAmong has' dependant := by
  constructor
  · intro param hparam
    exact (h.1 param hparam).imp (himp _) (himp _)
  · intro param hparam
    exact himp _ (h.2 param hparam)

variable (hmem : node.source ∈ tree.positions)

include hmem

/-- An argument is a parameter's or a sub-dependency's. -/
theorem hasName_of_isSome (hkind : kind = .sync ∨ kind = .async) {name : Name}
    (h : (nodeArguments childAutoName kwargs kind resolving node name).isSome) :
    hasName kind kwargs node.source name = true := by
  have spelled : hasName kind kwargs node.source name = (node.source.params.any
          (fun param => param.name = name && (param.value kwargs).isSome) ||
        node.source.dependencies.any (fun child => child.name = some name)) := by
    rcases hkind with rfl | rfl <;> rfl
  rw [spelled, Bool.or_eq_true, any_eq_true, any_eq_true]
  by_cases hparam : name ∈ node.source.params.map Param.name
  · obtain ⟨param, hin, rfl⟩ := mem_map.mp hparam
    rw [nodeArguments_param childAutoName kwargs hmem kind resolving hin] at h
    exact .inl ⟨param, hin, by simp [h]⟩
  · by_cases hchild : name ∈ node.source.dependencies.filterMap Dependant.name
    · obtain ⟨child, hchild, hname⟩ := mem_filterMap.mp hchild
      exact .inr ⟨child, hchild, by simp [hname]⟩
    · rw [nodeArguments_other childAutoName kwargs hmem kind resolving hparam hchild] at h
      simp at h

theorem isSome_of_hasName (hkind : kind = .sync ∨ kind = .async) {name : Name}
    (hfound : ∀ child ∈ node.source.dependencies,
      (foundChild childAutoName kind resolving child).isSome)
    (h : hasName kind kwargs node.source name = true) :
    (nodeArguments childAutoName kwargs kind resolving node name).isSome := by
  have spelled : hasName kind kwargs node.source name = (node.source.params.any
          (fun param => param.name = name && (param.value kwargs).isSome) ||
        node.source.dependencies.any (fun child => child.name = some name)) := by
    rcases hkind with rfl | rfl <;> rfl
  rw [spelled, Bool.or_eq_true, any_eq_true, any_eq_true] at h
  rcases h with ⟨param, hparam, h⟩ | ⟨child, hchild, h⟩
  · simp only [Bool.and_eq_true, decide_eq_true_eq] at h
    rw [← h.1, nodeArguments_param childAutoName kwargs hmem kind resolving hparam]
    exact h.2
  · rw [nodeArguments_child childAutoName kwargs hmem kind resolving hchild (of_decide_eq_true h)]
    exact hfound child hchild

/-- A node that passes has what its check asks for, the sub-dependencies set aside. -/
theorem given_of_missingOf (h : missingOf childAutoName isNone kwargs kind
      (nodeArguments childAutoName kwargs kind resolving node) node = []) :
    QueriesGiven isNone kwargs node.source ∧ BodiesGiven kwargs node.source ∧
      AliasesFound kind kwargs node.source := by
  have args (kind : SolverKind) : ∀ param ∈ node.source.params,
      nodeArguments childAutoName kwargs kind resolving node param.name = param.value kwargs :=
    fun _ hparam => nodeArguments_param _ _ hmem _ _ hparam
  cases kind with
  | fastSync | fastInline => exact (checkNodeRequired_eq_nil _ _ _).mp h
  | sync =>
    obtain ⟨hqueries, hbodies, found⟩ := (missingArguments_eq_nil _ _ _ (args .sync)).mp h
    refine ⟨hqueries, hbodies, found.mono ?_⟩
    intro name
    exact hasName_of_isSome _ _ hmem (.inl rfl)
  | async =>
    obtain ⟨hqueries, hbodies, found⟩ := (missingArguments_eq_nil _ _ _ (args .async)).mp h
    refine ⟨hqueries, hbodies, found.mono ?_⟩
    intro name
    exact hasName_of_isSome _ _ hmem (.inr rfl)

variable (hqueries : QueriesGiven isNone kwargs node.source)
  (hbodies : BodiesGiven kwargs node.source)

include hqueries hbodies

theorem missingOf_of_given (hfast : (kind = .fastSync ∨ kind = .fastInline) →
      FoundAmong (fun name => (kwargs name).isSome) node.source)
    (hslow : (kind = .sync ∨ kind = .async) → FoundAmong (fun name =>
      (nodeArguments childAutoName kwargs kind resolving node name).isSome) node.source) :
    missingOf childAutoName isNone kwargs kind
      (nodeArguments childAutoName kwargs kind resolving node) node = [] := by
  have args (kind : SolverKind) : ∀ param ∈ node.source.params,
      nodeArguments childAutoName kwargs kind resolving node param.name = param.value kwargs :=
    fun _ hparam => nodeArguments_param _ _ hmem _ _ hparam
  cases kind with
  | fastSync =>
    exact (checkNodeRequired_eq_nil _ _ _).mpr ⟨hqueries, hbodies, hfast (.inl rfl)⟩
  | fastInline =>
    exact (checkNodeRequired_eq_nil _ _ _).mpr ⟨hqueries, hbodies, hfast (.inr rfl)⟩
  | sync =>
    exact (missingArguments_eq_nil _ _ _ (args .sync)).mpr ⟨hqueries, hbodies, hslow (.inl rfl)⟩
  | async =>
    exact (missingArguments_eq_nil _ _ _ (args .async)).mpr ⟨hqueries, hbodies, hslow (.inr rfl)⟩

theorem missingOf_of_found (hfound : ∀ child ∈ node.source.dependencies,
      (foundChild childAutoName kind resolving child).isSome)
    (haliases : AliasesFound kind kwargs node.source) :
    missingOf childAutoName isNone kwargs kind
      (nodeArguments childAutoName kwargs kind resolving node) node = [] := by
  apply missingOf_of_given _ _ _ hmem hqueries hbodies
  · rintro (rfl | rfl)
    · exact haliases
    · exact haliases
  · intro hkind
    refine FoundAmong.mono haliases ?_
    intro name
    exact isSome_of_hasName _ _ hmem hkind hfound

end Required

/-! ## Sub-dependencies by name -/

section Found

variable [DecidableEq C] [DecidableEq K] (childAutoName : C → Name) (apply : C → Kwargs V → V)
  (kwargs : Kwargs V) {kind : SolverKind}

theorem childrenFound_iff (before nodes : List (FlatNode C K V)) :
    ChildrenFound childAutoName kind before nodes ↔
      ∀ earlier node after, nodes = earlier ++ node :: after → ∀ child ∈ node.source.dependencies,
          (childNode childAutoName kind child (before ++ earlier)).map (·.source.call) =
            some child.call := by
  induction nodes generalizing before with
  | nil => simp [ChildrenFound]
  | cons first nodes ih =>
    rw [ChildrenFound, ih]
    constructor
    · rintro ⟨head, tail⟩ earlier node after hsplit
      cases earlier with
      | nil =>
        obtain ⟨rfl, -⟩ := List.cons.inj hsplit
        rwa [append_nil]
      | cons other earlier =>
        obtain ⟨rfl, rfl⟩ := List.cons.inj hsplit
        have := tail _ _ _ rfl
        rwa [append_assoc] at this
    · intro h
      constructor
      · have := h [] _ _ rfl
        rwa [append_nil] at this
      · intro earlier node after hsplit
        have := h (first :: earlier) _ _ (by rw [hsplit]; rfl)
        rwa [append_assoc]

omit [DecidableEq C] [DecidableEq K] in
theorem mem_of_foldl_last {α : Type*} (p : α → Prop) [DecidablePred p] {items : List α} {item : α}
    (h : items.foldl (fun found item => if p item then some item else found) none = some item) :
    item ∈ items := by
  induction items using List.reverseRecOn with
  | nil => simp at h
  | append_singleton items last ih =>
    rw [foldl_append, foldl_cons, foldl_nil] at h
    split at h
    · cases h
      simp
    · exact mem_append_left _ (ih h)

omit [DecidableEq C] [DecidableEq K] in
theorem storedNode_mem {name : Name} {nodes : List (FlatNode C K V)} {node : FlatNode C K V}
    (h : storedNode kind name nodes = some node) : node ∈ nodes := by
  cases kind with
  | sync => exact mem_of_find?_eq_some h
  | _ => exact mem_of_foldl_last _ h

theorem childNode_mem {child : Dependant C K V} {nodes : List (FlatNode C K V)}
    {node : FlatNode C K V} (h : childNode childAutoName kind child nodes = some node) :
    node ∈ nodes := by
  cases kind with
  | sync =>
    simp only [childNode, Option.or_eq_some_iff] at h
    rcases h with h | ⟨-, h⟩
    · exact mem_of_foldl_last _ h
    · exact storedNode_mem h
  | _ =>
    simp only [childNode] at h
    exact storedNode_mem h

variable {tree : Dependencies C K V} {nodes : List (FlatNode C K V)}
  {resolving : Resolving C K V} (hnodes : ∀ node ∈ nodes, node.source ∈ tree.positions)

include hnodes

omit [DecidableEq C] [DecidableEq K] in
/-- A dictionary of plain values, read at a node of the right callable. -/
theorem map_eval_of_call {found : Option (FlatNode C K V)} (hfound : ∀ node ∈ found, node ∈ nodes)
    {dependant : Dependant C K V} (hmem : dependant ∈ tree.positions)
    (h : found.map (·.source.call) = some dependant.call) :
    found.map (fun node => evalDependant apply kwargs node.source) =
      some (evalDependant apply kwargs dependant) := by
  obtain ⟨node, rfl, hcall⟩ := Option.map_eq_some_iff.mp h
  rw [Option.map_some, evalDependant_eq_of_call apply kwargs (hnodes node (hfound node rfl)) hmem
    hcall]

variable (htracks : Tracks kind (fun node => evalDependant apply kwargs node.source) nodes resolving)

include htracks

theorem nodeArguments_eq {node : FlatNode C K V} (hmem : node.source ∈ tree.positions)
    (hfound : ∀ child ∈ node.source.dependencies,
      (childNode childAutoName kind child nodes).map (·.source.call) = some child.call) :
    nodeArguments childAutoName kwargs kind resolving node =
      arguments apply kwargs node.source := by
  funext name
  by_cases hparam : name ∈ node.source.params.map Param.name
  · obtain ⟨param, hin, rfl⟩ := mem_map.mp hparam
    rw [nodeArguments_param _ _ hmem _ _ hin, arguments_param _ _ hmem hin]
  · by_cases hchild : name ∈ node.source.dependencies.filterMap Dependant.name
    · obtain ⟨child, hin, hname⟩ := mem_filterMap.mp hchild
      rw [nodeArguments_child _ _ hmem _ _ hin hname,
        arguments_child _ _ hmem hin hname, htracks.foundChild]
      exact map_eval_of_call _ _ hnodes (fun _ h => childNode_mem _ h)
        (Dependencies.child_mem hmem hin) (hfound _ hin)
    · rw [nodeArguments_other _ _ hmem _ _ hparam hchild, arguments_other _ _ hparam hchild]

end Found

/-! ## Sufficiency -/

section Sufficient

variable [DecidableEq C] [DecidableEq K] (childAutoName : C → Name) (isNone : V → Bool)
  (apply : C → Kwargs V → V) (kwargs : Kwargs V) (autoName : ℕ → C → Name) (suspends : C → Bool)
  (kind : SolverKind) (tree : Dependencies C K V)

/-- The calls and dictionaries of a solver hold the values of the recursion. -/
theorem tracks_eval (h : ChildrenFound childAutoName kind [] (tree.nodes autoName)) :
    ∀ before after, tree.nodes autoName = before ++ after →
      Tracks kind (fun node => evalDependant apply kwargs node.source) before
        (callNodes childAutoName apply kwargs kind before {}) := by
  intro before after hsplit
  apply tracks_callNodes
  intro earlier node later hbefore htracks
  have hall : tree.nodes autoName = earlier ++ node :: (later ++ after) := by
    rw [hsplit, hbefore, append_assoc]
    rfl
  have hsource : ∀ other ∈ tree.nodes autoName, other.source ∈ tree.positions :=
    fun other hother => Dependencies.source_mem _ _ hother
  have hearlier : ∀ other ∈ earlier, other.source ∈ tree.positions := by
    intro other hother
    apply hsource
    rw [hall]
    exact mem_append_left _ hother
  have hfound := (childrenFound_iff _ [] _).mp h earlier node _ hall
  rw [nodeArguments_eq _ _ _ hearlier htracks (hsource _ (by simp [hall])) hfound, evalDependant_eq]

theorem callNodes_calls (h : ChildrenFound childAutoName kind [] (tree.nodes autoName))
    (made : C × Kwargs V) :
    made ∈ (callNodes childAutoName apply kwargs kind (tree.nodes autoName) {}).calls ↔
      MadeBy apply kwargs tree.roots made := by
  have hsource : ∀ node ∈ tree.nodes autoName, node.source ∈ tree.positions :=
    fun node hnode => Dependencies.source_mem _ _ hnode
  have hargs : ∀ before node after, tree.nodes autoName = before ++ node :: after →
      nodeArguments childAutoName kwargs kind
        (callNodes childAutoName apply kwargs kind before {}) node =
          arguments apply kwargs node.source := by
    intro before node after hsplit
    have hbefore : ∀ other ∈ before, other.source ∈ tree.positions := by
      intro other hother
      apply hsource
      rw [hsplit]
      exact mem_append_left _ hother
    have hfound := (childrenFound_iff _ [] _).mp h before node after hsplit
    exact nodeArguments_eq _ _ _ hbefore (tracks_eval _ _ _ _ _ _ h _ _ hsplit)
      (hsource _ (by simp [hsplit])) hfound
  rw [mem_callNodes_calls]
  constructor
  · rintro ⟨before, node, after, hsplit, rfl⟩
    refine ⟨node.source, hsource _ (by simp [hsplit]), ?_⟩
    rw [hargs _ _ _ hsplit]
  · rintro ⟨position, hposition, rfl⟩
    obtain ⟨node, hnode, hcall⟩ := Dependencies.exists_node _ _ hposition
    obtain ⟨before, after, hsplit⟩ := append_of_mem hnode
    refine ⟨before, node, after, hsplit, ?_⟩
    rw [hargs _ _ _ hsplit, hcall, arguments_eq_of_call _ _ hposition (hsource _ hnode) hcall.symm]

/-- The endpoint gets the values of the recursion. -/
theorem injected_eq (hchildren : ChildrenFound childAutoName kind [] (tree.nodes autoName))
    (hroots : RootsFound kind tree (tree.nodes autoName))
    (h : resolving.resolved =
      (callNodes childAutoName apply kwargs kind (tree.nodes autoName) {}).resolved) :
    injected tree resolving = evalDependants apply kwargs tree.roots Kwargs.empty := by
  have htracks := tracks_eval _ apply kwargs _ _ _ hchildren
    _ [] (append_nil _).symm
  funext name
  rw [injected, Kwargs.restrict, h]
  by_cases hname : name ∈ tree.roots.filterMap Dependant.name
  · obtain ⟨root, hroot, hrootName⟩ := mem_filterMap.mp hname
    rw [if_pos hname, htracks.resolved, evalDependants_of_mem _ _ tree.rootNames hroot hrootName]
    exact map_eval_of_call _ _ (fun node hnode => Dependencies.source_mem _ _ hnode)
      (fun _ hfound => storedNode_mem hfound) (Dependencies.root_mem hroot)
      (hroots _ hroot _ hrootName)
  · rw [if_neg hname, evalDependants_of_notMem _ _ hname]
    rfl

theorem passes_of_found {isNone : V → Bool} (hholds : tree.HoldsRequired kwargs)
    (hchildren : ChildrenFound childAutoName kind [] (tree.nodes autoName))
    (hqueries : ∀ node ∈ checkedNodes suspends kind (tree.nodes autoName),
      QueriesGiven isNone kwargs node.source)
    (haliases : ∀ node ∈ checkedNodes suspends kind (tree.nodes autoName),
      AliasesFound kind kwargs node.source) :
    Passes childAutoName isNone apply kwargs kind suspends (tree.nodes autoName) := by
  intro before node after hsplit hends
  have hnode : node ∈ tree.nodes autoName := by
    simp [hsplit]
  have hchecked : node ∈ checkedNodes suspends kind (tree.nodes autoName) := by
    cases kind with
    | fastInline => exact (mem_throughFirst _).mpr ⟨before, after, hsplit, hends rfl⟩
    | _ => exact hnode
  have htracks := tracks_eval _ apply kwargs _ _ _ hchildren _ _ hsplit
  have hmem := Dependencies.source_mem _ _ hnode
  apply missingOf_of_found _ _ _ hmem (hqueries _ hchecked) (bodiesGiven_of_holds hholds hmem) _
    (haliases _ hchecked)
  intro child hchild
  have hfound := (childrenFound_iff _ [] _).mp hchildren before node after hsplit child hchild
  rw [nil_append] at hfound
  obtain ⟨other, hother, -⟩ := Option.map_eq_some_iff.mp hfound
  rw [htracks.foundChild, hother]
  rfl

theorem agrees_of_unambiguous {isNone : V → Bool} (hholds : tree.HoldsRequired kwargs)
    (h : Unambiguous childAutoName isNone autoName suspends kind tree kwargs) :
    Agrees apply kwargs tree
      (resolve childAutoName isNone apply kwargs suspends kind (tree.nodes autoName)) := by
  obtain ⟨solved, hsolved, hvalues, herrors, hcalls⟩ :=
    solveDependencies_spec _ _ hholds h.depth
  obtain ⟨passes, same⟩ := resolve_spec _ _ _ _ _ _ (tree.nodes _)
  have noErrors := passes.mpr (passes_of_found _ apply _ _ _ _
    _ hholds h.children h.queries h.aliases)
  obtain ⟨hresolved, hmade⟩ := same noErrors
  refine ⟨solved, hsolved, noErrors.trans herrors.symm, ?_, ?_⟩
  · intro made
    rw [hmade, hcalls, callNodes_calls _ _ _ _ _ _ h.children]
  · rw [hvalues]
    exact injected_eq _ _ _ _ _ _ h.children h.roots hresolved

end Sufficient

/-! ## Necessity -/

section Necessary

variable [DecidableEq C] [DecidableEq K] (childAutoName : C → Name) (isNone : V → Bool)
  (kwargs : Kwargs V) (autoName : ℕ → C → Name) (suspends : C → Bool)
  (kind : SolverKind) (tree : Dependencies C K V)

/-- One callable returns a value of its own, whatever its arguments. -/
def telltale (marked : C) (own other : V) : C → Kwargs V → V :=
  fun call _ => if call = marked then own else other

variable {marked : C} {own other : V}

theorem tracks_telltale (nodes : List (FlatNode C K V)) :
    Tracks kind (fun node => if node.source.call = marked then own else other) nodes
      (callNodes childAutoName (telltale marked own other) kwargs kind nodes {}) := by
  apply tracks_callNodes
  intro before node after _ _
  rfl

omit [DecidableEq K] in
theorem evalDependant_telltale (dependant : Dependant C K V) (h : dependant.call = marked) :
    evalDependant (telltale marked own other) kwargs dependant = own := by
  rw [evalDependant_eq, telltale, if_pos h]

omit [DecidableEq K] in
/-- The value of the marked callable was found at one of its nodes. -/
theorem call_of_telltale (hne : own ≠ other) {found : Option (FlatNode C K V)}
    (h : found.map (fun node => if node.source.call = marked then own else other) = some own) :
    found.map (·.source.call) = some marked := by
  obtain ⟨node, rfl, hvalue⟩ := Option.map_eq_some_iff.mp h
  rw [Option.map_some, Option.some.injEq]
  by_contra hcall
  rw [if_neg hcall] at hvalue
  exact hne hvalue.symm

variable {kwargs tree}

theorem depth_of_agrees {apply : C → Kwargs V → V}
    (h : Agrees apply kwargs tree resolving) : allLevels tree.roots ≤ maxDependencyDepth := by
  by_contra hdepth
  obtain ⟨exc, hexc⟩ := solveSubs_error apply kwargs 0 tree.roots {} (by omega) (by omega)
  obtain ⟨solved, hsolved, -⟩ := h
  rw [solveDependencies, hexc] at hsolved
  cases hsolved

variable {isNone autoName kind suspends childAutoName}
  (hholds : tree.HoldsRequired kwargs)

include hholds

theorem Agrees.spelled {apply : C → Kwargs V → V}
    (h : Agrees apply kwargs tree
      (resolve childAutoName isNone apply kwargs suspends kind (tree.nodes autoName))) :
    let called := callNodes childAutoName apply kwargs kind (tree.nodes autoName) {}
    Passes childAutoName isNone apply kwargs kind suspends (tree.nodes autoName) ∧
      (∀ made, made ∈ called.calls ↔ MadeBy apply kwargs tree.roots made) ∧
      called.resolved.restrict (tree.roots.filterMap Dependant.name) =
        evalDependants apply kwargs tree.roots Kwargs.empty := by
  obtain ⟨solved', hsolved', hvalues, hnone, hcalls⟩ :=
    solveDependencies_spec _ _ hholds (depth_of_agrees h)
  obtain ⟨solved, hsolved, herrors, hmade, hinjected⟩ := h
  cases hsolved.symm.trans hsolved'
  obtain ⟨passes, same⟩ := resolve_spec _ _ _ _ _ _ (tree.nodes _)
  have noErrors := herrors.trans hnone
  obtain ⟨hresolved, hcalled⟩ := same noErrors
  refine ⟨passes.mp noErrors, ?_, ?_⟩
  · intro made
    rw [← hcalled, hmade, hcalls]
  · rw [← hvalues, ← hinjected, injected, hresolved]

theorem found_of_agrees {apply : C → Kwargs V → V}
    (h : Agrees apply kwargs tree
      (resolve childAutoName isNone apply kwargs suspends kind (tree.nodes autoName))) :
    ∀ node ∈ checkedNodes suspends kind (tree.nodes autoName),
      QueriesGiven isNone kwargs node.source ∧ AliasesFound kind kwargs node.source := by
  have passes := (h.spelled hholds).1
  intro node hchecked
  obtain ⟨before, after, hsplit, hends⟩ : ∃ before after,
      tree.nodes autoName = before ++ node :: after ∧
        (kind = .fastInline → ∀ earlier ∈ before, suspends earlier.source.call = false) := by
    cases kind with
    | fastInline =>
      obtain ⟨before, after, hsplit, hends⟩ := (mem_throughFirst _).mp hchecked
      exact ⟨before, after, hsplit, fun _ => hends⟩
    | _ =>
      obtain ⟨before, after, hsplit⟩ := append_of_mem hchecked
      exact ⟨before, after, hsplit, by simp⟩
  have hnode : node ∈ tree.nodes autoName := by
    simp [hsplit]
  obtain ⟨hqueries, -, haliases⟩ := given_of_missingOf _ _ _
    (Dependencies.source_mem _ _ hnode) (passes _ _ _ hsplit hends)
  exact ⟨hqueries, haliases⟩

theorem children_of_agrees (hne : own ≠ other)
    (h : ∀ apply, Agrees apply kwargs tree
      (resolve childAutoName isNone apply kwargs suspends kind (tree.nodes autoName))) :
    ChildrenFound childAutoName kind [] (tree.nodes autoName) := by
  rw [childrenFound_iff]
  intro before node after hsplit child hchild
  have hmem : node.source ∈ tree.positions := by
    apply Dependencies.source_mem autoName _
    simp [hsplit]
  obtain ⟨name, hname⟩ := Option.isSome_iff_exists.mp (tree.named _ hmem _ hchild)
  -- Let the sub-dependency's callable return a value that no other one returns.
  have hcalls := ((h (telltale child.call own other)).spelled hholds).2.1
  have hmade := (hcalls _).mp ((mem_callNodes_calls _ _ _ _).mpr ⟨before, node, after, hsplit, rfl⟩)
  obtain ⟨position, hposition, heq⟩ := hmade
  obtain ⟨hcall, hargs⟩ := Prod.mk.inj heq
  rw [arguments_eq_of_call _ _ hposition hmem hcall.symm]
    at hargs
  have hvalue := congrFun hargs name
  rw [nodeArguments_child _ _ hmem _ _ hchild hname, arguments_child _ _ hmem hchild hname,
    (tracks_telltale _ _ _ _).foundChild,
    evalDependant_telltale _ _ rfl] at hvalue
  exact call_of_telltale hne hvalue

theorem roots_of_agrees (hne : own ≠ other)
    (h : ∀ apply, Agrees apply kwargs tree
      (resolve childAutoName isNone apply kwargs suspends kind (tree.nodes autoName))) :
    RootsFound kind tree (tree.nodes autoName) := by
  intro root hroot name hname
  have hrestrict := ((h (telltale root.call own other)).spelled hholds).2.2
  have hin : name ∈ tree.roots.filterMap Dependant.name :=
    mem_filterMap.mpr ⟨root, hroot, hname⟩
  have hvalue := congrFun hrestrict name
  rw [Kwargs.restrict, if_pos hin, evalDependants_of_mem _ _ tree.rootNames hroot hname,
    (tracks_telltale _ _ _ _).resolved,
    evalDependant_telltale _ _ rfl] at hvalue
  exact call_of_telltale hne hvalue

end Necessary

/-- A flattened solver agrees with the recursion for all callables exactly when no
name misleads it. -/
theorem resolve_agrees_iff [DecidableEq C] [DecidableEq K] [Nontrivial V]
    (childAutoName : C → Name) (isNone : V → Bool) (kwargs : Kwargs V) (autoName : ℕ → C → Name)
    (suspends : C → Bool) (kind : SolverKind) (tree : Dependencies C K V)
    (hholds : tree.HoldsRequired kwargs) :
    (∀ apply, Agrees apply kwargs tree
      (resolve childAutoName isNone apply kwargs suspends kind (tree.nodes autoName))) ↔
        Unambiguous childAutoName isNone autoName suspends kind tree kwargs := by
  constructor
  · intro h
    obtain ⟨own, other, hne⟩ := exists_pair_ne V
    have one := h fun _ _ => own
    have found := found_of_agrees hholds one
    exact ⟨depth_of_agrees one, fun node hnode => (found _ hnode).1,
      fun node hnode => (found _ hnode).2, children_of_agrees hholds hne h,
      roots_of_agrees hholds hne h⟩
  · intro h apply
    exact agrees_of_unambiguous _ _ _ _ _ _ _ hholds h

/-! ## Two endpoints -/

section Endpoints

/-- A dependency without parameters, named by its function. -/
def plainDependant (name call : String) (dependencies : List (Dependant String Unit String)) :
    Dependant String Unit String :=
  .mk (some name) call () true false [] dependencies

/-- An endpoint with parameters `user` and `audit`; the latter has a parameter
`user` of its own. -/
def auditedRoots (auditor : String) : List (Dependant String Unit String) :=
  [plainDependant "user" "get_user" [],
    plainDependant "audit" "get_audit" [plainDependant "user" auditor []]]

/-- Both parameters `user` are the same dependency. -/
def sharedUser : Dependencies String Unit String where
  roots := auditedRoots "get_user"
  rootNames := by decide
  named := by decide
  distinct := by
    simp [auditedRoots, plainDependant, allPositions, Dependant.positions, Dependant.params,
      Dependant.dependencies, Dependant.name]
  coherent := by
    simp [auditedRoots, plainDependant, allPositions, Dependant.positions, Dependant.params,
      Dependant.dependencies, Dependant.call]

/-- The audit is done on behalf of an administrator. -/
def adminAudit : Dependencies String Unit String where
  roots := auditedRoots "get_admin"
  rootNames := by decide
  named := by decide
  distinct := by
    simp [auditedRoots, plainDependant, allPositions, Dependant.positions, Dependant.params,
      Dependant.dependencies, Dependant.name]
  coherent := by
    simp [auditedRoots, plainDependant, allPositions, Dependant.positions, Dependant.params,
      Dependant.dependencies, Dependant.call]

theorem sharedUser_agrees :
    sharedUser.HoldsRequired Kwargs.empty ∧ ∀ apply, Agrees apply Kwargs.empty sharedUser
        (resolve id (· = "None") apply Kwargs.empty (fun _ => false) .fastSync
          (sharedUser.nodes fun _ call => call)) := by
  have hnodes : (sharedUser.nodes fun _ call => call) =
      [{ source := plainDependant "user" "get_user" [], name := "user", aliases := ["user"] },
        { source := plainDependant "audit" "get_audit" [plainDependant "user" "get_user" []],
          name := "audit" }] := by
    rfl
  have hholds : sharedUser.HoldsRequired Kwargs.empty := by
    intro dependant hmem param hparam
    simp only [sharedUser, Dependencies.positions, auditedRoots, plainDependant, allPositions,
      Dependant.positions, append_nil, cons_append, nil_append, mem_cons,
      not_mem_nil, or_false] at hmem
    rcases hmem with rfl | rfl | rfl <;> simp [Dependant.params] at hparam
  refine ⟨hholds, ?_⟩
  apply (resolve_agrees_iff _ _ _ _ _ .fastSync
    _ hholds).mpr
  constructor
  · decide
  · decide
  · decide
  · decide
  · decide

/-- The endpoint is handed the administrator as its user. -/
theorem adminAudit_not_agrees :
    let nodes := adminAudit.nodes fun _ call => call
    solverKind nodes = .fastSync ∧ adminAudit.HoldsRequired Kwargs.empty ∧
      ¬ Agrees (fun call _ => call) Kwargs.empty adminAudit
        (resolve id (· = "None") (fun call _ => call) Kwargs.empty (fun _ => false) .fastSync
          nodes) := by
  refine ⟨by decide, ?_, ?_⟩
  · intro dependant hmem param hparam
    simp only [adminAudit, Dependencies.positions, auditedRoots, plainDependant, allPositions,
      Dependant.positions, append_nil, cons_append, nil_append, mem_cons,
      not_mem_nil, or_false] at hmem
    rcases hmem with rfl | rfl | rfl <;> simp [Dependant.params] at hparam
  · rintro ⟨solved, hsolved, -, -, hinjected⟩
    have expected : solved.values "user" = some "get_user" := by
      cases hsolved
      decide
    rw [← hinjected] at expected
    revert expected
    decide

end Endpoints

end AstraApi.Deps
