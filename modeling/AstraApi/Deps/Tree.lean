import AstraApi.Deps.Node

/-!
# Dependency trees

A `Dependant` is read off the signature of a callable: its parameters and its
sub-dependencies, each under the name of the parameter that declares it.  At
registration `_flatten_deps` turns the tree of an endpoint into a list of nodes,
children before parents, in which a cached callable occurs once and every
further use adds an alias.
-/

namespace AstraApi.Deps

open List

structure Param (V : Type*) where
  name : Name
  location : Location
  /-- The name in the request. -/
  aliasName : Name
  default : Option V := none

def Param.required {V : Type*} (param : Param V) : Bool :=
  param.location = .path || param.default.isNone

/-- A callable with the parameters and sub-dependencies of its signature.  The
tag stands for the scopes in its cache key, which depend on the path from the
endpoint; `name` is the parameter that declares the dependency. -/
inductive Dependant (C K V : Type*) where
  | mk (name : Option Name) (call : C) (tag : K) (useCache isCoroutine : Bool)
      (params : List (Param V)) (dependencies : List (Dependant C K V))

namespace Dependant

variable {C K V : Type*}

def name : Dependant C K V → Option Name
  | mk name .. => name

def call : Dependant C K V → C
  | mk _ call .. => call

def cacheKey : Dependant C K V → C × K
  | mk _ call tag .. => (call, tag)

def useCache : Dependant C K V → Bool
  | mk _ _ _ useCache .. => useCache

def isCoroutine : Dependant C K V → Bool
  | mk _ _ _ _ isCoroutine .. => isCoroutine

def params : Dependant C K V → List (Param V)
  | mk _ _ _ _ _ params _ => params

def dependencies : Dependant C K V → List (Dependant C K V)
  | mk _ _ _ _ _ _ dependencies => dependencies

@[simp]
theorem cacheKey_fst (dependant : Dependant C K V) : dependant.cacheKey.1 = dependant.call := by
  cases dependant
  rfl

/-- What a signature says about a sub-dependency. -/
def signature (dependant : Dependant C K V) : Option Name × C × Bool :=
  (dependant.name, dependant.call, dependant.useCache)

mutual

/-- The dependant and everything below it. -/
def positions : Dependant C K V → List (Dependant C K V)
  | .mk name call tag useCache isCoroutine params dependencies =>
    .mk name call tag useCache isCoroutine params dependencies :: allPositions dependencies

def allPositions : List (Dependant C K V) → List (Dependant C K V)
  | [] => []
  | dependant :: dependants => positions dependant ++ allPositions dependants

end

mutual

def levels : Dependant C K V → ℕ
  | .mk _ _ _ _ _ _ dependencies => allLevels dependencies + 1

def allLevels : List (Dependant C K V) → ℕ
  | [] => 0
  | dependant :: dependants => max (levels dependant) (allLevels dependants)

end

theorem positions_eq (dependant : Dependant C K V) :
    dependant.positions = dependant :: allPositions dependant.dependencies := by
  cases dependant
  rfl

theorem levels_eq (dependant : Dependant C K V) :
    dependant.levels = allLevels dependant.dependencies + 1 := by
  cases dependant
  rfl

theorem mem_positions_self (dependant : Dependant C K V) : dependant ∈ dependant.positions := by
  rw [positions_eq]
  exact mem_cons_self

theorem mem_allPositions {dependant : Dependant C K V} {dependants : List (Dependant C K V)} :
    dependant ∈ allPositions dependants ↔ ∃ top ∈ dependants, dependant ∈ top.positions := by
  induction dependants with
  | nil => simp [allPositions]
  | cons top dependants ih => simp [allPositions, ih]

theorem levels_le_allLevels {dependant : Dependant C K V} {dependants : List (Dependant C K V)}
    (h : dependant ∈ dependants) : dependant.levels ≤ allLevels dependants := by
  induction dependants with
  | nil => simp at h
  | cons top dependants ih =>
    rcases mem_cons.mp h with rfl | h
    · exact Nat.le_max_left _ _
    · exact (ih h).trans (Nat.le_max_right _ _)

theorem levels_lt {child dependant : Dependant C K V} (h : child ∈ dependant.dependencies) :
    child.levels < dependant.levels := by
  rw [levels_eq dependant]
  exact Nat.lt_succ_of_le (levels_le_allLevels h)

theorem positions_trans {inner middle : Dependant C K V} {dependants : List (Dependant C K V)}
    (hmiddle : middle ∈ allPositions dependants) (hinner : inner ∈ middle.dependencies) :
    inner ∈ allPositions dependants := by
  have below : ∀ n (top : Dependant C K V), top.levels ≤ n → middle ∈ top.positions →
      inner ∈ top.positions := by
    intro n
    induction n with
    | zero =>
      intro top hn
      rw [levels_eq] at hn
      simp at hn
    | succ n ih =>
      intro top hn hmem
      rw [positions_eq] at hmem ⊢
      apply mem_cons_of_mem
      rcases mem_cons.mp hmem with rfl | hmem
      · exact mem_allPositions.mpr ⟨inner, hinner, mem_positions_self _⟩
      · obtain ⟨child, hchild, hmem⟩ := mem_allPositions.mp hmem
        have hlevels : child.levels ≤ n := by
          have := levels_lt hchild
          omega
        exact mem_allPositions.mpr ⟨child, hchild, ih _ hlevels hmem⟩
  obtain ⟨top, htop, hmem⟩ := mem_allPositions.mp hmiddle
  exact mem_allPositions.mpr ⟨top, htop, below _ _ le_rfl hmem⟩

end Dependant

open Dependant

/-- The dependencies of an endpoint.  The parameters of one callable have
different names, only dependencies of the route itself are declared by no
parameter, and a callable has one signature. -/
structure Dependencies (C K V : Type*) where
  roots : List (Dependant C K V)
  rootNames : (roots.filterMap Dependant.name).Nodup
  named : ∀ dependant ∈ allPositions roots, ∀ child ∈ dependant.dependencies,
    child.name.isSome
  distinct : ∀ dependant ∈ allPositions roots,
    (dependant.params.map Param.name ++ dependant.dependencies.filterMap Dependant.name).Nodup
  coherent : ∀ a ∈ allPositions roots, ∀ b ∈ allPositions roots, a.call = b.call →
    a.params = b.params ∧ a.dependencies.map signature = b.dependencies.map signature

namespace Dependencies

variable {C K V : Type*} (tree : Dependencies C K V)

def positions : List (Dependant C K V) := allPositions tree.roots

variable {tree}

theorem child_mem {dependant child : Dependant C K V} (h : dependant ∈ tree.positions)
    (hchild : child ∈ dependant.dependencies) : child ∈ tree.positions :=
  positions_trans h hchild

theorem root_mem {dependant : Dependant C K V} (h : dependant ∈ tree.roots) :
    dependant ∈ tree.positions :=
  mem_allPositions.mpr ⟨dependant, h, mem_positions_self _⟩

theorem forall₂_of_map_eq {α β : Type*} {R : α → α → Prop} {f : α → β} :
    ∀ {l m : List α}, l.map f = m.map f → (∀ a ∈ l, ∀ b ∈ m, f a = f b → R a b) →
      List.Forall₂ R l m
  | [], [], _, _ => .nil
  | [], b :: m, h, _ => by simp at h
  | a :: l, [], h, _ => by simp at h
  | a :: l, b :: m, h, hR => by
    simp only [map_cons, List.cons.injEq] at h
    constructor
    · exact hR a mem_cons_self b mem_cons_self h.1
    · apply forall₂_of_map_eq h.2
      intro a' ha' b' hb'
      exact hR _ (mem_cons_of_mem _ ha') _ (mem_cons_of_mem _ hb')

/-- Two positions of one callable are alike in whatever is determined by the
parameters and, recursively, by the sub-dependencies. -/
theorem alike {R : Dependant C K V → Dependant C K V → Prop}
    (step : ∀ a ∈ tree.positions, ∀ b ∈ tree.positions, a.call = b.call → a.params = b.params →
      List.Forall₂ (fun a b => a.name = b.name ∧ R a b) a.dependencies b.dependencies → R a b) :
    ∀ a ∈ tree.positions, ∀ b ∈ tree.positions, a.call = b.call → R a b := by
  have bounded : ∀ n, ∀ a ∈ tree.positions, a.levels ≤ n → ∀ b ∈ tree.positions,
      a.call = b.call → R a b := by
    intro n
    induction n with
    | zero =>
      intro a _ hn
      rw [levels_eq] at hn
      simp at hn
    | succ n ih =>
      intro a ha hn b hb hcall
      obtain ⟨hparams, hdeps⟩ := tree.coherent a ha b hb hcall
      apply step a ha b hb hcall hparams
      apply forall₂_of_map_eq hdeps
      intro child hchild child' hchild' hsignature
      simp only [signature, Prod.mk.injEq] at hsignature
      refine ⟨hsignature.1, ?_⟩
      have hlevels : child.levels ≤ n := by
        have := levels_lt hchild
        omega
      exact ih _ (child_mem ha hchild) hlevels _ (child_mem hb hchild') hsignature.2.1
  intro a ha b hb hcall
  exact bounded _ a ha le_rfl b hb hcall

theorem levels_eq_of_call {a b : Dependant C K V} (ha : a ∈ tree.positions)
    (hb : b ∈ tree.positions) (h : a.call = b.call) : a.levels = b.levels := by
  apply alike (R := fun a b => a.levels = b.levels) _ a ha b hb h
  intro a _ b _ _ _ hdeps
  rw [levels_eq, levels_eq]
  generalize a.dependencies = left, b.dependencies = right at hdeps
  congr 1
  induction hdeps with
  | nil => rfl
  | cons head _ ih => simp [allLevels, head.2, ih]

theorem calls_eq_of_call {a b : Dependant C K V} (ha : a ∈ tree.positions)
    (hb : b ∈ tree.positions) (h : a.call = b.call) :
    a.positions.map Dependant.call = b.positions.map Dependant.call := by
  apply alike (R := fun a b => a.positions.map _ = b.positions.map _)
    _ a ha b hb h
  intro a _ b _ hcall _ hdeps
  rw [positions_eq, positions_eq, map_cons, map_cons, hcall]
  generalize a.dependencies = left, b.dependencies = right at hdeps
  congr 1
  induction hdeps with
  | nil => rfl
  | cons head _ ih => simp [allPositions, head.2, ih]

end Dependencies

/-! ## Flattening -/

/-- A node of the flat list with the names of further uses. -/
structure FlatNode (C K V : Type*) where
  source : Dependant C K V
  name : Name
  aliases : List Name := []

/-- The names that a node's result is stored under. -/
def FlatNode.names {C K V : Type*} (node : FlatNode C K V) : List Name :=
  node.name :: node.aliases

section Flatten

variable {C K V : Type*} [DecidableEq C] [DecidableEq K] (autoName : ℕ → C → Name)

/-- Record a further use of a cached callable. -/
def addAlias (key : C × K) (name : Name) : List (FlatNode C K V) → List (FlatNode C K V)
  | [] => []
  | node :: nodes =>
    if node.source.cacheKey = key ∧ node.source.useCache = true then
      let aliases := if name ∈ node.aliases then node.aliases else node.aliases ++ [name]
      { node with aliases := aliases } :: nodes
    else node :: addAlias key name nodes

structure Flat (C K V : Type*) where
  result : List (FlatNode C K V) := []
  visited : List (C × K) := []

mutual

/-- `_flatten_deps`; the index names a dependency that no parameter declares. -/
def flattenDeps (index : ℕ) : List (Dependant C K V) → Flat C K V → Flat C K V
  | [], flat => flat
  | dependant :: dependants, flat =>
    flattenDeps (index + 1) dependants (flattenDep index dependant flat)

def flattenDep (index : ℕ) : Dependant C K V → Flat C K V → Flat C K V
  | .mk name call tag useCache isCoroutine params dependencies, flat =>
    let key := (call, tag)
    if key ∈ flat.visited ∧ useCache = true then
      match name with
      | some name => { flat with result := addAlias key name flat.result }
      | none => flat
    else
      let flat := if useCache then { flat with visited := key :: flat.visited } else flat
      let flat :=
        if useCache = true ∨ key ∉ flat.visited then flattenDeps 0 dependencies flat else flat
      let node : FlatNode C K V :=
        { source := .mk name call tag useCache isCoroutine params dependencies
          name := name.getD (autoName index call) }
      { flat with result := flat.result ++ [node] }

end

def Dependencies.nodes (tree : Dependencies C K V) : List (FlatNode C K V) :=
  (flattenDeps autoName 0 tree.roots {}).result

end Flatten

/-! ## Every callable has a node -/

section Covers

variable {C K V : Type*}

def Flat.calls (flat : Flat C K V) : List C :=
  flat.result.map fun node => node.source.call

/-- Everything below a dependant, and itself, has a node. -/
def Flat.Covers (flat : Flat C K V) (dependant : Dependant C K V) : Prop :=
  ∀ position ∈ dependant.positions, position.call ∈ flat.calls

theorem Flat.Covers.mono {flat flat' : Flat C K V} {dependant : Dependant C K V}
    (h : flat.Covers dependant) (hsub : ∀ call ∈ flat.calls, call ∈ flat'.calls) :
    flat'.Covers dependant := by
  intro position hposition
  exact hsub _ (h _ hposition)

variable (tree : Dependencies C K V)

theorem Flat.Covers.congr {flat : Flat C K V} {a b : Dependant C K V} (h : flat.Covers a)
    (ha : a ∈ tree.positions) (hb : b ∈ tree.positions) (hcall : a.call = b.call) :
    flat.Covers b := by
  intro position hposition
  have hmem := mem_map_of_mem (f := Dependant.call) hposition
  rw [← Dependencies.calls_eq_of_call ha hb hcall] at hmem
  obtain ⟨position', hposition', heq⟩ := mem_map.mp hmem
  exact heq ▸ h _ hposition'

/-- What was visited is covered, unless it is still in progress. -/
def Settled (ancestors : List (Dependant C K V)) (flat : Flat C K V) : Prop :=
  ∀ dependant ∈ tree.positions, dependant.cacheKey ∈ flat.visited →
    flat.Covers dependant ∨ ∃ ancestor ∈ ancestors, ancestor.cacheKey = dependant.cacheKey

structure Flattened (ancestors dependants : List (Dependant C K V)) (before after : Flat C K V) :
    Prop where
  settled : Settled tree ancestors after
  covers : ∀ dependant ∈ dependants, after.Covers dependant
  calls : ∀ call ∈ before.calls, call ∈ after.calls
  sources : (∀ node ∈ before.result, node.source ∈ tree.positions) →
    ∀ node ∈ after.result, node.source ∈ tree.positions

/-- A visited dependant below its ancestors is covered: an ancestor has more
levels, so it has another callable. -/
theorem Settled.covers {tree : Dependencies C K V} {ancestors : List (Dependant C K V)}
    {flat : Flat C K V} {dependant : Dependant C K V} (h : Settled tree ancestors flat)
    (hmem : dependant ∈ tree.positions)
    (hancestors : ∀ ancestor ∈ ancestors,
      ancestor ∈ tree.positions ∧ dependant.levels < ancestor.levels)
    (hvisited : dependant.cacheKey ∈ flat.visited) : flat.Covers dependant := by
  apply (h _ hmem hvisited).resolve_right
  rintro ⟨ancestor, hancestor, hkey⟩
  obtain ⟨hposition, hlevels⟩ := hancestors _ hancestor
  have hcall : ancestor.call = dependant.call := by
    rw [← cacheKey_fst, hkey, cacheKey_fst]
  have := Dependencies.levels_eq_of_call hposition hmem hcall
  omega

theorem Settled.weaken {tree : Dependencies C K V} {ancestors : List (Dependant C K V)}
    {flat : Flat C K V} (h : Settled tree ancestors flat) (dependant : Dependant C K V) :
    Settled tree (dependant :: ancestors) flat := by
  intro other hother hvisited
  rcases h other hother hvisited with hcovered | ⟨ancestor, hancestor, hkey⟩
  · exact .inl hcovered
  · exact .inr ⟨ancestor, mem_cons_of_mem _ hancestor, hkey⟩

theorem Settled.enter {tree : Dependencies C K V} {ancestors : List (Dependant C K V)}
    {flat : Flat C K V} (h : Settled tree ancestors flat) (dependant : Dependant C K V) :
    Settled tree (dependant :: ancestors)
      { flat with visited := dependant.cacheKey :: flat.visited } := by
  intro other hother hvisited
  rcases mem_cons.mp hvisited with hkey | hvisited
  · exact .inr ⟨dependant, mem_cons_self, hkey.symm⟩
  · exact h.weaken _ _ hother hvisited

/-- A further use of a callable that is covered. -/
theorem Flattened.unchanged {tree : Dependencies C K V} {ancestors : List (Dependant C K V)}
    {dependant : Dependant C K V} {before after : Flat C K V} (h : Settled tree ancestors before)
    (hcovers : before.Covers dependant) (hvisited : after.visited = before.visited)
    (hsources : after.result.map FlatNode.source = before.result.map FlatNode.source) :
    Flattened tree ancestors [dependant] before after := by
  have hcalls : after.calls = before.calls := by
    have := congrArg (List.map Dependant.call) hsources
    simpa [Flat.calls, Function.comp_def] using this
  have same (other : Dependant C K V) (hother : before.Covers _) : after.Covers other :=
    hother.mono fun call hcall => hcalls ▸ hcall
  constructor
  · intro other hother hmem
    exact (h _ hother (hvisited ▸ hmem)).imp_left (same _)
  · intro other hother
    rw [mem_singleton.mp hother]
    exact same _ hcovers
  · intro call hcall
    rw [hcalls]
    exact hcall
  · intro hbefore node hnode
    have hmem := mem_map_of_mem (f := FlatNode.source) hnode
    rw [hsources] at hmem
    obtain ⟨node', hnode', heq⟩ := mem_map.mp hmem
    exact heq ▸ hbefore _ hnode'

theorem Flattened.append {tree : Dependencies C K V} {ancestors : List (Dependant C K V)}
    {dependant : Dependant C K V} {before inner : Flat C K V} (hmem : dependant ∈ tree.positions)
    (h : Flattened tree (dependant :: ancestors) dependant.dependencies before inner)
    (name : Name) :
    Flattened tree ancestors [dependant] before
      { inner with result := inner.result ++ [{ source := dependant, name := name }] } := by
  set after : Flat C K V :=
    { inner with result := inner.result ++ [{ source := dependant, name := name }] }
  have calls_after : after.calls = inner.calls ++ [dependant.call] := by
    simp [after, Flat.calls]
  have grows : ∀ call ∈ inner.calls, call ∈ after.calls := by
    intro call hcall
    rw [calls_after]
    exact mem_append_left _ hcall
  have covers : after.Covers dependant := by
    intro position hposition
    rw [positions_eq] at hposition
    rcases mem_cons.mp hposition with rfl | hposition
    · rw [calls_after]
      simp
    · obtain ⟨child, hchild, hposition⟩ := mem_allPositions.mp hposition
      exact grows _ (h.covers _ hchild _ hposition)
  constructor
  · intro other hother hvisited
    rcases h.settled other hother hvisited with hcovered | ⟨ancestor, hancestor, hkey⟩
    · exact .inl (hcovered.mono grows)
    · rcases mem_cons.mp hancestor with rfl | hancestor
      · left
        apply covers.congr _ hmem hother
        rw [← cacheKey_fst, hkey, cacheKey_fst]
      · exact .inr ⟨ancestor, hancestor, hkey⟩
  · intro other hother
    rw [mem_singleton.mp hother]
    exact covers
  · intro call hcall
    exact grows _ (h.calls _ hcall)
  · intro hbefore node hnode
    rcases mem_append.mp hnode with hnode | hnode
    · exact h.sources hbefore _ hnode
    · rw [mem_singleton.mp hnode]
      exact hmem

end Covers

section FlattenCovers

variable {C K V : Type*} [DecidableEq C] [DecidableEq K] (autoName : ℕ → C → Name)
  (tree : Dependencies C K V)

theorem addAlias_source (key : C × K) (name : Name) (nodes : List (FlatNode C K V)) :
    (addAlias key name nodes).map FlatNode.source = nodes.map FlatNode.source := by
  induction nodes with
  | nil => rfl
  | cons node nodes ih =>
    rw [addAlias]
    split
    · rfl
    · rw [map_cons, ih, map_cons]

theorem flattenDep_eq (index : ℕ) (dependant : Dependant C K V) (flat : Flat C K V) :
    flattenDep autoName index dependant flat =
      if dependant.cacheKey ∈ flat.visited ∧ dependant.useCache = true then
        match dependant.name with
        | some name => { flat with result := addAlias dependant.cacheKey name flat.result }
        | none => flat
      else
        let entered : Flat C K V :=
          if dependant.useCache then { flat with visited := dependant.cacheKey :: flat.visited }
          else flat
        let inner :=
          if dependant.useCache = true ∨ dependant.cacheKey ∉ entered.visited then
            flattenDeps autoName 0 dependant.dependencies entered
          else entered
        let node : FlatNode C K V :=
          { source := dependant, name := dependant.name.getD (autoName index dependant.call) }
        { inner with result := inner.result ++ [node] } := by
  cases dependant
  rfl

theorem flattened_of_inner {ancestors : List (Dependant C K V)} {index : ℕ}
    {dependant : Dependant C K V} {flat : Flat C K V} (hmem : dependant ∈ tree.positions)
    (hancestors : ∀ ancestor ∈ ancestors,
      ancestor ∈ tree.positions ∧ dependant.levels < ancestor.levels)
    (h : Settled tree ancestors flat)
    (inner : ∀ ancestors flat, (∀ child ∈ dependant.dependencies, ∀ ancestor ∈ ancestors,
        ancestor ∈ tree.positions ∧ child.levels < ancestor.levels) →
      Settled tree ancestors flat →
      Flattened tree ancestors dependant.dependencies flat
        (flattenDeps autoName 0 dependant.dependencies flat)) :
    Flattened tree ancestors [dependant] flat (flattenDep autoName index dependant flat) := by
  have hdeeper : ∀ child ∈ dependant.dependencies, ∀ ancestor ∈ dependant :: ancestors,
      ancestor ∈ tree.positions ∧ child.levels < ancestor.levels := by
    intro child hchild ancestor hancestor
    have hlevels := levels_lt hchild
    rcases mem_cons.mp hancestor with rfl | hancestor
    · exact ⟨hmem, hlevels⟩
    · obtain ⟨hposition, hlt⟩ := hancestors _ hancestor
      exact ⟨hposition, hlevels.trans hlt⟩
  rw [flattenDep_eq]
  by_cases hdone : dependant.cacheKey ∈ flat.visited ∧ dependant.useCache = true
  · have covered := h.covers hmem hancestors hdone.1
    simp only [hdone, and_self, if_true]
    apply Flattened.unchanged h covered
    · split <;> rfl
    · split
      · exact addAlias_source _ _ _
      · rfl
  · simp only [hdone, if_false]
    apply Flattened.append hmem
    by_cases huse : dependant.useCache = true
    · -- a cached use that is new
      simp only [huse, if_true, true_or]
      obtain ⟨settled, covers, calls, sources⟩ := inner _ _ hdeeper (h.enter _)
      exact ⟨settled, covers, calls, sources⟩
    · simp only [huse, Bool.false_eq_true, if_false, false_or]
      split
      · -- an uncached use of a callable that was not visited
        exact inner _ _ hdeeper (h.weaken _)
      · -- an uncached use of a callable whose sub-dependencies have their nodes
        rename_i hvisited
        have covered := h.covers hmem hancestors (not_not.mp hvisited)
        refine ⟨h.weaken _, ?_, fun _ => id, id⟩
        intro child hchild position hposition
        apply covered
        rw [positions_eq]
        exact mem_cons_of_mem _ (mem_allPositions.mpr ⟨child, hchild, hposition⟩)

mutual

theorem flattenDeps_flattened (ancestors : List (Dependant C K V)) (index : ℕ)
    (dependants : List (Dependant C K V)) (flat : Flat C K V)
    (hmem : ∀ dependant ∈ dependants, dependant ∈ tree.positions)
    (hancestors : ∀ dependant ∈ dependants, ∀ ancestor ∈ ancestors,
      ancestor ∈ tree.positions ∧ dependant.levels < ancestor.levels)
    (h : Settled tree ancestors flat) :
    Flattened tree ancestors dependants flat (flattenDeps autoName index dependants flat) := by
  match dependants with
  | [] =>
    rw [flattenDeps]
    exact ⟨h, by simp, fun _ => id, id⟩
  | dependant :: dependants =>
    have head := flattenDep_flattened ancestors index dependant flat
      (hmem dependant mem_cons_self) (hancestors dependant mem_cons_self) h
    have tail := flattenDeps_flattened ancestors (index + 1) dependants
      (flattenDep autoName index dependant flat)
      (fun d hd => hmem d (mem_cons_of_mem _ hd))
      (fun d hd => hancestors d (mem_cons_of_mem _ hd)) head.settled
    rw [flattenDeps]
    refine ⟨tail.settled, ?_, fun call hcall => tail.calls call (head.calls call hcall),
      fun hbefore => tail.sources (head.sources hbefore)⟩
    intro d hd
    rcases mem_cons.mp hd with rfl | hd
    · exact (head.covers d (by simp)).mono tail.calls
    · exact tail.covers d hd

theorem flattenDep_flattened (ancestors : List (Dependant C K V)) (index : ℕ)
    (dependant : Dependant C K V) (flat : Flat C K V) (hmem : dependant ∈ tree.positions)
    (hancestors : ∀ ancestor ∈ ancestors,
      ancestor ∈ tree.positions ∧ dependant.levels < ancestor.levels)
    (h : Settled tree ancestors flat) :
    Flattened tree ancestors [dependant] flat (flattenDep autoName index dependant flat) := by
  match dependant with
  | .mk name call tag useCache isCoroutine params dependencies =>
    have hchildren : ∀ child ∈ dependencies, child ∈ tree.positions ∧
        child.levels < (mk name call tag useCache isCoroutine params dependencies).levels :=
      fun child hchild => ⟨Dependencies.child_mem hmem hchild, levels_lt hchild⟩
    have inner (ancestors : List (Dependant C K V)) (flat : Flat C K V)
        (hancestors : ∀ child ∈ dependencies, ∀ ancestor ∈ ancestors,
          ancestor ∈ tree.positions ∧ child.levels < ancestor.levels)
        (h : Settled tree ancestors flat) :=
      flattenDeps_flattened ancestors 0 dependencies flat
        (fun child hchild => (hchildren child hchild).1) hancestors h
    exact flattened_of_inner autoName tree hmem hancestors h inner

end

theorem Dependencies.exists_node {dependant : Dependant C K V} (h : dependant ∈ tree.positions) :
    ∃ node ∈ tree.nodes autoName, node.source.call = dependant.call := by
  have flattened := flattenDeps_flattened autoName _ [] 0 tree.roots {}
    (fun dependant hroot => Dependencies.root_mem hroot) (by simp) (by simp [Settled])
  obtain ⟨root, hroot, hposition⟩ := mem_allPositions.mp h
  have hcall := flattened.covers _ hroot _ hposition
  simpa [Flat.calls, Dependencies.nodes] using hcall

theorem Dependencies.source_mem {node : FlatNode C K V} (h : node ∈ tree.nodes autoName) :
    node.source ∈ tree.positions := by
  have flattened := flattenDeps_flattened autoName _ [] 0 tree.roots {}
    (fun dependant hroot => Dependencies.root_mem hroot) (by simp) (by simp [Settled])
  exact flattened.sources (by simp) _ h

end FlattenCovers

end AstraApi.Deps
