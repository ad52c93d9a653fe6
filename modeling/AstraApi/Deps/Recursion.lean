import AstraApi.Deps.Tree

/-!
# Recursive resolution

`solve_dependencies` resolves the sub-dependencies of a dependant, then its
parameters, and calls it unless its cache has a result for it.  For callables
that are functions of their keyword arguments the cache changes nothing: each
position of the tree gets the value of a plain recursion.
-/

namespace AstraApi.Deps

open List
open Dependant

variable {C K V : Type*}

/-- The value of a parameter: the request's, or its default.  A parameter of the
path has none. -/
def Param.value (kwargs : Kwargs V) (param : Param V) : Option V :=
  (kwargs param.name).or (if param.location = .path then none else param.default)

def Kwargs.setSome (kwargs : Kwargs V) (name : Name) : Option V → Kwargs V
  | some value => kwargs.set name value
  | none => kwargs

def paramValues (kwargs : Kwargs V) (params : List (Param V)) : Kwargs V :=
  params.foldl (fun values param => values.setSome param.name (param.value kwargs)) Kwargs.empty

def paramErrors (kwargs : Kwargs V) (params : List (Param V)) : List MissingError :=
  (params.filter fun param => (param.value kwargs).isNone).map fun param =>
    { loc := (param.location, param.aliasName) }

def Kwargs.setOption (kwargs : Kwargs V) (name : Option Name) (value : V) : Kwargs V :=
  match name with
  | some name => kwargs.set name value
  | none => kwargs

/-- What the recursion hands from one sub-dependency to the next. -/
structure Solving (C K V : Type*) where
  values : Kwargs V := Kwargs.empty
  errors : List MissingError := []
  cache : C × K → Option V := fun _ => none
  calls : List (C × Kwargs V) := []

def maxDependencyDepth : ℕ := 100

section Solve

variable [DecidableEq C] [DecidableEq K] (apply : C → Kwargs V → V) (kwargs : Kwargs V)

mutual

/-- The loop of `solve_dependencies`. -/
def solveSubs (depth : ℕ) : List (Dependant C K V) → Solving C K V →
    Except PyExc (Solving C K V)
  | [], solving => .ok solving
  | dependant :: dependants, solving =>
    match solveSub depth dependant solving with
    | .error exc => .error exc
    | .ok solving => solveSubs depth dependants solving

def solveSub (depth : ℕ) : Dependant C K V → Solving C K V → Except PyExc (Solving C K V)
  | .mk name call tag useCache _ params dependencies, solving =>
    if maxDependencyDepth < depth + 1 then
      .error (.other "Maximum dependency resolution depth (100) exceeded.")
    else
      match solveSubs (depth + 1) dependencies
          { cache := solving.cache, calls := solving.calls } with
      | .error exc => .error exc
      | .ok solved =>
        let errors := solved.errors ++ paramErrors kwargs params
        let args := solved.values.update (paramValues kwargs params)
        if errors ≠ [] then
          .ok { solving with
                errors := solving.errors ++ errors
                cache := solved.cache
                calls := solved.calls }
        else
          match if useCache then solved.cache (call, tag) else none with
          | some value =>
            .ok { solving with
                  values := solving.values.setOption name value
                  cache := solved.cache
                  calls := solved.calls }
          | none =>
            let value := apply call args
            .ok { solving with
                  values := solving.values.setOption name value
                  cache := if useCache then
                    Function.update solved.cache (call, tag) (some value) else solved.cache
                  calls := solved.calls ++ [(call, args)] }

end

end Solve

/-! ## The plain recursion -/

section Eval

variable (apply : C → Kwargs V → V) (kwargs : Kwargs V)

mutual

/-- The value of a dependant, computed without a cache. -/
def evalDependant : Dependant C K V → V
  | .mk _ call _ _ _ params dependencies =>
    apply call ((evalDependants dependencies Kwargs.empty).update (paramValues kwargs params))

def evalDependants : List (Dependant C K V) → Kwargs V → Kwargs V
  | [], values => values
  | dependant :: dependants, values =>
    evalDependants dependants (values.setOption dependant.name (evalDependant dependant))

end

def arguments (dependant : Dependant C K V) : Kwargs V :=
  (evalDependants apply kwargs dependant.dependencies Kwargs.empty).update
    (paramValues kwargs dependant.params)

theorem evalDependant_eq (dependant : Dependant C K V) :
    evalDependant apply kwargs dependant =
      apply dependant.call (arguments apply kwargs dependant) := by
  cases dependant
  rfl

theorem evalDependants_congr {left right : List (Dependant C K V)}
    (h : List.Forall₂ (fun a b => a.name = b.name ∧
      evalDependant apply kwargs a = evalDependant apply kwargs b) left right)
    (values : Kwargs V) :
    evalDependants apply kwargs left values = evalDependants apply kwargs right values := by
  induction h generalizing values with
  | nil => rfl
  | cons head _ ih => rw [evalDependants, evalDependants, head.1, head.2, ih]

variable {tree : Dependencies C K V} {a b : Dependant C K V}

/-- A callable has the same value at each of its positions. -/
theorem evalDependant_eq_of_call (ha : a ∈ tree.positions) (hb : b ∈ tree.positions)
    (h : a.call = b.call) : evalDependant apply kwargs a = evalDependant apply kwargs b := by
  apply Dependencies.alike (R := fun a b => evalDependant _ _ a = evalDependant _ _ b) _ a ha b hb h
  intro a _ b _ hcall hparams hdeps
  rw [evalDependant_eq, evalDependant_eq, arguments, arguments, hcall, hparams,
    evalDependants_congr _ _ hdeps]

theorem arguments_eq_of_call (ha : a ∈ tree.positions) (hb : b ∈ tree.positions)
    (h : a.call = b.call) : arguments apply kwargs a = arguments apply kwargs b := by
  obtain ⟨hparams, hdeps⟩ := tree.coherent a ha b hb h
  rw [arguments, arguments, hparams]
  congr 1
  apply evalDependants_congr
  apply Dependencies.forall₂_of_map_eq hdeps
  intro child hchild child' hchild' hsignature
  simp only [signature, Prod.mk.injEq] at hsignature
  exact ⟨hsignature.1, evalDependant_eq_of_call _ _ (Dependencies.child_mem ha hchild)
    (Dependencies.child_mem hb hchild') hsignature.2.1⟩

end Eval

/-! ## The recursion computes the plain values -/

/-- The request has a value for every required parameter. -/
def Dependencies.HoldsRequired (tree : Dependencies C K V) (kwargs : Kwargs V) : Prop :=
  ∀ dependant ∈ tree.positions, ∀ param ∈ dependant.params, param.required = true →
    (kwargs param.name).isSome

theorem paramErrors_eq_nil {tree : Dependencies C K V} {kwargs : Kwargs V}
    (h : tree.HoldsRequired kwargs) {dependant : Dependant C K V} (hmem : dependant ∈ tree.positions) : paramErrors kwargs dependant.params = [] := by
  simp only [paramErrors, map_eq_nil_iff, filter_eq_nil_iff]
  intro param hparam
  by_cases hrequired : param.required = true
  · obtain ⟨value, hvalue⟩ := Option.isSome_iff_exists.mp (h _ hmem _ hparam hrequired)
    simp [Param.value, hvalue]
  · simp only [Param.required, Bool.or_eq_true, decide_eq_true_eq, not_or] at hrequired
    cases hdefault : param.default with
    | none => simp [hdefault] at hrequired
    | some value =>
      cases hkwargs : kwargs param.name <;> simp [Param.value, hrequired.1, hdefault]

section Spec

variable [DecidableEq C] [DecidableEq K] (apply : C → Kwargs V → V) (kwargs : Kwargs V)
  (tree : Dependencies C K V)

/-- The calls that some positions make in the plain recursion. -/
def MadeBy (dependants : List (Dependant C K V)) (made : C × Kwargs V) : Prop :=
  ∃ position ∈ allPositions dependants,
    made = (position.call, arguments apply kwargs position)

/-- What the cache holds is right and was computed by a call. -/
def Solving.Sound (solving : Solving C K V) : Prop :=
  ∀ dependant ∈ tree.positions, ∀ value, solving.cache dependant.cacheKey = some value →
    value = evalDependant apply kwargs dependant ∧
      (dependant.call, arguments apply kwargs dependant) ∈ solving.calls

structure Solving.Step (dependants : List (Dependant C K V)) (before after : Solving C K V) :
    Prop where
  sound : after.Sound apply kwargs tree
  values : after.values = evalDependants apply kwargs dependants before.values
  errors : after.errors = before.errors
  calls : ∀ made, made ∈ after.calls ↔ made ∈ before.calls ∨ MadeBy apply kwargs dependants made

theorem solveSub_eq (depth : ℕ) {dependant : Dependant C K V} {solving solved : Solving C K V}
    (hdepth : depth + 1 ≤ maxDependencyDepth)
    (hsolved : solveSubs apply kwargs (depth + 1) dependant.dependencies
      { cache := solving.cache, calls := solving.calls } = .ok solved)
    (herrors : solved.errors = []) (hparams : paramErrors kwargs dependant.params = []) :
    solveSub apply kwargs depth dependant solving =
      match if dependant.useCache then solved.cache dependant.cacheKey else none with
      | some value =>
        .ok { solving with
              values := solving.values.setOption dependant.name value
              cache := solved.cache
              calls := solved.calls }
      | none =>
        let args := solved.values.update (paramValues kwargs dependant.params)
        let value := apply dependant.call args
        .ok { solving with
              values := solving.values.setOption dependant.name value
              cache := if dependant.useCache then
                Function.update solved.cache dependant.cacheKey (some value) else solved.cache
              calls := solved.calls ++ [(dependant.call, args)] } := by
  cases dependant with
  | mk name call tag useCache isCoroutine params dependencies =>
    have hsolved' : solveSubs apply kwargs (depth + 1) dependencies
        { cache := solving.cache, calls := solving.calls } = .ok solved := hsolved
    have hparams' : paramErrors kwargs params = [] := hparams
    have hdepth' : ¬ maxDependencyDepth < depth + 1 := by omega
    simp only [solveSub, hdepth', if_false, hsolved', herrors, hparams', append_nil,
      ne_eq, not_true_eq_false]
    rfl

variable {tree}

omit [DecidableEq C] [DecidableEq K] in
theorem madeBy_singleton (dependant : Dependant C K V) (made : C × Kwargs V) :
    MadeBy apply kwargs [dependant] made ↔
      made = (dependant.call, arguments apply kwargs dependant) ∨
        MadeBy apply kwargs dependant.dependencies made := by
  simp only [MadeBy, allPositions, append_nil, positions_eq, mem_cons, exists_eq_or_imp]

omit [DecidableEq C] [DecidableEq K] in
theorem madeBy_cons (dependant : Dependant C K V) (dependants : List (Dependant C K V))
    (made : C × Kwargs V) :
    MadeBy apply kwargs (dependant :: dependants) made ↔
      MadeBy apply kwargs [dependant] made ∨ MadeBy apply kwargs dependants made := by
  simp only [MadeBy, allPositions, append_nil, mem_append, or_and_right, exists_or]

/-- From a pass over the sub-dependencies to one over the dependant itself. -/
theorem Solving.Step.parent {depth : ℕ} {dependant : Dependant C K V}
    {solving solved : Solving C K V} (hmem : dependant ∈ tree.positions)
    (hdepth : depth + 1 ≤ maxDependencyDepth)
    (hsolved : solveSubs apply kwargs (depth + 1) dependant.dependencies
      { cache := solving.cache, calls := solving.calls } = .ok solved)
    (h : Step apply kwargs tree dependant.dependencies
      { cache := solving.cache, calls := solving.calls } solved)
    (hparams : paramErrors kwargs dependant.params = []) :
    ∃ after, solveSub apply kwargs depth dependant solving = .ok after ∧
      Step apply kwargs tree [dependant] solving after := by
  have hargs : solved.values.update (paramValues kwargs dependant.params) =
      arguments apply kwargs dependant := by
    rw [h.values]
    rfl
  have hvalues (value : V) (hvalue : value = evalDependant apply kwargs dependant) :
      solving.values.setOption dependant.name value =
        evalDependants apply kwargs [dependant] solving.values := by
    rw [evalDependants, evalDependants, hvalue]
  rw [solveSub_eq _ _ _ hdepth hsolved h.errors hparams]
  cases hhit : (if dependant.useCache then solved.cache dependant.cacheKey else none) with
  | some value =>
    have hcached : solved.cache dependant.cacheKey = some value := by
      split at hhit
      · exact hhit
      · simp at hhit
    obtain ⟨hvalue, hcall⟩ := h.sound _ hmem _ hcached
    refine ⟨_, rfl, h.sound, hvalues _ hvalue, rfl, ?_⟩
    intro made
    rw [madeBy_singleton]
    constructor
    · intro hmade
      exact ((h.calls _).mp hmade).imp_right .inr
    · rintro (hmade | rfl | hmade)
      · exact (h.calls _).mpr (.inl hmade)
      · exact hcall
      · exact (h.calls _).mpr (.inr hmade)
  | none =>
    dsimp only
    rw [hargs, ← evalDependant_eq apply _ _]
    refine ⟨_, rfl, ?_, hvalues _ rfl, rfl, ?_⟩
    · intro other hother value hcached
      have earlier (hcached : solved.cache other.cacheKey = some value) :
          value = evalDependant apply kwargs other ∧ (other.call, arguments apply kwargs other) ∈
              solved.calls ++ [(dependant.call, arguments apply kwargs dependant)] := by
        obtain ⟨hvalue, hcall⟩ := h.sound _ hother _ hcached
        exact ⟨hvalue, mem_append_left _ hcall⟩
      dsimp only at hcached ⊢
      split at hcached
      · by_cases hkey : other.cacheKey = dependant.cacheKey
        · have hcall : other.call = dependant.call := by
            rw [← cacheKey_fst, hkey, cacheKey_fst]
          rw [hkey, Function.update_self, Option.some.injEq] at hcached
          rw [← hcached, evalDependant_eq_of_call _ _ hother hmem hcall,
            arguments_eq_of_call _ _ hother hmem hcall, hcall]
          simp
        · rw [Function.update_of_ne hkey] at hcached
          exact earlier hcached
      · exact earlier hcached
    · intro made
      rw [madeBy_singleton]
      simp only [mem_append, mem_singleton, h.calls _]
      tauto

mutual

theorem solveSubs_step (hholds : tree.HoldsRequired kwargs)
    (depth : ℕ) (dependants : List (Dependant C K V)) (solving : Solving C K V)
    (hmem : ∀ dependant ∈ dependants, dependant ∈ tree.positions)
    (hdepth : depth + allLevels dependants ≤ maxDependencyDepth)
    (h : solving.Sound apply kwargs tree) :
    ∃ after, solveSubs apply kwargs depth dependants solving = .ok after ∧
      Solving.Step apply kwargs tree dependants solving after := by
  match dependants with
  | [] =>
    refine ⟨solving, rfl, h, rfl, rfl, ?_⟩
    simp [MadeBy, allPositions]
  | dependant :: dependants =>
    rw [allLevels] at hdepth
    obtain ⟨middle, hmiddle, head⟩ := solveSub_step hholds depth dependant solving
      (hmem dependant mem_cons_self) (by omega) h
    obtain ⟨after, hafter, tail⟩ := solveSubs_step hholds depth dependants middle
      (fun d hd => hmem d (mem_cons_of_mem _ hd)) (by omega) head.sound
    refine ⟨after, ?_, tail.sound, ?_, tail.errors.trans head.errors, ?_⟩
    · rw [solveSubs, hmiddle]
      exact hafter
    · rw [tail.values, head.values, evalDependants, evalDependants, evalDependants]
    · intro made
      rw [tail.calls, head.calls, madeBy_cons apply kwargs dependant dependants, or_assoc]

theorem solveSub_step (hholds : tree.HoldsRequired kwargs)
    (depth : ℕ) (dependant : Dependant C K V) (solving : Solving C K V)
    (hmem : dependant ∈ tree.positions) (hdepth : depth + dependant.levels ≤ maxDependencyDepth)
    (h : solving.Sound apply kwargs tree) :
    ∃ after, solveSub apply kwargs depth dependant solving = .ok after ∧
      Solving.Step apply kwargs tree [dependant] solving after := by
  match dependant with
  | .mk name call tag useCache isCoroutine params dependencies =>
    rw [levels] at hdepth
    obtain ⟨solved, hsolved, inner⟩ := solveSubs_step hholds (depth + 1) dependencies
      { cache := solving.cache, calls := solving.calls }
      (fun child hchild => Dependencies.child_mem hmem hchild) (by omega) h
    exact inner.parent apply kwargs hmem (by omega) hsolved (paramErrors_eq_nil hholds hmem)

end

mutual

/-- Beyond the depth limit the recursion raises. -/
theorem solveSubs_error (depth : ℕ) (dependants : List (Dependant C K V))
    (solving : Solving C K V) (hdepth : maxDependencyDepth < depth + allLevels dependants)
    (hlimit : depth ≤ maxDependencyDepth) :
    ∃ exc, solveSubs apply kwargs depth dependants solving = .error exc := by
  match dependants with
  | [] =>
    rw [allLevels] at hdepth
    omega
  | dependant :: dependants =>
    rw [allLevels] at hdepth
    rw [solveSubs]
    split
    · exact ⟨_, rfl⟩
    · rename_i middle hmiddle
      by_cases hhead : maxDependencyDepth < depth + dependant.levels
      · obtain ⟨exc, hexc⟩ := solveSub_error depth dependant solving hhead
        rw [hexc] at hmiddle
        simp at hmiddle
      · exact solveSubs_error depth dependants middle (by omega) hlimit

theorem solveSub_error (depth : ℕ) (dependant : Dependant C K V) (solving : Solving C K V)
    (hdepth : maxDependencyDepth < depth + dependant.levels) :
    ∃ exc, solveSub apply kwargs depth dependant solving = .error exc := by
  match dependant with
  | .mk name call tag useCache isCoroutine params dependencies =>
    rw [levels] at hdepth
    simp only [solveSub]
    split
    · exact ⟨_, rfl⟩
    · obtain ⟨exc, hexc⟩ := solveSubs_error (depth + 1) dependencies
        { cache := solving.cache, calls := solving.calls } (by omega) (by omega)
      rw [hexc]
      exact ⟨exc, rfl⟩

end

def solveDependencies (tree : Dependencies C K V) : Except PyExc (Solving C K V) :=
  solveSubs apply kwargs 0 tree.roots {}

/-- The recursion gives each dependency of the endpoint its plain value, and
calls each position's callable with its plain arguments. -/
theorem solveDependencies_spec (hholds : tree.HoldsRequired kwargs)
    (hdepth : allLevels tree.roots ≤ maxDependencyDepth) :
    ∃ solved, solveDependencies apply kwargs tree = .ok solved ∧
      solved.values = evalDependants apply kwargs tree.roots Kwargs.empty ∧
      solved.errors = [] ∧
      ∀ made, made ∈ solved.calls ↔ MadeBy apply kwargs tree.roots made := by
  obtain ⟨solved, hsolved, step⟩ := solveSubs_step _ _ hholds 0 _ {}
    (fun dependant hroot => Dependencies.root_mem hroot) (by omega) (by simp [Solving.Sound])
  refine ⟨solved, hsolved, step.values, step.errors, ?_⟩
  intro made
  rw [step.calls]
  simp

end Spec

end AstraApi.Deps
