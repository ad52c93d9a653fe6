import AstraApi.Deps.Recursion
import AstraApi.Deps.SecurityScopes

/-!
# The cache of the recursion

`solve_dependencies` keeps the result of a dependency under its cache key, but resolves
what is below it again each time.  A key determines which scopes are read below, so a
result from the cache is the one that another call would have.
-/

namespace AstraApi.Deps.SecurityScopes

open List
open AstraApi.Deps.SecurityScopes.Dependant

variable {C S P V E : Type*}

/-- Callables that read their scopes as a set. -/
structure Callables (C S V : Type*) where
  apply : C → Kwargs V → Option (List S) → Except PyExc V
  setwise : ∀ call args scopes scopes', (∀ scope : S, scope ∈ scopes ↔ scope ∈ scopes') →
    apply call args (some scopes) = apply call args (some scopes')

/-- The cache with, for each value, the dependant that it was computed for; further the
dependants that were called, and the pairs of which one was handed the other's value. -/
structure Memory (C S P V : Type*) where
  cache : C × Finset S × Option Scope → Option (V × Dependant C S P) := fun _ => none
  calls : List (Dependant C S P) := []
  handed : List (Dependant C S P × Dependant C S P) := []

section Solve

variable [DecidableEq C] [DecidableEq S] (callables : Callables C S V)
  (extract : P → Kwargs V × List E)

/-- Call a dependant; a parameter of type `SecurityScopes` gets its scopes. -/
def invoke (dependant : Dependant C S P) (args : Kwargs V) : Except PyExc V :=
  callables.apply dependant.call args
    (dependant.signature.securityScopesParam.map fun _ => dependant.oauthScopes)

/-- The value of a sub-dependency, from the cache or else from a call. -/
def provide (caching : Bool) (dependant : Dependant C S P) (args : Kwargs V)
    (memory : Memory C S P V) : Except PyExc V × Memory C S P V :=
  match if caching && dependant.useCache then memory.cache dependant.cacheKey else none with
  | some (value, first) =>
    (.ok value, { memory with handed := memory.handed ++ [(first, dependant)] })
  | none =>
    let memory := { memory with calls := memory.calls ++ [dependant] }
    match invoke callables dependant args with
    | .error exc => (.error exc, memory)
    | .ok value =>
      (.ok value,
        if caching && dependant.useCache then
          { memory with cache :=
              Function.update memory.cache dependant.cacheKey (some (value, dependant)) }
        else memory)

def depthExceeded : PyExc :=
  .other ("Maximum dependency resolution depth (100) exceeded. " ++
    "This likely indicates circular dependencies in your dependency tree.")

mutual

/-- `solve_dependencies`, with its cache or without.  The parameters of a dependant and
the errors of its own are those that `extract` has for its fields. -/
def solve (caching : Bool) (depth : ℕ) : Dependant C S P → Memory C S P V →
    Except PyExc (Kwargs V × List E) × Memory C S P V
  | .mk _ _ _ _ _ _ signature dependencies, memory =>
    if maxDependencyDepth < depth then (.error depthExceeded, memory)
    else
      match solveSubs caching depth dependencies Kwargs.empty [] memory with
      | (.error exc, memory) => (.error exc, memory)
      | (.ok (values, errors), memory) =>
        let (own, ownErrors) := extract signature.fields
        (.ok (values.update own, errors ++ ownErrors), memory)

/-- The loop over the sub-dependencies. -/
def solveSubs (caching : Bool) (depth : ℕ) : List (Dependant C S P) → Kwargs V → List E →
    Memory C S P V → Except PyExc (Kwargs V × List E) × Memory C S P V
  | [], values, errors, memory => (.ok (values, errors), memory)
  | dependant :: dependants, values, errors, memory =>
    match solve caching (depth + 1) dependant memory with
    | (.error exc, memory) => (.error exc, memory)
    | (.ok (args, subErrors), memory) =>
      if subErrors ≠ [] then
        solveSubs caching depth dependants values (errors ++ subErrors) memory
      else
        match provide callables caching dependant args memory with
        | (.error exc, memory) => (.error exc, memory)
        | (.ok value, memory) =>
          solveSubs caching depth dependants (values.setOption dependant.name value) errors
            memory

end

/-! ## Without a memory -/

mutual

/-- The recursion that only computes. -/
def plain (depth : ℕ) : Dependant C S P → Except PyExc (Kwargs V × List E)
  | .mk _ _ _ _ _ _ signature dependencies =>
    if maxDependencyDepth < depth then .error depthExceeded
    else
      match plainSubs depth dependencies Kwargs.empty [] with
      | .error exc => .error exc
      | .ok (values, errors) =>
        let (own, ownErrors) := extract signature.fields
        .ok (values.update own, errors ++ ownErrors)

def plainSubs (depth : ℕ) : List (Dependant C S P) → Kwargs V → List E →
    Except PyExc (Kwargs V × List E)
  | [], values, errors => .ok (values, errors)
  | dependant :: dependants, values, errors =>
    match plain (depth + 1) dependant with
    | .error exc => .error exc
    | .ok (args, subErrors) =>
      if subErrors ≠ [] then plainSubs depth dependants values (errors ++ subErrors)
      else
        match invoke callables dependant args with
        | .error exc => .error exc
        | .ok value =>
          plainSubs depth dependants (values.setOption dependant.name value) errors

end

variable {callables extract}

theorem provide_uncached (dependant : Dependant C S P) (args : Kwargs V)
    (memory : Memory C S P V) :
    (provide callables false dependant args memory).1 = invoke callables dependant args := by
  rw [provide]
  cases invoke callables dependant args <;> rfl

mutual

theorem solve_uncached (depth : ℕ) (dependant : Dependant C S P) (memory : Memory C S P V) :
    (solve callables extract false depth dependant memory).1 =
      plain callables extract depth dependant := by
  match dependant with
  | .mk call name ownScopes parentScopes useCache scope signature dependencies =>
    rw [solve, plain]
    split
    · rfl
    · have hsubs := solveSubs_uncached depth dependencies Kwargs.empty [] memory
      rw [← hsubs]
      rcases solveSubs callables extract false depth dependencies Kwargs.empty [] memory with
        ⟨result | result, memory'⟩
      · rfl
      · rfl

theorem solveSubs_uncached (depth : ℕ) (dependants : List (Dependant C S P)) (values : Kwargs V)
    (errors : List E) (memory : Memory C S P V) :
    (solveSubs callables extract false depth dependants values errors memory).1 =
      plainSubs callables extract depth dependants values errors := by
  match dependants with
  | [] =>
    rw [solveSubs, plainSubs]
  | dependant :: dependants =>
    rw [solveSubs, plainSubs, ← solve_uncached (depth + 1) dependant memory]
    rcases solve callables extract false (depth + 1) dependant memory with
      ⟨exc | ⟨args, subErrors⟩, memory'⟩
    · rfl
    · dsimp only
      split
      · exact solveSubs_uncached depth dependants _ _ _
      · rw [← provide_uncached dependant args memory']
        rcases provide callables false dependant args memory' with ⟨exc | value, memory''⟩
        · rfl
        · exact solveSubs_uncached depth dependants _ _ _

end

/-! ## What a key determines -/

variable {signatureOf : C → Signature C S P}

omit [DecidableEq C] in
theorem Indistinct.invoke_eq {a b : Dependant C S P} (h : Indistinct signatureOf a b)
    (args : Kwargs V) : invoke callables a args = invoke callables b args := by
  rw [invoke, invoke, h.call, h.signature_eq]
  cases hparam : b.signature.securityScopesParam with
  | none => rfl
  | some param =>
    apply callables.setwise
    apply h.scopes
    rw [usesInner, h.signature_eq, hparam]
    rfl

omit [DecidableEq C] in
theorem plainSubs_eq {depth depth' : ℕ} {dependants dependants' : List (Dependant C S P)}
    (hpairs : List.Forall₂ (fun child child' => child.name = child'.name ∧
      (∀ args, invoke callables child args = invoke callables child' args) ∧
      ∀ result result', plain callables extract (depth + 1) child = .ok result →
        plain callables extract (depth' + 1) child' = .ok result' → result = result')
      dependants dependants')
    {values : Kwargs V} {errors : List E} {result result' : Kwargs V × List E}
    (h : plainSubs callables extract depth dependants values errors = .ok result)
    (h' : plainSubs callables extract depth' dependants' values errors = .ok result') :
    result = result' := by
  induction hpairs generalizing values errors with
  | nil =>
    rw [plainSubs] at h h'
    exact Except.ok.inj (h.symm.trans h')
  | @cons child child' dependants dependants' head tail ih =>
    obtain ⟨hname, hinvoke, hsame⟩ := head
    rw [plainSubs] at h h'
    cases hchild : plain callables extract (depth + 1) child with
    | error exc => simp [hchild] at h
    | ok solved =>
      cases hchild' : plain callables extract (depth' + 1) child' with
      | error exc => simp [hchild'] at h'
      | ok solved' =>
        obtain rfl := hsame solved solved' hchild hchild'
        simp only [hchild] at h
        simp only [hchild', ← hinvoke, ← hname] at h'
        split at h
        · next herrors =>
            rw [if_pos herrors] at h'
            exact ih h h'
        · next herrors =>
            rw [if_neg herrors] at h'
            cases hvalue : invoke callables child solved.1 with
            | error exc => simp [hvalue] at h
            | ok value =>
              simp only [hvalue] at h h'
              exact ih h h'

omit [DecidableEq C] in
theorem plain_eq_ok {depth : ℕ} {dependant : Dependant C S P} {result : Kwargs V × List E}
    (h : plain callables extract depth dependant = .ok result) :
    ∃ solved, plainSubs callables extract depth dependant.dependencies Kwargs.empty [] =
        .ok solved ∧
      result = (solved.1.update (extract dependant.signature.fields).1,
        solved.2 ++ (extract dependant.signature.fields).2) := by
  cases dependant with
  | mk call name ownScopes parentScopes useCache scope signature dependencies =>
    rw [plain] at h
    split at h
    · simp at h
    · cases hsubs : plainSubs callables extract depth dependencies Kwargs.empty [] with
      | error exc => simp [hsubs] at h
      | ok solved =>
        simp only [hsubs] at h
        exact ⟨solved, hsubs, (Except.ok.inj h).symm⟩

omit [DecidableEq C] in
theorem Indistinct.plain_eq {a b : Dependant C S P} (h : Indistinct signatureOf a b)
    {depth depth' : ℕ} {result result' : Kwargs V × List E}
    (ha : plain callables extract depth a = .ok result)
    (hb : plain callables extract depth' b = .ok result') : result = result' := by
  have alike : (∀ args, invoke callables a args = invoke callables b args) ∧
      ∀ depth depth' result result', plain callables extract depth a = .ok result →
        plain callables extract depth' b = .ok result' → result = result' := by
    apply Indistinct.alike (R := fun a b =>
      (∀ args, invoke callables a args = invoke callables b args) ∧
        ∀ depth depth' result result', plain callables extract depth a = .ok result →
          plain callables extract depth' b = .ok result' → result = result') _ h
    intro a b h hchildren
    refine ⟨h.invoke_eq, ?_⟩
    intro depth depth' result result' ha hb
    obtain ⟨solved, hsolved, rfl⟩ := plain_eq_ok ha
    obtain ⟨solved', hsolved', rfl⟩ := plain_eq_ok hb
    have hpairs := hchildren.imp fun child child' hpair =>
      And.intro hpair.1 (And.intro hpair.2.1 fun result result' =>
        hpair.2.2 (depth + 1) (depth' + 1) result result')
    rw [plainSubs_eq hpairs hsolved hsolved', h.signature_eq]
  exact alike.2 depth depth' result result' ha hb

/-! ## The memory of a run -/

/-- No callable was called twice for one key, and what was handed on was computed under
the scopes that are read. -/
structure Memory.Fair (memory : Memory C S P V) : Prop where
  once : ((memory.calls.filter useCache).map cacheKey).Nodup
  handed : ∀ pair ∈ memory.handed, pair.1.reads = pair.2.reads

variable (callables extract signatureOf) in
/-- Besides, the cache has what a call would give, for everything that was called. -/
structure Memory.Valid (memory : Memory C S P V) : Prop extends memory.Fair where
  cached : ∀ key value first, memory.cache key = some (value, first) →
    Built signatureOf first ∧ first.cacheKey = key ∧ ∃ depth args,
      plain callables extract depth first = .ok (args, []) ∧
        invoke callables first args = .ok value
  stored : ∀ dependant ∈ memory.calls, dependant.useCache = true →
    (memory.cache dependant.cacheKey).isSome

variable (callables extract signatureOf) in
/-- A step has the result of the plain recursion and leaves the memory in order. -/
structure Agrees {A : Type*} (outcome : Except PyExc A × Memory C S P V)
    (expected : Except PyExc A) : Prop where
  result : outcome.1 = expected
  fair : outcome.2.Fair
  valid : ∀ value, outcome.1 = .ok value → outcome.2.Valid callables extract signatureOf

omit [DecidableEq C] in
theorem Memory.valid_empty :
    ({} : Memory C S P V).Valid callables extract signatureOf where
  once := nodup_nil
  handed := by simp
  cached := by simp
  stored := by simp

omit [DecidableEq C] in
theorem Memory.Valid.called {memory : Memory C S P V}
    (h : memory.Valid callables extract signatureOf) (dependant : Dependant C S P)
    (hfresh : dependant.useCache = true → memory.cache dependant.cacheKey = none) :
    { memory with calls := memory.calls ++ [dependant] }.Fair := by
  refine ⟨?_, h.handed⟩
  rw [filter_append, map_append]
  cases huse : dependant.useCache with
  | false =>
    rw [filter_cons_of_neg (by simp [huse])]
    simpa using h.once
  | true =>
    have hnew : dependant.cacheKey ∉ (memory.calls.filter useCache).map cacheKey := by
      intro hmem
      obtain ⟨other, hother, hkey⟩ := mem_map.mp hmem
      obtain ⟨hcalled, hcached⟩ := mem_filter.mp hother
      have hstored := h.stored other hcalled hcached
      rw [hkey, hfresh huse] at hstored
      simp at hstored
    rw [filter_cons_of_pos huse]
    exact List.Nodup.append h.once (nodup_singleton _) (by simpa using hnew)

theorem provide_agrees {memory : Memory C S P V} (h : memory.Valid callables extract signatureOf)
    {dependant : Dependant C S P} (hbuilt : Built signatureOf dependant) {depth : ℕ}
    {args : Kwargs V} (hplain : plain callables extract depth dependant = .ok (args, [])) :
    Agrees callables extract signatureOf (provide callables true dependant args memory)
      (invoke callables dependant args) := by
  rw [provide, Bool.true_and]
  cases hfound : if dependant.useCache then memory.cache dependant.cacheKey else none with
  | some found =>
    obtain ⟨value, first⟩ := found
    obtain ⟨-, hcache⟩ := Option.ite_none_right_eq_some.mp hfound
    obtain ⟨hfirst, hkey, depth', args', hplain', hvalue⟩ := h.cached _ _ _ hcache
    have hindistinct := Indistinct.of_cacheKey hfirst hbuilt hkey
    have hargs := hindistinct.plain_eq hplain' hplain
    simp only [Prod.mk.injEq, and_true] at hargs
    have hreads := hindistinct.reads_eq
    have hhanded : ∀ pair ∈ memory.handed ++ [(first, dependant)], pair.1.reads = pair.2.reads := by
      intro pair hpair
      rcases mem_append.mp hpair with hpair | hpair
      · exact h.handed _ hpair
      · rw [mem_singleton.mp hpair]
        exact hreads
    refine ⟨?_, ⟨h.once, hhanded⟩, fun _ _ => ⟨⟨h.once, hhanded⟩, h.cached, h.stored⟩⟩
    rw [← hindistinct.invoke_eq, ← hargs, hvalue]
  | none =>
    have hfresh : dependant.useCache = true → memory.cache dependant.cacheKey = none := by
      intro huse
      rwa [if_pos huse] at hfound
    have hfair := h.called _ hfresh
    have hkept (other : Dependant C S P) (hother : other.cacheKey ≠ dependant.cacheKey)
        (value : V × Dependant C S P) :
        Function.update memory.cache dependant.cacheKey (some value) other.cacheKey =
          memory.cache other.cacheKey := Function.update_of_ne hother ..
    cases hvalue : invoke callables dependant args with
    | error exc => exact ⟨rfl, hfair, fun _ h => nomatch h⟩
    | ok value =>
      cases huse : dependant.useCache with
      | false =>
        refine ⟨rfl, hfair, fun _ _ => ⟨hfair, h.cached, ?_⟩⟩
        intro other hother hcached
        rcases mem_append.mp hother with hother | hother
        · exact h.stored _ hother hcached
        · rw [mem_singleton.mp hother, huse] at hcached
          simp at hcached
      | true =>
        have hremembered : ({ memory with
            calls := memory.calls ++ [dependant]
            cache := Function.update memory.cache dependant.cacheKey
              (some (value, dependant)) } : Memory C S P V).Fair := ⟨hfair.once, hfair.handed⟩
        refine ⟨rfl, hremembered, fun _ _ => ⟨hremembered, ?_, ?_⟩⟩
        · intro key value' first hfirst
          by_cases hkey : key = dependant.cacheKey
          · subst hkey
            simp only [if_true, Function.update_self, Option.some.injEq, Prod.mk.injEq] at hfirst
            obtain ⟨rfl, rfl⟩ := hfirst
            exact ⟨hbuilt, rfl, depth, args, hplain, hvalue⟩
          · simp only [if_true, Function.update_of_ne hkey] at hfirst
            exact h.cached _ _ _ hfirst
        · intro other hother hcached
          by_cases hkey : other.cacheKey = dependant.cacheKey
          · simp [hkey]
          · simp only [if_true, hkept _ hkey]
            rcases mem_append.mp hother with hother | hother
            · exact h.stored _ hother hcached
            · exact absurd (congrArg _ (mem_singleton.mp hother)) hkey

mutual

/-- The recursion with the cache, at a dependant. -/
theorem solve_agrees (depth : ℕ) (dependant : Dependant C S P)
    (hbuilt : ∀ child ∈ dependant.dependencies, Built signatureOf child)
    {memory : Memory C S P V} (h : memory.Valid callables extract signatureOf) :
    Agrees callables extract signatureOf (solve callables extract true depth dependant memory)
      (plain callables extract depth dependant) := by
  match dependant with
  | .mk call name ownScopes parentScopes useCache scope signature dependencies =>
    rw [solve, plain]
    split
    · exact ⟨rfl, h.toFair, fun _ h => nomatch h⟩
    · have hsubs := solveSubs_agrees depth dependencies hbuilt Kwargs.empty [] h
      obtain ⟨hresult, hfair, hvalid⟩ := hsubs
      rw [← hresult]
      rcases hsolved : solveSubs callables extract true depth dependencies Kwargs.empty []
        memory with ⟨exc | solved, memory'⟩
      · rw [hsolved] at hfair
        exact ⟨rfl, hfair, fun _ h => nomatch h⟩
      · rw [hsolved] at hfair hvalid
        exact ⟨rfl, hfair, fun _ _ => hvalid _ rfl⟩

theorem solveSubs_agrees (depth : ℕ) (dependants : List (Dependant C S P))
    (hbuilt : ∀ child ∈ dependants, Built signatureOf child) (values : Kwargs V)
    (errors : List E) {memory : Memory C S P V}
    (h : memory.Valid callables extract signatureOf) :
    Agrees callables extract signatureOf
      (solveSubs callables extract true depth dependants values errors memory)
      (plainSubs callables extract depth dependants values errors) := by
  match dependants with
  | [] =>
    rw [solveSubs, plainSubs]
    exact ⟨rfl, h.toFair, fun _ _ => h⟩
  | dependant :: dependants =>
    have hfirst := hbuilt dependant mem_cons_self
    have hrest : ∀ child ∈ dependants, Built signatureOf child :=
      fun child hchild => hbuilt child (mem_cons_of_mem _ hchild)
    obtain ⟨hresult, hfair, hvalid⟩ := solve_agrees (depth + 1) dependant hfirst.children h
    rw [solveSubs, plainSubs, ← hresult]
    rcases hsolve : solve callables extract true (depth + 1) dependant memory with
      ⟨exc | ⟨args, subErrors⟩, memory'⟩
    · rw [hsolve] at hfair
      exact ⟨rfl, hfair, fun _ h => nomatch h⟩
    · rw [hsolve] at hresult hvalid
      have hmemory : memory'.Valid callables extract signatureOf := hvalid _ rfl
      dsimp only
      split
      · exact solveSubs_agrees depth dependants hrest _ _ hmemory
      · next herrors =>
          rw [ne_eq, not_not] at herrors
          subst herrors
          obtain ⟨hvalue, hfair', hvalid'⟩ := provide_agrees hmemory hfirst hresult.symm
          rw [← hvalue]
          rcases hprovided : provide callables true dependant args memory' with
            ⟨exc | value, memory''⟩
          · rw [hprovided] at hfair'
            exact ⟨rfl, hfair', fun _ h => nomatch h⟩
          · rw [hprovided] at hvalid'
            exact solveSubs_agrees depth dependants hrest _ _ (hvalid' _ rfl)

end

end Solve

/-- The dependant of an endpoint; a router may add dependencies of its own. -/
structure DependencyTree (signatureOf : C → Signature C S P) where
  root : Dependant C S P
  built : ∀ child ∈ root.dependencies, Built signatureOf child

/-- The tree of an endpoint as `get_dependant` builds it. -/
def Built.tree {signatureOf : C → Signature C S P} {root : Dependant C S P}
    (h : Built signatureOf root) : DependencyTree signatureOf where
  root := root
  built := h.children

/-- With the cache the recursion gives the plain values, as it does without, calls each
callable at most once for a key, and hands no result on to where other scopes are read. -/
theorem solve_caching [DecidableEq C] [DecidableEq S] (callables : Callables C S V)
    (extract : P → Kwargs V × List E) {signatureOf : C → Signature C S P}
    (tree : DependencyTree signatureOf) :
    let cached := solve callables extract true 0 tree.root {}
    cached.1 = plain callables extract 0 tree.root ∧
      (solve callables extract false 0 tree.root {}).1 = plain callables extract 0 tree.root ∧
      ((cached.2.calls.filter useCache).map cacheKey).Nodup ∧
      ∀ first dependant, (first, dependant) ∈ cached.2.handed → first.reads = dependant.reads := by
  have agrees : Agrees callables extract signatureOf _ _ :=
    solve_agrees 0 _ tree.built Memory.valid_empty
  exact ⟨agrees.result, solve_uncached 0 tree.root {}, agrees.fair.once,
    fun first dependant => agrees.fair.handed (first, dependant)⟩

def scopesRead : Callables String String (Finset String) where
  apply := fun _ _ scopes => .ok (scopes.elim ∅ toFinset)
  setwise := by
    intro _ _ scopes scopes' h
    exact congrArg Except.ok (Finset.ext fun scope => by simpa using h scope)

/-- The endpoint has no parameters besides. -/
def noFields : Unit → Kwargs (Finset String) × List Unit :=
  fun _ => (Kwargs.empty, [])

/-- The user is looked up for each set of scopes, the token once. -/
theorem solve_caching_user :
    let cached := solve scopesRead noFields true 0 userRoot_built.tree.root {}
    cached.1 = plain scopesRead noFields 0 userRoot_built.tree.root ∧
      ((cached.2.calls.filter useCache).map cacheKey).Nodup ∧
      cached.2.calls.map (fun called => (called.call, called.oauthScopes)) =
        [("token", ["read"]), ("user", ["read"]), ("user", ["write"])] :=
  have caching := solve_caching scopesRead noFields userRoot_built.tree
  ⟨caching.1, caching.2.2.1, by decide⟩

end AstraApi.Deps.SecurityScopes
