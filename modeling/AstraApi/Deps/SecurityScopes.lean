import AstraApi.Deps.Generators

/-!
# Dependencies with OAuth scopes

`get_dependant` reads the signature of a callable and those of its sub-dependencies.
`Security` adds OAuth scopes for everything below it, and a callable sees them through a
parameter of type `SecurityScopes`.  The cache key of a dependency has the scopes only if
something below it uses them.
-/

namespace AstraApi.Deps.SecurityScopes

open List
open AstraApi.Deps (Name Scope)

variable {C S P : Type*}

/-! ## Signatures -/

structure Depends (C S : Type*) where
  name : Name
  dependency : C
  scopes : List S := []
  useCache : Bool := true
  scope : Option Scope := none

/-- The signature of a callable; `fields` are its other parameters. -/
structure Signature (C S P : Type*) where
  depends : List (Depends C S)
  fields : P
  securityScopesParam : Option Name := none
  isSecurityScheme : Bool := false
  isGenerator : Bool := false

inductive Dependant (C S P : Type*) where
  | mk (call : C) (name : Option Name) (ownScopes parentScopes : List S) (useCache : Bool)
      (scope : Option Scope) (signature : Signature C S P)
      (dependencies : List (Dependant C S P))

namespace Dependant

def call : Dependant C S P → C
  | mk call .. => call

def name : Dependant C S P → Option Name
  | mk _ name .. => name

def ownScopes : Dependant C S P → List S
  | mk _ _ ownScopes .. => ownScopes

def parentScopes : Dependant C S P → List S
  | mk _ _ _ parentScopes .. => parentScopes

def useCache : Dependant C S P → Bool
  | mk _ _ _ _ useCache .. => useCache

def scope : Dependant C S P → Option Scope
  | mk _ _ _ _ _ scope .. => scope

def signature : Dependant C S P → Signature C S P
  | mk _ _ _ _ _ _ signature _ => signature

def dependencies : Dependant C S P → List (Dependant C S P)
  | mk _ _ _ _ _ _ _ dependencies => dependencies

/-- `computed_scope`: generators have request scope unless told otherwise. -/
def computedScope (dependant : Dependant C S P) : Option Scope :=
  dependant.scope.or (if dependant.signature.isGenerator then some .request else none)

section Keys

variable [DecidableEq S]

/-- `oauth_scopes`: the own scopes after the parent's, each once. -/
def oauthScopes (dependant : Dependant C S P) : List S :=
  dependant.ownScopes.foldl (fun scopes scope => if scope ∈ scopes then scopes else scopes ++ [scope])
    dependant.parentScopes

mutual

def usesScopes : Dependant C S P → Bool
  | .mk _ _ ownScopes _ _ _ signature dependencies =>
    !ownScopes.isEmpty || signature.securityScopesParam.isSome || signature.isSecurityScheme ||
      anyUsesScopes dependencies

def anyUsesScopes : List (Dependant C S P) → Bool
  | [] => false
  | dependant :: dependants => usesScopes dependant || anyUsesScopes dependants

end

/-- `cache_key`; the sorted tuple of a set stands for the set. -/
def cacheKey (dependant : Dependant C S P) : C × Finset S × Option Scope :=
  (dependant.call, if dependant.usesScopes then dependant.oauthScopes.toFinset else ∅,
    dependant.computedScope)

mutual

def reads : Dependant C S P → List (Finset S)
  | .mk call name ownScopes parentScopes useCache scope signature dependencies =>
    (if signature.securityScopesParam.isSome then
      [(oauthScopes (.mk call name ownScopes parentScopes useCache scope signature
        dependencies)).toFinset]
    else []) ++ allReads dependencies

def allReads : List (Dependant C S P) → List (Finset S)
  | [] => []
  | dependant :: dependants => reads dependant ++ allReads dependants

end

end Keys

end Dependant

/-! ## Building the tree -/

section Build

variable (signatureOf : C → Signature C S P)

/-- `get_dependant`; it fails when a generator of request scope depends on something of
function scope, or when the signatures go on without end. -/
def getDependant : ℕ → C → Option Name → List S → List S → Bool → Option Scope →
    Option (Dependant C S P)
  | 0, _, _, _, _, _, _ => none
  | fuel + 1, call, name, ownScopes, parentScopes, useCache, scope => do
    let signature := signatureOf call
    let computed := scope.or (if signature.isGenerator then some .request else none)
    let currentScopes := parentScopes ++ ownScopes
    let dependencies ← signature.depends.mapM fun depends =>
      if signature.isGenerator ∧ computed = some .request ∧ depends.scope = some .function then
        none
      else
        getDependant fuel depends.dependency (some depends.name) depends.scopes currentScopes
          depends.useCache depends.scope
    return .mk call name ownScopes parentScopes useCache scope signature dependencies

def Built (dependant : Dependant C S P) : Prop :=
  ∃ fuel call name ownScopes parentScopes useCache scope,
    getDependant signatureOf fuel call name ownScopes parentScopes useCache scope =
      some dependant

structure Declared (scopes : List S) (depends : Depends C S) (dependant : Dependant C S P) :
    Prop where
  built : Built signatureOf dependant
  call : dependant.call = depends.dependency
  name : dependant.name = some depends.name
  ownScopes : dependant.ownScopes = depends.scopes
  parentScopes : dependant.parentScopes = scopes
  useCache : dependant.useCache = depends.useCache
  scope : dependant.scope = depends.scope

variable {signatureOf}

theorem forall₂_of_mapM {α β : Type*} {f : α → Option β} {R : α → β → Prop} {l : List α}
    {m : List β} (h : l.mapM f = some m) (hR : ∀ a b, f a = some b → R a b) :
    List.Forall₂ R l m := by
  induction l generalizing m with
  | nil =>
    cases h
    exact .nil
  | cons a l ih =>
    simp only [mapM_cons, Option.pure_def, Option.bind_eq_bind, Option.bind_eq_some_iff,
      Option.some.injEq] at h
    obtain ⟨b, hb, bs, hbs, rfl⟩ := h
    exact .cons (hR a b hb) (ih hbs)

theorem getDependant_header {fuel : ℕ} {call : C} {name : Option Name}
    {ownScopes parentScopes : List S} {useCache : Bool} {scope : Option Scope}
    {dependant : Dependant C S P}
    (h : getDependant signatureOf fuel call name ownScopes parentScopes useCache scope =
      some dependant) :
    dependant.call = call ∧ dependant.name = name ∧ dependant.ownScopes = ownScopes ∧
      dependant.parentScopes = parentScopes ∧ dependant.useCache = useCache ∧
        dependant.scope = scope := by
  cases fuel with
  | zero => simp [getDependant] at h
  | succ fuel =>
    simp only [getDependant, Option.bind_eq_bind, Option.bind_eq_some_iff, Option.pure_def,
      Option.some.injEq] at h
    obtain ⟨dependencies, -, rfl⟩ := h
    exact ⟨rfl, rfl, rfl, rfl, rfl, rfl⟩

/-- A built dependant has its callable's signature, and its sub-dependants are those that
the signature declares. -/
theorem Built.inv {dependant : Dependant C S P} (h : Built signatureOf dependant) :
    dependant.signature = signatureOf dependant.call ∧
      List.Forall₂ (Declared signatureOf (dependant.parentScopes ++ dependant.ownScopes))
        (signatureOf dependant.call).depends dependant.dependencies := by
  obtain ⟨fuel, call, name, ownScopes, parentScopes, useCache, scope, h⟩ := h
  cases fuel with
  | zero => simp [getDependant] at h
  | succ fuel =>
    simp only [getDependant, Option.bind_eq_bind, Option.bind_eq_some_iff, Option.pure_def,
      Option.some.injEq] at h
    obtain ⟨dependencies, hdependencies, rfl⟩ := h
    refine ⟨rfl, forall₂_of_mapM hdependencies ?_⟩
    intro depends child hchild
    rcases ite_eq_iff.mp hchild with ⟨-, hchild⟩ | ⟨-, hchild⟩
    · simp at hchild
    · obtain ⟨hcall, hname, hown, hparent, huse, hscope⟩ := getDependant_header hchild
      exact ⟨⟨_, _, _, _, _, _, _, hchild⟩, hcall, hname, hown, hparent, huse, hscope⟩

theorem Built.children {dependant : Dependant C S P} (h : Built signatureOf dependant) :
    ∀ child ∈ dependant.dependencies, Built signatureOf child := by
  have hdeclared := h.inv.2
  generalize dependant.dependencies = children, (signatureOf dependant.call).depends = declared
    at hdeclared
  induction hdeclared with
  | nil => simp
  | cons head _ ih => exact forall_mem_cons.mpr ⟨head.built, ih⟩

theorem sizeOf_lt {child dependant : Dependant C S P} (h : child ∈ dependant.dependencies) :
    sizeOf child < sizeOf dependant := by
  cases dependant with
  | mk call name ownScopes parentScopes useCache scope signature dependencies =>
    have hlt := sizeOf_lt_of_mem (show child ∈ dependencies from h)
    simp only [Dependant.mk.sizeOf_spec]
    omega

theorem forall₂_pair {α β γ : Type*} {R : α → β → Prop} {R' : α → γ → Prop} {Q : β → γ → Prop}
    {l : List α} {m : List β} {m' : List γ} (h : List.Forall₂ R l m) (h' : List.Forall₂ R' l m')
    (hQ : ∀ a, ∀ b ∈ m, ∀ c, R a b → R' a c → Q b c) : List.Forall₂ Q m m' := by
  induction h generalizing m' with
  | nil =>
    cases h'
    exact .nil
  | cons head _ ih =>
    cases h' with
    | cons head' tail' =>
      exact .cons (hQ _ _ mem_cons_self _ head head')
        (ih tail' fun a b hb => hQ a b (mem_cons_of_mem _ hb))

/-- Corresponding sub-dependants of two dependants with one callable. -/
structure Paired (signatureOf : C → Signature C S P) (parent parent' : Dependant C S P)
    (child child' : Dependant C S P) : Prop where
  built : Built signatureOf child
  built' : Built signatureOf child'
  call : child.call = child'.call
  name : child.name = child'.name
  ownScopes : child.ownScopes = child'.ownScopes
  parentScopes : child.parentScopes = parent.parentScopes ++ parent.ownScopes
  parentScopes' : child'.parentScopes = parent'.parentScopes ++ parent'.ownScopes

theorem Declared.paired {parent parent' child child' : Dependant C S P} {depends : Depends C S}
    (h : Declared signatureOf (parent.parentScopes ++ parent.ownScopes) depends child)
    (h' : Declared signatureOf (parent'.parentScopes ++ parent'.ownScopes) depends child') :
    Paired signatureOf parent parent' child child' :=
  ⟨h.built, h'.built, h.call.trans h'.call.symm, h.name.trans h'.name.symm,
    h.ownScopes.trans h'.ownScopes.symm, h.parentScopes, h'.parentScopes⟩

/-- Two dependants with one callable are alike in whatever follows, level by level, from
their sub-dependants. -/
theorem Built.alike {R : Dependant C S P → Dependant C S P → Prop}
    (step : ∀ a b, Built signatureOf a → Built signatureOf b → a.call = b.call →
      a.signature = b.signature →
      List.Forall₂ (fun child child' => child ∈ a.dependencies ∧
        Paired signatureOf a b child child' ∧ R child child') a.dependencies b.dependencies → R a b)
    {a b : Dependant C S P} (ha : Built signatureOf a) (hb : Built signatureOf b)
    (hcall : a.call = b.call) : R a b := by
  induction hn : sizeOf a using Nat.strongRecOn generalizing a b with
  | ind n ih =>
    obtain ⟨hsignature, hchildren⟩ := ha.inv
    obtain ⟨hsignature', hchildren'⟩ := hb.inv
    rw [← hcall] at hsignature' hchildren'
    apply step a b ha hb hcall (hsignature.trans hsignature'.symm)
    apply forall₂_pair hchildren hchildren'
    intro depends child hchild child' hdeclared hdeclared'
    have hpaired := hdeclared.paired hdeclared'
    exact ⟨hchild, hpaired, ih _ (hn ▸ sizeOf_lt hchild) hpaired.built hpaired.built' hpaired.call rfl⟩

end Build

/-! ## What a cache key determines -/

section Determines

variable [DecidableEq S] {signatureOf : C → Signature C S P}

namespace Dependant

theorem mem_oauthScopes {dependant : Dependant C S P} {scope : S} :
    scope ∈ dependant.oauthScopes ↔
      scope ∈ dependant.parentScopes ∨ scope ∈ dependant.ownScopes := by
  have loop (own scopes : List S) : scope ∈ own.foldl
      (fun scopes scope => if scope ∈ scopes then scopes else scopes ++ [scope]) scopes ↔
        scope ∈ scopes ∨ scope ∈ own := by
    induction own generalizing scopes with
    | nil => simp
    | cons first own ih =>
      rw [foldl_cons, ih]
      split
      · next hfirst =>
          constructor
          · exact Or.imp_right (mem_cons_of_mem _)
          · rintro (h | h)
            · exact .inl h
            · rcases mem_cons.mp h with rfl | h
              · exact .inl hfirst
              · exact .inr h
      · simp [or_assoc]
  exact loop _ _

/-- Something at or below the callable itself uses scopes; the own scopes of the
dependant are left out. -/
def usesInner (dependant : Dependant C S P) : Bool :=
  dependant.signature.securityScopesParam.isSome || dependant.signature.isSecurityScheme ||
    anyUsesScopes dependant.dependencies

omit [DecidableEq S] in
theorem usesScopes_eq (dependant : Dependant C S P) :
    dependant.usesScopes = (!dependant.ownScopes.isEmpty || dependant.usesInner) := by
  cases dependant
  simp only [usesScopes, usesInner, ownScopes, signature, dependencies, Bool.or_assoc]

theorem reads_eq (dependant : Dependant C S P) :
    dependant.reads = (if dependant.signature.securityScopesParam.isSome then
      [dependant.oauthScopes.toFinset] else []) ++ allReads dependant.dependencies := by
  cases dependant
  rfl

omit [DecidableEq S] in
theorem anyUsesScopes_iff {dependants : List (Dependant C S P)} :
    anyUsesScopes dependants = true ↔ ∃ dependant ∈ dependants, dependant.usesScopes = true := by
  induction dependants with
  | nil => simp [anyUsesScopes]
  | cons first dependants ih => simp [anyUsesScopes, ih]

end Dependant

open AstraApi.Deps.SecurityScopes.Dependant

omit [DecidableEq S] in
theorem Built.usesInner_eq {a b : Dependant C S P} (ha : Built signatureOf a)
    (hb : Built signatureOf b) (hcall : a.call = b.call) : a.usesInner = b.usesInner := by
  apply Built.alike (R := fun a b => a.usesInner = b.usesInner) _ ha hb hcall
  intro a b _ _ _ hsignature hchildren
  have hpairs := hchildren.imp fun _ _ h => And.intro h.2.1.ownScopes h.2.2
  have below : anyUsesScopes a.dependencies = anyUsesScopes b.dependencies := by
    generalize a.dependencies = left, b.dependencies = right at hpairs
    induction hpairs with
    | nil => rfl
    | cons head _ ih =>
      rw [anyUsesScopes, anyUsesScopes, ih, usesScopes_eq, usesScopes_eq, head.1, head.2]
  rw [usesInner, usesInner, hsignature, below]

/-- Two dependants that cannot be told apart from inside. -/
structure Indistinct (signatureOf : C → Signature C S P) (a b : Dependant C S P) : Prop where
  built : Built signatureOf a
  built' : Built signatureOf b
  call : a.call = b.call
  scopes : a.usesInner = true → ∀ scope, scope ∈ a.oauthScopes ↔ scope ∈ b.oauthScopes

theorem Indistinct.of_cacheKey {a b : Dependant C S P} (ha : Built signatureOf a)
    (hb : Built signatureOf b) (h : a.cacheKey = b.cacheKey) : Indistinct signatureOf a b := by
  simp only [cacheKey, Prod.mk.injEq] at h
  obtain ⟨hcall, hscopes, -⟩ := h
  refine ⟨ha, hb, hcall, ?_⟩
  intro huses scope
  have huses' := ha.usesInner_eq hb hcall ▸ huses
  have hfull : a.usesScopes = true := by
    rw [usesScopes_eq, huses, Bool.or_true]
  have hfull' : b.usesScopes = true := by
    rw [usesScopes_eq, huses', Bool.or_true]
  rw [if_pos hfull, if_pos hfull'] at hscopes
  rw [← mem_toFinset, hscopes, mem_toFinset]

theorem Indistinct.child {a b child child' : Dependant C S P} (h : Indistinct signatureOf a b)
    (hchild : child ∈ a.dependencies) (hpaired : Paired signatureOf a b child child') :
    Indistinct signatureOf child child' := by
  refine ⟨hpaired.built, hpaired.built', hpaired.call, ?_⟩
  intro huses scope
  have habove : a.usesInner = true := by
    rw [usesInner, Bool.or_eq_true, anyUsesScopes_iff]
    right
    refine ⟨child, hchild, ?_⟩
    rw [usesScopes_eq, huses, Bool.or_true]
  have hscopes := h.scopes habove scope
  rw [mem_oauthScopes, mem_oauthScopes] at hscopes ⊢
  rw [hpaired.parentScopes, hpaired.parentScopes', hpaired.ownScopes, mem_append,
    mem_append, hscopes]

theorem Indistinct.alike {R : Dependant C S P → Dependant C S P → Prop}
    (step : ∀ a b, Indistinct signatureOf a b →
      List.Forall₂ (fun child child' => child.name = child'.name ∧ R child child')
        a.dependencies b.dependencies → R a b)
    {a b : Dependant C S P} (h : Indistinct signatureOf a b) : R a b := by
  apply Built.alike (R := fun a b => Indistinct _ a b → R a b) _ h.built h.built' h.call h
  intro a b _ _ _ _ hchildren h
  apply step a b h
  apply hchildren.imp
  rintro child child' ⟨hchild, hpaired, hR⟩
  exact ⟨hpaired.name, hR (h.child hchild hpaired)⟩

theorem Indistinct.signature_eq {a b : Dependant C S P} (h : Indistinct signatureOf a b) :
    a.signature = b.signature := by
  rw [h.built.inv.1, h.built'.inv.1, h.call]

theorem Indistinct.toFinset_eq {a b : Dependant C S P} (h : Indistinct signatureOf a b)
    (huses : a.usesInner = true) : a.oauthScopes.toFinset = b.oauthScopes.toFinset := by
  ext scope
  rw [mem_toFinset, mem_toFinset]
  exact h.scopes huses _

theorem Indistinct.reads_eq {a b : Dependant C S P} (h : Indistinct signatureOf a b) :
    a.reads = b.reads := by
  apply h.alike
  intro a b h hchildren
  have below : allReads a.dependencies = allReads b.dependencies := by
    generalize a.dependencies = left, b.dependencies = right at hchildren
    induction hchildren with
    | nil => rfl
    | cons head _ ih => rw [allReads, allReads, head.2, ih]
  rw [Dependant.reads_eq, Dependant.reads_eq, below, h.signature_eq]
  cases hparam : b.signature.securityScopesParam with
  | none => rfl
  | some param =>
    have huses : a.usesInner = true := by
      rw [usesInner, h.signature_eq, hparam]
      rfl
    rw [h.toFinset_eq huses]

end Determines

/-! ## A user under two scopes -/

def userSignatures : String → Signature String String Unit
  | "endpoint" => {
      depends := [{ name := "reader", dependency := "user", scopes := ["read"] },
        { name := "writer", dependency := "user", scopes := ["write"] },
        { name := "again", dependency := "user", scopes := ["write"] }]
      fields := () }
  | "user" => {
      depends := [{ name := "token", dependency := "token" }]
      fields := ()
      securityScopesParam := some "scopes" }
  | _ => { depends := [], fields := () }

def userUnder (name : Name) (scope : String) : Dependant String String Unit :=
  .mk "user" (some name) [scope] [] true none (userSignatures "user")
    [.mk "token" (some "token") [] [scope] true none (userSignatures "token") []]

def userRoot : Dependant String String Unit :=
  .mk "endpoint" none [] [] true none (userSignatures "endpoint")
    [userUnder "reader" "read", userUnder "writer" "write", userUnder "again" "write"]

theorem userRoot_built : Built userSignatures userRoot :=
  ⟨3, "endpoint", none, [], [], true, none, rfl⟩

end AstraApi.Deps.SecurityScopes
