import AstraApi.Deps.SecurityScopes
import AstraApi.Deps.Tree

/-!
# The order of the flat list

`_flatten_deps` goes below an occurrence only when its cache key is new.  What it leaves out
has been there before, as long as occurrences with one key have the same sub-dependencies,
which is so in every tree that `get_dependant` builds.
-/

namespace AstraApi.Deps

open List
open Dependant

variable {C K V : Type*}

/-! ## Trees with one meaning for each key -/

namespace Dependant

/-- What a parent asks for. -/
def request (dependant : Dependant C K V) : Option Name × (C × K) × Bool :=
  (dependant.name, dependant.cacheKey, dependant.useCache)

def cachedKeys (dependants : List (Dependant C K V)) : List (C × K) :=
  (dependants.filter Dependant.useCache).map Dependant.cacheKey

theorem mem_cachedKeys {key : C × K} {dependants : List (Dependant C K V)} :
    key ∈ cachedKeys dependants ↔
      ∃ dependant ∈ dependants, dependant.useCache = true ∧ dependant.cacheKey = key := by
  simp [cachedKeys, and_assoc]

theorem cachedKeys_append (left right : List (Dependant C K V)) :
    cachedKeys (left ++ right) = cachedKeys left ++ cachedKeys right := by
  rw [cachedKeys, filter_append, map_append]
  rfl

theorem allPositions_singleton (dependant : Dependant C K V) :
    allPositions [dependant] = dependant :: allPositions dependant.dependencies := by
  rw [allPositions, allPositions, append_nil, positions_eq]

/-- By induction along a list of dependants and into the sub-dependants of its head. -/
theorem below_induction {motive : List (Dependant C K V) → Prop} (nil : motive [])
    (cons : ∀ dependant dependants, motive dependant.dependencies → motive dependants →
      motive (dependant :: dependants)) (dependants : List (Dependant C K V)) :
    motive dependants := by
  induction hn : (allPositions dependants).length using Nat.strongRecOn generalizing dependants with
  | ind n ih =>
    cases dependants with
    | nil => exact nil
    | cons dependant dependants =>
      rw [allPositions, length_append, positions_eq, length_cons] at hn
      exact cons _ _ (ih _ (by omega) _ rfl) (ih _ (by omega) _ rfl)

theorem length_below_lt {inner : Dependant C K V} {dependants : List (Dependant C K V)}
    (h : inner ∈ allPositions dependants) :
    (allPositions inner.dependencies).length < (allPositions dependants).length := by
  induction dependants using below_induction with
  | nil => cases h
  | cons dependant dependants hbelow hrest =>
    rw [allPositions, mem_append, positions_eq, mem_cons] at h
    rw [allPositions, length_append, positions_eq, length_cons]
    rcases h with (rfl | hin) | hin
    · omega
    · have hlt := hbelow hin
      omega
    · have hlt := hrest hin
      omega

theorem positions_below {roots : List (Dependant C K V)} {outer inner : Dependant C K V}
    (houter : outer ∈ allPositions roots) (hinner : inner ∈ allPositions outer.dependencies) :
    inner ∈ allPositions roots := by
  induction roots using below_induction with
  | nil => cases houter
  | cons dependant dependants hbelow hrest =>
    rw [allPositions, positions_eq, mem_append, mem_cons] at houter ⊢
    rcases houter with (rfl | hin) | hin
    · exact .inl (.inr hinner)
    · exact .inl (.inr (hbelow hin))
    · exact .inr (hrest hin)

end Dependant

/-- Occurrences with one cache key ask for the same sub-dependencies. -/
def Uniform (roots : List (Dependant C K V)) : Prop :=
  ∀ a ∈ allPositions roots, ∀ b ∈ allPositions roots, a.cacheKey = b.cacheKey →
    a.dependencies.map request = b.dependencies.map request

section Uniform

variable {roots : List (Dependant C K V)}

/-- They ask for the same at all depths. -/
theorem Uniform.below (hroots : Uniform roots) {a b : Dependant C K V}
    (ha : a ∈ allPositions roots) (hb : b ∈ allPositions roots) (hkey : a.cacheKey = b.cacheKey) :
    (allPositions a.dependencies).map request = (allPositions b.dependencies).map request := by
  have hlists (left right : List (Dependant C K V)) (hleft : ∀ child ∈ left, child ∈ allPositions roots)
      (hright : ∀ child ∈ right, child ∈ allPositions roots)
      (h : left.map request = right.map request) :
      (allPositions left).map request = (allPositions right).map request := by
    induction left using below_induction generalizing right with
    | nil => rw [map_eq_nil_iff.mp h.symm]
    | cons child left hbelow hrest =>
      obtain ⟨child', right, rfl, hrequest, htail⟩ := map_eq_cons_iff.mp h.symm
      rw [forall_mem_cons] at hleft hright
      have hkeys : child.cacheKey = child'.cacheKey :=
        (Prod.mk.inj (Prod.mk.inj hrequest.symm).2).1
      rw [allPositions, allPositions, map_append, map_append, positions_eq, positions_eq,
        map_cons, map_cons, hrequest, hrest _ hleft.2 hright.2 htail.symm,
        hbelow _ (fun _ => positions_trans hleft.1) (fun _ => positions_trans hright.1)
          (hroots _ hleft.1 _ hright.1 hkeys)]
  exact hlists _ _ (fun _ => positions_trans ha) (fun _ => positions_trans hb) (hroots a ha b hb hkey)

theorem Uniform.ne_below (hroots : Uniform roots) {a b : Dependant C K V}
    (ha : a ∈ allPositions roots) (hb : b ∈ allPositions roots)
    (hbelow : b ∈ allPositions a.dependencies) : b.cacheKey ≠ a.cacheKey := by
  intro hkey
  have hlength := congrArg List.length (hroots.below hb ha hkey)
  rw [length_map, length_map] at hlength
  have hlt := length_below_lt hbelow
  omega

end Uniform

/-! ## What the list should be -/

section Order

variable [DecidableEq C] [DecidableEq K]

/-- The tests for a key in `kept` and `keptBelow` are made with this instance. -/
instance lawfulBEq_key : LawfulBEq (C × K) := inferInstance

mutual

/-- The occurrences without caching at and below a dependant, from the leaves up.  `seen`
are the cached keys that occur before it.  Below an occurrence whose key was seen there are
none if it is a cached one, and with `uncachedToo` if it is not. -/
def kept (uncachedToo : Bool) (seen : List (C × K)) : Dependant C K V → List (Dependant C K V)
  | .mk name call tag useCache isCoroutine params dependencies =>
    (if (call, tag) ∈ seen ∧ (useCache || uncachedToo) then []
      else keptAll uncachedToo (if useCache then (call, tag) :: seen else seen) dependencies) ++
    if useCache then [] else [.mk name call tag useCache isCoroutine params dependencies]

def keptAll (uncachedToo : Bool) (seen : List (C × K)) :
    List (Dependant C K V) → List (Dependant C K V)
  | [] => []
  | dependant :: dependants =>
    kept uncachedToo seen dependant ++
      keptAll uncachedToo (seen ++ cachedKeys (positions dependant)) dependants

end

omit [DecidableEq C] [DecidableEq K] in
/-- Every sub-dependency comes before its parent. -/
def Ordered (sources : List (Dependant C K V)) : Prop :=
  ∀ before source after, sources = before ++ source :: after →
    ∀ child ∈ source.dependencies, ∃ other ∈ before, other.cacheKey = child.cacheKey

structure Topological (uncachedToo : Bool) (roots : List (Dependant C K V))
    (nodes : List (FlatNode C K V)) : Prop where
  sources : ∀ node ∈ nodes, node.source ∈ allPositions roots
  cached : ∀ key ∈ cachedKeys (allPositions roots),
    (nodes.map FlatNode.source).countP (fun source => source.useCache && source.cacheKey = key) = 1
  uncached : ((nodes.map FlatNode.source).filter fun source => !source.useCache) =
    keptAll uncachedToo [] roots
  ordered : Ordered (nodes.map FlatNode.source)
  named : ∀ dependant ∈ allPositions roots, dependant.useCache = true →
    ∀ name, dependant.name = some name → ∀ node ∈ nodes, node.source.useCache = true →
      node.source.cacheKey = dependant.cacheKey → name ∈ node.names

omit [DecidableEq C] [DecidableEq K] in
/-- `Occurs seen dependants seen' dependant`: the dependant occurs at or below the given
ones, but not below a repeated occurrence of a cached dependency.  `seen` are the cached keys
that occur before all of them, and `seen'` those before the dependant. -/
inductive Occurs : List (C × K) → List (Dependant C K V) → List (C × K) → Dependant C K V → Prop
  | head {seen dependant dependants} : Occurs seen (dependant :: dependants) seen dependant
  | inside {seen dependant dependants seen' inner}
      (hnew : ¬ (dependant.cacheKey ∈ seen ∧ dependant.useCache = true))
      (h : Occurs (if dependant.useCache then dependant.cacheKey :: seen else seen)
        dependant.dependencies seen' inner) :
      Occurs seen (dependant :: dependants) seen' inner
  | tail {seen dependant dependants seen' inner}
      (h : Occurs (seen ++ cachedKeys (positions dependant)) dependants seen' inner) :
      Occurs seen (dependant :: dependants) seen' inner

/-- No occurrence without caching lies below another one whose key was taken before. -/
def NoneBelowTaken (roots : List (Dependant C K V)) : Prop :=
  ∀ seen outer, Occurs [] roots seen outer → outer.useCache = false → outer.cacheKey ∈ seen →
    ∀ seen' inner, Occurs seen outer.dependencies seen' inner → inner.useCache = true

/-! ## Occurrences without caching -/

/-- What is left below a dependant. -/
def keptBelow (uncachedToo : Bool) (seen : List (C × K)) (dependant : Dependant C K V) :
    List (Dependant C K V) :=
  if dependant.cacheKey ∈ seen ∧ (dependant.useCache || uncachedToo) then []
  else keptAll uncachedToo (if dependant.useCache then dependant.cacheKey :: seen else seen)
    dependant.dependencies

theorem keptAll_cons (uncachedToo : Bool) (seen : List (C × K)) (dependant : Dependant C K V)
    (dependants : List (Dependant C K V)) :
    keptAll uncachedToo seen (dependant :: dependants) =
      keptBelow uncachedToo seen dependant ++ ((if dependant.useCache then [] else [dependant]) ++
        keptAll uncachedToo (seen ++ cachedKeys (positions dependant)) dependants) := by
  cases dependant
  rw [keptAll, kept, append_assoc]
  rfl

/-- All occurrences are cached ones. -/
theorem keptAll_eq_nil {seen : List (C × K)} {dependants : List (Dependant C K V)} :
    keptAll false seen dependants = [] ↔
      ∀ seen' inner, Occurs seen dependants seen' inner → inner.useCache = true := by
  induction dependants using below_induction generalizing seen with
  | nil =>
    rw [keptAll]
    exact iff_of_true rfl fun _ _ h => by cases h
  | cons dependant dependants hbelow htail =>
    rw [keptAll_cons, append_eq_nil_iff, append_eq_nil_iff, htail, keptBelow, Bool.or_false]
    constructor
    · rintro ⟨hinner, huse, hrest⟩ seen' inner h
      cases h with
      | head => simpa using huse
      | inside hnew h =>
        rw [if_neg hnew] at hinner
        exact hbelow.mp hinner _ _ h
      | tail h => exact hrest _ _ h
    · intro h
      refine ⟨?_, ?_, fun seen' inner hinner => h _ _ (.tail hinner)⟩
      · by_cases hnew : dependant.cacheKey ∈ seen ∧ dependant.useCache = true
        · rw [if_pos hnew]
        · rw [if_neg hnew, hbelow]
          exact fun seen' inner hinner => h _ _ (.inside hnew hinner)
      · rw [if_pos (h _ _ .head)]

omit [DecidableEq C] [DecidableEq K] in
theorem append_eq_iff_of_sublist {A : Type*} {l l' m m' : List A} (hl : l.Sublist l')
    (hm : m.Sublist m') : l' ++ m' = l ++ m ↔ l' = l ∧ m' = m := by
  constructor
  · intro h
    have hlength := congrArg List.length h
    rw [length_append, length_append] at hlength
    have := hl.length_le
    have := hm.length_le
    exact append_inj h (by omega)
  · rintro ⟨rfl, rfl⟩
    rfl

theorem keptBelow_sublist {seen : List (C × K)} {dependant : Dependant C K V}
    (h : ∀ seen, (keptAll true seen dependant.dependencies).Sublist
      (keptAll false seen dependant.dependencies)) :
    (keptBelow true seen dependant).Sublist (keptBelow false seen dependant) := by
  rw [keptBelow, keptBelow, Bool.or_true, Bool.or_false]
  by_cases hseen : dependant.cacheKey ∈ seen
  · rw [if_pos ⟨hseen, rfl⟩]
    exact nil_sublist _
  · rw [if_neg (not_and_of_not_left _ hseen), if_neg (not_and_of_not_left _ hseen)]
    exact h _

theorem keptAll_sublist (seen : List (C × K)) (dependants : List (Dependant C K V)) :
    (keptAll true seen dependants).Sublist (keptAll false seen dependants) := by
  induction dependants using below_induction generalizing seen with
  | nil => rw [keptAll, keptAll]
  | cons dependant dependants hbelow htail =>
    rw [keptAll_cons, keptAll_cons]
    exact (keptBelow_sublist hbelow).append ((Sublist.refl _).append (htail _))

/-- What is below repeated occurrences without caching is nothing exactly if no such
occurrence has one below it. -/
theorem keptAll_eq_iff {seen : List (C × K)} {dependants : List (Dependant C K V)} :
    keptAll false seen dependants = keptAll true seen dependants ↔
      ∀ seen' outer, Occurs seen dependants seen' outer → outer.useCache = false →
        outer.cacheKey ∈ seen' → keptAll false seen' outer.dependencies = [] := by
  induction dependants using below_induction generalizing seen with
  | nil =>
    rw [keptAll, keptAll]
    exact iff_of_true rfl fun _ _ h => by cases h
  | cons dependant dependants hbelow htail =>
    rw [keptAll_cons, keptAll_cons, append_eq_iff_of_sublist
      (keptBelow_sublist fun seen => keptAll_sublist seen _)
      ((Sublist.refl _).append (keptAll_sublist _ _)), append_right_inj, htail]
    constructor
    · rintro ⟨hinner, hrest⟩ seen' outer h huse htaken
      cases h with
      | head => simpa [keptBelow, huse, htaken] using hinner
      | inside hnew h =>
        by_cases hseen : dependant.cacheKey ∈ seen
        · -- all occurrences below are cached ones
          have huncached : dependant.useCache = false := by simpa [hseen] using hnew
          have hnil : keptAll false seen dependant.dependencies = [] := by
            simpa [keptBelow, hseen, huncached] using hinner
          rw [huncached] at h
          rw [keptAll_eq_nil.mp hnil _ _ h] at huse
          cases huse
        · exact hbelow.mp (by simpa [keptBelow, hseen] using hinner) _ _ h huse htaken
      | tail h => exact hrest _ _ h huse htaken
    · intro h
      refine ⟨?_, fun _ _ hocc => h _ _ (.tail hocc)⟩
      by_cases hseen : dependant.cacheKey ∈ seen
      · cases huse : dependant.useCache with
        | true => simp [keptBelow, hseen, huse]
        | false => simpa [keptBelow, hseen, huse] using h _ _ .head huse hseen
      · simp only [keptBelow, hseen, false_and, if_false]
        exact hbelow.mpr fun _ _ hocc => h _ _ (.inside (not_and_of_not_left _ hseen) hocc)

end Order

/-! ## The walk -/

section Walk

variable [DecidableEq C] [DecidableEq K]

def Flat.sources (flat : Flat C K V) : List (Dependant C K V) := flat.result.map FlatNode.source

/-- An occurrence has its node, and if it is a cached one its name. -/
structure Served (opened : List (C × K)) (flat : Flat C K V) (dependant : Dependant C K V) :
    Prop where
  source : ∃ source ∈ flat.sources, source.cacheKey = dependant.cacheKey
  visited : dependant.useCache = true →
    dependant.cacheKey ∈ flat.visited ∧ dependant.cacheKey ∉ opened
  named : dependant.useCache = true → ∀ name, dependant.name = some name →
    ∃ node ∈ flat.result, node.source.useCache = true ∧
      node.source.cacheKey = dependant.cacheKey ∧ name ∈ node.names

/-- Between two steps of the walk; `opened` are the keys of the occurrences it is below. -/
structure Walked (roots : List (Dependant C K V)) (opened : List (C × K)) (flat : Flat C K V) :
    Prop where
  sources : ∀ source ∈ flat.sources, source ∈ allPositions roots
  once : ∀ key, flat.sources.countP (fun source => source.useCache && source.cacheKey = key) =
    if key ∈ flat.visited ∧ key ∉ opened then 1 else 0
  ordered : Ordered flat.sources
  served : ∀ dependant ∈ allPositions roots, dependant.cacheKey ∈ flat.visited →
    dependant.cacheKey ∉ opened → ∀ below ∈ allPositions dependant.dependencies,
      Served opened flat below

/-- The nodes stay, with more names. -/
def Grows (nodes nodes' : List (FlatNode C K V)) : Prop :=
  ∀ node ∈ nodes, ∃ node' ∈ nodes', node'.source = node.source ∧ node.names ⊆ node'.names

omit [DecidableEq C] [DecidableEq K] in
theorem grows_of_subset {nodes nodes' : List (FlatNode C K V)} (h : nodes ⊆ nodes') :
    Grows nodes nodes' :=
  fun node hnode => ⟨node, h hnode, rfl, List.Subset.refl _⟩

omit [DecidableEq C] [DecidableEq K] in
theorem Grows.trans {nodes nodes' nodes'' : List (FlatNode C K V)} (h : Grows nodes nodes')
    (h' : Grows nodes' nodes'') : Grows nodes nodes'' := by
  intro node hnode
  obtain ⟨node', hnode', heq, hnames⟩ := h _ hnode
  obtain ⟨node'', hnode'', heq', hnames'⟩ := h' _ hnode'
  exact ⟨node'', hnode'', heq'.trans heq, List.Subset.trans hnames hnames'⟩

/-- What the walk through some dependants achieves. -/
structure Extends (roots : List (Dependant C K V)) (opened : List (C × K))
    (dependants : List (Dependant C K V)) (before after : Flat C K V) : Prop where
  walked : Walked roots opened after
  served : ∀ dependant ∈ allPositions dependants, Served opened after dependant
  visited : ∀ key, key ∈ after.visited ↔
    key ∈ before.visited ∨ key ∈ cachedKeys (allPositions dependants)
  grows : Grows before.result after.result
  uncached : (after.sources.filter fun source => !source.useCache) =
    (before.sources.filter fun source => !source.useCache) ++
      keptAll true before.visited dependants

omit [DecidableEq C] [DecidableEq K] in
theorem Served.congr {opened : List (C × K)} {flat : Flat C K V} {a b : Dependant C K V}
    (h : Served opened flat a) (hrequest : a.request = b.request) : Served opened flat b := by
  obtain ⟨hname, hrest⟩ := Prod.mk.inj hrequest
  obtain ⟨hkey, huse⟩ := Prod.mk.inj hrest
  exact ⟨hkey ▸ h.source, fun hb => hkey ▸ h.visited (huse.trans hb),
    fun hb name hnamed => hkey ▸ h.named (huse.trans hb) name (hname.trans hnamed)⟩

omit [DecidableEq C] [DecidableEq K] in
theorem Served.mono {opened opened' : List (C × K)} {flat flat' : Flat C K V}
    {dependant : Dependant C K V} (h : Served opened flat dependant)
    (hopened : ∀ key ∈ opened', key ∈ opened) (hvisited : ∀ key ∈ flat.visited, key ∈ flat'.visited)
    (hgrows : Grows flat.result flat'.result) : Served opened' flat' dependant := by
  refine ⟨?_, ?_, ?_⟩
  · obtain ⟨source, hsource, hkey⟩ := h.source
    obtain ⟨node, hnode, rfl⟩ := mem_map.mp hsource
    obtain ⟨node', hnode', heq, -⟩ := hgrows node hnode
    exact ⟨node'.source, mem_map_of_mem hnode', heq ▸ hkey⟩
  · intro huse
    obtain ⟨hmem, hclosed⟩ := h.visited huse
    exact ⟨hvisited _ hmem, fun hopen => hclosed (hopened _ hopen)⟩
  · intro huse name hname
    obtain ⟨node, hnode, hcached, hkey, hin⟩ := h.named huse name hname
    obtain ⟨node', hnode', heq, hnames⟩ := hgrows node hnode
    exact ⟨node', hnode', heq ▸ hcached, heq ▸ hkey, hnames hin⟩

omit [DecidableEq C] [DecidableEq K] in
theorem ordered_concat {sources : List (Dependant C K V)} {last : Dependant C K V}
    (h : Ordered sources)
    (hlast : ∀ child ∈ last.dependencies, ∃ other ∈ sources, other.cacheKey = child.cacheKey) :
    Ordered (sources ++ [last]) := by
  intro before source after heq
  rcases eq_nil_or_concat after with rfl | ⟨after, final, rfl⟩
  · obtain ⟨rfl, hsource⟩ := append_inj' heq rfl
    obtain rfl := singleton_inj.mp hsource
    exact hlast
  · rw [concat_eq_append, ← cons_append, ← append_assoc] at heq
    obtain ⟨rfl, -⟩ := append_inj' heq rfl
    exact h before source after rfl

theorem keptAll_congr (uncachedToo : Bool) {seen seen' : List (C × K)}
    (h : ∀ key, key ∈ seen ↔ key ∈ seen') (dependants : List (Dependant C K V)) :
    keptAll uncachedToo seen dependants = keptAll uncachedToo seen' dependants := by
  induction dependants using below_induction generalizing seen seen' with
  | nil => rw [keptAll, keptAll]
  | cons dependant dependants hbelow htail =>
    have hadded : ∀ key, key ∈ (if dependant.useCache then dependant.cacheKey :: seen else seen) ↔
        key ∈ (if dependant.useCache then dependant.cacheKey :: seen' else seen') := by
      intro key
      cases dependant.useCache <;> simp [h]
    have hbehind : ∀ key, key ∈ seen ++ cachedKeys (positions dependant) ↔
        key ∈ seen' ++ cachedKeys (positions dependant) := by
      intro key
      rw [mem_append, mem_append, h]
    rw [keptAll_cons, keptAll_cons, htail hbehind, keptBelow, keptBelow, hbelow hadded]
    simp only [h]

variable {roots : List (Dependant C K V)} {opened : List (C × K)}

theorem Extends.nil {flat : Flat C K V} (h : Walked roots opened flat) :
    Extends roots opened [] flat flat where
  walked := h
  served dependant hmem := absurd hmem not_mem_nil
  visited key := by simp [allPositions, cachedKeys]
  grows := grows_of_subset (List.Subset.refl _)
  uncached := by rw [keptAll, append_nil]

/-- One dependant after the other. -/
theorem Extends.trans {dependant : Dependant C K V} {dependants : List (Dependant C K V)}
    {before middle after : Flat C K V} (hhead : Extends roots opened [dependant] before middle)
    (htail : Extends roots opened dependants middle after) :
    Extends roots opened (dependant :: dependants) before after := by
  have hpositions : allPositions [dependant] = positions dependant := by
    rw [allPositions, allPositions, append_nil]
  refine ⟨htail.walked, ?_, ?_, hhead.grows.trans htail.grows, ?_⟩
  · intro position hmem
    rw [allPositions, mem_append] at hmem
    rcases hmem with hfirst | hrest
    · refine (hhead.served _ (hpositions ▸ hfirst)).mono (fun _ => id) ?_ htail.grows
      exact fun key hkey => (htail.visited _).mpr (.inl hkey)
    · exact htail.served _ hrest
  · intro key
    rw [htail.visited, hhead.visited, hpositions, allPositions, cachedKeys_append, mem_append,
      or_assoc]
  · have hseen : keptAll true middle.visited dependants =
        keptAll true (before.visited ++ cachedKeys (positions dependant)) dependants := by
      refine keptAll_congr _ (fun key => ?_) _
      rw [hhead.visited, hpositions, mem_append]
    rw [htail.uncached, hhead.uncached, hseen, keptAll, keptAll, keptAll, append_nil, append_assoc]

/-! ## One step of the walk -/

omit [DecidableEq C] [DecidableEq K] in
theorem kept_eq [DecidableEq C] [DecidableEq K] (seen : List (C × K))
    (dependant : Dependant C K V) :
    kept true seen dependant = (if dependant.cacheKey ∈ seen then []
        else keptAll true
          (if dependant.useCache then dependant.cacheKey :: seen else seen)
          dependant.dependencies) ++
      if dependant.useCache then [] else [dependant] := by
  cases dependant
  simp only [kept, Bool.or_true, and_true]
  rfl

theorem addAlias_grows (key : C × K) (name : Name) (nodes : List (FlatNode C K V)) :
    Grows nodes (addAlias key name nodes) := by
  induction nodes with
  | nil => exact fun node hnode => absurd hnode not_mem_nil
  | cons first nodes ih =>
    intro node hnode
    rw [addAlias]
    split
    · rcases mem_cons.mp hnode with rfl | hrest
      · refine ⟨_, mem_cons_self, rfl, ?_⟩
        refine cons_subset_cons _ ?_
        split
        · exact List.Subset.refl _
        · exact subset_append_left _ _
      · exact ⟨node, mem_cons_of_mem _ hrest, rfl, List.Subset.refl _⟩
    · rcases mem_cons.mp hnode with rfl | hrest
      · exact ⟨node, mem_cons_self, rfl, List.Subset.refl _⟩
      · obtain ⟨node', hnode', hgrown⟩ := ih _ hrest
        exact ⟨node', mem_cons_of_mem _ hnode', hgrown⟩

theorem addAlias_named {key : C × K} {nodes : List (FlatNode C K V)} (name : Name)
    (h : ∃ node ∈ nodes, node.source.cacheKey = key ∧ node.source.useCache = true) :
    ∃ node ∈ addAlias key name nodes, node.source.useCache = true ∧
      node.source.cacheKey = key ∧ name ∈ node.names := by
  induction nodes with
  | nil =>
    obtain ⟨node, hnode, -⟩ := h
    cases hnode
  | cons first nodes ih =>
    rw [addAlias]
    split
    · next hfirst =>
      refine ⟨_, mem_cons_self, hfirst.2, hfirst.1, mem_cons_of_mem _ ?_⟩
      split
      · assumption
      · exact mem_append_right _ mem_cons_self
    · next hother =>
      obtain ⟨node, hnode, hnamed⟩ := h
      rcases mem_cons.mp hnode with rfl | hrest
      · exact absurd hnamed hother
      · obtain ⟨node', hnode', hfound⟩ := ih ⟨node, hrest, hnamed⟩
        exact ⟨node', mem_cons_of_mem _ hnode', hfound⟩

theorem Walked.exists_node {flat : Flat C K V} (h : Walked roots opened flat) {key : C × K}
    (hvisited : key ∈ flat.visited) (hclosed : key ∉ opened) :
    ∃ node ∈ flat.result, node.source.cacheKey = key ∧ node.source.useCache = true := by
  have hcount := h.once key
  rw [if_pos ⟨hvisited, hclosed⟩] at hcount
  obtain ⟨source, hsource, hcached⟩ := countP_pos_iff.mp (hcount ▸ Nat.one_pos)
  obtain ⟨node, hnode, rfl⟩ := mem_map.mp hsource
  rw [Bool.and_eq_true, decide_eq_true_eq] at hcached
  exact ⟨node, hnode, hcached.2, hcached.1⟩

/-- A further use of a cached occurrence. -/
theorem extends_alias {flat flat' : Flat C K V} {dependant : Dependant C K V}
    (h : Walked roots opened flat) (hmem : dependant ∈ allPositions roots)
    (huse : dependant.useCache = true) (hvisited : dependant.cacheKey ∈ flat.visited)
    (hclosed : dependant.cacheKey ∉ opened)
    (hflat' : flat' =
      match dependant.name with
      | some name => { flat with result := addAlias dependant.cacheKey name flat.result }
      | none => flat) :
    Extends roots opened [dependant] flat flat' := by
  have hnode := h.exists_node hvisited hclosed
  have hseen : flat'.visited = flat.visited := by
    rw [hflat']
    split <;> rfl
  have hsources : flat'.sources = flat.sources := by
    rw [hflat']
    split
    · exact addAlias_source _ _ _
    · rfl
  have hgrows : Grows flat.result flat'.result := by
    rw [hflat']
    split
    · exact addAlias_grows _ _ _
    · exact grows_of_subset (List.Subset.refl _)
  have hserved {position : Dependant C K V} (hposition : Served _ _ _) :
      Served opened flat' position :=
    hposition.mono (fun _ => id) (fun key hkey => hseen ▸ hkey) hgrows
  have hbelow := h.served _ hmem hvisited hclosed
  refine ⟨⟨?_, ?_, ?_, ?_⟩, ?_, ?_, hgrows, ?_⟩
  · rw [hsources]
    exact h.sources
  · rw [hsources, hseen]
    exact h.once
  · rw [hsources]
    exact h.ordered
  · rw [hseen]
    exact fun other hother hin hout below hmem => hserved (h.served _ hother hin hout _ hmem)
  · rw [allPositions_singleton, forall_mem_cons]
    refine ⟨⟨?_, fun _ => ⟨hseen ▸ hvisited, hclosed⟩, ?_⟩, fun below hmem => hserved (hbelow _ hmem)⟩
    · obtain ⟨node, hnode, hkey, -⟩ := hnode
      rw [hsources]
      exact ⟨node.source, mem_map_of_mem hnode, hkey⟩
    · intro _ name hname
      rw [hflat', hname]
      exact addAlias_named _ hnode
  · intro key
    rw [hseen]
    refine ⟨.inl, fun hkey => hkey.elim id fun hcached => ?_⟩
    obtain ⟨position, hposition, hused, rfl⟩ := mem_cachedKeys.mp hcached
    rw [allPositions_singleton, mem_cons] at hposition
    rcases hposition with rfl | hposition
    · exact hvisited
    · exact ((hbelow _ hposition).visited hused).1
  · rw [hsources, keptAll, keptAll, append_nil, kept_eq, if_pos hvisited, huse, if_pos rfl,
      append_nil, append_nil]

/-- The keys that the walk is below while it is below a dependant. -/
def entering (dependant : Dependant C K V) (opened : List (C × K)) : List (C × K) :=
  if dependant.useCache then dependant.cacheKey :: opened else opened

omit [DecidableEq C] [DecidableEq K] in
theorem mem_entering {dependant : Dependant C K V} {key : C × K} (h : key ∈ opened) :
    key ∈ entering dependant opened := by
  unfold entering
  split
  · exact mem_cons_of_mem _ h
  · exact h

/-- The node of a dependant comes after what is below it. -/
theorem extends_append {flat inner : Flat C K V} {dependant : Dependant C K V} (auto : Name)
    (hroots : Uniform roots) (hmem : dependant ∈ allPositions roots)
    (hclosed : dependant.cacheKey ∉ opened)
    (hwalked : Walked roots (entering dependant opened) inner)
    (hbelow : ∀ below ∈ allPositions dependant.dependencies,
      Served (entering dependant opened) inner below)
    (hvisited : ∀ key, key ∈ inner.visited ↔
      key ∈ flat.visited ∨ key ∈ cachedKeys (allPositions [dependant]))
    (hgrows : Grows flat.result inner.result)
    (huncached : (inner.sources.filter fun source => !source.useCache) ++
        (if dependant.useCache then [] else [dependant]) =
      (flat.sources.filter fun source => !source.useCache) ++ kept true flat.visited dependant) :
    Extends roots opened [dependant] flat
      { inner with
        result := inner.result ++ [{ source := dependant, name := dependant.name.getD auto }] } := by
  set node : FlatNode C K V := { source := dependant, name := dependant.name.getD _ } with hnode
  set after : Flat C K V := { inner with result := inner.result ++ [node] } with hafter
  have hsources : after.sources = inner.sources ++ [dependant] := by
    rw [Flat.sources, hafter, map_append]
    rfl
  have hinner : Grows inner.result after.result := grows_of_subset (subset_append_left _ _)
  have hserved {position : Dependant C K V}
      (hposition : Served (entering dependant _) inner _) :
      Served opened after position :=
    hposition.mono (fun _ => mem_entering) (fun _ => id) hinner
  have hself : dependant.useCache = true → dependant.cacheKey ∈ inner.visited := by
    intro huse
    refine (hvisited _).mpr (.inr (mem_cachedKeys.mpr ⟨dependant, ?_, huse, rfl⟩))
    rw [allPositions_singleton]
    exact mem_cons_self
  refine ⟨⟨?_, ?_, ?_, ?_⟩, ?_, hvisited, hgrows.trans hinner, ?_⟩
  · rw [hsources, forall_mem_append, forall_mem_singleton]
    exact ⟨hwalked.sources, hmem⟩
  · intro key
    have hcount := hwalked.once key
    rw [hsources, countP_append, hcount, countP_singleton]
    by_cases huse : dependant.useCache = true
    · rw [entering, if_pos huse]
      by_cases hkey : dependant.cacheKey = key
      · subst hkey
        simp [huse, hself huse, hclosed, hafter]
      · simp [hkey, Ne.symm hkey, hafter]
    · simp [entering, huse, hafter]
  · rw [hsources]
    refine ordered_concat hwalked.ordered fun child hchild => ?_
    exact (hbelow _ (mem_allPositions.mpr ⟨child, hchild, mem_positions_self _⟩)).source
  · intro other hother hin hout below hbelowOther
    by_cases hkey : other.cacheKey = dependant.cacheKey
    · have hrequests := mem_map_of_mem (f := request) hbelowOther
      rw [hroots.below hother hmem hkey] at hrequests
      obtain ⟨position, hposition, hrequest⟩ := mem_map.mp hrequests
      exact (hserved (hbelow _ hposition)).congr hrequest
    · refine hserved (hwalked.served _ hother hin ?_ _ hbelowOther)
      rw [entering]
      split
      · exact fun hin => (mem_cons.mp hin).elim hkey hout
      · exact hout
  · rw [allPositions_singleton, forall_mem_cons]
    refine ⟨⟨⟨dependant, ?_, rfl⟩, fun huse => ⟨hself huse, hclosed⟩, ?_⟩,
      fun below hmem => hserved (hbelow _ hmem)⟩
    · rw [hsources]
      exact mem_append_right _ mem_cons_self
    · intro huse name hname
      refine ⟨node, mem_append_right _ mem_cons_self, huse, rfl, ?_⟩
      rw [FlatNode.names, hnode, hname]
      exact mem_cons_self
  · rw [hsources, filter_append, keptAll, keptAll, append_nil, ← huncached]
    cases huse : dependant.useCache <;> simp [huse]

theorem Walked.enter {flat : Flat C K V} (h : Walked roots opened flat)
    {dependant : Dependant C K V} (huse : dependant.useCache = true)
    (hnew : dependant.cacheKey ∉ flat.visited) :
    Walked roots (entering dependant opened)
      { flat with visited := dependant.cacheKey :: flat.visited } := by
  rw [entering, if_pos huse]
  refine ⟨h.sources, fun key => ?_, h.ordered, ?_⟩
  · refine (h.once _).trans ?_
    by_cases hkey : key = dependant.cacheKey
    · subst hkey
      simp [hnew]
    · simp [hkey]
  · intro other _ hin hout below hbelow
    rw [mem_cons, not_or] at hout
    have hold := (mem_cons.mp hin).resolve_left hout.1
    have hserved := h.served _ ‹_› hold hout.2 _ hbelow
    refine ⟨hserved.source, fun hcached => ?_, hserved.named⟩
    obtain ⟨hvisited, hclosed⟩ := hserved.visited hcached
    refine ⟨mem_cons_of_mem _ hvisited, fun hin => ?_⟩
    rcases mem_cons.mp hin with hkey | hopen
    · exact hnew (hkey ▸ hvisited)
    · exact hclosed hopen

variable (autoName : ℕ → C → Name)

/-- One dependant, given what the walk achieves below it. -/
theorem extends_of_inner {index : ℕ} {dependant : Dependant C K V} {flat : Flat C K V}
    (hroots : Uniform roots) (hmem : dependant ∈ allPositions roots)
    (hopened : ∀ position ∈ positions dependant, position.cacheKey ∉ opened)
    (h : Walked roots opened flat)
    (inner : ∀ opened flat,
      (∀ position ∈ allPositions dependant.dependencies, position.cacheKey ∉ opened) →
        Walked roots opened flat → Extends roots opened dependant.dependencies flat
            (flattenDeps autoName 0 dependant.dependencies flat)) :
    Extends roots opened [dependant] flat (flattenDep autoName index dependant flat) := by
  rw [positions_eq, forall_mem_cons] at hopened
  obtain ⟨hclosed, hopened⟩ := hopened
  rw [flattenDep_eq]
  by_cases hdone : dependant.cacheKey ∈ flat.visited ∧ dependant.useCache = true
  · rw [if_pos hdone]
    exact extends_alias h hmem hdone.2 hdone.1 hclosed rfl
  · rw [if_neg hdone]
    have hkeys : cachedKeys (allPositions [dependant]) =
        (if dependant.useCache then [dependant.cacheKey] else []) ++
          cachedKeys (allPositions dependant.dependencies) := by
      rw [allPositions_singleton, cachedKeys, filter_cons]
      split <;> rfl
    by_cases huse : dependant.useCache = true
    · -- a cached occurrence with a new key
      have hnew : dependant.cacheKey ∉ flat.visited := fun hin => hdone ⟨hin, huse⟩
      have hinside : ∀ position ∈ allPositions dependant.dependencies,
          position.cacheKey ∉ entering dependant opened := by
        intro position hposition
        rw [entering, if_pos huse, mem_cons, not_or]
        exact ⟨hroots.ne_below hmem (positions_below hmem hposition) hposition, hopened _ hposition⟩
      have hinner := inner _
        { flat with visited := dependant.cacheKey :: flat.visited } hinside (h.enter huse hnew)
      simp only [huse, if_true, true_or]
      refine extends_append _ hroots hmem hclosed hinner.walked hinner.served ?_ hinner.grows ?_
      · intro key
        rw [hinner.visited, hkeys, if_pos huse, mem_cons, singleton_append, mem_cons]
        tauto
      · rw [hinner.uncached, huse, if_pos rfl, append_nil, kept_eq, if_neg hnew, huse,
          if_pos rfl, if_pos rfl, append_nil]
        rfl
    · -- an uncached occurrence
      have hentering : entering dependant opened = opened := if_neg huse
      simp only [huse, Bool.false_eq_true, if_false, false_or]
      by_cases hin : dependant.cacheKey ∈ flat.visited
      · -- what is below has its nodes
        have hbelow := h.served _ hmem hin hclosed
        rw [if_neg (not_not.mpr hin)]
        refine extends_append _ hroots hmem hclosed (by rwa [hentering]) (by rwa [hentering]) ?_
          (grows_of_subset (List.Subset.refl _)) ?_
        · intro key
          rw [hkeys, if_neg huse, nil_append]
          refine ⟨.inl, fun hkey => hkey.elim id fun hcached => ?_⟩
          obtain ⟨position, hposition, hused, rfl⟩ := mem_cachedKeys.mp hcached
          exact ((hbelow _ hposition).visited hused).1
        · rw [kept_eq, if_pos hin, nil_append]
      · have hinner := inner _ _ hopened h
        rw [if_pos hin]
        refine extends_append _ hroots hmem hclosed (by rw [hentering]; exact hinner.walked)
          (by rw [hentering]; exact hinner.served) ?_ hinner.grows ?_
        · intro key
          rw [hinner.visited, hkeys, if_neg huse, nil_append]
        · rw [hinner.uncached, kept_eq, if_neg hin, if_neg huse, if_neg huse, append_assoc]

mutual

theorem flattenDeps_extends (hroots : Uniform roots) (opened : List (C × K)) (index : ℕ)
    (dependants : List (Dependant C K V)) (flat : Flat C K V)
    (hmem : ∀ dependant ∈ dependants, dependant ∈ allPositions roots)
    (hopened : ∀ position ∈ allPositions dependants, position.cacheKey ∉ opened)
    (h : Walked roots opened flat) :
    Extends roots opened dependants flat (flattenDeps autoName index dependants flat) := by
  match dependants with
  | [] =>
    rw [flattenDeps]
    exact Extends.nil h
  | dependant :: dependants =>
    rw [forall_mem_cons] at hmem
    rw [allPositions, forall_mem_append] at hopened
    have hhead := flattenDep_extends hroots opened index dependant flat hmem.1 hopened.1 h
    rw [flattenDeps]
    exact hhead.trans (flattenDeps_extends hroots opened (index + 1) dependants
      (flattenDep autoName index dependant flat) hmem.2 hopened.2 hhead.walked)

theorem flattenDep_extends (hroots : Uniform roots) (opened : List (C × K)) (index : ℕ)
    (dependant : Dependant C K V) (flat : Flat C K V) (hmem : dependant ∈ allPositions roots)
    (hopened : ∀ position ∈ positions dependant, position.cacheKey ∉ opened)
    (h : Walked roots opened flat) :
    Extends roots opened [dependant] flat (flattenDep autoName index dependant flat) := by
  match dependant with
  | .mk name call tag useCache isCoroutine params dependencies =>
    have hchildren : ∀ child ∈ dependencies, child ∈ allPositions roots :=
      fun child hchild => positions_trans hmem hchild
    exact extends_of_inner autoName hroots hmem hopened h fun opened flat hopened h =>
      flattenDeps_extends hroots opened 0 dependencies flat hchildren hopened h

end

omit [DecidableEq C] [DecidableEq K] in
theorem eq_of_countP_eq_one {A : Type*} {p : A → Bool} {l : List A} (h : l.countP p = 1) {a b : A}
    (ha : a ∈ l) (hb : b ∈ l) (hpa : p a = true) (hpb : p b = true) : a = b := by
  rw [countP_eq_length_filter, length_eq_one_iff] at h
  obtain ⟨only, honly⟩ := h
  have hall {x : A} (hx : x ∈ l) (hpx : p x = true) : x = only := by
    have hin := mem_filter.mpr ⟨hx, hpx⟩
    rw [honly] at hin
    exact mem_singleton.mp hin
  exact (hall ha hpa).trans (hall hb hpb).symm

/-- In a tree with one meaning for each key, `_flatten_deps` leaves nothing out but what is
below an occurrence whose key was taken before. -/
theorem flattenDeps_topological (hroots : Uniform roots) :
    Topological true roots (flattenDeps autoName 0 roots {}).result := by
  have hempty : Walked roots [] ({} : Flat C K V) := by
    refine ⟨fun source h => absurd h not_mem_nil, fun key => rfl, ?_, ?_⟩
    · intro before source after heq
      cases before <;> cases heq
    · exact fun dependant _ h => absurd h not_mem_nil
  have hwalk := flattenDeps_extends autoName hroots [] 0 _ {}
    (fun dependant h => mem_allPositions.mpr ⟨dependant, h, mem_positions_self _⟩)
    (fun position _ => not_mem_nil) hempty
  have hvisited {dependant : Dependant C K V} (hmem : dependant ∈ allPositions roots)
      (huse : dependant.useCache = true) :
      (flattenDeps autoName 0 roots {}).sources.countP
        (fun source => source.useCache && source.cacheKey = dependant.cacheKey) = 1 := by
    have hin := ((hwalk.served _ hmem).visited huse).1
    rw [hwalk.walked.once, if_pos ⟨hin, not_mem_nil⟩]
  refine ⟨?_, ?_, ?_, hwalk.walked.ordered, ?_⟩
  · exact fun node hnode => hwalk.walked.sources _ (mem_map_of_mem hnode)
  · intro key hkey
    obtain ⟨dependant, hmem, huse, rfl⟩ := mem_cachedKeys.mp hkey
    exact hvisited hmem huse
  · exact hwalk.uncached
  · intro dependant hmem huse name hname node hnode hcached hkey
    obtain ⟨named, hnamed, hcached', hkey', hin⟩ :=
      (hwalk.served _ hmem).named huse name hname
    have honce := hvisited hmem huse
    rw [Flat.sources, countP_map] at honce
    have hsame : node = named := eq_of_countP_eq_one honce hnode hnamed
      (by simp [hcached, hkey]) (by simp [hcached', hkey'])
    exact hsame ▸ hin

/-- Every occurrence without caching has its node, those below a repeated occurrence of a
cached dependency set aside, exactly when none lies below another one whose key was taken
before. -/
theorem flattenDeps_complete_iff (hroots : Uniform roots) :
    Topological false roots (flattenDeps autoName 0 roots {}).result ↔ NoneBelowTaken roots := by
  have htop := flattenDeps_topological autoName hroots
  have hnone : keptAll false [] roots = keptAll true [] roots ↔ NoneBelowTaken roots := by
    rw [keptAll_eq_iff, NoneBelowTaken]
    simp only [keptAll_eq_nil]
  rw [← hnone]
  constructor
  · exact fun h => h.uncached.symm.trans htop.uncached
  · exact fun h => ⟨htop.sources, htop.cached, htop.uncached.trans h.symm, htop.ordered, htop.named⟩

end Walk

/-! ## Repeated occurrences -/

/-- A sub-dependency that is never cached. -/
def freshSession : Dependant ℕ Unit Unit :=
  .mk (some "session") 2 () false false [] []

def repeatedUse : List (Dependant ℕ Unit Unit) :=
  [.mk (some "user") 1 () true false [] [freshSession],
    .mk (some "again") 1 () false false [] [freshSession]]

/-- The two uses of one callable have different sub-dependencies. -/
def mixedUse : List (Dependant ℕ Unit Unit) :=
  [.mk (some "user") 1 () true false [] [],
    .mk (some "again") 1 () false false [] [freshSession]]

theorem repeatedUse_uniform : Uniform repeatedUse := by
  intro a ha b hb
  fin_cases ha <;> fin_cases hb <;> simp [freshSession, request, Dependant.cacheKey,
    Dependant.dependencies]

example :
    Topological true repeatedUse (flattenDeps (fun _ _ => "dependency") 0 repeatedUse {}).result :=
  flattenDeps_topological _ repeatedUse_uniform

/-- The use with `use_cache=False` comes first. -/
def freshFirst : List (Dependant ℕ Unit Unit) :=
  repeatedUse.reverse

theorem freshFirst_uniform : Uniform freshFirst := by
  intro a ha b hb
  fin_cases ha <;> fin_cases hb <;> simp [freshSession, request, Dependant.cacheKey,
    Dependant.dependencies]

/-- Each of the two uses has a session of its own, unless the cached one comes first. -/
theorem flattenDeps_complete_freshFirst :
    Topological false freshFirst
        (flattenDeps (fun _ _ => "dependency") 0 freshFirst {}).result ∧
      ¬ Topological false repeatedUse
        (flattenDeps (fun _ _ => "dependency") 0 repeatedUse {}).result := by
  constructor
  · apply (flattenDeps_complete_iff _ freshFirst_uniform).mpr
    intro seen outer houter huse htaken
    cases houter with
    | head => exact absurd htaken not_mem_nil
    | inside _ h =>
      cases h with
      | head => exact absurd htaken not_mem_nil
      | inside _ h => cases h
      | tail h => cases h
    | tail h =>
      cases h with
      | head => cases huse
      | inside _ h =>
        cases h with
        | head => cases htaken with | tail _ h => cases h
        | inside _ h => cases h
        | tail h => cases h
      | tail h => cases h
  · intro h
    have hcached := (flattenDeps_complete_iff _ repeatedUse_uniform).mp h _ _ (.tail .head) rfl
      mem_cons_self _ _ .head
    cases hcached

/-- Below the second use there is no node, and one is missing if that use has other
sub-dependencies than the first. -/
theorem flattenDeps_not_below_uncached :
    (Uniform repeatedUse ∧ ¬ Topological false repeatedUse
      (flattenDeps (fun _ _ => "dependency") 0 repeatedUse {}).result) ∧
      ¬ Ordered ((flattenDeps (fun _ _ => "dependency") 0 mixedUse {}).result.map
        FlatNode.source) := by
  refine ⟨⟨repeatedUse_uniform, fun h => ?_⟩, fun h => ?_⟩
  · have hlength := congrArg List.length h.uncached
    revert hlength
    decide
  · obtain ⟨other, hother, hkey⟩ := h [.mk (some "user") 1 () true false [] []]
      _ [] rfl _
      mem_cons_self
    rw [mem_singleton.mp hother] at hkey
    cases hkey

end AstraApi.Deps

namespace AstraApi.Deps.SecurityScopes

/-! ## The trees that `get_dependant` builds -/

variable {C S P V : Type*} [DecidableEq S] {signatureOf : C → Signature C S P}

/-- What a callable is apart from its signature's dependencies. -/
structure Kind (V : Type*) where
  isCoroutine : Bool
  params : List (Param V)

mutual

/-- A dependant with the scopes of its cache key in place of those it was built from. -/
def keyed (kind : C → Kind V) :
    Dependant C S P → Deps.Dependant C (Finset S × Option Scope) V
  | .mk call name ownScopes parentScopes useCache scope signature dependencies =>
    .mk name call
      (Dependant.cacheKey
        (.mk call name ownScopes parentScopes useCache scope signature dependencies)).2
      useCache (kind call).isCoroutine (kind call).params (keyedAll kind dependencies)

def keyedAll (kind : C → Kind V) :
    List (Dependant C S P) → List (Deps.Dependant C (Finset S × Option Scope) V)
  | [] => []
  | dependant :: dependants => keyed kind dependant :: keyedAll kind dependants

end

theorem keyedAll_eq_map (kind : C → Kind V) (dependants : List (Dependant C S P)) :
    keyedAll kind dependants = dependants.map (keyed kind) := by
  induction dependants with
  | nil => rw [keyedAll, List.map_nil]
  | cons dependant dependants ih => rw [keyedAll, ih, List.map_cons]

theorem dependencies_keyed (kind : C → Kind V) (dependant : Dependant C S P) :
    (keyed kind dependant).dependencies = dependant.dependencies.map (keyed kind) := by
  cases dependant
  rw [keyed, ← keyedAll_eq_map]
  rfl

theorem request_keyed (kind : C → Kind V) (dependant : Dependant C S P) :
    (keyed kind dependant).request =
      (dependant.name, (dependant.cacheKey.1, dependant.cacheKey.2), dependant.useCache) := by
  cases dependant
  rfl

theorem built_of_mem {kind : C → Kind V} {roots : List (Dependant C S P)}
    (hroots : ∀ root ∈ roots, Built signatureOf root)
    {position : Deps.Dependant C (Finset S × Option Scope) V}
    (h : position ∈ Deps.Dependant.allPositions (roots.map (keyed kind))) :
    ∃ dependant, Built signatureOf dependant ∧ keyed kind dependant = position := by
  induction hmapped : roots.map (keyed kind) using Deps.Dependant.below_induction
    generalizing roots with
  | nil =>
    rw [hmapped] at h
    cases h
  | cons top tops hbelow hrest =>
    obtain ⟨root, roots, rfl, rfl, rfl⟩ := List.map_eq_cons_iff.mp hmapped
    rw [List.map_cons, Deps.Dependant.allPositions, Deps.Dependant.positions_eq, List.mem_append,
      List.mem_cons] at h
    rw [List.forall_mem_cons] at hroots
    rcases h with (rfl | hin) | hin
    · exact ⟨root, hroots.1, rfl⟩
    · rw [dependencies_keyed] at hin
      exact hbelow hroots.1.children hin (dependencies_keyed kind root).symm
    · exact hrest hroots.2 hin rfl

/-- Corresponding sub-dependants of indistinct dependants have one cache key. -/
theorem Indistinct.cacheKey_child {a b child child' : Dependant C S P}
    (h : Indistinct signatureOf a b) (hchild : child ∈ a.dependencies)
    (hpaired : Paired signatureOf a b child child') (hscope : child.scope = child'.scope) :
    child.cacheKey = child'.cacheKey := by
  have hinner := hpaired.built.usesInner_eq hpaired.built' hpaired.call
  have huses : child.usesScopes = child'.usesScopes := by
    rw [Dependant.usesScopes_eq, Dependant.usesScopes_eq, hpaired.ownScopes, hinner]
  have hsignature : child.signature = child'.signature := by
    rw [hpaired.built.inv.1, hpaired.built'.inv.1, hpaired.call]
  have hcomputed : child.computedScope = child'.computedScope := by
    rw [Dependant.computedScope, Dependant.computedScope, hscope, hsignature]
  have hscopes : child.usesScopes = true →
      child.oauthScopes.toFinset = child'.oauthScopes.toFinset := by
    intro hchildUses
    have habove : a.usesInner = true := by
      rw [Dependant.usesInner, Bool.or_eq_true, Dependant.anyUsesScopes_iff]
      exact .inr ⟨child, hchild, hchildUses⟩
    ext scope
    have hparent := h.scopes habove scope
    rw [Dependant.mem_oauthScopes, Dependant.mem_oauthScopes] at hparent
    rw [List.mem_toFinset, List.mem_toFinset, Dependant.mem_oauthScopes,
      Dependant.mem_oauthScopes, hpaired.parentScopes, hpaired.parentScopes', hpaired.ownScopes,
      List.mem_append, List.mem_append, hparent]
  rw [Dependant.cacheKey, Dependant.cacheKey, hpaired.call, hcomputed, ← huses]
  split
  · next hchildUses => rw [hscopes hchildUses]
  · rfl

/-- In a tree that `get_dependant` builds, a cache key has one meaning. -/
theorem uniform_of_built (kind : C → Kind V) {roots : List (Dependant C S P)}
    (hroots : ∀ root ∈ roots, Built signatureOf root) : Uniform (roots.map (keyed kind)) := by
  intro position hposition position' hposition' hkey
  obtain ⟨a, ha, rfl⟩ := built_of_mem hroots hposition
  obtain ⟨b, hb, rfl⟩ := built_of_mem hroots hposition'
  have hkeys : a.cacheKey = b.cacheKey := by
    have hrequest := request_keyed kind a
    have hrequest' := request_keyed kind b
    have hleft := (Prod.mk.inj (Prod.mk.inj hrequest).2).1
    have hright := (Prod.mk.inj (Prod.mk.inj hrequest').2).1
    exact hleft.symm.trans (hkey.trans hright)
  have hindistinct := Indistinct.of_cacheKey ha hb hkeys
  have hdeclared := ha.inv.2
  have hdeclared' := hb.inv.2
  rw [← hindistinct.call] at hdeclared'
  rw [dependencies_keyed, dependencies_keyed, List.map_map, List.map_map]
  have hpairs : List.Forall₂ (fun child child' => (keyed kind child).request =
      (keyed kind child').request) a.dependencies b.dependencies := by
    refine forall₂_pair hdeclared hdeclared' fun depends child hchild child' h h' => ?_
    have hpaired := h.paired h'
    rw [request_keyed, request_keyed, hpaired.name, h.useCache.trans h'.useCache.symm,
      hindistinct.cacheKey_child hchild hpaired (h.scope.trans h'.scope.symm)]
  generalize a.dependencies = left, b.dependencies = right at hpairs
  induction hpairs with
  | nil => rfl
  | cons head _ ih => rw [List.map_cons, List.map_cons, ih, Function.comp_apply,
      Function.comp_apply, head]

/-- The users and tokens of one key are asked for under different scopes. -/
theorem uniform_of_built_user :
    Uniform ([userRoot].map (keyed fun _ => (⟨false, []⟩ : Kind Unit))) :=
  uniform_of_built _ (List.forall_mem_singleton.mpr userRoot_built)

end AstraApi.Deps.SecurityScopes
