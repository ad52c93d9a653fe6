import AstraApi.Dispatch.TrustedHost
import AstraApi.Router.Agreement
import AstraApi.Lib.Kahn
import Mathlib.Data.List.GetD

/-!
# The order of dependencies

`compute_dependency_order` sorts the dependencies of a route.  It works on C strings:
a name is cut at its first NUL, and one without an encoding is skipped but leaves an
exception behind.
-/

namespace AstraApi.Dispatch

open List hiding beq_eq_decide
open Response (cString)

variable {text : Text} {items : List (Text × List Text)} {names : List Bytes}

/-! ## The function -/

/-- The first pass, `names` and `name_to_idx`. -/
def collectName (names : List Bytes) (item : Text × List Text) : List Bytes :=
  match asUtf8 item.1 with
  | none => names
  | some name => if name ∈ names then names else names ++ [name]

def nameToIdx (names : List Bytes) (name : Bytes) : Option ℕ :=
  if name ∈ names then some (names.idxOf name) else none

/-- The vectors `adj` and `in_degree`. -/
structure Edges where
  adj : ℕ → List ℕ := fun _ => []
  inDegree : ℕ → ℤ := fun _ => 0

def Edges.add (edges : Edges) (dep node : ℕ) : Edges where
  adj := Function.update edges.adj dep (edges.adj dep ++ [node])
  inDegree := Function.update edges.inDegree node (edges.inDegree node + 1)

def findName (names : List Bytes) (text : Text) : Option ℕ := (asUtf8 text).bind (nameToIdx names)

def addDependency (names : List Bytes) (node : ℕ) (edges : Edges) (dep : Text) : Edges :=
  match findName names dep with
  | none => edges
  | some idx => edges.add idx node

/-- The second pass. -/
def addItem (names : List Bytes) (edges : Edges) (item : Text × List Text) : Edges :=
  match findName names item.1 with
  | none => edges
  | some node => item.2.foldl (addDependency names node) edges

inductive OrderError where
  | valueError
  | unicodeDecodeError
  | systemError
  deriving DecidableEq

/-- A name has raised an exception. -/
def leavesException (items : List (Text × List Text)) : Bool :=
  items.any fun item => item.1.utf8.isNone || item.2.any fun dep => dep.utf8.isNone

/-- `py_compute_dependency_order`.  The loop ends when the queue is empty, which takes no
more steps than there are names. -/
def computeDependencyOrder (items : List (Text × List Text)) : Except OrderError (List Text) :=
  let names := items.foldl collectName []
  let edges := items.foldl (addItem names) {}
  let state := Kahn.run edges.adj names.length
    (Kahn.start (List.range names.length) edges.inDegree)
  if state.order.length ≠ names.length then .error .valueError
  else
    match state.order.mapM fun idx => Text.ofUtf8 (names.getD idx []) with
    | none => .error .unicodeDecodeError
    | some order => if leavesException items then .error .systemError else .ok order

/-! ## What it is for -/

section Order

variable {α : Type}

def Depends (items : List (α × List α)) (name dep : α) : Prop :=
  (∃ item ∈ items, item.1 = name ∧ dep ∈ item.2) ∧ ∃ item ∈ items, item.1 = dep

def Cyclic (items : List (α × List α)) : Prop :=
  ∃ name, Relation.TransGen (Depends items) name name

/-- Every listed name once, behind its dependencies. -/
structure Ordered (items : List (α × List α)) (order : List α) : Prop where
  nodup : order.Nodup
  mem_iff : ∀ name, name ∈ order ↔ ∃ item ∈ items, item.1 = name
  before : ∀ front name back, order = front ++ name :: back →
    ∀ dep, Depends items name dep → dep ∈ front

end Order

/-- An order when there is one, and a `ValueError` when there is a cycle. -/
def OrdersOrRefuses (items : List (Text × List Text)) : Except OrderError (List Text) → Prop
  | .ok order => ¬ Cyclic items ∧ Ordered items order
  | .error error => Cyclic items ∧ error = .valueError

def asCStrings (items : List (Text × List Text)) : List (Bytes × List Bytes) :=
  items.filterMap fun item => (asUtf8 item.1).map fun name => (name, item.2.filterMap asUtf8)

def AllEncodable (items : List (Text × List Text)) : Prop :=
  ∀ item ∈ items, item.1.Encodable ∧ ∀ dep ∈ item.2, dep.Encodable

/-! ## The names -/

theorem asUtf8_eq_some {name : Bytes} (h : asUtf8 text = some name) :
    ∃ cut : Text, cut.Encodable ∧ cut.bytes = name ∧ (0 : CodePoint) ∉ cut := by
  obtain ⟨bytes, hbytes, rfl⟩ := Option.map_eq_some_iff.mp h
  obtain ⟨hencodable, rfl⟩ := Text.utf8_eq_some_iff.mp hbytes
  refine ⟨text.takeWhile (· != 0), fun c hc => ?_, ?_, fun hzero => ?_⟩
  · exact hencodable c (takeWhile_subset _ hc)
  · have hcut := (Text.bytes_takeWhile 0 (by decide) hencodable).1
    have hpred : (fun b : Byte => decide (b ≠ 0)) = fun b => b != UInt8.ofNat (0 : CodePoint).val := by
      simp only [bne, beq_eq_decide, decide_not]
      rfl
    rw [← hcut, cString, hpred]
  · have hne := mem_takeWhile_imp hzero
    simp at hne

theorem asUtf8_of_encodable (h : text.Encodable) (hzero : (0 : CodePoint) ∉ text) :
    asUtf8 text = some text.bytes := by
  have hbytes : (0 : Byte) ∉ text.bytes := Routing.not_mem_bytes 0 (by decide) h hzero
  have hall : ∀ b ∈ text.bytes, decide (b ≠ 0) = true := by
    intro b hb
    refine decide_eq_true fun heq => hbytes ?_
    rwa [← heq]
  rw [asUtf8, Text.utf8_eq_some_iff.mpr ⟨h, rfl⟩, Option.map_some, cString,
    takeWhile_eq_self_iff.mpr hall]

theorem asUtf8_eq_none_iff : asUtf8 text = none ↔ ¬ text.Encodable := by
  rw [asUtf8, Option.map_eq_none_iff, Option.eq_none_iff_forall_ne_some]
  constructor
  · intro h hencodable
    exact h _ (Text.utf8_eq_some_iff.mpr ⟨hencodable, rfl⟩)
  · intro h bytes hbytes
    exact h (Text.utf8_eq_some_iff.mp hbytes).1

theorem mem_asCStrings {entry : Bytes × List Bytes} :
    entry ∈ asCStrings items ↔
      ∃ item ∈ items, asUtf8 item.1 = some entry.1 ∧ item.2.filterMap asUtf8 = entry.2 := by
  simp only [asCStrings, mem_filterMap, Option.map_eq_some_iff]
  constructor
  · rintro ⟨item, hmem, name, hname, rfl⟩
    exact ⟨item, hmem, hname, rfl⟩
  · rintro ⟨item, hmem, hname, hdeps⟩
    exact ⟨item, hmem, entry.1, hname, Prod.ext rfl hdeps⟩

theorem collectName_spec (items : List (Text × List Text)) (names : List Bytes) (hnodup : names.Nodup) :
    (items.foldl collectName names).Nodup ∧ ∀ name, name ∈ items.foldl collectName names ↔
        name ∈ names ∨ ∃ item ∈ items, asUtf8 item.1 = some name := by
  induction items generalizing names with
  | nil => simp [hnodup]
  | cons item items ih =>
    have hstep : (collectName names item).Nodup ∧
        ∀ name, name ∈ collectName names item ↔ name ∈ names ∨ asUtf8 item.1 = some name := by
      rw [collectName]
      cases hname : asUtf8 item.1 with
      | none => simp [hnodup]
      | some found =>
        simp only [Option.some.injEq]
        split_ifs with hfound
        · refine ⟨hnodup, fun name => (or_iff_left_of_imp ?_).symm⟩
          rintro rfl
          exact hfound
        · refine ⟨nodup_append.mpr ⟨hnodup, nodup_singleton _, ?_⟩, fun name => ?_⟩
          · rintro a ha b hb rfl
            rw [mem_singleton.mp hb] at ha
            exact hfound ha
          · rw [mem_append, mem_singleton, @eq_comm]
    obtain ⟨hall, hmem⟩ := ih _ hstep.1
    refine ⟨hall, fun name => ?_⟩
    rw [foldl_cons, hmem, hstep.2, or_assoc]
    simp

/-! ## The edges -/

theorem nameToIdx_eq_some_iff (hnodup : names.Nodup) {name : Bytes} {idx : ℕ} :
    nameToIdx names name = some idx ↔ names[idx]? = some name := by
  rw [nameToIdx]
  split_ifs with hmem
  · rw [Option.some.injEq]
    constructor
    · rintro rfl
      exact getElem?_idxOf hmem
    · intro hidx
      obtain ⟨hlt, rfl⟩ := List.getElem?_eq_some_iff.mp hidx
      exact hnodup.idxOf_getElem _ hlt
  · refine iff_of_false (by simp) fun hidx => hmem ?_
    exact mem_of_getElem? hidx

/-- All edges lie among the first nodes, and each is counted at its end. -/
structure Edges.Balanced (n : ℕ) (edges : Edges) : Prop where
  closed : ∀ u ∈ List.range n, ∀ v ∈ edges.adj u, v ∈ List.range n
  degree : ∀ v, edges.inDegree v = ((List.range n).map fun u => (edges.adj u).count v).sum

theorem Edges.balanced_empty (n : ℕ) : ({} : Edges).Balanced n := ⟨by simp, by simp⟩

theorem Edges.Balanced.add {n : ℕ} {edges : Edges} (h : edges.Balanced n) {dep node : ℕ}
    (hdep : dep < n) (hnode : node < n) : (edges.add dep node).Balanced n := by
  constructor
  case closed =>
    intro u hu v hv
    simp only [Edges.add, Function.update_apply] at hv
    split_ifs at hv with heq
    · rcases mem_append.mp hv with hv | hv
      · exact h.closed _ (mem_range.mpr hdep) v hv
      · rw [mem_singleton.mp hv]
        exact mem_range.mpr hnode
    · exact h.closed u hu v hv
  case degree =>
    intro v
    have hmem := mem_range.mpr hdep
    have hold := sum_map_erase (fun u => (edges.adj u).count v) hmem
    have hnew := sum_map_erase (fun u => ((edges.add dep node).adj u).count v) hmem
    have hdepAdj : (edges.add dep node).adj dep = edges.adj dep ++ [node] := by
      simp [Edges.add]
    have hothers : ((List.range n).erase dep).map (fun u => ((edges.add dep node).adj u).count v) =
        ((List.range n).erase dep).map fun u => (edges.adj u).count v := by
      refine map_congr_left fun u hu => ?_
      have hne : u ≠ dep := (nodup_range.mem_erase_iff.mp hu).1
      simp [Edges.add, hne]
    have hdegree : (edges.add dep node).inDegree v = edges.inDegree v + if node = v then 1 else 0 := by
      simp only [Edges.add, Function.update_apply, @eq_comm _ v]
      split_ifs with heq <;> simp [heq]
    rw [hdegree, h.degree, ← hnew, ← hold, hdepAdj, hothers, count_append, count_singleton]
    simp only [beq_iff_eq]
    push_cast
    ring

theorem mem_adj_add {edges : Edges} {dep node u v : ℕ} :
    v ∈ (edges.add dep node).adj u ↔ v ∈ edges.adj u ∨ u = dep ∧ v = node := by
  simp only [Edges.add, Function.update_apply]
  split_ifs with heq
  · rw [heq, mem_append, mem_singleton, and_iff_right rfl]
  · simp [heq]

theorem findName_eq_some_iff (hnodup : names.Nodup) {idx : ℕ} :
    findName names text = some idx ↔ ∃ name, asUtf8 text = some name ∧ names[idx]? = some name := by
  simp [findName, Option.bind_eq_some_iff, nameToIdx_eq_some_iff hnodup]

theorem findName_lt (hnodup : names.Nodup) {idx : ℕ}
    (h : findName names text = some idx) : idx < names.length := by
  obtain ⟨name, -, hidx⟩ := (findName_eq_some_iff hnodup).mp h
  exact (List.getElem?_eq_some_iff.mp hidx).1

theorem foldl_addDependency (hnodup : names.Nodup) {node : ℕ}
    (hnode : node < names.length) (deps : List Text) {edges : Edges}
    (h : edges.Balanced names.length) :
    (deps.foldl (addDependency names node) edges).Balanced names.length ∧
      ∀ u v, v ∈ (deps.foldl (addDependency names node) edges).adj u ↔
        v ∈ edges.adj u ∨ v = node ∧ ∃ dep ∈ deps, findName names dep = some u := by
  induction deps generalizing edges with
  | nil => simp [h]
  | cons dep deps ih =>
    have hstep : (addDependency names node edges dep).Balanced names.length ∧
        ∀ u v, v ∈ (addDependency names node edges dep).adj u ↔
          v ∈ edges.adj u ∨ v = node ∧ findName names dep = some u := by
      rw [addDependency]
      cases hfind : findName names dep with
      | none => simp [h]
      | some idx =>
        refine ⟨h.add (findName_lt hnodup hfind) hnode, fun u v => ?_⟩
        rw [mem_adj_add, Option.some.injEq, and_comm, @eq_comm _ u]
    obtain ⟨hbalanced, hmem⟩ := ih hstep.1
    refine ⟨hbalanced, fun u v => ?_⟩
    rw [foldl_cons, hmem, hstep.2, or_assoc, ← and_or_left]
    simp

theorem foldl_addItem (hnodup : names.Nodup) (items : List (Text × List Text))
    {edges : Edges} (h : edges.Balanced names.length) :
    (items.foldl (addItem names) edges).Balanced names.length ∧
      ∀ u v, v ∈ (items.foldl (addItem names) edges).adj u ↔
        v ∈ edges.adj u ∨ ∃ item ∈ items, findName names item.1 = some v ∧
          ∃ dep ∈ item.2, findName names dep = some u := by
  induction items generalizing edges with
  | nil => simp [h]
  | cons item items ih =>
    have hstep : (addItem names edges item).Balanced names.length ∧
        ∀ u v, v ∈ (addItem names edges item).adj u ↔
          v ∈ edges.adj u ∨ findName names item.1 = some v ∧
            ∃ dep ∈ item.2, findName names dep = some u := by
      rw [addItem]
      cases hfind : findName names item.1 with
      | none => simp [h]
      | some node =>
        obtain ⟨hbalanced, hmem⟩ :=
          foldl_addDependency hnodup (findName_lt hnodup hfind) _ h
        refine ⟨hbalanced, fun u v => ?_⟩
        rw [hmem, Option.some.injEq, @eq_comm]
    obtain ⟨hbalanced, hmem⟩ := ih hstep.1
    refine ⟨hbalanced, fun u v => ?_⟩
    rw [foldl_cons, hmem, hstep.2, or_assoc]
    simp

/-! ## The graph of C strings -/

section Items

variable (items : List (Text × List Text))

def namesOf : List Bytes := items.foldl collectName []

def edgesOf : Edges := items.foldl (addItem (namesOf items)) {}

theorem nodup_namesOf : (namesOf items).Nodup := (collectName_spec _ [] nodup_nil).1

theorem mem_namesOf {name : Bytes} :
    name ∈ namesOf items ↔ ∃ item ∈ asCStrings items, item.1 = name := by
  rw [namesOf, (collectName_spec _ [] nodup_nil).2]
  simp only [not_mem_nil, false_or, mem_asCStrings]
  constructor
  · rintro ⟨item, hmem, hname⟩
    exact ⟨(name, item.2.filterMap asUtf8), ⟨item, hmem, hname, rfl⟩, rfl⟩
  · rintro ⟨entry, ⟨item, hmem, hname, -⟩, rfl⟩
    exact ⟨item, hmem, hname⟩

theorem depends_asCStrings {name dep : Bytes} :
    Depends (asCStrings items) name dep ↔
      (∃ item ∈ items, asUtf8 item.1 = some name ∧ ∃ text ∈ item.2, asUtf8 text = some dep) ∧
        dep ∈ namesOf items := by
  rw [Depends, ← mem_namesOf]
  refine and_congr_left fun _ => ?_
  constructor
  · rintro ⟨entry, hentry, rfl, hdep⟩
    obtain ⟨item, hmem, hname, hdeps⟩ := mem_asCStrings.mp hentry
    rw [← hdeps] at hdep
    exact ⟨item, hmem, hname, mem_filterMap.mp hdep⟩
  · rintro ⟨item, hmem, hname, hdep⟩
    exact ⟨(name, item.2.filterMap asUtf8), mem_asCStrings.mpr ⟨item, hmem, hname, rfl⟩, rfl,
      mem_filterMap.mpr hdep⟩

theorem graph_edgesOf :
    Kahn.Graph (List.range (namesOf items).length) (edgesOf items).adj where
  nodup := nodup_range
  closed := (foldl_addItem (nodup_namesOf _) _ (Edges.balanced_empty _)).1.closed

/-- An edge between two numbers is a dependency between the names. -/
theorem edge_iff {u v : ℕ} :
    Kahn.Edge (List.range (namesOf items).length) (edgesOf items).adj u v ↔
      ∃ name dep, (namesOf items)[v]? = some name ∧ (namesOf items)[u]? = some dep ∧
        Depends (asCStrings items) name dep := by
  have hnodup := nodup_namesOf items
  have hmem := (foldl_addItem hnodup items (Edges.balanced_empty _)).2 u v
  have hempty : v ∉ ({} : Edges).adj u := by simp
  rw [or_iff_right hempty] at hmem
  rw [Kahn.Edge, edgesOf, hmem]
  simp only [findName_eq_some_iff hnodup, depends_asCStrings]
  constructor
  · rintro ⟨-, item, hitem, ⟨name, hname, hv⟩, text, htext, dep, hdep, hu⟩
    exact ⟨name, dep, hv, hu, ⟨item, hitem, hname, text, htext, hdep⟩, mem_of_getElem? hu⟩
  · rintro ⟨name, dep, hv, hu, ⟨item, hitem, hname, text, htext, hdep⟩, -⟩
    exact ⟨mem_range.mpr (List.getElem?_eq_some_iff.mp hu).1, item, hitem, ⟨name, hname, hv⟩,
      text, htext, dep, hdep, hu⟩

theorem acyclic_edgesOf_iff :
    Kahn.Acyclic (List.range (namesOf items).length) (edgesOf items).adj ↔
      ¬ Cyclic (asCStrings items) := by
  rw [Cyclic, not_exists, Kahn.Acyclic]
  constructor
  · intro h name hcycle
    have hedge (a b : Bytes) (hdepends : Depends (asCStrings items) a b) :
        Function.swap (Kahn.Edge (List.range (namesOf items).length) (edgesOf items).adj)
          ((namesOf items).idxOf a) ((namesOf items).idxOf b) := by
      obtain ⟨entry, hentry, hname, -⟩ := hdepends.1
      have ha := (mem_namesOf _).mpr ⟨entry, hentry, hname⟩
      have hb := (mem_namesOf _).mpr hdepends.2
      exact (edge_iff _).mpr ⟨a, b, getElem?_idxOf ha, getElem?_idxOf hb, hdepends⟩
    exact h _ (Relation.transGen_swap.mp (hcycle.lift _ hedge))
  · intro h v hcycle
    have hdepends (a b : ℕ)
        (hedge : Kahn.Edge (List.range (namesOf items).length) (edgesOf items).adj a b) :
        Function.swap (Depends (asCStrings items)) ((namesOf items).getD a [])
          ((namesOf items).getD b []) := by
      obtain ⟨name, dep, hname, hdep, hdepends⟩ := (edge_iff _).mp hedge
      change Depends _ _ _
      rw [getD_eq_getElem?_getD, getD_eq_getElem?_getD, hname, hdep]
      exact hdepends
    exact h _ (Relation.transGen_swap.mp (hcycle.lift _ hdepends))

/-- The state in which the loop ends. -/
def finalState : Kahn.State ℕ :=
  Kahn.run (edgesOf items).adj (namesOf items).length
    (Kahn.start (List.range (namesOf items).length) (edgesOf items).inDegree)

theorem invariant_finalState :
    Kahn.Invariant (List.range (namesOf items).length) (edgesOf items).adj (finalState items) ∧
      (finalState items).queue = [] := by
  have hgraph := graph_edgesOf items
  have hstart := Kahn.Invariant.start hgraph
    (foldl_addItem (nodup_namesOf _) _ (Edges.balanced_empty _)).1.degree
  have hempty := Kahn.queue_run hgraph hstart
  rw [length_range] at hempty
  exact ⟨hstart.run hgraph _, hempty⟩

theorem length_finalState :
    (finalState items).order.length = (namesOf items).length ↔ ¬ Cyclic (asCStrings items) := by
  obtain ⟨hinvariant, hempty⟩ := invariant_finalState _
  have hlength := Kahn.length_order_eq_iff (graph_edgesOf _) hinvariant hempty
  rw [length_range] at hlength
  exact hlength.trans (acyclic_edgesOf_iff _)

def orderedNames : List Bytes := (finalState items).order.map fun idx => (namesOf items).getD idx []

theorem ordered_orderedNames (hall : (finalState items).order.length = (namesOf items).length) :
    Ordered (asCStrings items) (orderedNames items) := by
  obtain ⟨hinvariant, hempty⟩ := invariant_finalState items
  have hnames := nodup_namesOf items
  have hnodup := hinvariant.nodup
  have hsubset := hinvariant.subset
  rw [hempty, append_nil] at hnodup hsubset
  have hperm := (subperm_of_subset hnodup hsubset).perm_of_length_le (by simp [hall])
  have hlt {idx : ℕ} (hidx : idx ∈ (finalState _).order) : idx < (namesOf items).length :=
    mem_range.mp (hsubset _ hidx)
  have hget {idx : ℕ} (hidx : idx ∈ (finalState items).order) :
      (namesOf items)[idx]? = some ((namesOf items).getD idx []) := by
    rw [getD_eq_getElem, getElem?_eq_getElem (hlt hidx)]
  constructor
  case nodup =>
    refine hnodup.map_on fun a ha b hb heq => ?_
    rw [getD_eq_getElem _ _ (hlt ha), getD_eq_getElem _ _ (hlt hb)] at heq
    exact (hnames.getElem_inj_iff).mp heq
  case mem_iff =>
    intro name
    rw [← mem_namesOf, orderedNames, mem_map]
    constructor
    · rintro ⟨idx, hidx, rfl⟩
      exact mem_of_getElem? (hget hidx)
    · intro hname
      have hidx : (namesOf items).idxOf name ∈ (finalState items).order :=
        hperm.mem_iff.mpr (mem_range.mpr (idxOf_lt_length_of_mem hname))
      refine ⟨_, hidx, Option.some.inj ?_⟩
      rw [← hget hidx, getElem?_idxOf hname]
  case before =>
    intro front name back heq dep hdepends
    obtain ⟨left, rest, horder, rfl, hrest⟩ := map_eq_append_iff.mp heq
    obtain ⟨idx, right, rfl, rfl, rfl⟩ := map_eq_cons_iff.mp hrest
    have hidx : idx ∈ (finalState items).order := by simp [horder]
    have hdep := (mem_namesOf _).mpr hdepends.2
    have hedge := (edge_iff _).mpr ⟨_, dep, hget hidx, getElem?_idxOf hdep, hdepends⟩
    have hfront := hinvariant.sorted _ _ _ horder _ hedge
    refine mem_map.mpr ⟨_, hfront, Option.some.inj ?_⟩
    rw [← hget (by rw [horder]; exact mem_append_left _ hfront), getElem?_idxOf hdep]

end Items

/-! ## The result -/

theorem mapM_eq_some_map {α β : Type} {f : α → Option β} {g : α → β} {l : List α}
    (h : ∀ a ∈ l, f a = some (g a)) : l.mapM f = some (l.map g) := by
  induction l with
  | nil => rfl
  | cons a l ih =>
    obtain ⟨ha, hl⟩ := forall_mem_cons.mp h
    rw [mapM_cons, ha, ih hl]
    rfl

theorem leavesException_eq_false_iff :
    leavesException items = false ↔ AllEncodable items := by
  have hread (text : Text) : text.utf8.isNone = false ↔ text.Encodable := by
    rw [← not_iff_not, Bool.not_eq_false, Option.isNone_iff_eq_none, ← asUtf8_eq_none_iff, asUtf8,
      Option.map_eq_none_iff]
  simp only [leavesException, AllEncodable, any_eq_false, Bool.not_eq_true,
    Bool.or_eq_false_iff, hread]

/-- The three ways in which a call may end. -/
theorem computeDependencyOrder_cases (items : List (Text × List Text)) :
    Cyclic (asCStrings items) ∧ computeDependencyOrder items = .error .valueError ∨
      ¬ Cyclic (asCStrings items) ∧ ¬ AllEncodable items ∧
        computeDependencyOrder items = .error .systemError ∨
      ¬ Cyclic (asCStrings items) ∧ AllEncodable items ∧
        ∃ order : List Text, computeDependencyOrder items = .ok order ∧
          (∀ text ∈ order, text.Encodable ∧ (0 : CodePoint) ∉ text) ∧
            Ordered (asCStrings items) (order.map Text.bytes) := by
  have hcall : computeDependencyOrder items =
      if (finalState items).order.length ≠ (namesOf items).length then .error .valueError
      else
        match (finalState items).order.mapM fun idx => Text.ofUtf8 ((namesOf items).getD idx []) with
        | none => .error .unicodeDecodeError
        | some order => if leavesException items then .error .systemError else .ok order := rfl
  have hlength := length_finalState items
  by_cases hcycle : Cyclic (asCStrings items)
  · refine .inl ⟨hcycle, ?_⟩
    rw [hcall, if_pos fun heq => hlength.mp heq hcycle]
  · have hall := hlength.mpr hcycle
    have hordered := ordered_orderedNames _ hall
    have hdecode (name : Bytes) (hname : name ∈ orderedNames items) :
        ∃ text : Text, text.Encodable ∧ text.bytes = name ∧ (0 : CodePoint) ∉ text := by
      obtain ⟨entry, hentry, rfl⟩ := (hordered.mem_iff _).mp hname
      obtain ⟨item, -, hitem, -⟩ := mem_asCStrings.mp hentry
      exact asUtf8_eq_some hitem
    choose! decode hencodable hbytes hfree using hdecode
    have hmap : (finalState items).order.mapM
        (fun idx => Text.ofUtf8 ((namesOf items).getD idx [])) =
          some ((orderedNames items).map decode) := by
      rw [orderedNames, map_map]
      refine mapM_eq_some_map fun idx hidx => ?_
      have hname := mem_map_of_mem (f := fun idx => (namesOf items).getD idx []) hidx
      exact Text.ofUtf8_eq_some_iff.mpr ⟨hencodable _ hname, hbytes _ hname⟩
    rw [hcall, if_neg (not_not.mpr hall), hmap]
    by_cases hexception : AllEncodable items
    · refine .inr (.inr ⟨hcycle, hexception, _, ?_, forall_mem_map.mpr fun name hname =>
        ⟨hencodable _ hname, hfree _ hname⟩, ?_⟩)
      · simp [leavesException_eq_false_iff.mpr hexception]
      · have hsame : (orderedNames items).map (Text.bytes ∘ decode) = orderedNames items :=
          (map_congr_left hbytes).trans (map_id _)
        rw [map_map, hsame]
        exact hordered
    · refine .inr (.inl ⟨hcycle, hexception, ?_⟩)
      rw [← leavesException_eq_false_iff, Bool.not_eq_false] at hexception
      simp [hexception]

theorem Depends.cStrings (hencodable : AllEncodable items)
    (hfree : ∀ item ∈ items, (0 : CodePoint) ∉ item.1) {name dep : Text}
    (h : Depends items name dep) : Depends (asCStrings items) name.bytes dep.bytes := by
  obtain ⟨⟨item, hitem, rfl, hdep⟩, other, hother, rfl⟩ := h
  have hread {item : Text × List _} (hmem : item ∈ items) : asUtf8 item.1 = some item.1.bytes :=
    asUtf8_of_encodable (hencodable _ hmem).1 (hfree _ hmem)
  have hlisted : (other.1.bytes, other.2.filterMap asUtf8) ∈ asCStrings items :=
    mem_asCStrings.mpr ⟨other, hother, hread hother, rfl⟩
  exact (depends_asCStrings _).mpr ⟨⟨item, hitem, hread hitem, other.1, hdep, hread hother⟩,
    (mem_namesOf _).mpr ⟨_, hlisted, rfl⟩⟩

theorem Ordered.of_cStrings (hencodable : AllEncodable items)
    (hfree : ∀ item ∈ items, (0 : CodePoint) ∉ item.1) {order : List Text}
    (hnames : ∀ text ∈ order, text.Encodable) (h : Ordered (asCStrings items) (order.map Text.bytes)) :
    Ordered items order := by
  have hread {item : Text × List _} (hmem : item ∈ items) : asUtf8 item.1 = some item.1.bytes :=
    asUtf8_of_encodable (hencodable _ hmem).1 (hfree _ hmem)
  have hmem {name : Text} (hname : name.Encodable) : name.bytes ∈ order.map Text.bytes ↔
      ∃ item ∈ items, item.1 = name := by
    rw [h.mem_iff]
    constructor
    · rintro ⟨entry, hentry, heq⟩
      obtain ⟨item, hitem, hbytes, -⟩ := mem_asCStrings.mp hentry
      rw [hread hitem, heq] at hbytes
      exact ⟨item, hitem, Text.bytes_inj (hencodable _ hitem).1 hname (Option.some.inj hbytes)⟩
    · rintro ⟨item, hitem, rfl⟩
      exact ⟨(item.1.bytes, item.2.filterMap asUtf8),
        mem_asCStrings.mpr ⟨item, hitem, hread hitem, rfl⟩, rfl⟩
  constructor
  case nodup => exact h.nodup.of_map _
  case mem_iff =>
    intro name
    constructor
    · intro hname
      exact (hmem (hnames _ hname)).mp (mem_map_of_mem hname)
    · rintro ⟨item, hitem, rfl⟩
      obtain ⟨text, htext, heq⟩ :=
        mem_map.mp ((hmem (hencodable _ hitem).1).mpr ⟨item, hitem, rfl⟩)
      rwa [← Text.bytes_inj (hnames _ htext) (hencodable _ hitem).1 heq]
  case before =>
    rintro front name back rfl dep hdepends
    obtain ⟨text, htext, heq⟩ := mem_map.mp (h.before (front.map Text.bytes) _
      (back.map Text.bytes) (by simp) _ (hdepends.cStrings hencodable hfree))
    obtain ⟨item, hitem, hname⟩ := hdepends.2
    have hdep : dep.Encodable := hname ▸ (hencodable _ hitem).1
    rwa [← Text.bytes_inj (hnames _ (mem_append_left _ htext)) hdep heq]

/-- A call orders the names or refuses a cycle as it should in two cases: there is a cycle,
also between the C strings, or there is none between these, all names have encodings, and no
listed one has a NUL. -/
theorem dependencyOrder_iff (items : List (Text × List Text)) :
    OrdersOrRefuses items (computeDependencyOrder items) ↔
      Cyclic items ∧ Cyclic (asCStrings items) ∨ ¬ Cyclic (asCStrings items) ∧ AllEncodable items ∧
          ∀ item ∈ items, (0 : CodePoint) ∉ item.1 := by
  rcases computeDependencyOrder_cases items with ⟨hcycle, hcall⟩ |
    ⟨hcycle, hexception, hcall⟩ | ⟨hcycle, hencodable, order, hcall, hnames, hordered⟩
  · simp [hcall, OrdersOrRefuses, hcycle]
  · simp [hcall, OrdersOrRefuses, hexception, hcycle]
  · rw [hcall]
    constructor
    · rintro ⟨-, hitems⟩
      exact .inr ⟨hcycle, hencodable, fun item hitem =>
        (hnames _ ((hitems.mem_iff _).mpr ⟨item, hitem, rfl⟩)).2⟩
    · rintro (⟨-, hbad⟩ | ⟨-, -, hfree⟩)
      · exact absurd hbad hcycle
      · refine ⟨fun ⟨name, hpath⟩ => hcycle ⟨name.bytes, ?_⟩,
          .of_cStrings hencodable hfree (fun text htext => (hnames _ htext).1) hordered⟩
        exact hpath.lift _ fun a b hdepends => hdepends.cStrings hencodable hfree

/-- Two names that differ only behind a NUL are one to the function, and the name in the
result is neither of them. -/
theorem dependencyOrder_nul :
    computeDependencyOrder [([97, 0, 98], []), ([97, 0, 99], [])] = .ok [[97]] ∧
      ¬ OrdersOrRefuses [([97, 0, 98], []), ([97, 0, 99], [])]
        (computeDependencyOrder [([97, 0, 98], []), ([97, 0, 99], [])]) := by
  have hcall : computeDependencyOrder [([97, 0, 98], []), ([97, 0, 99], [])] = .ok [[97]] := by
    decide +kernel
  refine ⟨hcall, ?_⟩
  rintro ⟨-, hordered⟩
  have hlisted := (hordered.mem_iff [97, 0, 98]).mpr ⟨_, mem_cons_self, rfl⟩
  revert hlisted
  decide

end AstraApi.Dispatch
