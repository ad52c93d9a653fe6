import Mathlib.Tactic

/-!
# Kahn's algorithm

The nodes of a finite graph in an order in which every node comes after its
predecessors.  A node is ready when no edge from a node that has not been taken
leads to it.  An edge may occur several times.
-/

namespace AstraApi.Kahn

open List

variable {V : Type*} [DecidableEq V]

/-- Numbers of incoming edges, the nodes that are ready, and those taken. -/
structure State (V : Type*) where
  inDegree : V → ℤ
  queue : List V
  order : List V

/-- One edge less leads to a node. -/
def relax (s : State V) (v : V) : State V :=
  { s with
    inDegree := Function.update s.inDegree v (s.inDegree v - 1)
    queue := if s.inDegree v - 1 = 0 then s.queue ++ [v] else s.queue }

/-- Take the first node that is ready. -/
def step (adj : V → List V) (s : State V) : State V :=
  match s.queue with
  | [] => s
  | node :: rest =>
    (adj node).foldl relax { s with queue := rest, order := s.order ++ [node] }

def run (adj : V → List V) : ℕ → State V → State V
  | 0, s => s
  | fuel + 1, s => run adj fuel (step adj s)

def start (nodes : List V) (inDegree : V → ℤ) : State V where
  inDegree := inDegree
  queue := nodes.filter fun v => inDegree v = 0
  order := []

/-- The edges that lead to a node from those that have not been taken. -/
def remaining (nodes : List V) (adj : V → List V) (order : List V) (v : V) : ℕ :=
  ((nodes.filter fun u => u ∉ order).map fun u => (adj u).count v).sum

structure Graph (nodes : List V) (adj : V → List V) : Prop where
  nodup : nodes.Nodup
  closed : ∀ u ∈ nodes, ∀ v ∈ adj u, v ∈ nodes

def Edge (nodes : List V) (adj : V → List V) (u v : V) : Prop := u ∈ nodes ∧ v ∈ adj u

def Acyclic (nodes : List V) (adj : V → List V) : Prop :=
  ∀ v, ¬ Relation.TransGen (Edge nodes adj) v v

def Sorted (nodes : List V) (adj : V → List V) (order : List V) : Prop :=
  ∀ front v back, order = front ++ v :: back → ∀ u, Edge nodes adj u v → u ∈ front

structure Invariant (nodes : List V) (adj : V → List V) (s : State V) : Prop where
  nodup : (s.order ++ s.queue).Nodup
  subset : ∀ v ∈ s.order ++ s.queue, v ∈ nodes
  degree : ∀ v, s.inDegree v = remaining nodes adj s.order v
  ready : ∀ v ∈ nodes, v ∈ s.order ++ s.queue ↔ s.inDegree v = 0
  sorted : Sorted nodes adj s.order

/-! ## Counting edges -/

variable {nodes : List V} {adj : V → List V}

theorem remaining_eq_zero_iff {order : List V} {v : V} :
    remaining nodes adj order v = 0 ↔ ∀ u, Edge nodes adj u v → u ∈ order := by
  simp only [remaining, sum_eq_zero_iff, mem_map, mem_filter, decide_eq_true_eq, Edge]
  constructor
  · intro h u hedge
    by_contra hu
    exact count_eq_zero.mp (h _ ⟨u, ⟨hedge.1, hu⟩, rfl⟩) hedge.2
  · rintro h _ ⟨u, ⟨hmem, hu⟩, rfl⟩
    exact count_eq_zero.mpr fun hedge => hu (h u ⟨hmem, hedge⟩)

theorem remaining_append (hnodup : nodes.Nodup) {order : List V} {node : V} (hmem : node ∈ nodes)
    (hnew : node ∉ order) (v : V) :
    remaining nodes adj (order ++ [node]) v + (adj node).count v = remaining nodes adj order v := by
  have hfilter : nodes.filter (fun u => u ∉ order ++ [node]) =
      (nodes.filter fun u => u ∉ order).erase node := by
    rw [(hnodup.filter _).erase_eq_filter, filter_filter]
    refine filter_congr fun u _ => ?_
    simp only [mem_append, mem_singleton, not_or, Bool.decide_and, bne, Bool.and_comm, decide_not]
    rfl
  have hin : node ∈ nodes.filter fun u => u ∉ order := by simp [hmem, hnew]
  rw [remaining, remaining, hfilter, Nat.add_comm]
  exact sum_map_erase (fun u => (adj u).count v) hin

/-! ## One node -/

theorem foldl_relax (ns : List V) (s : State V) (hcount : ∀ v, (ns.count v : ℤ) ≤ s.inDegree v) :
    (ns.foldl relax s).order = s.order ∧
      (∀ v, (ns.foldl relax s).inDegree v = s.inDegree v - ns.count v) ∧
      ∃ pushed : List V, (ns.foldl relax s).queue = s.queue ++ pushed ∧ pushed.Nodup ∧
        ∀ v, v ∈ pushed ↔ v ∈ ns ∧ s.inDegree v = ns.count v := by
  induction ns generalizing s with
  | nil => exact ⟨rfl, by simp, [], by simp, by simp, by simp⟩
  | cons w ns ih =>
    have hdegree (v : V) : (relax s w).inDegree v = s.inDegree v - if w = v then 1 else 0 := by
      simp only [relax, Function.update_apply]
      split_ifs with h₁ h₂ h₂
      · rw [h₁]
      · exact absurd h₁.symm h₂
      · exact absurd h₂.symm h₁
      · rw [sub_zero]
    have hcons (v : V) : ((w :: ns).count v : ℤ) = ns.count v + if w = v then 1 else 0 := by
      split_ifs <;> simp_all
    have hstep (v : V) : (ns.count v : ℤ) ≤ (relax s w).inDegree v := by
      have hv := hcount v
      rw [hcons] at hv
      rw [hdegree]
      omega
    obtain ⟨horder, hdegrees, pushed, hqueue, hnodup, hmem⟩ := ih _ hstep
    refine ⟨horder, fun v => ?_, ?_⟩
    · rw [foldl_cons, hdegrees, hdegree, hcons]
      ring
    · have hother {v : V} (hv : v ≠ w) :
          v ∈ w :: ns ∧ s.inDegree v = (w :: ns).count v ↔ v ∈ pushed := by
        have hne : ¬ w = v := fun h => hv h.symm
        simp [hmem, hdegree, hcons, if_neg hne, hv]
      have hself : (s.inDegree w = (w :: ns).count w) ↔ (relax s w).inDegree w = ns.count w := by
        rw [hdegree, hcons, if_pos rfl]
        omega
      by_cases hzero : s.inDegree w - 1 = 0
      · have hcountw : ns.count w = 0 := by
          have hw := hstep w
          rw [hdegree, if_pos rfl, hzero] at hw
          omega
        have hout : w ∉ ns := count_eq_zero.mp hcountw
        refine ⟨w :: pushed, ?_, nodup_cons.mpr ⟨?_, hnodup⟩, fun v => ?_⟩
        · rw [foldl_cons, hqueue, relax, if_pos hzero, append_assoc]
          rfl
        · exact fun h => hout ((hmem w).mp h).1
        · by_cases hv : v = w
          · rw [hv, hself, hdegree, if_pos rfl, hzero, hcountw]
            simp
          · rw [hother hv, mem_cons, or_iff_right hv]
      · refine ⟨pushed, ?_, hnodup, fun v => ?_⟩
        · rw [foldl_cons, hqueue, relax, if_neg hzero]
        · by_cases hv : v = w
          · rw [hv, hself, hmem]
            refine and_congr_left fun heq => iff_of_true ?_ mem_cons_self
            refine count_pos_iff.mp (Nat.pos_of_ne_zero fun hnone => hzero ?_)
            rw [hdegree, if_pos rfl, hnone] at heq
            exact heq
          · rw [hother hv]

/-! ## The run -/

theorem Invariant.start (hgraph : Graph nodes adj) {inDegree : V → ℤ}
    (hdegree : ∀ v, inDegree v = (nodes.map fun u => (adj u).count v).sum) :
    Invariant nodes adj (start nodes inDegree) where
  nodup := by
    exact hgraph.nodup.filter _
  subset v hv := (mem_filter.mp hv).1
  degree v := by
    simp [Kahn.start, hdegree, remaining]
  ready v hv := by
    simp [Kahn.start, hv]
  sorted front v back h := by
    cases front <;> cases h

theorem Invariant.predecessors {s : State V} (h : Invariant nodes adj s) {v : V}
    (hv : v ∈ s.order ++ s.queue) {u : V} (hedge : Edge nodes adj u v) : u ∈ s.order := by
  have hzero : (remaining nodes adj s.order v : ℤ) = 0 := by
    rw [← h.degree, ← h.ready v (h.subset v hv)]
    exact hv
  exact remaining_eq_zero_iff.mp (by exact_mod_cast hzero) u hedge

omit [DecidableEq V] in
theorem Sorted.append {order : List V} (h : Sorted nodes adj order) {node : V}
    (hnode : ∀ u, Edge nodes adj u node → u ∈ order) : Sorted nodes adj (order ++ [node]) := by
  intro front v back heq u hedge
  rcases eq_nil_or_concat back with rfl | ⟨back, last, rfl⟩
  · obtain ⟨rfl, hlast⟩ := append_inj' heq rfl
    cases hlast
    exact hnode u hedge
  · rw [concat_eq_append, ← cons_append, ← append_assoc] at heq
    exact h front v back (append_inj_left' heq rfl) u hedge

theorem Invariant.step (hgraph : Graph nodes adj) {s : State V} (h : Invariant nodes adj s) :
    Invariant nodes adj (step adj s) := by
  rw [Kahn.step]
  cases hqueue : s.queue with
  | nil => exact h
  | cons node rest =>
    have hready : node ∈ s.order ++ s.queue := by simp [hqueue]
    have hnode := h.subset _ hready
    have hnodup := h.nodup
    rw [hqueue] at hnodup
    have hnew : node ∉ s.order := fun hmem =>
      (disjoint_of_nodup_append hnodup) hmem mem_cons_self
    have hremaining (v : V) : remaining nodes adj (s.order ++ [node]) v + (adj node).count v =
        remaining nodes adj s.order v := remaining_append hgraph.nodup hnode hnew v
    have hcount (v : V) : ((adj node).count v : ℤ) ≤ s.inDegree v := by
      rw [h.degree, ← hremaining]
      omega
    obtain ⟨horder, hdegree, pushed, hpushed, hdistinct, hmem⟩ :=
      foldl_relax _ { s with queue := rest, order := s.order ++ [node] } hcount
    have hsplit : s.order ++ [node] ++ (rest ++ pushed) = s.order ++ s.queue ++ pushed := by
      rw [hqueue]
      simp
    have hold {v : V} (hv : v ∈ s.order ++ s.queue) : s.inDegree v = 0 :=
      (h.ready v (h.subset v hv)).mp hv
    constructor
    case nodup =>
      rw [horder, hpushed, hsplit]
      refine h.nodup.append hdistinct fun v hv hvpushed => ?_
      obtain ⟨hvedge, hvcount⟩ := (hmem v).mp hvpushed
      have hpos := count_pos_iff.mpr hvedge
      have hzero := hold hv
      simp only at hvcount
      omega
    case subset =>
      rw [horder, hpushed, hsplit]
      intro v hv
      rcases mem_append.mp hv with hv | hv
      · exact h.subset v hv
      · exact hgraph.closed _ hnode v ((hmem v).mp hv).1
    case degree =>
      intro v
      rw [horder, hdegree, h.degree, ← hremaining]
      push_cast
      ring
    case ready =>
      intro v hv
      rw [horder, hpushed, hsplit, hdegree, mem_append, h.ready v hv, hmem]
      have hbound := hcount v
      constructor
      · rintro (hzero | ⟨-, heq⟩)
        · simp only [hzero] at hbound ⊢
          omega
        · rw [heq, sub_self]
      · intro hzero
        by_cases hvedge : v ∈ adj node
        · exact .inr ⟨hvedge, sub_eq_zero.mp hzero⟩
        · rw [count_eq_zero.mpr hvedge] at hzero
          exact .inl (by simpa using hzero)
    case sorted =>
      rw [horder]
      exact h.sorted.append fun u hedge => h.predecessors hready hedge

theorem Invariant.run (hgraph : Graph nodes adj) (fuel : ℕ) {s : State V}
    (h : Invariant nodes adj s) : Invariant nodes adj (run adj fuel s) := by
  induction fuel generalizing s with
  | zero => exact h
  | succ fuel ih => exact ih (h.step hgraph)

theorem order_foldl_relax (ns : List V) (s : State V) : (ns.foldl relax s).order = s.order := by
  induction ns generalizing s with
  | nil => rfl
  | cons w ns ih => rw [foldl_cons, ih, relax]

/-- Each step takes a node as long as there is one. -/
theorem length_order_run (adj : V → List V) (fuel : ℕ) (s : State V) :
    (run adj fuel s).queue = [] ∨ s.order.length + fuel ≤ (run adj fuel s).order.length := by
  induction fuel generalizing s with
  | zero => exact .inr le_rfl
  | succ fuel ih =>
    rw [Kahn.run]
    cases hqueue : s.queue with
    | nil =>
      have hstay (fuel : ℕ) : Kahn.run adj fuel s = s := by
        induction fuel with
        | zero => rfl
        | succ fuel ih => rw [Kahn.run, Kahn.step, hqueue]; exact ih
      rw [Kahn.step, hqueue]
      exact .inl ((congrArg _ (hstay _)).trans hqueue)
    | cons node rest =>
      have hlength : (Kahn.step adj s).order.length = s.order.length + 1 := by
        rw [Kahn.step, hqueue]
        simp [order_foldl_relax]
      rcases ih (Kahn.step adj s) with hempty | hlong
      · exact .inl hempty
      · exact .inr (by omega)

theorem queue_run (hgraph : Graph nodes adj) {s : State V} (h : Invariant nodes adj s) :
    (run adj nodes.length s).queue = [] := by
  have hrun := h.run hgraph nodes.length
  rcases length_order_run adj nodes.length s with hempty | hlong
  · exact hempty
  · have hlength := (subperm_of_subset hrun.nodup hrun.subset).length_le
    rw [length_append] at hlength
    exact length_eq_zero_iff.mp (by omega)

/-! ## Cycles -/

theorem Graph.acyclic_of_sorted {order : List V} (hall : ∀ v ∈ nodes, v ∈ order)
    (hsorted : Sorted nodes adj order) (hgraph : Graph nodes adj) : Acyclic nodes adj := by
  have hedge {u v : V} (h : Edge nodes adj u v) : order.idxOf u < order.idxOf v := by
    have hv := hall v (hgraph.closed u h.1 v h.2)
    obtain ⟨front, back, heq, hfresh⟩ := eq_append_cons_of_mem hv
    have hu := hsorted _ v _ heq u h
    rw [heq, idxOf_append_of_mem hu, idxOf_append_of_notMem hfresh, idxOf_cons_self]
    exact idxOf_lt_length_of_mem hu
  have hpath {u v : V} (h : Relation.TransGen (Edge nodes adj) u v) :
      order.idxOf u < order.idxOf v := by
    induction h with
    | single h => exact hedge h
    | tail _ h ih => exact ih.trans (hedge h)
  exact fun v h => (hpath h).false

/-- In a graph without cycles some node that has not been taken is ready. -/
theorem Acyclic.exists_source (h : Acyclic nodes adj) (left : V → Prop)
    (hleft : ∃ v ∈ nodes, left v) :
    ∃ v ∈ nodes, left v ∧ ∀ u, Edge nodes adj u v → ¬ left u := by
  let before (a b : {v // v ∈ nodes}) : Prop := Relation.TransGen (Edge nodes adj) a b
  have : Std.Irrefl before := ⟨fun a => h a⟩
  have hfounded : WellFounded before := Finite.wellFounded_of_trans_of_irrefl _
  obtain ⟨v, hv, hlv⟩ := hleft
  obtain ⟨⟨m, hm⟩, hlm, hmin⟩ := hfounded.has_min {a | left a} ⟨⟨v, hv⟩, hlv⟩
  exact ⟨m, hm, hlm, fun u hedge hu => hmin ⟨u, hedge.1⟩ hu (.single hedge)⟩

/-- What the run has taken in the end: every node exactly when there is no cycle. -/
theorem length_order_eq_iff (hgraph : Graph nodes adj) {s : State V} (h : Invariant nodes adj s)
    (hdone : s.queue = []) : s.order.length = nodes.length ↔ Acyclic nodes adj := by
  have hnodup := h.nodup
  have hsubset := h.subset
  rw [hdone, append_nil] at hnodup hsubset
  have hsubperm := subperm_of_subset hnodup hsubset
  constructor
  · intro hlength
    have hperm := hsubperm.perm_of_length_le hlength.ge
    exact hgraph.acyclic_of_sorted (fun v hv => hperm.mem_iff.mpr hv) h.sorted
  · intro hacyclic
    refine ((perm_ext_iff_of_nodup hnodup hgraph.nodup).mpr fun v =>
      ⟨hsubset v, fun hv => ?_⟩).length_eq
    by_contra hout
    obtain ⟨m, hm, hleft, hpred⟩ := hacyclic.exists_source (· ∉ s.order) ⟨v, hv, hout⟩
    have hzero : remaining nodes adj s.order m = 0 :=
      remaining_eq_zero_iff.mpr fun u hedge => not_not.mp (hpred u hedge)
    have hready := (h.ready m hm).mpr (by rw [h.degree, hzero]; rfl)
    rw [hdone, append_nil] at hready
    exact hleft hready

end AstraApi.Kahn
