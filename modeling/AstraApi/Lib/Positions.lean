import Mathlib.Tactic

/-!
# First and last positions

Where an element stands first and last in a list, and how that changes when the list grows at
its end or loses an entry.
-/

namespace AstraApi.Positions

open List

variable {α : Type*} {l : List α} {x y : α} {i j : ℕ}

def First (x : α) (l : List α) (i : ℕ) : Prop := l[i]? = some x ∧ ∀ j < i, l[j]? ≠ some x

def Last (x : α) (l : List α) (i : ℕ) : Prop := l[i]? = some x ∧ ∀ j > i, l[j]? ≠ some x

theorem First.mem (h : First x l i) : x ∈ l := mem_of_getElem? h.1

theorem First.lt (h : First x l i) : i < l.length := (List.getElem?_eq_some_iff.mp h.1).1

theorem First.unique (h : First x l i) (h' : First x l j) : i = j :=
  le_antisymm (not_lt.mp fun hlt => h.2 j hlt h'.1) (not_lt.mp fun hlt => h'.2 i hlt h.1)

theorem exists_first (h : x ∈ l) : ∃ i, First x l i := by
  classical
  have hsome : ∃ i, l[i]? = some x := mem_iff_getElem?.mp h
  exact ⟨Nat.find hsome, Nat.find_spec hsome, fun j hj => Nat.find_min hsome hj⟩

theorem getElem?_append_singleton :
    (l ++ [y])[i]? = some x ↔ l[i]? = some x ∨ i = l.length ∧ x = y := by
  rcases Nat.lt_trichotomy i l.length with hlt | rfl | hgt
  · rw [getElem?_append_left hlt]
    exact ⟨Or.inl, fun h => h.resolve_right fun heq => hlt.ne heq.1⟩
  · simp [eq_comm]
  · have hend : l.length + 1 ≤ i := hgt
    simp [getElem?_eq_none, hend, hgt.le, hgt.ne']

theorem first_append_singleton_iff :
    First x (l ++ [y]) i ↔ First x l i ∨ x ∉ l ∧ x = y ∧ i = l.length := by
  simp only [First, ne_eq, getElem?_append_singleton]
  constructor
  · rintro ⟨hi | ⟨rfl, rfl⟩, hbefore⟩
    · exact Or.inl ⟨hi, fun j hj h => hbefore j hj (Or.inl h)⟩
    · refine Or.inr ⟨fun hmem => ?_, rfl, rfl⟩
      obtain ⟨j, hj, hjx⟩ := mem_iff_getElem.mp hmem
      exact hbefore j hj (Or.inl (List.getElem?_eq_some_iff.mpr ⟨hj, hjx⟩))
  · rintro (⟨hi, hbefore⟩ | ⟨hmem, rfl, rfl⟩)
    · have hlt : i < l.length := (List.getElem?_eq_some_iff.mp hi).1
      exact ⟨Or.inl hi, fun j hj h => h.elim (hbefore j hj) fun heq => by omega⟩
    · exact ⟨Or.inr ⟨rfl, rfl⟩, fun j hj h => h.elim (fun hjx => hmem (mem_of_getElem? hjx))
        fun heq => hj.ne heq.1⟩

theorem last_cons_iff :
    Last x (y :: l) i ↔ (∃ j, i = j + 1 ∧ Last x l j) ∨ x ∉ l ∧ x = y ∧ i = 0 := by
  constructor
  · rintro ⟨hi, hbehind⟩
    cases i with
    | zero =>
      refine Or.inr ⟨fun hmem => ?_, (Option.some_inj.mp hi).symm, rfl⟩
      obtain ⟨j, hj⟩ := mem_iff_getElem?.mp hmem
      exact hbehind _ (Nat.succ_pos j) hj
    | succ i =>
      exact Or.inl ⟨i, rfl, hi, fun j hj => hbehind _ (Nat.succ_lt_succ hj)⟩
  · rintro (⟨j, rfl, hj, hbehind⟩ | ⟨hmem, rfl, rfl⟩)
    · refine ⟨hj, fun k hk => ?_⟩
      cases k with
      | zero => omega
      | succ k => exact hbehind k (Nat.lt_of_succ_lt_succ hk)
    · refine ⟨rfl, fun k hk hkx => ?_⟩
      cases k with
      | zero => omega
      | succ k => exact hmem (mem_of_getElem? hkx)

theorem exists_last (h : x ∈ l) : ∃ i, Last x l i := by
  induction l with
  | nil => cases h
  | cons y l ih =>
    by_cases hmem : x ∈ l
    · obtain ⟨i, hi⟩ := ih hmem
      exact ⟨i + 1, last_cons_iff.mpr (Or.inl ⟨i, rfl, hi⟩)⟩
    · have hxy : x = y := (mem_cons.mp h).resolve_right hmem
      exact ⟨0, last_cons_iff.mpr (Or.inr ⟨hmem, hxy, rfl⟩)⟩

/-- Without repetition, the first position is the last one. -/
theorem nodup_iff_last_first : l.Nodup ↔ ∀ x i, Last x l i → First x l i := by
  rw [nodup_iff_getElem?_ne_getElem?]
  constructor
  · intro h x i hi
    have hlt : i < l.length := (List.getElem?_eq_some_iff.mp hi.1).1
    exact ⟨hi.1, fun j hj hjx => h j i hj hlt (hjx.trans hi.1.symm)⟩
  · intro h i j hij hj heq
    obtain ⟨k, hk⟩ := exists_last (getElem_mem hj)
    have hle : j ≤ k := by
      by_contra hlt
      exact hk.2 j (by omega) (getElem?_eq_getElem hj)
    refine (h _ k hk).2 i (by omega) ?_
    rw [heq, getElem?_eq_getElem]

/-- Behind the entry that is lost, positions have moved by one. -/
theorem first_eraseIdx_iff (hi : l[i]? = some y) (hne : x ≠ y) :
    First x (l.eraseIdx i) j ↔ First x l (if j < i then j else j + 1) := by
  have hshift (k : ℕ) : (l.eraseIdx i)[k]? = l[if k < i then k else k + 1]? := by
    rw [getElem?_eraseIdx]
    split <;> rfl
  simp only [First, hshift]
  refine and_congr_right fun hj => ⟨fun hbefore k hk hkx => ?_, fun hbefore k hk => ?_⟩
  · have hki : k ≠ i := by
      rintro rfl
      exact hne (Option.some_inj.mp (hkx.symm.trans hi))
    obtain ⟨k', rfl⟩ : ∃ k', k = if k' < i then k' else k' + 1 := by
      rcases Nat.lt_or_gt_of_ne hki with hlt | hgt
      · exact ⟨k, (if_pos hlt).symm⟩
      · refine ⟨k - 1, ?_⟩
        rw [if_neg (by omega)]
        omega
    refine hbefore _ ?_ hkx
    split at hk <;> split at hk <;> omega
  · apply hbefore
    split <;> split <;> omega

end AstraApi.Positions
