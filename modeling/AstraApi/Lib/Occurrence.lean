import Mathlib.Tactic

/-!
# Where a pattern occurs

The first occurrence of a pattern in a list, what appending to the list and dropping
from its front do to it, and the search of Boyer, Moore and Horspool, which finds it.
-/

namespace AstraApi.Occurrence

open List Option

variable {α : Type*}

def OccursAt (pattern : List α) (i : ℕ) (data : List α) : Prop := pattern <+: data.drop i

instance [DecidableEq α] (pattern : List α) (i : ℕ) (data : List α) :
    Decidable (OccursAt pattern i data) :=
  inferInstanceAs (Decidable (pattern <+: data.drop i))

variable {pattern data more : List α} {i : ℕ}

theorem OccursAt.add_length_le (hne : pattern ≠ []) (h : OccursAt pattern i data) :
    i + pattern.length ≤ data.length := by
  have hle := h.length_le
  have hpos := length_pos_of_ne_nil hne
  rw [length_drop] at hle
  omega

theorem occursAt_drop (pattern : List α) (start i : ℕ) (data : List α) :
    OccursAt pattern i (data.drop start) ↔ OccursAt pattern (start + i) data := by
  unfold OccursAt
  rw [drop_drop]

/-- An occurrence within the front of a list does not depend on what follows. -/
theorem occursAt_append_iff (hfits : i + pattern.length ≤ data.length) :
    OccursAt pattern i (data ++ more) ↔ OccursAt pattern i data := by
  unfold OccursAt
  rw [drop_append_of_le_length (by omega)]
  constructor
  · intro h
    apply prefix_of_prefix_length_le h (prefix_append _ _)
    rw [length_drop]
    omega
  · intro h
    exact h.trans (prefix_append _ _)

theorem OccursAt.append (hne : pattern ≠ []) (h : OccursAt pattern i data) (more : List α) :
    OccursAt pattern i (data ++ more) :=
  (occursAt_append_iff (h.add_length_le hne)).mpr h

theorem OccursAt.getElem? {j : ℕ} (h : OccursAt pattern i data) (hj : j < pattern.length) :
    data[i + j]? = pattern[j]? := by
  obtain ⟨rest, hrest⟩ := h
  rw [← getElem?_drop, ← hrest, getElem?_append_left hj]

/-! ## The first occurrence -/

variable [DecidableEq α]

def firstOccurrence (pattern : List α) : List α → Option ℕ
  | [] => if pattern = [] then some 0 else none
  | x :: data =>
    if pattern <+: x :: data then some 0
    else (firstOccurrence pattern data).map fun i => i + 1

theorem firstOccurrence_eq_some_iff (hne : pattern ≠ []) :
    firstOccurrence pattern data = some i ↔
      OccursAt pattern i data ∧ ∀ j < i, ¬ OccursAt pattern j data := by
  induction data generalizing i with
  | nil =>
    simp [firstOccurrence, OccursAt, hne]
  | cons x data ih =>
    simp only [firstOccurrence]
    split
    · rename_i hhere
      constructor
      · intro h
        obtain rfl := Option.some.inj h
        exact ⟨hhere, by simp⟩
      · rintro ⟨-, hnone⟩
        rcases Nat.eq_zero_or_pos i with rfl | hpos
        · rfl
        · exact absurd hhere (hnone 0 hpos)
    · rename_i hnot
      cases i with
      | zero =>
        constructor
        · intro h
          simp at h
        · rintro ⟨hhere, -⟩
          exact absurd hhere hnot
      | succ i =>
        simp only [map_eq_some_iff, Nat.add_right_cancel_iff, exists_eq_right, ih]
        constructor
        · rintro ⟨hoccurs, hnone⟩
          refine ⟨hoccurs, ?_⟩
          intro j hj
          cases j with
          | zero => exact hnot
          | succ j => exact hnone j (by omega)
        · rintro ⟨hoccurs, hnone⟩
          refine ⟨hoccurs, ?_⟩
          intro j hj
          exact hnone (j + 1) (by omega)

theorem firstOccurrence_eq_none_iff (hne : pattern ≠ []) :
    firstOccurrence pattern data = none ↔ ∀ i, ¬ OccursAt pattern i data := by
  constructor
  · intro hnone i hoccurs
    have hleast : ∃ i, OccursAt pattern i data := ⟨i, hoccurs⟩
    have hfirst : firstOccurrence pattern data = some (Nat.find hleast) :=
      (firstOccurrence_eq_some_iff hne).mpr
        ⟨Nat.find_spec hleast, fun j hj => Nat.find_min hleast hj⟩
    rw [hnone] at hfirst
    cases hfirst
  · intro h
    cases hfirst : firstOccurrence pattern data with
    | none => rfl
    | some i => exact absurd ((firstOccurrence_eq_some_iff hne).mp hfirst).1 (h i)

theorem firstOccurrence_append (hne : pattern ≠ []) (h : firstOccurrence pattern data = some i)
    (more : List α) : firstOccurrence pattern (data ++ more) = some i := by
  obtain ⟨hoccurs, hnone⟩ := (firstOccurrence_eq_some_iff hne).mp h
  apply (firstOccurrence_eq_some_iff hne).mpr
  refine ⟨hoccurs.append hne _, ?_⟩
  intro j hj hearlier
  have hfits := hoccurs.add_length_le hne
  exact hnone j hj ((occursAt_append_iff (by omega)).mp hearlier)

theorem firstOccurrence_drop (hne : pattern ≠ []) (h : firstOccurrence pattern data = some i) :
    firstOccurrence pattern (data.drop i) = some 0 := by
  apply (firstOccurrence_eq_some_iff hne).mpr
  refine ⟨?_, by simp⟩
  exact ((firstOccurrence_eq_some_iff hne).mp h).1

theorem firstOccurrence_infix {part : List α} (hne : pattern ≠ []) (hpart : part <:+: data)
    (hnone : firstOccurrence pattern data = none) : firstOccurrence pattern part = none := by
  obtain ⟨before, behind, rfl⟩ := hpart
  apply (firstOccurrence_eq_none_iff hne).mpr
  intro i hoccurs
  apply (firstOccurrence_eq_none_iff hne).mp hnone (before.length + i)
  rw [append_assoc, ← occursAt_drop, drop_left]
  exact hoccurs.append hne _

theorem firstOccurrence_take (hne : pattern ≠ []) (data : List α) :
    firstOccurrence pattern (data.take ((firstOccurrence pattern data).getD data.length)) =
      none := by
  cases hfirst : firstOccurrence pattern data with
  | none => rwa [getD_none, take_length]
  | some stop =>
    apply (firstOccurrence_eq_none_iff hne).mpr
    intro i hoccurs
    have hfits := hoccurs.add_length_le hne
    have hpos := length_pos_of_ne_nil hne
    rw [getD_some] at hoccurs hfits
    rw [length_take] at hfits
    apply ((firstOccurrence_eq_some_iff hne).mp hfirst).2 i (by omega)
    have happend := hoccurs.append hne (data.drop stop)
    rwa [take_append_drop] at happend

theorem firstOccurrence_skip (hne : pattern ≠ []) {skipped : List α}
    (hskip : ∀ j < skipped.length, ¬ OccursAt pattern j (skipped ++ data)) :
    firstOccurrence pattern (skipped ++ data) =
      (firstOccurrence pattern data).map fun i => skipped.length + i := by
  have hshift : ∀ i, OccursAt pattern i data ↔
      OccursAt pattern (skipped.length + i) (skipped ++ data) := by
    intro i
    rw [← occursAt_drop, drop_left]
  cases hfirst : firstOccurrence pattern data with
  | none =>
    apply (firstOccurrence_eq_none_iff hne).mpr
    intro j hoccurs
    have hlate : skipped.length ≤ j := by
      by_contra hearly
      exact hskip j (by omega) hoccurs
    apply (firstOccurrence_eq_none_iff hne).mp hfirst (j - skipped.length)
    rw [hshift, Nat.add_sub_cancel' hlate]
    exact hoccurs
  | some i =>
    obtain ⟨hoccurs, hnone⟩ := (firstOccurrence_eq_some_iff hne).mp hfirst
    apply (firstOccurrence_eq_some_iff hne).mpr
    refine ⟨(hshift i).mp hoccurs, ?_⟩
    intro j (hj : j < skipped.length + i) hearlier
    rcases Nat.lt_or_ge j skipped.length with hearly | hlate
    · exact hskip j hearly hearlier
    · apply hnone (j - skipped.length) (by omega)
      rw [hshift, Nat.add_sub_cancel' hlate]
      exact hearlier

theorem firstOccurrence_behind {first : α} {rest skipped : List α} (hfirst : first ∉ skipped)
    (data : List α) : firstOccurrence (first :: rest) (skipped ++ data) =
      (firstOccurrence (first :: rest) data).map fun i => skipped.length + i := by
  apply firstOccurrence_skip (cons_ne_nil _ _)
  intro j hj hoccurs
  have hget := hoccurs.getElem? (j := 0) (Nat.succ_pos _)
  rw [Nat.add_zero, getElem?_append_left hj] at hget
  exact hfirst (mem_of_getElem? hget)

theorem firstOccurrence_self_append (hne : pattern ≠ []) (more : List α) :
    firstOccurrence pattern (pattern ++ more) = some 0 := by
  apply (firstOccurrence_eq_some_iff hne).mpr
  exact ⟨prefix_append _ _, fun j hj => absurd hj (Nat.not_lt_zero j)⟩

theorem firstOccurrence_apart (hne : pattern ≠ []) {separator : α} (hpattern : separator ∉ pattern)
    {front : List α} (hfront : firstOccurrence pattern front = none) (data : List α) :
    firstOccurrence pattern (front ++ separator :: data) =
      (firstOccurrence pattern data).map fun i => front.length + 1 + i := by
  have hskip : firstOccurrence pattern (front ++ [separator] ++ data) = _ :=
    firstOccurrence_skip hne ?_
  · rwa [append_assoc, length_append, length_singleton] at hskip
  · intro j hj hoccurs
    rw [append_assoc] at hoccurs
    rw [length_append, length_singleton] at hj
    by_cases hfits : j + pattern.length ≤ front.length
    · exact (firstOccurrence_eq_none_iff hne).mp hfront j ((occursAt_append_iff hfits).mp hoccurs)
    · have hget := hoccurs.getElem? (j := front.length - j) (by omega)
      rw [Nat.add_sub_cancel' (Nat.le_of_lt_succ hj), getElem?_append_right le_rfl,
        Nat.sub_self] at hget
      exact hpattern (mem_of_getElem? hget.symm)

theorem firstOccurrence_key {key front : List α} {last : α} (hkey : last ∉ key)
    (hfront : last ∉ front) (data : List α) :
    firstOccurrence (key ++ [last]) (front ++ last :: data) =
      if key <:+ front then some (front.length - key.length)
      else (firstOccurrence (key ++ [last]) data).map fun i => front.length + 1 + i := by
  have hne : key ++ [last] ≠ [] := append_ne_nil_of_right_ne_nil _ (cons_ne_nil _ _)
  -- The last element of an occurrence cannot lie within the front.
  have hend : ∀ j, OccursAt (key ++ [last]) j (front ++ last :: data) →
      front.length ≤ j + key.length := by
    intro j hoccurs
    by_contra hinside
    have hget := hoccurs.getElem? (j := key.length) (by
      rw [length_append, length_singleton]
      exact Nat.lt_succ_self _)
    rw [getElem?_append_left (Nat.lt_of_not_le hinside), getElem?_concat_length] at hget
    exact hfront (mem_of_getElem? hget)
  split
  · rename_i hsuffix
    obtain ⟨before, rfl⟩ := hsuffix
    rw [length_append] at hend ⊢
    apply (firstOccurrence_eq_some_iff hne).mpr
    rw [Nat.add_sub_cancel]
    constructor
    · rw [OccursAt, append_assoc, drop_left]
      exact ⟨data, by rw [append_assoc]; rfl⟩
    · intro j hj hoccurs
      exact absurd (hend j hoccurs) (by omega)
  · rename_i hsuffix
    have hskip : firstOccurrence (key ++ [last]) (front ++ [last] ++ data) = _ :=
      firstOccurrence_skip hne ?_
    · rwa [append_assoc, length_append, length_singleton] at hskip
    · intro j hj hoccurs
      rw [append_assoc] at hoccurs
      rw [length_append, length_singleton] at hj
      have hle := hend j hoccurs
      rcases Nat.eq_or_lt_of_le hle with heq | hlt
      · apply hsuffix
        have hdrop : key ++ [last] <+: front.drop j ++ last :: data := by
          rw [← drop_append_of_le_length (Nat.le_of_lt_succ hj)]
          exact hoccurs
        have hlength : key.length = (front.drop j).length := by
          rw [length_drop]
          omega
        have hkeyEq : key = front.drop j := by
          have htake := prefix_of_prefix_length_le ((prefix_append _ [last]).trans hdrop)
            (prefix_append (front.drop j) (last :: data)) hlength.le
          exact htake.eq_of_length hlength
        rw [hkeyEq]
        exact drop_suffix j _
      · have hget := hoccurs.getElem? (j := front.length - j) (by
          rw [length_append, length_singleton]
          omega)
        have hinside : (key ++ [last])[front.length - j]? = key[front.length - j]? :=
          getElem?_append_left (by omega)
        rw [Nat.add_sub_cancel' (Nat.le_of_lt_succ hj), getElem?_append_right le_rfl,
          Nat.sub_self, hinside] at hget
        exact hkey (mem_of_getElem? hget.symm)

/-- Nothing is found exactly where the pattern is no part of the list. -/
theorem firstOccurrence_none_iff (hne : pattern ≠ []) :
    firstOccurrence pattern data = none ↔ ¬ pattern <:+: data := by
  rw [firstOccurrence_eq_none_iff hne]
  constructor
  · rintro hnone ⟨before, behind, rfl⟩
    apply hnone _
    rw [OccursAt, append_assoc, drop_left]
    exact prefix_append _ _
  · intro hnot i hoccurs
    exact hnot (hoccurs.isInfix.trans (drop_suffix i _).isInfix)

/-- A pattern whose first element comes once is found behind data that does not have it. -/
theorem firstOccurrence_append_self {first : α} {rest : List α} (hfirst : first ∉ rest)
    (hnone : firstOccurrence (first :: rest) data = none) :
    firstOccurrence (first :: rest) (data ++ first :: rest) = some data.length := by
  have hne : first :: rest ≠ [] := cons_ne_nil _ _
  apply (firstOccurrence_eq_some_iff hne).mpr
  constructor
  · rw [OccursAt, drop_left]
  · intro j hj hoccurs
    by_cases hfits : j + (first :: rest).length ≤ data.length
    · exact (firstOccurrence_eq_none_iff hne).mp hnone j ((occursAt_append_iff hfits).mp hoccurs)
    · -- The first element would stand again within the occurrence.
      have hinside : data.length - (j + 1) < rest.length := by
        rw [length_cons] at hfits
        omega
      have hget := hoccurs.getElem? (j := data.length - (j + 1) + 1) (by omega)
      have hplace : j + (data.length - (j + 1) + 1) = data.length := by omega
      rw [hplace, getElem?_append_right le_rfl, Nat.sub_self, getElem?_cons_zero,
        getElem?_cons_succ] at hget
      exact hfirst (mem_of_getElem? hget.symm)

theorem firstOccurrence_of_length_lt (hne : pattern ≠ []) (h : data.length < pattern.length) :
    firstOccurrence pattern data = none := by
  apply (firstOccurrence_eq_none_iff hne).mpr
  intro i hoccurs
  have hfits := hoccurs.add_length_le hne
  omega

theorem firstOccurrence_getD_le (hne : pattern ≠ []) (data : List α) :
    (firstOccurrence pattern data).getD data.length ≤ data.length := by
  cases hfound : firstOccurrence pattern data with
  | none => exact le_rfl
  | some i =>
    have hfits := ((firstOccurrence_eq_some_iff hne).mp hfound).1.add_length_le hne
    exact (Nat.le_add_right i _).trans hfits

def behindFirst (pattern data : List α) : Option (List α) :=
  (firstOccurrence pattern data).map fun i => data.drop (i + pattern.length)

theorem behindFirst_passed {front : List α} (h : firstOccurrence pattern (front ++ data) =
    (firstOccurrence pattern data).map fun i => front.length + i) :
    behindFirst pattern (front ++ data) = behindFirst pattern data := by
  rw [behindFirst, behindFirst, h, Option.map_map]
  congr 1
  funext i
  rw [Function.comp_apply, Nat.add_assoc, ← drop_drop, drop_left]

theorem behindFirst_append (hne : pattern ≠ []) {front : List α}
    (hfront : firstOccurrence pattern front = some i) (data : List α) :
    behindFirst pattern (front ++ data) = some (front.drop (i + pattern.length) ++ data) := by
  have hfits := ((firstOccurrence_eq_some_iff hne).mp hfront).1.add_length_le hne
  rw [behindFirst, firstOccurrence_append hne hfront, map_some, drop_append_of_le_length hfits]

theorem behindFirst_eq_none_iff :
    behindFirst pattern data = none ↔ firstOccurrence pattern data = none :=
  map_eq_none_iff

/-- Without an occurrence, only the last bytes matter to what may still come: one less
than the pattern has. -/
theorem firstOccurrence_keep (hne : pattern ≠ []) {skipped kept : List α}
    (hnone : firstOccurrence pattern (skipped ++ kept) = none)
    (hkept : skipped = [] ∨ pattern.length ≤ kept.length + 1) (more : List α) :
    firstOccurrence pattern (skipped ++ kept ++ more) =
      (firstOccurrence pattern (kept ++ more)).map fun i => skipped.length + i := by
  rw [append_assoc]
  apply firstOccurrence_skip hne
  intro j hj hoccurs
  rw [← append_assoc] at hoccurs
  apply (firstOccurrence_eq_none_iff hne).mp hnone j
  apply (occursAt_append_iff _).mp hoccurs
  rw [length_append]
  rcases hkept with rfl | hkept
  · simp at hj
  · omega

/-! ## Boyer, Moore and Horspool -/

/-- How far to move for the last element of the window, at most `cap`: the distance of
its last occurrence in the pattern from the end. -/
def skipTable (cap : ℕ) (pattern : List α) : α → ℕ :=
  pattern.dropLast.zipIdx.foldl
    (fun table (c, i) => Function.update table c (min (pattern.length - 1 - i) cap))
    fun _ => min pattern.length cap

/-- The search with the window ending at `i`. -/
def horspool (table : α → ℕ) (pattern data : List α) : ℕ → ℕ → Option ℕ
  | 0, _ => none
  | fuel + 1, i =>
    match data[i]? with
    | none => none
    | some c =>
      if OccursAt pattern (i + 1 - pattern.length) data then some (i + 1 - pattern.length)
      else horspool table pattern data fuel (i + table c)

section Horspool

variable {cap : ℕ} (hcap : 0 < cap)

include hcap

theorem foldl_skipTable (length : ℕ) (entered : List α) (hentered : entered.length < length)
    {start : α → ℕ} (hstart : ∀ c, 0 < start c ∧ start c ≤ length) :
    let table := entered.zipIdx.foldl
      (fun table (c, i) => Function.update table c (min (length - 1 - i) cap)) start
    ∀ c, (0 < table c ∧ table c ≤ length) ∧
      ∀ i, entered[i]? = some c → table c ≤ length - 1 - i := by
  induction entered using List.reverseRecOn with
  | nil =>
    intro table c
    exact ⟨hstart c, by simp⟩
  | append_singleton entered x ih =>
    rw [length_append, length_singleton] at hentered
    intro table c
    have hih := ih (by omega)
    have htable : table = Function.update (entered.zipIdx.foldl
        (fun table (c, i) => Function.update table c (min (length - 1 - i) cap)) start)
        x (min (length - 1 - entered.length) cap) := by
      simp [table, zipIdx_append]
    rw [htable]
    by_cases hc : c = x
    · rw [hc, Function.update_self]
      refine ⟨by omega, ?_⟩
      intro i hi
      have hlt := (List.getElem?_eq_some_iff.mp hi).1
      rw [length_append, length_singleton] at hlt
      omega
    · rw [Function.update_of_ne hc]
      refine ⟨(hih c).1, ?_⟩
      intro i hi
      apply (hih c).2 i
      rcases Nat.lt_or_ge i entered.length with hin | hout
      · rwa [getElem?_append_left hin] at hi
      · rw [getElem?_append_right hout, getElem?_singleton] at hi
        split at hi
        · exact absurd (Option.some.inj hi).symm hc
        · cases hi

/-- An element of the table is at most the distance of every earlier occurrence. -/
theorem skipTable_spec (hne : pattern ≠ []) (c : α) :
    0 < skipTable cap pattern c ∧ skipTable cap pattern c ≤ pattern.length ∧
      ∀ i, i + 1 < pattern.length → pattern[i]? = some c →
        skipTable cap pattern c ≤ pattern.length - 1 - i := by
  have hpos := length_pos_of_ne_nil hne
  have hentered : pattern.dropLast.length < pattern.length := by
    rw [length_dropLast]
    omega
  obtain ⟨hbounds, hlast⟩ := foldl_skipTable hcap _ _ hentered
    (fun _ => ⟨Nat.lt_min.mpr ⟨hpos, hcap⟩, Nat.min_le_left _ _⟩) c
  refine ⟨hbounds.1, hbounds.2, ?_⟩
  intro i hi hget
  apply hlast i
  rw [getElem?_dropLast, if_pos (by omega)]
  exact hget

theorem horspool_eq_firstOccurrence (hne : pattern ≠ []) (fuel : ℕ) {last : ℕ}
    (hlast : pattern.length ≤ last + 1) (hfuel : data.length ≤ last + fuel)
    (hnone : ∀ j, j + pattern.length ≤ last → ¬ OccursAt pattern j data) :
    horspool (skipTable cap pattern) pattern data fuel last = firstOccurrence pattern data := by
  have hbeyond {last : ℕ} (hend : data.length ≤ last)
      (hnone : ∀ j, j + pattern.length ≤ last → ¬ OccursAt pattern j data) :
      firstOccurrence pattern data = none := by
    apply (firstOccurrence_eq_none_iff hne).mpr
    intro j hoccurs
    have hfits := hoccurs.add_length_le hne
    exact hnone j (by omega) hoccurs
  induction fuel generalizing last with
  | zero => exact (hbeyond (by omega) hnone).symm
  | succ fuel ih =>
    rw [horspool]
    cases hget : data[last]? with
    | none =>
      rw [List.getElem?_eq_none_iff] at hget
      exact (hbeyond hget hnone).symm
    | some c =>
      simp only
      split
      · rename_i hoccurs
        symm
        apply (firstOccurrence_eq_some_iff hne).mpr
        refine ⟨hoccurs, ?_⟩
        intro j hj
        exact hnone j (by omega)
      · rename_i hnot
        obtain ⟨hskip, -, hdistance⟩ := skipTable_spec hcap hne c
        apply ih (by omega) (by omega)
        intro j hj hoccurs
        have hlate : last < j + pattern.length := by
          by_contra hearly
          exact hnone j (by omega) hoccurs
        rcases Nat.lt_or_ge (last + 1) (j + pattern.length) with hinside | hhere
        · -- The last element of the window lies under the pattern at `j`.
          have hj : j ≤ last := by
            have hle := (skipTable_spec hcap hne c).2.1
            omega
          have hunder := hoccurs.getElem? (j := last - j) (by omega)
          rw [Nat.add_sub_cancel' hj, hget] at hunder
          have hle := hdistance _ (by omega) hunder.symm
          omega
        · have hj : j = last + 1 - pattern.length := by omega
          rw [hj] at hoccurs
          exact hnot hoccurs

end Horspool

end AstraApi.Occurrence
