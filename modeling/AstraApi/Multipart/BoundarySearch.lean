import AstraApi.Multipart.Feed

/-!
# The search for the boundary, byte by byte

`bmh_search` compares the window with the pattern from its end, on unsigned indices, and
moves on by a table of single bytes.  It never reads outside of the data, it ends, and it
finds the first occurrence.
-/

namespace AstraApi.Multipart

open List
open Occurrence

def buildBmhTable (pattern : Bytes) : Byte → Byte :=
  pattern.dropLast.zipIdx.foldl
    (fun table (c, i) =>
      Function.update table c (UInt8.ofNat (min (pattern.length - 1 - i) 255)))
    fun _ => UInt8.ofNat (min pattern.length 255)

/-- How the search ends; `running` is a search that has used up its turns. -/
inductive SearchResult where
  | found (index : ℕ)
  | npos
  | running
  deriving DecidableEq

/-- The condition of the inner loop.  It is `none` where the loop reads outside of the
data. -/
def sameAt (pattern data : Bytes) (j k : ℕ) : Option Bool :=
  match pattern[j]? with
  | none => some false
  | some p => data[k]?.map fun c => decide (c = p)

/-- The inner loop, which returns the index of a match.  Below the first byte the unsigned
index would wrap around. -/
def matchBack (pattern data : Bytes) : ℕ → ℕ → Option (Option ℕ)
  | 0, k => (sameAt pattern data 0 k).map fun same => if same then some k else none
  | j + 1, k =>
    match sameAt pattern data (j + 1) k with
    | none => none
    | some false => some none
    | some true =>
      match k with
      | 0 => none
      | k + 1 => matchBack pattern data j k

/-- The outer loop with the window ending at `i`. -/
def searchFrom (table : Byte → Byte) (pattern data : Bytes) (turns i : ℕ) :
    Option SearchResult :=
  if i < data.length then
    match turns with
    | 0 => some .running
    | turns + 1 =>
      match matchBack pattern data (pattern.length - 1) i with
      | none => none
      | some (some k) => some (.found k)
      | some none =>
        match data[i]? with
        | none => none
        | some c => searchFrom table pattern data turns (i + (table c).toNat)
  else some .npos

/-- `bmh_search` with as many turns as the data have bytes.  The indices stay below
`2 ^ 64`, since no array has more than `2 ^ 63` bytes. -/
def searchBoundary (pattern data : Bytes) : Option SearchResult :=
  if data.length < pattern.length then some .npos
  else searchFrom (buildBmhTable pattern) pattern data data.length (pattern.length - 1)

/-! ## The table -/

theorem toNat_buildBmhTable (pattern : Bytes) (c : Byte) :
    (buildBmhTable pattern c).toNat = skipTable 255 pattern c := by
  have hbyte (n : ℕ) : (UInt8.ofNat (min n 255)).toNat = min n 255 := by
    rw [UInt8.toNat_ofNat']
    omega
  have hstart : (fun c : Byte => ((fun _ => UInt8.ofNat (min pattern.length 255)) c : Byte).toNat) =
      fun _ => min pattern.length 255 := by
    funext _
    exact hbyte _
  rw [buildBmhTable, skipTable, ← hstart]
  refine congrFun
    (foldl_hom (fun (table : Byte → Byte) c => (table c).toNat) fun table entry => ?_).symm c
  funext d
  obtain ⟨e, i⟩ := entry
  by_cases hd : d = e
  · simp [hd, hbyte]
  · simp [Function.update_of_ne hd]

/-! ## The inner loop -/

theorem occursAt_append_singleton {front data : Bytes} {p : Byte} {i : ℕ} :
    OccursAt (front ++ [p]) i data ↔ data[i + front.length]? = some p ∧ OccursAt front i data := by
  constructor
  · intro h
    have hlast := h.getElem? (j := front.length) (by simp)
    rw [getElem?_concat_length] at hlast
    exact ⟨hlast, (prefix_append _ _).trans h⟩
  · rintro ⟨hlast, rest, hrest⟩
    rw [← getElem?_drop, ← hrest, getElem?_append_right le_rfl, Nat.sub_self,
      ← head?_eq_getElem?] at hlast
    obtain ⟨rest, rfl⟩ := head?_eq_some_iff.mp hlast
    exact ⟨rest, by rw [← hrest, append_assoc]; rfl⟩

/-- The loop compares the front of the pattern that ends at `j`, and stays inside. -/
theorem matchBack_eq {pattern data : Bytes} {j k : ℕ} (hj : j < pattern.length) (hjk : j ≤ k)
    (hk : k < data.length) :
    matchBack pattern data j k =
      some (if OccursAt (pattern.take (j + 1)) (k - j) data then some (k - j) else none) := by
  have hsame {j k : ℕ} (hj : j < pattern.length) (hk : k < data.length) :
      sameAt pattern data j k = some (decide (data[k] = pattern[j])) := by
    rw [sameAt, getElem?_eq_getElem, getElem?_eq_getElem]
    rfl
  have hoccurs {j k : ℕ} (hj : j < pattern.length) (hjk : j ≤ k) (hk : k < data.length) :
      OccursAt (pattern.take (j + 1)) (k - j) data ↔
        data[k] = pattern[j] ∧ OccursAt (pattern.take j) (k - j) data := by
    rw [take_succ_eq_append_getElem, occursAt_append_singleton,
      length_take_of_le (Nat.le_of_lt hj), Nat.sub_add_cancel hjk, getElem?_eq_getElem,
      Option.some.injEq]
  induction j generalizing k with
  | zero =>
    have hnil : OccursAt [] k data := nil_prefix
    rw [matchBack, hsame hj hk, Option.map_some, ite_cond_congr (propext (hoccurs hj hjk hk))]
    simp [hnil]
  | succ j ih =>
    obtain ⟨k, rfl⟩ := Nat.exists_eq_succ_of_ne_zero (by omega : k ≠ 0)
    have hrest := ih (k := k) (by omega) (by omega) (by omega)
    rw [matchBack, hsame hj hk, ite_cond_congr (propext (hoccurs hj hjk hk)), Nat.succ_sub_succ]
    by_cases heq : data[k + 1] = pattern[j + 1]
    · simp [heq, hrest]
    · simp [heq]

/-! ## The outer loop -/

theorem searchFrom_eq {table : Byte → Byte} (htable : ∀ c, 0 < (table c).toNat)
    {pattern data : Bytes} (hne : pattern ≠ []) (turns : ℕ) {i : ℕ} (hi : pattern.length ≤ i + 1)
    (hturns : data.length ≤ i + turns) :
    searchFrom table pattern data turns i =
      some (match horspool (fun c => (table c).toNat) pattern data turns i with
        | some k => .found k
        | none => .npos) := by
  have hpos := length_pos_of_ne_nil hne
  induction turns generalizing i with
  | zero => rw [searchFrom, if_neg (by omega), horspool]
  | succ turns ih =>
    rw [searchFrom, horspool]
    by_cases hlt : i < data.length
    · have hback : matchBack pattern data (pattern.length - 1) i = _ :=
        matchBack_eq (by omega) (by omega) hlt
      rw [Nat.sub_add_cancel hpos, take_length] at hback
      have hstart : i - (pattern.length - 1) = i + 1 - pattern.length := by omega
      rw [if_pos hlt, getElem?_eq_getElem hlt, hback, hstart]
      have hskip := htable data[i]
      by_cases hoccurs : OccursAt pattern (i + 1 - pattern.length) data
      · simp [hoccurs]
      · simp only [hoccurs, if_false]
        exact ih (by omega) (by omega)
    · rw [if_neg hlt, getElem?_eq_none (by omega)]

theorem searchBoundary_eq {pattern : Bytes} (hne : pattern ≠ []) (data : Bytes) :
    searchBoundary pattern data = some (match firstOccurrence pattern data with
        | some k => .found k
        | none => .npos) := by
  have hpos := length_pos_of_ne_nil hne
  have htable : (fun c => (buildBmhTable pattern c).toNat) = skipTable 255 pattern :=
    funext (toNat_buildBmhTable _)
  rw [searchBoundary]
  split
  · next hshort => rw [firstOccurrence_of_length_lt hne hshort]
  · next hlong =>
    have hskip (c : Byte) : 0 < (buildBmhTable pattern c).toNat := by
      rw [toNat_buildBmhTable]
      exact (skipTable_spec (by norm_num) hne c).1
    rw [searchFrom_eq hskip hne _ (by omega) (by omega), htable,
      horspool_eq_firstOccurrence (by norm_num) hne _ (by omega) (by omega)]
    intro j hj
    omega

/-- The search for a boundary of any length stays inside of the data, ends, and finds the
first occurrence if there is one. -/
theorem searchBoundary_exact (boundary data : Bytes) :
    let pattern := [dash, dash] ++ boundary
    ∃ result, searchBoundary pattern data = some result ∧ result ≠ .running ∧
      (∀ k, result = .found k ↔ OccursAt pattern k data ∧ ∀ j < k, ¬ OccursAt pattern j data) ∧
      (result = .npos ↔ ∀ k, ¬ OccursAt pattern k data) := by
  intro pattern
  have hne : pattern ≠ [] := cons_ne_nil _ _
  refine ⟨_, searchBoundary_eq hne _, ?_⟩
  cases hfirst : firstOccurrence pattern data with
  | none =>
    have hnone := (firstOccurrence_eq_none_iff hne).mp hfirst
    refine ⟨by simp, fun k => ?_, by simp [hnone]⟩
    exact iff_of_false (by simp) fun h => hnone k h.1
  | some first =>
    have hspec := (firstOccurrence_eq_some_iff hne).mp hfirst
    refine ⟨by simp, fun k => ?_, ?_⟩
    · rw [SearchResult.found.injEq, ← Option.some.injEq, ← hfirst]
      exact firstOccurrence_eq_some_iff hne
    · exact iff_of_false (by simp) fun h => h _ hspec.1

end AstraApi.Multipart
