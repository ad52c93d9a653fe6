import Mathlib.Data.List.TakeWhile
import Mathlib.Tactic

/-!
# Patterns with greedy groups

A pattern is a sequence of characters and of groups that take characters of one class.
A backtracking matcher tries the longest value of a group first.  The search finds a
match exactly if the text belongs to the language of the pattern, and the first try is
the only one where no shorter value leaves a text that the rest of the pattern can take.
-/

namespace AstraApi.Greedy

open List Option

variable {α ν : Type*}

inductive Item (α ν : Type*) where
  | char (c : α)
  | group (name : ν) (accepts : α → Bool) (least : ℕ)

/-- Values of at most `k` characters, the longest first. -/
def longest (rest : List α → Option (List (ν × List α))) (name : ν) (least : ℕ)
    (text : List α) : ℕ → Option (List (ν × List α))
  | 0 => if least = 0 then (rest text).map ((name, []) :: ·) else none
  | k + 1 =>
    if k + 1 < least then none
    else
      match rest (text.drop (k + 1)) with
      | some bound => some ((name, text.take (k + 1)) :: bound)
      | none => longest rest name least text k

variable (atEnd : List α → Bool)

section Run

variable [DecidableEq α]

/-- The bindings of the first match that backtracking finds. -/
def run : List (Item α ν) → List α → Option (List (ν × List α))
  | [], text => if atEnd text then some [] else none
  | .char _ :: _, [] => none
  | .char c :: items, d :: text => if c = d then run items text else none
  | .group name accepts least :: items, text =>
    longest (run items) name least text (text.takeWhile accepts).length

end Run

/-- The language of a pattern. -/
def Fits : List (Item α ν) → List α → Prop
  | [], text => atEnd text = true
  | .char c :: items, text => ∃ rest, text = c :: rest ∧ Fits items rest
  | .group _ accepts least :: items, text =>
    ∃ value rest, text = value ++ rest ∧ (∀ c ∈ value, accepts c = true) ∧
      least ≤ value.length ∧ Fits items rest

def names : List (Item α ν) → List ν
  | [] => []
  | .char _ :: items => names items
  | .group name _ _ :: items => name :: names items

theorem longest_isSome_iff (rest : List α → Option (List (ν × List α))) (name : ν) (least : ℕ)
    (text : List α) (count : ℕ) :
    (longest rest name least text count).isSome ↔
      ∃ k, least ≤ k ∧ k ≤ count ∧ (rest (text.drop k)).isSome := by
  induction count with
  | zero =>
    rw [longest]
    split
    · rename_i hleast
      subst hleast
      rw [isSome_map]
      constructor
      · intro h
        exact ⟨0, le_rfl, le_rfl, h⟩
      · rintro ⟨k, -, hk, h⟩
        obtain rfl := Nat.le_zero.mp hk
        exact h
    · rename_i hleast
      apply iff_of_false Bool.false_ne_true
      rintro ⟨k, hk, hzero, -⟩
      omega
  | succ count ih =>
    rw [longest]
    split
    · rename_i hleast
      apply iff_of_false Bool.false_ne_true
      rintro ⟨k, hk, hcount, -⟩
      omega
    · rename_i hleast
      cases hrest : rest (text.drop (count + 1)) with
      | some bound =>
        apply iff_of_true rfl
        exact ⟨count + 1, not_lt.mp hleast, le_rfl, by rw [hrest]; rfl⟩
      | none =>
        rw [ih]
        constructor
        · rintro ⟨k, hk, hcount, h⟩
          exact ⟨k, hk, Nat.le_succ_of_le hcount, h⟩
        · rintro ⟨k, hk, hcount, h⟩
          refine ⟨k, hk, ?_, h⟩
          by_contra hlt
          obtain rfl : k = count + 1 := by omega
          rw [hrest] at h
          cases h

theorem le_takeWhile_iff (accepts : α → Bool) (text : List α) (k : ℕ) :
    k ≤ (text.takeWhile accepts).length ↔
      k ≤ text.length ∧ ∀ c ∈ text.take k, accepts c = true := by
  induction text generalizing k with
  | nil => simp
  | cons c text ih =>
    cases k with
    | zero => simp
    | succ k =>
      cases hc : accepts c with
      | true => simp [hc, ih]
      | false => simp [hc]

/-- Backtracking decides the language. -/
theorem run_isSome_iff [DecidableEq α] (items : List (Item α ν)) (text : List α) :
    (run atEnd items text).isSome ↔ Fits atEnd items text := by
  induction items generalizing text with
  | nil =>
    rw [run, Fits]
    cases atEnd text <;> simp
  | cons item items ih =>
    cases item with
    | char c =>
      cases text with
      | nil => simp [run, Fits]
      | cons d text =>
        rw [run, Fits]
        split
        · rename_i hc
          subst hc
          rw [ih]
          constructor
          · intro h
            exact ⟨text, rfl, h⟩
          · rintro ⟨rest, heq, h⟩
            rw [(List.cons.inj heq).2]
            exact h
        · rename_i hc
          apply iff_of_false Bool.false_ne_true
          rintro ⟨rest, heq, -⟩
          exact hc (List.cons.inj heq).1.symm
    | group name accepts least =>
      rw [run, Fits, longest_isSome_iff]
      constructor
      · rintro ⟨k, hleast, hcount, h⟩
        obtain ⟨hlength, haccepts⟩ := (le_takeWhile_iff _ _ k).mp hcount
        refine ⟨text.take k, text.drop k, (take_append_drop k _).symm, haccepts, ?_, (ih _).mp h⟩
        rw [length_take, min_eq_left hlength]
        exact hleast
      · rintro ⟨value, rest, rfl, haccepts, hleast, h⟩
        refine ⟨value.length, hleast, (le_takeWhile_iff _ _ _).mpr ⟨?_, ?_⟩, ?_⟩
        · rw [length_append]
          exact Nat.le_add_right _ _
        · rw [take_left]
          exact haccepts
        · rw [drop_left]
          exact (ih _).mpr h

variable {name : ν} {least : ℕ} {text : List α} {bound : List (ν × List α)}
  {items : List (Item α ν)}

/-- The value that was found, and what the rest of the pattern made of the rest. -/
theorem longest_some {rest : List α → Option (List (ν × List α))} {count : ℕ}
    (h : longest rest name least text count = some bound) :
    ∃ k tail, k ≤ count ∧ rest (text.drop k) = some tail ∧ bound = (name, text.take k) :: tail := by
  induction count with
  | zero =>
    rw [longest] at h
    split at h
    · obtain ⟨tail, htail, rfl⟩ := map_eq_some_iff.mp h
      exact ⟨0, tail, le_rfl, htail, rfl⟩
    · cases h
  | succ count ih =>
    rw [longest] at h
    split at h
    · cases h
    · split at h
      · rename_i tail htail
        exact ⟨count + 1, tail, le_rfl, htail, (Option.some.inj h).symm⟩
      · obtain ⟨k, tail, hk, htail, hbound⟩ := ih h
        exact ⟨k, tail, Nat.le_succ_of_le hk, htail, hbound⟩

/-- Every group is bound, in the order of the pattern. -/
theorem run_names [DecidableEq α] (h : run atEnd items text = some bound) :
    bound.map Prod.fst = names items := by
  induction items generalizing text bound with
  | nil =>
    rw [run] at h
    split at h
    · cases h
      rfl
    · cases h
  | cons item items ih =>
    cases item with
    | char c =>
      cases text with
      | nil => cases h
      | cons d text =>
        rw [run] at h
        split at h
        · exact ih h
        · cases h
    | group name accepts least =>
      obtain ⟨k, tail, -, htail, rfl⟩ := longest_some h
      exact congrArg _ (ih htail)

theorem run_values [DecidableEq α] (h : run atEnd items text = some bound) :
    ∀ entry ∈ bound, ∀ c ∈ entry.2, c ∈ text := by
  induction items generalizing text bound with
  | nil =>
    rw [run] at h
    split at h
    · cases h
      simp
    · cases h
  | cons item items ih =>
    cases item with
    | char c =>
      cases text with
      | nil => cases h
      | cons d text =>
        rw [run] at h
        split at h
        · intro entry hentry e he
          exact mem_cons_of_mem d (ih h _ hentry e he)
        · cases h
    | group name accepts least =>
      obtain ⟨k, tail, -, htail, rfl⟩ := longest_some h
      intro entry hentry e he
      cases mem_cons.mp hentry with
      | inl heq =>
        rw [heq] at he
        exact mem_of_mem_take he
      | inr hmem => exact mem_of_mem_drop (ih htail _ hmem e he)

theorem longest_eq_none {rest : List α → Option (List (ν × List α))} {count : ℕ}
    (h : ∀ k ≤ count, rest (text.drop k) = none) :
    longest rest name least text count = none := by
  have hnot := mt (longest_isSome_iff rest name least text count).mp
  rw [← not_isSome_iff_eq_none]
  apply hnot
  rintro ⟨k, -, hk, hsome⟩
  rw [h k hk] at hsome
  cases hsome

theorem longest_full {rest : List α → Option (List (ν × List α))} {count : ℕ}
    (hleast : least ≤ count)
    (h : rest (text.drop count) = some bound) :
    longest rest name least text count = some ((name, text.take count) :: bound) := by
  cases count with
  | zero =>
    rw [longest, if_pos (Nat.le_zero.mp hleast), ← drop_zero (l := text), h]
    rfl
  | succ count =>
    rw [longest, if_neg (not_lt.mpr hleast), h]

theorem take_takeWhile_length (accepts : α → Bool) (text : List α) :
    text.take (text.takeWhile accepts).length = text.takeWhile accepts :=
  (prefix_iff_eq_take.mp (List.takeWhile_prefix _)).symm

theorem drop_takeWhile_length (accepts : α → Bool) (text : List α) :
    text.drop (text.takeWhile accepts).length = text.dropWhile accepts := by
  have h : (text.takeWhile accepts ++ text.dropWhile accepts).drop
      (text.takeWhile accepts).length = text.dropWhile accepts := drop_left
  rwa [takeWhile_append_dropWhile] at h

/-- A group takes all that it can, if the rest of the pattern fits what is left. -/
theorem run_group_full [DecidableEq α] {accepts : α → Bool}
    (hleast : least ≤ (text.takeWhile accepts).length)
    (h : run atEnd items (text.dropWhile accepts) = some bound) :
    run atEnd (.group name accepts least :: items) text =
      some ((name, text.takeWhile accepts) :: bound) := by
  rw [← drop_takeWhile_length] at h
  rw [run, longest_full hleast h, take_takeWhile_length]

/-- Nothing else is possible, if the rest of the pattern fits no text that starts inside
the group. -/
theorem run_group [DecidableEq α] {name : ν} {accepts : α → Bool} {least : ℕ}
    {items : List (Item α ν)} {text : List α}
    (h : ∀ k < (text.takeWhile accepts).length, run atEnd items (text.drop k) = none) :
    run atEnd (.group name accepts least :: items) text =
      if least ≤ (text.takeWhile accepts).length then
        (run atEnd items (text.dropWhile accepts)).map ((name, text.takeWhile accepts) :: ·)
      else none := by
  cases hrest : run atEnd items (text.dropWhile accepts) with
  | some bound =>
    split
    · rename_i hleast
      exact run_group_full _ hleast hrest
    · rename_i hleast
      rw [run, ← not_isSome_iff_eq_none, longest_isSome_iff]
      rintro ⟨k, hk, hcount, -⟩
      exact hleast (hk.trans hcount)
  | none =>
    rw [map_none, ite_self, run]
    apply longest_eq_none
    intro k hk
    cases Nat.lt_or_eq_of_le hk with
    | inl hlt => exact h k hlt
    | inr heq =>
      rw [heq, drop_takeWhile_length]
      exact hrest

/-- The text of a pattern with these values for its groups, from the first on. -/
def spell : List (Item α ν) → List (ν × List α) → List α
  | [], _ => []
  | .char c :: items, bound => c :: spell items bound
  | .group _ _ _ :: _, [] => []
  | .group _ _ _ :: items, (_, value) :: bound => value ++ spell items bound

theorem run_spells [DecidableEq α] (h : run atEnd items text = some bound) :
    ∃ rest, text = spell items bound ++ rest ∧ atEnd rest = true := by
  induction items generalizing text bound with
  | nil =>
    rw [run] at h
    split at h
    · rename_i hend
      exact ⟨text, rfl, hend⟩
    · cases h
  | cons item items ih =>
    cases item with
    | char c =>
      cases text with
      | nil => cases h
      | cons d text =>
        rw [run] at h
        split at h
        · rename_i hc
          obtain ⟨rest, htext, hend⟩ := ih h
          exact ⟨rest, by rw [spell, ← hc, cons_append, ← htext], hend⟩
        · cases h
    | group name accepts least =>
      obtain ⟨k, tail, -, htail, rfl⟩ := longest_some h
      obtain ⟨rest, hdrop, hend⟩ := ih htail
      refine ⟨rest, ?_, hend⟩
      rw [spell, append_assoc, ← hdrop, take_append_drop]

end AstraApi.Greedy
