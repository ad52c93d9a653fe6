import Mathlib.Tactic

/-!
# Dictionaries of repeated values

A list of keys and values is collected into a dictionary, where a key that comes once has
its value and a key that comes more often has a list.  Collecting keeps every value; a
dictionary in which later values replace earlier ones keeps the last one only.
-/

namespace AstraApi.Grouping

open List

variable {K V : Type*}

/-- The value of a key that came once, or the values of one that came more often. -/
inductive Grouped (V : Type*) where
  | single (value : V)
  | several (values : List V)
  deriving DecidableEq

/-- What a dictionary should have for a key with these values. -/
def entryOf : List V → Option (Grouped V)
  | [] => none
  | [value] => some (.single value)
  | values => some (.several values)

/-- An entry with one more value. -/
def Grouped.add (value : V) : Option (Grouped V) → Grouped V
  | none => .single value
  | some (.several values) => .several (values ++ [value])
  | some (.single first) => .several [first, value]

theorem entryOf_concat (values : List V) (value : V) :
    entryOf (values ++ [value]) = some (Grouped.add value (entryOf values)) := by
  match values with
  | [] => rfl
  | [_] => rfl
  | _ :: _ :: _ => rfl

/-- Different values give different entries. -/
theorem entryOf_injective : Function.Injective (entryOf : List V → Option (Grouped V)) := by
  intro left right h
  match left, right with
  | [], [] => rfl
  | [_], [_] => rw [Grouped.single.inj (Option.some.inj h)]
  | _ :: _ :: _, _ :: _ :: _ => exact Grouped.several.inj (Option.some.inj h)
  | [], [_] | [], _ :: _ :: _ | [_], [] | _ :: _ :: _, [] | [_], _ :: _ :: _
  | _ :: _ :: _, [_] => cases h

variable [DecidableEq K]

def valuesOf (key : K) (pairs : List (K × V)) : List V :=
  pairs.filterMap fun pair => if pair.1 = key then some pair.2 else none

def addValue (dict : K → Option (Grouped V)) (pair : K × V) : K → Option (Grouped V) :=
  Function.update dict pair.1 (some (Grouped.add pair.2 (dict pair.1)))

/-- Put a value into a dictionary in place of what was there. -/
def replaceValue (dict : K → Option (Grouped V)) (pair : K × V) : K → Option (Grouped V) :=
  Function.update dict pair.1 (some (.single pair.2))

def group (pairs : List (K × V)) : K → Option (Grouped V) := pairs.foldl addValue fun _ => none

theorem valuesOf_append (key : K) (left right : List (K × V)) :
    valuesOf key (left ++ right) = valuesOf key left ++ valuesOf key right :=
  filterMap_append

theorem valuesOf_cons (key : K) (pair : K × V) (pairs : List (K × V)) :
    valuesOf key (pair :: pairs) =
      (if pair.1 = key then [pair.2] else []) ++ valuesOf key pairs := by
  rw [valuesOf, filterMap_cons]
  split
  · rename_i hnone
    rw [if_neg fun heq => by rw [if_pos heq] at hnone; cases hnone]
    rfl
  · rename_i value hsome
    split at hsome
    · rename_i heq
      rw [if_pos heq, Option.some.inj hsome]
      rfl
    · cases hsome

theorem foldl_addValue {dict : K → Option (Grouped V)} {key : K} {values : List V}
    (h : dict key = entryOf values) (pairs : List (K × V)) :
    pairs.foldl addValue dict key = entryOf (values ++ valuesOf key pairs) := by
  induction pairs generalizing dict values with
  | nil => rw [valuesOf, filterMap_nil, append_nil, foldl_nil, h]
  | cons pair pairs ih =>
    rw [foldl_cons, valuesOf_cons]
    by_cases heq : pair.1 = key
    · rw [if_pos heq, ← append_assoc]
      apply ih
      rw [addValue, heq, Function.update_self, entryOf_concat, h]
    · rw [if_neg heq, nil_append]
      apply ih
      rw [addValue, Function.update_of_ne (Ne.symm heq), h]

/-- A dictionary has all values of every key. -/
theorem group_apply (pairs : List (K × V)) (key : K) :
    group pairs key = entryOf (valuesOf key pairs) := by
  have hempty : (fun _ => none : K → Option (Grouped V)) key = entryOf [] := rfl
  rw [group, foldl_addValue hempty, nil_append]

theorem foldl_replaceValue (pairs : List (K × V)) (key : K) :
    pairs.foldl replaceValue (fun _ => none) key = entryOf (valuesOf key pairs).getLast?.toList := by
  induction pairs using List.reverseRecOn with
  | nil => rfl
  | append_singleton pairs pair ih =>
    have hlast : valuesOf key [pair] = if pair.1 = key then [pair.2] else [] := by
      rw [valuesOf_cons]
      exact append_nil _
    rw [foldl_append, foldl_cons, foldl_nil, valuesOf_append, hlast]
    by_cases heq : pair.1 = key
    · rw [if_pos heq, getLast?_concat, replaceValue, heq, Function.update_self]
      rfl
    · rw [if_neg heq, append_nil, replaceValue, Function.update_of_ne (Ne.symm heq), ih]

theorem nodup_keys_iff (pairs : List (K × V)) :
    (pairs.map Prod.fst).Nodup ↔ ∀ key, (valuesOf key pairs).length ≤ 1 := by
  have hcount : ∀ key, (valuesOf key pairs).length = (pairs.map Prod.fst).count key := by
    intro key
    induction pairs with
    | nil => rfl
    | cons pair pairs ih =>
      rw [valuesOf_cons, length_append, ih, map_cons, count_cons]
      by_cases heq : pair.1 = key
      · rw [if_pos heq, if_pos (beq_iff_eq.mpr heq), length_singleton, Nat.add_comm]
      · rw [if_neg heq, if_neg fun hbeq => heq (beq_iff_eq.mp hbeq), length_nil, Nat.zero_add,
          Nat.add_zero]
  rw [nodup_iff_count_le_one]
  exact forall_congr' fun key => by rw [hcount]

theorem getLast?_toList_eq_iff (values : List V) :
    values.getLast?.toList = values ↔ values.length ≤ 1 := by
  match values with
  | [] => exact ⟨fun _ => Nat.zero_le _, fun _ => rfl⟩
  | [_] => exact ⟨fun _ => le_rfl, fun _ => rfl⟩
  | first :: second :: values =>
    constructor
    · intro h
      rw [getLast?_cons_cons] at h
      have hlength := congrArg List.length h
      have hle : (second :: values).getLast?.toList.length ≤ 1 := Option.length_toList_le
      rw [hlength] at hle
      exact hle
    · exact fun h => absurd h (by simp)

/-- Replacing first and inserting then keeps all values exactly if the keys that are
replaced are distinct. -/
theorem addValue_replaceValue_iff (replaced inserted : List (K × V)) :
    inserted.foldl addValue (replaced.foldl replaceValue fun _ => none) = group (replaced ++ inserted) ↔
      (replaced.map Prod.fst).Nodup := by
  have happly : ∀ key, inserted.foldl addValue (replaced.foldl replaceValue fun _ => none) key =
      group (replaced ++ inserted) key ↔ (valuesOf key replaced).length ≤ 1 := by
    intro key
    rw [foldl_addValue (foldl_replaceValue _ _), group_apply, valuesOf_append,
      entryOf_injective.eq_iff, append_left_inj, getLast?_toList_eq_iff]
  rw [nodup_keys_iff, funext_iff]
  exact forall_congr' happly

/-! ## Dictionaries of lists -/

/-- A dictionary of lists, in the order in which the keys came, with one more value. -/
def appendValue : List (K × List V) → K × V → List (K × List V)
  | [], pair => [(pair.1, [pair.2])]
  | entry :: dict, pair =>
    if entry.1 = pair.1 then (entry.1, entry.2 ++ [pair.2]) :: dict
    else entry :: appendValue dict pair

def valuesAt (key : K) : List (K × List V) → List V
  | [] => []
  | entry :: dict => if entry.1 = key then entry.2 else valuesAt key dict

theorem valuesAt_appendValue (key : K) (dict : List (K × List V)) (pair : K × V) :
    valuesAt key (appendValue dict pair) = valuesAt key dict ++ valuesOf key [pair] := by
  rw [valuesOf_cons, valuesOf, filterMap_nil, append_nil]
  induction dict with
  | nil => rfl
  | cons entry dict ih =>
    rw [appendValue, valuesAt]
    by_cases heq : entry.1 = pair.1
    · rw [if_pos heq, valuesAt, heq]
      split
      · rfl
      · rw [append_nil]
    · rw [if_neg heq, valuesAt, ih]
      split
      · next hkey => rw [if_neg fun h => heq (hkey.trans h.symm), append_nil]
      · rfl

theorem valuesAt_foldl (key : K) (pairs : List (K × V)) (dict : List (K × List V)) :
    valuesAt key (pairs.foldl appendValue dict) = valuesAt key dict ++ valuesOf key pairs := by
  induction pairs generalizing dict with
  | nil => exact (append_nil _).symm
  | cons pair pairs ih =>
    rw [foldl_cons, ih, valuesAt_appendValue, append_assoc, ← valuesOf_append]
    rfl

theorem length_foldl_appendValue (pairs : List (K × V)) (dict : List (K × List V)) :
    ((pairs.foldl appendValue dict).flatMap Prod.snd).length =
      (dict.flatMap Prod.snd).length + pairs.length := by
  have hstep (dict : List _) (pair : K × V) :
      ((appendValue dict pair).flatMap Prod.snd).length = (dict.flatMap Prod.snd).length + 1 := by
    induction dict with
    | nil => rfl
    | cons entry dict ih =>
      rw [appendValue]
      split
      · simp only [flatMap_cons, length_append, length_singleton]
        omega
      · simp only [flatMap_cons, length_append, ih]
        omega
  induction pairs generalizing dict with
  | nil => rfl
  | cons pair pairs ih =>
    rw [foldl_cons, ih, hstep, length_cons]
    omega

end AstraApi.Grouping
