import Mathlib.Tactic

/-!
# Dictionaries in the order of insertion

A key occurs once.  An update keeps the place of a key that is there and appends the others.
-/

namespace AstraApi

open List

structure Dict (α β : Type*) where
  items : List (α × β)
  distinct : (items.map Prod.fst).Nodup

namespace Dict

variable {α β γ : Type*}

def empty : Dict α β := ⟨[], nodup_nil⟩

def keys (dict : Dict α β) : List α := dict.items.map Prod.fst

variable [DecidableEq α]

def get (dict : Dict α β) (key : α) : Option β := dict.items.lookup key

/-- What `==` says of two dictionaries. -/
def Same (left right : Dict α β) : Prop := ∀ key, left.get key = right.get key

/-- What `pop` leaves. -/
def erase (dict : Dict α β) (key : α) : Dict α β where
  items := dict.items.filter fun item => decide (item.1 ≠ key)
  distinct := dict.distinct.sublist (filter_sublist.map Prod.fst)

theorem get_eq_some_iff {dict : Dict α β} {key : α} {value : β} :
    dict.get key = some value ↔ (key, value) ∈ dict.items := by
  obtain ⟨items, distinct⟩ := dict
  rw [get]
  induction items with
  | nil => simp
  | cons item items ih =>
    obtain ⟨other, held⟩ := item
    rw [map_cons, nodup_cons] at distinct
    rw [lookup_cons, mem_cons, Prod.mk.injEq]
    by_cases hkey : key = other
    · subst hkey
      have hnot : (key, value) ∉ items := fun h =>
        distinct.1 (mem_map.mpr ⟨(key, value), h, rfl⟩)
      rw [beq_self_eq_true, Option.some.injEq]
      constructor
      · intro h
        exact Or.inl ⟨rfl, h.symm⟩
      · rintro (⟨-, h⟩ | h)
        · exact h.symm
        · exact absurd h hnot
    · rw [beq_eq_false_iff_ne.mpr hkey]
      constructor
      · intro h
        exact Or.inr ((ih distinct.2).mp h)
      · rintro (⟨h, -⟩ | h)
        · exact absurd h hkey
        · exact (ih distinct.2).mpr h

theorem get_eq_none_iff {dict : Dict α β} {key : α} : dict.get key = none ↔ key ∉ dict.keys := by
  constructor
  · intro h hmem
    obtain ⟨⟨_, value⟩, hitem, rfl⟩ := mem_map.mp hmem
    rw [get_eq_some_iff.mpr hitem] at h
    cases h
  · intro h
    cases hget : dict.get key with
    | none => rfl
    | some value => exact absurd (mem_map_of_mem (get_eq_some_iff.mp hget)) h

def updateItems (dict other : Dict α β) : List (α × β) :=
  (dict.items.map fun item => (item.1, (other.get item.1).getD item.2)) ++
    other.items.filter fun item => decide (item.1 ∉ dict.keys)

theorem keys_updateItems (dict other : Dict α β) :
    (dict.updateItems other).map Prod.fst =
      dict.keys ++ other.keys.filter fun key => decide (key ∉ dict.keys) := by
  rw [updateItems, map_append, map_map, keys, keys, filter_map]
  rfl

def update (dict other : Dict α β) : Dict α β where
  items := dict.updateItems other
  distinct := by
    rw [keys_updateItems]
    refine nodup_append.mpr ⟨dict.distinct, other.distinct.filter _, ?_⟩
    intro key hkey _ hother heq
    rw [← heq, mem_filter] at hother
    exact of_decide_eq_true hother.2 hkey

theorem get_update (dict other : Dict α β) (key : α) :
    (dict.update other).get key = (other.get key).or (dict.get key) := by
  apply Option.ext
  intro value
  have hitems : (dict.update other).items = dict.updateItems other := rfl
  rw [get_eq_some_iff, hitems, updateItems, mem_append, mem_map, mem_filter,
    Option.or_eq_some_iff, get_eq_some_iff, get_eq_none_iff]
  constructor
  · rintro (⟨⟨held, old⟩, hmem, hitem⟩ | ⟨hmem, -⟩)
    · obtain ⟨rfl, hvalue⟩ := Prod.mk.inj hitem
      cases hget : other.get held with
      | none =>
        rw [hget, Option.getD_none] at hvalue
        subst hvalue
        exact Or.inr ⟨get_eq_none_iff.mp hget, get_eq_some_iff.mpr hmem⟩
      | some new =>
        rw [hget, Option.getD_some] at hvalue
        subst hvalue
        exact Or.inl (get_eq_some_iff.mp hget)
    · exact Or.inl hmem
  · rintro (hmem | ⟨hnone, hget⟩)
    · by_cases hkey : key ∈ dict.keys
      · obtain ⟨⟨_, old⟩, hitem, rfl⟩ := mem_map.mp hkey
        refine Or.inl ⟨_, hitem, ?_⟩
        rw [get_eq_some_iff.mpr hmem, Option.getD_some]
      · exact Or.inr ⟨hmem, decide_eq_true hkey⟩
    · refine Or.inl ⟨(key, value), get_eq_some_iff.mp hget, ?_⟩
      rw [get_eq_none_iff.mpr hnone, Option.getD_none]

theorem same_empty_update (dict : Dict α β) : (empty.update dict).Same dict := by
  intro key
  have hempty : (empty : Dict α β).get key = none := rfl
  rw [get_update, hempty, Option.or_none]

/-- `PyDict_SetItem` -/
def set (dict : Dict α β) (key : α) (value : β) : Dict α β :=
  dict.update ⟨[(key, value)], nodup_singleton key⟩

theorem get_set (dict : Dict α β) (held key : α) (value : β) :
    (dict.set held value).get key = if key = held then some value else dict.get key := by
  rw [set, get_update, get, lookup_cons]
  by_cases h : key = held
  · rw [if_pos h, beq_iff_eq.mpr h, Option.some_or]
  · rw [if_neg h, beq_eq_false_iff_ne.mpr h, lookup_nil, Option.none_or]

theorem keys_set (dict : Dict α β) (key : α) (value : β) :
    (dict.set key value).keys = if key ∈ dict.keys then dict.keys else dict.keys ++ [key] := by
  have hkeys : (dict.set key value).keys = dict.keys ++
      [key].filter fun other => decide (other ∉ dict.keys) := keys_updateItems _ _
  rw [hkeys]
  split
  · next h => rw [filter_cons_of_neg (by simpa using h), filter_nil, append_nil]
  · next h => rw [filter_cons_of_pos (by simpa using h), filter_nil]

/-- A dictionary is its keys and what they map to. -/
theorem items_eq (dict : Dict α β) :
    dict.items = dict.keys.filterMap fun key => (dict.get key).map (Prod.mk key) := by
  have hall : ∀ items ⊆ dict.items, items =
      (items.map Prod.fst).filterMap fun key => (dict.get key).map (Prod.mk key) := by
    intro items hsub
    induction items with
    | nil => rfl
    | cons item items ih =>
      obtain ⟨hitem, hitems⟩ := cons_subset.mp hsub
      rw [map_cons, filterMap_cons, get_eq_some_iff.mpr hitem, Option.map_some, ← ih hitems]
  exact hall _ (List.Subset.refl _)

/-- Pairs put in one after the other. -/
def setAll (dict : Dict α β) (pairs : List (α × β)) : Dict α β :=
  pairs.foldl (fun dict pair => dict.set pair.1 pair.2) dict

/-- The last pair of a key counts. -/
theorem get_setAll (dict : Dict α β) (pairs : List (α × β)) (key : α) :
    (dict.setAll pairs).get key = (pairs.reverse.lookup key).or (dict.get key) := by
  induction pairs using List.reverseRecOn with
  | nil => rfl
  | append_singleton pairs pair ih =>
    rw [setAll] at ih ⊢
    rw [foldl_concat, get_set, reverse_concat, lookup_cons, ih]
    by_cases h : key = pair.1
    · rw [if_pos h, beq_iff_eq.mpr h, Option.some_or]
    · rw [if_neg h, beq_eq_false_iff_ne.mpr h]

def ofList (pairs : List (α × β)) : Dict α β := empty.setAll pairs

theorem ofList_concat (pairs : List (α × β)) (pair : α × β) :
    ofList (pairs ++ [pair]) = (ofList pairs).set pair.1 pair.2 :=
  foldl_concat ..

def lastOfEach (pairs : List (α × β)) : List (α × β) :=
  (pairs.map Prod.fst).reverse.dedup.reverse.filterMap fun key =>
    (pairs.reverse.lookup key).map (Prod.mk key)

theorem get_ofList (pairs : List (α × β)) (key : α) :
    (ofList pairs).get key = pairs.reverse.lookup key := by
  rw [ofList, get_setAll, empty, get, lookup_nil, Option.or_none]

theorem keys_ofList (pairs : List (α × β)) :
    (ofList pairs).keys = (pairs.map Prod.fst).reverse.dedup.reverse := by
  induction pairs using List.reverseRecOn with
  | nil => rfl
  | append_singleton pairs pair ih =>
    rw [ofList_concat, keys_set, ih, map_append, map_singleton, reverse_concat, dedup_cons]
    simp only [mem_reverse, mem_dedup]
    split
    · rfl
    · rw [reverse_cons]

theorem items_ofList (pairs : List (α × β)) : (ofList pairs).items = lastOfEach pairs := by
  rw [items_eq, keys_ofList, lastOfEach]
  congr 1
  funext key
  rw [get_ofList]

theorem items_set_of_notMem {dict : Dict α β} {key : α} (h : key ∉ dict.keys) (value : β) :
    (dict.set key value).items = dict.items ++ [(key, value)] := by
  have hitems : (dict.set key value).items =
    (dict.items.map fun item => (item.1, ([(key, value)].lookup item.1).getD item.2)) ++
      [(key, value)].filter fun item => decide (item.1 ∉ dict.keys) := rfl
  have hkept : dict.items.map (fun item => (item.1, ([(key, value)].lookup item.1).getD item.2)) =
      dict.items := by
    refine map_congr_left (fun item hitem => ?_) |>.trans (map_id _)
    have hne : item.1 ≠ key := by
      rintro rfl
      exact h (mem_map_of_mem hitem)
    rw [lookup_cons, beq_eq_false_iff_ne.mpr hne]
    rfl
  rw [hitems, hkept, filter_cons_of_pos (by simpa using h), filter_nil]

/-- Two pairs with one key and related values. -/
def Paired (R : β → γ → Prop) (left : α × β) (right : α × γ) : Prop :=
  left.1 = right.1 ∧ R left.2 right.2

theorem lookup_forall₂ {R : β → γ → Prop} {left : List (α × β)} {right : List (α × γ)}
    (h : List.Forall₂ (Paired R) left right) (key : α) :
    Option.Rel R (left.lookup key) (right.lookup key) := by
  induction h with
  | nil => exact .none
  | @cons leftPair rightPair left right hpair _ ih =>
    rw [lookup_cons, lookup_cons, ← hpair.1]
    by_cases hkey : key = leftPair.1
    · rw [beq_iff_eq.mpr hkey]
      exact .some hpair.2
    · rw [beq_eq_false_iff_ne.mpr hkey]
      exact ih

/-- Related pairs leave related dictionaries. -/
theorem lastOfEach_forall₂ {R : β → γ → Prop} {left : List (α × β)} {right : List (α × γ)}
    (h : List.Forall₂ (Paired R) left right) :
    List.Forall₂ (Paired R) (lastOfEach left) (lastOfEach right) := by
  have hkeys : left.map Prod.fst = right.map Prod.fst := by
    induction h with
    | nil => rfl
    | cons hpair _ ih => rw [map_cons, map_cons, hpair.1, ih]
  rw [lastOfEach, lastOfEach, hkeys]
  refine rel_filterMap (R := Eq) ?_ (forall₂_same.mpr fun _ _ => rfl)
  rintro key _ rfl
  have hlookup := lookup_forall₂ (forall₂_reverse_iff.mpr h) key
  show Option.Rel _ ((left.reverse.lookup _).map (Prod.mk _))
    ((right.reverse.lookup _).map (Prod.mk _))
  revert hlookup
  generalize left.reverse.lookup key = leftValue
  generalize right.reverse.lookup key = rightValue
  intro hlookup
  cases hlookup with
  | none => exact .none
  | some hvalue => exact .some ⟨rfl, hvalue⟩

theorem lastOfEach_map (f : β → γ) (pairs : List (α × β)) :
    lastOfEach (pairs.map (Prod.map id f)) = (lastOfEach pairs).map (Prod.map id f) := by
  have hpairs : List.Forall₂ (Paired fun value image => f value = image) pairs
      (pairs.map (Prod.map id f)) :=
    forall₂_map_right_iff.mpr (forall₂_same.mpr fun _ _ => ⟨rfl, rfl⟩)
  have himages := lastOfEach_forall₂ hpairs
  revert himages
  generalize lastOfEach pairs = left
  generalize lastOfEach (pairs.map (Prod.map id f)) = right
  intro himages
  induction himages with
  | nil => rfl
  | cons hpair _ ih =>
    rw [map_cons, ← ih, Prod.map, hpair.2, hpair.1]
    rfl

/-- Pairs with distinct keys stay as they are. -/
theorem items_ofList_of_nodup {pairs : List (α × β)} (h : (pairs.map Prod.fst).Nodup) :
    (ofList pairs).items = pairs := by
  induction pairs using List.reverseRecOn with
  | nil => rfl
  | append_singleton pairs pair ih =>
    rw [map_append, nodup_append] at h
    obtain ⟨hpairs, -, hdisjoint⟩ := h
    have hnot : pair.1 ∉ (ofList pairs).keys := by
      rw [keys_ofList, mem_reverse, mem_dedup, mem_reverse]
      exact fun hmem => hdisjoint _ hmem _ (mem_singleton.mpr rfl) rfl
    rw [ofList_concat, items_set_of_notMem hnot, ih hpairs]

end Dict

end AstraApi
