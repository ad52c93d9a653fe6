import Mathlib.Tactic

/-!
# Choosing an exception handler

An application keeps its exception handlers in a dictionary, in the order in which they
were registered.  When the call of an endpoint raises, C++ takes the first registered
class that the exception is an instance of.  When it raises later, Python takes the first
class of its method resolution order that has a handler.
-/

namespace AstraApi.Dispatch.ExceptionHandlers

open List

/-- Handlers are registered for classes and for status codes. -/
inductive Key (C : Type*) where
  | cls (cls : C)
  | status (code : ℕ)
  deriving DecidableEq

variable {C H : Type*}

structure Registry (C H : Type*) where
  entries : List (Key C × H)
  distinct : (entries.map Prod.fst).Nodup

namespace Registry

variable [DecidableEq C]

def empty : Registry C H := ⟨[], nodup_nil⟩

/-- A key that is there keeps its place. -/
def setItem (entries : List (Key C × H)) (key : Key C) (handler : H) : List (Key C × H) :=
  if key ∈ entries.map Prod.fst then
    entries.map fun entry => if entry.1 = key then (key, handler) else entry
  else entries ++ [(key, handler)]

theorem nodup_setItem {entries : List (Key C × H)} (h : (entries.map Prod.fst).Nodup)
    (key : Key C) (handler : H) : ((setItem entries key handler).map Prod.fst).Nodup := by
  rw [setItem]
  split
  · have hkeys : (entries.map fun entry => if entry.1 = key then (key, handler) else entry).map
        Prod.fst = entries.map Prod.fst := by
      rw [map_map]
      apply map_congr_left
      intro entry _
      rw [Function.comp_apply]
      split
      · rename_i heq
        exact heq.symm
      · rfl
    rw [hkeys]
    exact h
  · rename_i hnew
    rw [map_append, map_singleton]
    refine nodup_append.mpr ⟨h, nodup_singleton _, fun other hother same hsame heq => ?_⟩
    rw [heq, mem_singleton.mp hsame] at hother
    exact hnew hother

def add (registry : Registry C H) (key : Key C) (handler : H) : Registry C H :=
  ⟨setItem registry.entries key handler, nodup_setItem registry.distinct key handler⟩

end Registry

/-- `_type_handlers`, which C++ gets: the default handlers are left out. -/
def typeHandlers (isDefault : H → Bool) (registry : Registry C H) : List (C × H) :=
  registry.entries.filterMap fun
    | (.cls cls, handler) => if isDefault handler then none else some (cls, handler)
    | (.status _, _) => none

variable [DecidableEq C]

/-- The first class of the method resolution order that has a handler. -/
def FirstHandled (registry : Registry C H) (mro : List C) (cls : C) (handler : H) : Prop :=
  ∃ front back, mro = front ++ cls :: back ∧ (.cls cls, handler) ∈ registry.entries ∧
    ∀ other ∈ front, ∀ h, (Key.cls other, h) ∉ registry.entries

/-- Every handler of the user for a class of the exception is the one of the first class that has
a handler, or comes behind it. -/
def InOrder (isDefault : H → Bool) (registry : Registry C H) (mro : List C) : Prop :=
  ∀ before cls handler behind,
    typeHandlers isDefault registry = before ++ (cls, handler) :: behind → cls ∈ mro →
    ∃ first chosen, FirstHandled registry mro first chosen ∧ isDefault chosen = false ∧
      (handler = chosen ∨ ∃ other ∈ mro, (other, chosen) ∈ before)

section Choice

variable {registry : Registry C H} {mro : List C}

/-- A dictionary gives the handler of an entry. -/
theorem lookup_eq_some_iff (registry : Registry C H) (key : Key C) (handler : H) :
    registry.entries.lookup key = some handler ↔ (key, handler) ∈ registry.entries := by
  have hdistinct := registry.distinct
  generalize registry.entries = entries at hdistinct
  induction entries with
  | nil => exact ⟨nofun, fun hmem => absurd hmem not_mem_nil⟩
  | cons entry entries ih =>
    rw [map_cons, nodup_cons] at hdistinct
    rw [lookup_cons, mem_cons]
    by_cases heq : key = entry.1
    · have hbeq : (key == entry.1) = true := beq_iff_eq.mpr heq
      rw [hbeq]
      constructor
      · intro hsome
        exact Or.inl (Prod.ext heq (Option.some.inj hsome).symm)
      · rintro (hsame | hmem)
        · exact congrArg _ (congrArg _ hsame).symm
        · exact absurd (heq ▸ mem_map_of_mem hmem) hdistinct.1
    · have hbeq : (key == entry.1) = false := beq_eq_false_iff_ne.mpr heq
      rw [hbeq]
      exact (ih hdistinct.2).trans
        ⟨Or.inr, fun hmem => hmem.resolve_left fun hsame => heq (congrArg Prod.fst hsame)⟩

end Choice

end AstraApi.Dispatch.ExceptionHandlers
