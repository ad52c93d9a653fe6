import Mathlib.Tactic

/-!
# Direct-mapped caches

A cache with one entry per slot.  A request is served from the entry in the slot
of its key when the stored key is the same, and is otherwise built and stored
there.  Keys are compared and requests are not, so two requests that share a key
share a response.  Serving through the cache is indistinguishable from building
every response anew exactly when no request finds a different one under its own
key, and no work is left undone by a hit.
-/

namespace AstraApi.DirectMapped

open List

/-- How requests are served: `build` makes the response, which may fail, and
`work` tells whether something else has to be done.  A request without a key is
never cached. -/
structure Service (R S K V : Type*) where
  slot : K → S
  key : R → Option K
  build : R → Option V
  work : R → Bool

/-- Every slot holds at most one value, with the key it was stored under. -/
abbrev Cache (S K V : Type*) := S → Option (K × V)

variable {R S K V : Type*}
variable (service : Service R S K V)

/-- The response built anew, with the work done. -/
def Service.fresh (request : R) : Option V × Bool :=
  (service.build request, service.work request)

/-! ## What the slots hold -/

def Service.entry (request : R) : Option (K × V) :=
  match service.key request, service.build request with
  | some key, some value => some (key, value)
  | _, _ => none

variable {request : R} {key : K} {value : V} {history : List R}

theorem Service.entry_eq_some :
    service.entry request = some (key, value) ↔
      service.key request = some key ∧ service.build request = some value := by
  simp only [Service.entry]
  cases service.key request <;> cases service.build request <;> simp

variable [DecidableEq S]

def Cache.store (slot : K → S) (cache : Cache S K V) (key : K) (value : V) : Cache S K V :=
  Function.update cache (slot key) (some (key, value))

def Service.occupies (s : S) (request : R) : Bool :=
  match service.entry request with
  | some (key, _) => decide (service.slot key = s)
  | none => false

def Service.occupant (history : List R) (s : S) : Option R :=
  (history.filter (service.occupies s)).getLast?

def Service.contents (history : List R) : Cache S K V :=
  fun s => (service.occupant history s).bind service.entry

theorem Service.occupant_append (history : List R) (request : R) (s : S) :
    service.occupant (history ++ [request]) s =
      if service.occupies s request then some request else service.occupant history s := by
  simp only [Service.occupant, filter_append, filter_singleton]
  cases service.occupies s request <;> simp

theorem Service.contents_append_of_none (hentry : service.entry request = none) :
    service.contents (history ++ [request]) = service.contents history := by
  funext s
  have hnot : service.occupies s request = false := by simp [Service.occupies, hentry]
  simp [Service.contents, Service.occupant_append, hnot]

theorem Service.contents_append_of_some (hentry : service.entry request = some (key, value)) :
    service.contents (history ++ [request]) =
      (service.contents history).store service.slot key value := by
  funext s
  by_cases hslot : s = service.slot key
  · have hoccupies : service.occupies s request = true := by
      simp [Service.occupies, hentry, hslot]
    subst hslot
    simp [Service.contents, Service.occupant_append, hoccupies, hentry, Cache.store]
  · have hnot : service.occupies s request = false := by
      simp [Service.occupies, hentry, Ne.symm hslot]
    simp [Service.contents, Service.occupant_append, hnot, Cache.store, Function.update_of_ne hslot]

theorem Service.entry_of_occupant {s : S} {other : R}
    (hoccupant : service.occupant history s = some other) :
    ∃ key value, service.entry other = some (key, value) := by
  have hmem : other ∈ history.filter (service.occupies s) := mem_of_getLast? hoccupant
  have hoccupies : service.occupies s other = true := (mem_filter.mp hmem).2
  cases hentry : service.entry other with
  | none => simp [Service.occupies, hentry] at hoccupies
  | some entry => exact ⟨entry.1, entry.2, rfl⟩

/-- A request that finds its own key in its slot finds its own response under
it, and has no work to do. -/
def Service.Agrees (history : List R) (request : R) : Prop :=
  ∀ key, service.key request = some key →
    ∀ other, service.occupant history (service.slot key) = some other →
      service.key other = some key →
        service.build other = service.build request ∧ service.work request = false

/-! ## Transparency -/

variable [DecidableEq K]

def Cache.lookup (slot : K → S) (cache : Cache S K V) (key : K) : Option V :=
  match cache (slot key) with
  | none => none
  | some (stored, value) => if stored = key then some value else none

def Service.serve (cache : Cache S K V) (request : R) : (Option V × Bool) × Cache S K V :=
  match service.key request with
  | none => (service.fresh request, cache)
  | some key =>
    match cache.lookup service.slot key with
    | some value => ((some value, false), cache)
    | none =>
      match service.build request with
      | none => (service.fresh request, cache)
      | some value => (service.fresh request, cache.store service.slot key value)

def Service.serveAll : Cache S K V → List R → List (Option V × Bool)
  | _, [] => []
  | cache, request :: rest =>
    let (response, cache) := service.serve cache request
    response :: Service.serveAll cache rest

theorem Service.lookup_contents :
    (service.contents history).lookup service.slot key = some value ↔
      ∃ other, service.occupant history (service.slot key) = some other ∧
        service.entry other = some (key, value) := by
  simp only [Cache.lookup, Service.contents]
  cases service.occupant history (service.slot key) with
  | none => simp
  | some other =>
    simp only [Option.bind_some, Option.some.injEq, exists_eq_left']
    cases service.entry other with
    | none => simp
    | some entry =>
      by_cases hkey : entry.1 = key
      · simp [Prod.ext_iff]
      · simp [Prod.ext_iff]

theorem Service.agrees_of_miss (hkey : service.key request = some key)
    (hmiss : (service.contents history).lookup service.slot key = none) :
    service.Agrees history request := by
  intro key' hkey' other hoccupant hother
  obtain rfl : key = key' := Option.some.inj (hkey.symm.trans hkey')
  obtain ⟨stored, value, hentry⟩ := service.entry_of_occupant hoccupant
  have hstored := service.entry_eq_some.mp hentry
  obtain rfl : stored = key := Option.some.inj (hstored.1.symm.trans hother)
  have hhit := service.lookup_contents.mpr ⟨other, hoccupant, hentry⟩
  rw [hmiss] at hhit
  cases hhit

theorem Service.agrees_of_hit (hkey : service.key request = some key)
    (hhit : (service.contents history).lookup service.slot key = some value) :
    service.Agrees history request ↔
      service.build request = some value ∧ service.work request = false := by
  obtain ⟨other, hoccupant, hentry⟩ := service.lookup_contents.mp hhit
  have hother := service.entry_eq_some.mp hentry
  constructor
  · intro hagrees
    have hsame := hagrees _ hkey _ hoccupant hother.1
    exact ⟨hsame.1.symm.trans hother.2, hsame.2⟩
  · intro hsame key' hkey' other' hoccupant' _
    obtain rfl : key = key' := Option.some.inj (hkey.symm.trans hkey')
    obtain rfl : other = other' := Option.some.inj (hoccupant.symm.trans hoccupant')
    exact ⟨hother.2.trans hsame.1.symm, hsame.2⟩

/-- One request is served as if built anew exactly when it agrees with what its
slot holds. -/
theorem Service.serve_eq_fresh_iff (history : List R) (request : R) :
    (service.serve (service.contents history) request).1 = service.fresh request ↔
      service.Agrees history request := by
  simp only [Service.serve]
  cases hkey : service.key request with
  | none =>
    constructor
    · intro _ key hkey'
      rw [hkey] at hkey'
      cases hkey'
    · intro _
      rfl
  | some key =>
    cases hlookup : (service.contents history).lookup service.slot key with
    | some value =>
      rw [service.agrees_of_hit hkey hlookup]
      simp only [hlookup, Service.fresh, Prod.mk.injEq]
      exact ⟨fun h => ⟨h.1.symm, h.2.symm⟩, fun h => ⟨h.1.symm, h.2.symm⟩⟩
    | none =>
      constructor
      · intro _
        exact service.agrees_of_miss hkey hlookup
      · intro _
        simp only [hlookup]
        cases service.build request <;> rfl

theorem Service.serve_contents (hagrees : service.Agrees history request) :
    (service.serve (service.contents history) request).2 =
      service.contents (history ++ [request]) := by
  simp only [Service.serve]
  cases hkey : service.key request with
  | none =>
    have hentry : service.entry request = none := by simp [Service.entry, hkey]
    exact (service.contents_append_of_none hentry).symm
  | some key =>
    cases hlookup : (service.contents history).lookup service.slot key with
    | some value =>
      have hbuild := ((service.agrees_of_hit hkey hlookup).mp hagrees).1
      have hentry := service.entry_eq_some.mpr ⟨hkey, hbuild⟩
      rw [service.contents_append_of_some hentry]
      obtain ⟨other, hoccupant, hother⟩ := service.lookup_contents.mp hlookup
      have hslot : service.contents history (service.slot key) = some (key, value) := by
        simp [Service.contents, hoccupant, hother]
      simp only [hlookup]
      rw [Cache.store, ← hslot, Function.update_eq_self]
    | none =>
      simp only [hlookup]
      cases hbuild : service.build request with
      | none =>
        have hentry : service.entry request = none := by simp [Service.entry, hbuild]
        exact (service.contents_append_of_none hentry).symm
      | some value =>
        have hentry := service.entry_eq_some.mpr ⟨hkey, hbuild⟩
        exact (service.contents_append_of_some hentry).symm

theorem Service.serveAll_contents_iff (history requests : List R) :
    service.serveAll (service.contents history) requests = requests.map service.fresh ↔
      ∀ before request after, requests = before ++ request :: after →
        service.Agrees (history ++ before) request := by
  induction requests generalizing history with
  | nil => simp [Service.serveAll]
  | cons first rest ih =>
    simp only [Service.serveAll, map_cons, List.cons.injEq, service.serve_eq_fresh_iff]
    constructor
    · intro hserved before request after hsplit
      have hcontents := service.serve_contents hserved.1
      rw [hcontents, ih] at hserved
      cases before with
      | nil =>
        obtain ⟨rfl, _⟩ := cons_eq_cons.mp hsplit
        simpa using hserved.1
      | cons head before =>
        obtain ⟨rfl, hrest⟩ := cons_eq_cons.mp hsplit
        have hagrees := hserved.2 before request after hrest
        simpa using hagrees
    · intro hall
      have hfirst : service.Agrees history first := by
        simpa using hall [] _ _ rfl
      refine ⟨hfirst, ?_⟩
      rw [service.serve_contents hfirst, ih]
      intro before request after hrest
      have hagrees := hall (first :: before) _ _ (by rw [hrest]; rfl)
      simpa using hagrees

/-- A whole history is served as if every response were built anew exactly when
every request agrees with what the history before it left in its slot. -/
theorem Service.serveAll_eq_fresh_iff (requests : List R) :
    service.serveAll (fun _ => none) requests = requests.map service.fresh ↔
      ∀ before request after, requests = before ++ request :: after →
        service.Agrees before request := by
  have hempty : (fun _ => none : Cache S K V) = service.contents [] := by
    rfl
  rw [hempty, service.serveAll_contents_iff]
  simp

end AstraApi.DirectMapped
