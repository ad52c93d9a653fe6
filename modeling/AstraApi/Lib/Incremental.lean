import Mathlib.Data.List.Basic

/-!
# Parsing a stream as it arrives

A parser is asked again and again for the first item of the bytes that are there.
It answers with an item and its length, asks for more, or fails.  Whether the items
found depend on how the stream was cut is decided by its failures alone, if an item
that was found stays the first item when more arrives.
-/

namespace AstraApi.Incremental

open List

inductive Step (R : Type*) where
  | needMore
  | fail
  | item (value : R) (consumed : ℕ)

inductive Outcome where
  | waiting
  | failed
  deriving DecidableEq

section Parser

variable {A R : Type*} (step : List A → Step R)

/-- Take items off the front until none is left: the items, what is left and why
the parser stopped there. -/
inductive Drains : List A → List R → List A → Outcome → Prop
  | waiting {data : List A} (h : step data = .needMore) : Drains data [] data .waiting
  | failed {data : List A} (h : step data = .fail) : Drains data [] data .failed
  | item {data rest : List A} {value : R} {consumed : ℕ} {items : List R} {outcome : Outcome}
      (h : step data = .item value consumed)
      (next : Drains (data.drop consumed) items rest outcome) :
      Drains data (value :: items) rest outcome

/-- Drain after every chunk; nothing is read after a failure. -/
inductive Feeds : List A → List (List A) → List R → Outcome → Prop
  | done {rest : List A} : Feeds rest [] [] .waiting
  | more {rest chunk left : List A} {chunks : List (List A)} {items later : List R}
      {outcome : Outcome} (h : Drains step (rest ++ chunk) items left .waiting)
      (next : Feeds left chunks later outcome) :
      Feeds rest (chunk :: chunks) (items ++ later) outcome
  | failed {rest chunk left : List A} {chunks : List (List A)} {items : List R}
      (h : Drains step (rest ++ chunk) items left .failed) :
      Feeds rest (chunk :: chunks) items .failed

structure Stable : Prop where
  inside : ∀ {data : List A} {value : R} {consumed : ℕ},
    step data = .item value consumed → consumed ≤ data.length
  append : ∀ {data : List A} {value : R} {consumed : ℕ} (more : List A),
    step data = .item value consumed → step (data ++ more) = .item value consumed

/-- A failure is not undone by the data that comes after it. -/
def FailsForGood (rest stream : List A) : Prop :=
  ∀ arrived later, arrived ++ later = stream → ∀ items left,
    Drains step (rest ++ arrived) items left .failed → step (left ++ later) = .fail

/-- Every two ways of cutting a stream give the same items and the same outcome. -/
def Independent (stream : List A) : Prop :=
  ∀ left right : List (List A), left.flatten = stream → right.flatten = stream →
    ∀ items outcome, Feeds step [] left items outcome ↔ Feeds step [] right items outcome

variable {step}

theorem Drains.step_needMore {data left : List A} {items : List R}
    (h : Drains step data items left .waiting) : step left = .needMore := by
  generalize houtcome : Outcome.waiting = outcome at h
  induction h with
  | waiting h => exact h
  | failed h => cases houtcome
  | item h next ih => exact ih houtcome

theorem Drains.step_fail {data left : List A} {items : List R}
    (h : Drains step data items left .failed) : step left = .fail := by
  generalize houtcome : Outcome.failed = outcome at h
  induction h with
  | waiting h => cases houtcome
  | failed h => exact h
  | item h next ih => exact ih houtcome

theorem Drains.unique {data left left' : List A} {items items' : List R}
    {outcome outcome' : Outcome} (h : Drains step data items left outcome)
    (h' : Drains step data items' left' outcome') :
    items = items' ∧ left = left' ∧ outcome = outcome' := by
  induction h generalizing items' with
  | waiting h =>
    cases h' with
    | waiting _ => exact ⟨rfl, rfl, rfl⟩
    | failed hother | item hother _ => simp [h] at hother
  | failed h =>
    cases h' with
    | failed _ => exact ⟨rfl, rfl, rfl⟩
    | waiting hother | item hother _ => simp [h] at hother
  | item h next ih =>
    cases h' with
    | waiting hother | failed hother => simp [h] at hother
    | item hother next' =>
      rw [h] at hother
      cases hother
      obtain ⟨rfl, rfl, rfl⟩ := ih next'
      exact ⟨rfl, rfl, rfl⟩

theorem Feeds.drains_of_failed {rest chunk : List A} {items : List R}
    (h : Feeds step rest [chunk] items .failed) :
    ∃ left, Drains step (rest ++ chunk) items left .failed := by
  cases h with
  | more _ next => cases next
  | failed hdrains => exact ⟨_, hdrains⟩

variable (hstable : Stable step)

include hstable

/-- The items found so far come first when more data arrives. -/
theorem Drains.append_iff {data left more : List A} {items : List R} {outcome : Outcome}
    (h : Drains step data items left outcome) {all : List R} {final : List A}
    {ending : Outcome} :
    Drains step (data ++ more) all final ending ↔
      ∃ later, all = items ++ later ∧ Drains step (left ++ more) later final ending := by
  induction h generalizing all with
  | waiting h => simp
  | failed h => simp
  | @item data rest value consumed items outcome h next ih =>
    have hstep := hstable.append more h
    have hdrop : (data ++ more).drop consumed = data.drop consumed ++ more :=
      drop_append_of_le_length (hstable.inside h)
    constructor
    · intro hall
      cases hall with
      | waiting hother | failed hother => simp [hother] at hstep
      | item hother hnext =>
        rw [hstep] at hother
        cases hother
        rw [hdrop, ih] at hnext
        obtain ⟨later, rfl, hlater⟩ := hnext
        exact ⟨later, rfl, hlater⟩
    · rintro ⟨later, rfl, hlater⟩
      apply Drains.item hstep
      rw [hdrop, ih]
      exact ⟨later, rfl, hlater⟩

theorem FailsForGood.next {rest chunk left stream : List A} {items : List R}
    (h : FailsForGood step rest (chunk ++ stream))
    (hdrains : Drains step (rest ++ chunk) items left .waiting) :
    FailsForGood step left stream := by
  intro arrived later hstream found final hfailed
  apply h _ _ (by rw [append_assoc, hstream]) _
  rw [← append_assoc, hdrains.append_iff hstable]
  exact ⟨found, rfl, hfailed⟩

/-- If a parser comes to an end it does so on what arrived first. -/
theorem Drains.exists_of_append {data more final : List A} {all : List R} {ending : Outcome}
    (h : Drains step (data ++ more) all final ending) :
    ∃ items left outcome, Drains step data items left outcome := by
  generalize hwhole : data ++ more = whole at h
  induction h generalizing data with
  | waiting h | failed h =>
    subst hwhole
    cases hstep : step data with
    | needMore => exact ⟨[], data, .waiting, .waiting hstep⟩
    | fail => exact ⟨[], data, .failed, .failed hstep⟩
    | item value consumed => simp [hstable.append _ hstep] at h
  | item h next ih =>
    subst hwhole
    cases hstep : step data with
    | needMore => exact ⟨[], data, .waiting, .waiting hstep⟩
    | fail => exact ⟨[], data, .failed, .failed hstep⟩
    | item value consumed =>
      rw [hstable.append _ hstep] at h
      injection h with hvalue hconsumed
      subst hconsumed
      have hdrop : (data ++ more).drop _ = data.drop _ ++ more :=
        drop_append_of_le_length (hstable.inside hstep)
      obtain ⟨items, left, outcome, hdrains⟩ := ih hdrop.symm
      exact ⟨value :: items, left, outcome, .item hstep hdrains⟩

theorem feeds_iff {rest : List A} {chunks : List (List A)} {items : List R} {outcome : Outcome}
    (hrest : step rest = .needMore) (h : FailsForGood step rest chunks.flatten) :
    Feeds step rest chunks items outcome ↔
      ∃ left, Drains step (rest ++ chunks.flatten) items left outcome := by
  induction chunks generalizing rest items with
  | nil =>
    rw [flatten_nil, append_nil]
    constructor
    · intro hfeeds
      cases hfeeds
      exact ⟨rest, .waiting hrest⟩
    · rintro ⟨left, hdrains⟩
      cases hdrains with
      | waiting _ => exact .done
      | failed hother => simp [hrest] at hother
      | item hother _ => simp [hrest] at hother
  | cons chunk chunks ih =>
    rw [flatten_cons] at h ⊢
    rw [← append_assoc]
    constructor
    · intro hfeeds
      cases hfeeds with
      | more hdrains next =>
        rw [ih hdrains.step_needMore (h.next hstable hdrains)] at next
        obtain ⟨left, hlater⟩ := next
        exact ⟨left, (hdrains.append_iff hstable).mpr ⟨_, rfl, hlater⟩⟩
      | failed hdrains =>
        have hfail := h _ _ rfl _ _ hdrains
        refine ⟨_, (hdrains.append_iff hstable).mpr ⟨[], ?_, .failed hfail⟩⟩
        rw [append_nil]
    · rintro ⟨final, hall⟩
      obtain ⟨found, left, stopped, hdrains⟩ := hall.exists_of_append hstable
      rw [hdrains.append_iff hstable] at hall
      obtain ⟨later, rfl, hlater⟩ := hall
      cases stopped with
      | waiting =>
        have hfeeds := (ih hdrains.step_needMore (h.next hstable hdrains)).mpr ⟨final, hlater⟩
        exact .more hdrains hfeeds
      | failed =>
        have hfail := h _ _ rfl _ _ hdrains
        cases hlater with
        | waiting hother => simp [hfail] at hother
        | failed _ =>
          rw [append_nil]
          exact .failed hdrains
        | item hother _ => simp [hfail] at hother

/-- The cuts of a stream do not matter exactly if no failure is undone. -/
theorem independent_iff (hempty : step [] = .needMore) {stream : List A} :
    Independent step stream ↔ FailsForGood step [] stream := by
  constructor
  · intro h arrived later hstream items left hdrains
    have hcut : Feeds step [] [arrived, later] items .failed := .failed hdrains
    have hwhole := (h [arrived, later] [stream] (by simpa using hstream) (by simp) _ .failed).mp
      hcut
    obtain ⟨final, hall⟩ := hwhole.drains_of_failed
    rw [← hstream, ← append_assoc, hdrains.append_iff hstable] at hall
    obtain ⟨found, hfound, hlater⟩ := hall
    have hnone : found = [] := by simpa using hfound
    subst hnone
    cases hlater with
    | failed hfail => exact hfail
  · intro h left right hleft hright items outcome
    rw [feeds_iff hstable hempty (hleft ▸ h), feeds_iff hstable hempty (hright ▸ h), hleft, hright]

end Parser

end AstraApi.Incremental
