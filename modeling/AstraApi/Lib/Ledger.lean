import Mathlib.Data.List.Nodup
import Mathlib.Data.List.Flatten

/-!
# Ledgers of values and errors

A ledger has a value for some names and a list of errors.  Items are settled one after the
other: the verdict on an item gives a value for its name or adds errors, or raises.  An
attempt that raises leaves its entries behind for the second one.
-/

namespace AstraApi.Ledgers

open List Option

/-- A value, or the errors if there are any. -/
abbrev Outcome (V E : Type*) := V × List E

structure Ledger (N V E : Type*) where
  values : N → Option V
  errors : List E

variable {α N V E R : Type*}

def accepted : Except R (Outcome V E) → Option V
  | .ok (value, []) => some value
  | _ => none

def reported : Except R (Outcome V E) → List E
  | .ok outcome => outcome.2
  | .error _ => []

def Raises (verdict : Except R (Outcome V E)) : Prop := ∃ e, verdict = .error e

theorem accepted_isSome_iff {verdict : Except R (Outcome V E)} :
    (accepted verdict).isSome ↔ ¬ Raises verdict ∧ reported verdict = [] := by
  rcases verdict with e | ⟨value, _ | ⟨error, errors⟩⟩ <;> simp [accepted, reported, Raises]

namespace Ledger

def empty : Ledger N V E where
  values _ := none
  errors := []

/-- The values of the second ledger replace those of the first. -/
def merge (ledger other : Ledger N V E) : Ledger N V E where
  values name := (other.values name).or (ledger.values name)
  errors := ledger.errors ++ other.errors

theorem merge_empty (ledger : Ledger N V E) : ledger.merge empty = ledger := by
  simp [merge, empty]

variable [DecidableEq N]

def add (ledger : Ledger N V E) (name : N) (outcome : Outcome V E) : Ledger N V E :=
  if outcome.2.isEmpty then
    { ledger with values := Function.update ledger.values name (some outcome.1) }
  else { ledger with errors := ledger.errors ++ outcome.2 }

def settle (ledger : Ledger N V E) (name : N) (verdict : Except R (Outcome V E)) :
    Ledger N V E where
  values := Function.update ledger.values name ((accepted verdict).or (ledger.values name))
  errors := ledger.errors ++ reported verdict

theorem settle_ok (ledger : Ledger N V E) (name : N) (outcome : Outcome V E) :
    ledger.settle name (R := R) (.ok outcome) = ledger.add name outcome := by
  obtain ⟨value, _ | ⟨error, errors⟩⟩ := outcome
  · simp [settle, add, accepted, reported]
  · simp [settle, add, accepted, reported]

section Items

variable (name : α → N) (verdict : α → Except R (Outcome V E))

def settleAll (ledger : Ledger N V E) (items : List α) : Ledger N V E :=
  items.foldl (fun ledger item => ledger.settle (name item) (verdict item)) ledger

/-- Every item in turn, unless one raises. -/
def record (ledger : Ledger N V E) (items : List α) : Except R (Ledger N V E) :=
  items.foldlM (fun ledger item => (verdict item).map (ledger.add (name item))) ledger

/-- The same, with the ledger as it is when an item raises. -/
def attempt : Ledger N V E → List α → Ledger N V E × Option R
  | ledger, [] => (ledger, none)
  | ledger, item :: items =>
    match verdict item with
    | .ok outcome => attempt (ledger.add (name item) outcome) items
    | .error e => (ledger, some e)

/-! ## Runs -/

theorem exists_first_raises (items : List α) :
    (∀ item ∈ items, ¬ Raises (verdict item)) ∨ ∃ front item back e, items = front ++ item :: back ∧
        (∀ earlier ∈ front, ¬ Raises (verdict earlier)) ∧ verdict item = .error e := by
  induction items with
  | nil => exact .inl fun _ hmem => absurd hmem not_mem_nil
  | cons item items ih =>
    cases hverdict : verdict item with
    | error e => exact .inr ⟨[], item, items, e, rfl, by simp, hverdict⟩
    | ok outcome =>
      have hitem : ¬ Raises (verdict item) := by simp [Raises, hverdict]
      rcases ih with hall | ⟨front, raising, back, e, hitems, hfront, hraises⟩
      · exact .inl (forall_mem_cons.mpr ⟨hitem, hall⟩)
      · exact .inr ⟨item :: front, raising, back, e, by rw [hitems, cons_append],
          forall_mem_cons.mpr ⟨hitem, hfront⟩, hraises⟩

theorem front_unique {P : α → Prop} {front front' back back' : List α} {item item' : α}
    (h : front ++ item :: back = front' ++ item' :: back') (hfront : ∀ x ∈ front, ¬ P x)
    (hitem : P item) (hfront' : ∀ x ∈ front', ¬ P x) (hitem' : P item') : front = front' := by
  induction front generalizing front' with
  | nil =>
    cases front' with
    | nil => rfl
    | cons x front' =>
      rw [nil_append, cons_append, List.cons.injEq] at h
      exact absurd (h.1 ▸ hitem) (hfront' x mem_cons_self)
  | cons x front ih =>
    cases front' with
    | nil =>
      rw [nil_append, cons_append, List.cons.injEq] at h
      exact absurd (h.1 ▸ hitem') (hfront x mem_cons_self)
    | cons x' front' =>
      rw [cons_append, cons_append, List.cons.injEq] at h
      rw [h.1, ih h.2 (forall_mem_cons.mp hfront).2 (forall_mem_cons.mp hfront').2]

theorem attempt_append {front : List α} (h : ∀ item ∈ front, ¬ Raises (verdict item))
    (ledger : Ledger N V E) (rest : List α) :
    attempt name verdict ledger (front ++ rest) =
      attempt name verdict (ledger.settleAll name verdict front) rest := by
  induction front generalizing ledger with
  | nil => rfl
  | cons item front ih =>
    obtain ⟨hitem, hfront⟩ := forall_mem_cons.mp h
    cases hverdict : verdict item with
    | error e => exact absurd ⟨e, hverdict⟩ hitem
    | ok outcome =>
      rw [cons_append, attempt, hverdict]
      simp only []
      rw [ih hfront, settleAll, settleAll, foldl_cons, hverdict, settle_ok]

theorem attempt_completes {items : List α} (h : ∀ item ∈ items, ¬ Raises (verdict item))
    (ledger : Ledger N V E) :
    attempt name verdict ledger items = (ledger.settleAll name verdict items, none) := by
  have hrun := attempt_append name verdict h ledger []
  rwa [append_nil] at hrun

theorem attempt_raises {front back : List α} {item : α} {e : R}
    (h : ∀ earlier ∈ front, ¬ Raises (verdict earlier)) (hitem : verdict item = .error e)
    (ledger : Ledger N V E) :
    attempt name verdict ledger (front ++ item :: back) =
      (ledger.settleAll name verdict front, some e) := by
  rw [attempt_append name verdict h, attempt, hitem]

/-- The two loops differ in what is left when an item raises. -/
theorem record_eq_attempt (ledger : Ledger N V E) (items : List α) :
    record name verdict ledger items =
      match attempt name verdict ledger items with
      | (after, none) => .ok after
      | (_, some e) => .error e := by
  induction items generalizing ledger with
  | nil => rfl
  | cons item items ih =>
    rw [record, foldlM_cons, attempt]
    cases verdict item with
    | error e => rfl
    | ok outcome => exact ih (ledger.add (name item) outcome)

theorem record_eq_ok_iff {ledger after : Ledger N V E} {items : List α} :
    record name verdict ledger items = .ok after ↔
      (∀ item ∈ items, ¬ Raises (verdict item)) ∧ after = ledger.settleAll name verdict items := by
  rw [record_eq_attempt]
  rcases exists_first_raises verdict items with hall | ⟨front, item, back, e, rfl, hfront, hitem⟩
  · rw [attempt_completes name verdict hall]
    rw [Except.ok.injEq, eq_comm]
    exact (and_iff_right hall).symm
  · rw [attempt_raises name verdict hfront hitem]
    refine iff_of_false (by simp) fun hall => ?_
    exact hall.1 item (by simp) ⟨e, hitem⟩

theorem merge_settle (ledger other : Ledger N V E) (n : N) (v : Except R (Outcome V E)) :
    ledger.merge (other.settle n v) = (ledger.merge other).settle n v := by
  simp only [merge, settle, append_assoc, mk.injEq, and_true]
  funext key
  by_cases hkey : key = n
  · rw [hkey, Function.update_self, Function.update_self, Option.or_assoc]
  · rw [Function.update_of_ne hkey, Function.update_of_ne hkey]

theorem merge_settleAll (ledger other : Ledger N V E) (items : List α) :
    ledger.merge (other.settleAll name verdict items) =
      (ledger.merge other).settleAll name verdict items := by
  induction items generalizing other with
  | nil => rfl
  | cons item items ih =>
    rw [settleAll, foldl_cons, ← settleAll, ih, merge_settle]
    rfl

theorem settleAll_append (ledger : Ledger N V E) (front back : List α) :
    ledger.settleAll name verdict (front ++ back) =
      (ledger.settleAll name verdict front).settleAll name verdict back :=
  foldl_append

/-! ## What a run leaves -/

theorem errors_settleAll (ledger : Ledger N V E) (items : List α) :
    (ledger.settleAll name verdict items).errors =
      ledger.errors ++ items.flatMap fun item => reported (verdict item) := by
  induction items generalizing ledger with
  | nil => simp [settleAll]
  | cons item items ih =>
    rw [settleAll, foldl_cons, ← settleAll, ih, flatMap_cons, settle, append_assoc]

theorem values_settleAll_of_forall_ne {items : List α} {key : N} (h : ∀ item ∈ items, name item ≠ key)
    (ledger : Ledger N V E) : (ledger.settleAll name verdict items).values key = ledger.values key := by
  induction items generalizing ledger with
  | nil => rfl
  | cons item items ih =>
    obtain ⟨hitem, hitems⟩ := forall_mem_cons.mp h
    rw [settleAll, foldl_cons, ← settleAll, ih hitems]
    exact Function.update_of_ne (Ne.symm hitem) ..

theorem values_settleAll {items : List α} (hnodup : (items.map name).Nodup) {item : α}
    (hmem : item ∈ items) (ledger : Ledger N V E) :
    (ledger.settleAll name verdict items).values (name item) =
      (accepted (verdict item)).or (ledger.values (name item)) := by
  induction items generalizing ledger with
  | nil => cases hmem
  | cons first items ih =>
    rw [map_cons, nodup_cons] at hnodup
    rw [settleAll, foldl_cons, ← settleAll]
    rcases mem_cons.mp hmem with rfl | hlater
    · have hother : ∀ later ∈ items, name later ≠ name item := fun later hmem heq =>
        hnodup.1 (heq ▸ mem_map_of_mem hmem)
      rw [values_settleAll_of_forall_ne name verdict hother]
      exact Function.update_self ..
    · have hne : name item ≠ name first := fun heq =>
        hnodup.1 (heq ▸ mem_map_of_mem hlater)
      rw [ih hnodup.2 hlater]
      exact congrArg _ (Function.update_of_ne hne ..)

end Items

section TwoVerdicts

variable {name : α → N} {verdict other : α → Except R (Outcome V E)} {items : List α}
variable {ledger : Ledger N V E}

/-- Ledgers are compared by their errors and at the names of the items. -/
theorem settleAll_eq_iff (hnodup : (items.map name).Nodup)
    (hfresh : ∀ item ∈ items, ledger.values (name item) = none) :
    ledger.settleAll name verdict items = ledger.settleAll name other items ↔
      (∀ item ∈ items, accepted (verdict item) = accepted (other item)) ∧
        (items.flatMap fun item => reported (verdict item)) =
          items.flatMap fun item => reported (other item) := by
  constructor
  · intro heq
    constructor
    · intro item hmem
      have hvalue := congrArg (fun ledger => ledger.values (name item)) heq
      simpa [values_settleAll name _ hnodup hmem, hfresh item hmem] using hvalue
    · have herrors := congrArg Ledger.errors heq
      rw [errors_settleAll, errors_settleAll] at herrors
      exact append_cancel_left herrors
  · rintro ⟨haccepted, hreported⟩
    have hvalues : (ledger.settleAll name verdict items).values =
        (ledger.settleAll name other items).values := by
      funext key
      by_cases hkey : ∃ item ∈ items, name item = key
      · obtain ⟨item, hmem, rfl⟩ := hkey
        rw [values_settleAll name _ hnodup hmem, values_settleAll name _ hnodup hmem,
          haccepted item hmem]
      · push Not at hkey
        rw [values_settleAll_of_forall_ne name _ hkey, values_settleAll_of_forall_ne name _ hkey]
    have herrors : (ledger.settleAll name verdict items).errors =
        (ledger.settleAll name other items).errors := by
      rw [errors_settleAll, errors_settleAll, hreported]
    exact Ledger.mk.injEq .. ▸ ⟨hvalues, herrors⟩

/-- A first run over the front leaves no trace in the second run when both accept every
item of the front. -/
theorem settleAll_settleAll_eq_iff {front back : List α} (hitems : items = front ++ back)
    (hnodup : (items.map name).Nodup) (hquiet : ∀ item ∈ front, ¬ Raises (verdict item))
    (hfresh : ∀ item ∈ items, ledger.values (name item) = none) :
    (ledger.settleAll name verdict front).settleAll name other items =
        ledger.settleAll name other items ↔
      ∀ item ∈ front, (accepted (verdict item)).isSome ∧ (accepted (other item)).isSome := by
  have hfront : (front.map name).Nodup := by
    rw [hitems, map_append] at hnodup
    exact hnodup.of_append_left
  have hsub : ∀ item ∈ front, item ∈ items := fun item hmem => hitems ▸ mem_append_left _ hmem
  constructor
  · intro heq item hmem
    have herrors := congrArg Ledger.errors heq
    rw [errors_settleAll, errors_settleAll, errors_settleAll, append_assoc,
      append_cancel_left_eq, append_left_eq_self, flatMap_eq_nil_iff] at herrors
    have haccepted := accepted_isSome_iff.mpr ⟨hquiet item hmem, herrors item hmem⟩
    refine ⟨haccepted, ?_⟩
    have hvalue := congrArg (fun ledger => ledger.values (name item)) heq
    simp only [values_settleAll name _ hnodup (hsub item hmem), values_settleAll name _ hfront hmem,
      hfresh item (hsub item hmem), or_none] at hvalue
    cases hother : accepted (other item) with
    | some value => rfl
    | none =>
      rw [hother, none_or] at hvalue
      rw [hvalue] at haccepted
      cases haccepted
  · intro hboth
    have hvalues : ((ledger.settleAll name verdict front).settleAll name other items).values =
        (ledger.settleAll name other items).values := by
      funext key
      by_cases hkey : ∃ item ∈ items, name item = key
      · obtain ⟨item, hmem, rfl⟩ := hkey
        rw [values_settleAll name _ hnodup hmem, values_settleAll name _ hnodup hmem]
        by_cases hitem : item ∈ front
        · obtain ⟨value, hvalue⟩ := isSome_iff_exists.mp (hboth item hitem).2
          rw [hvalue, some_or, some_or]
        · have hne : ∀ earlier ∈ front, name earlier ≠ name item := fun earlier hearlier heq =>
            hitem (inj_on_of_nodup_map hnodup (hsub earlier hearlier) hmem heq ▸ hearlier)
          rw [values_settleAll_of_forall_ne name _ hne]
      · push Not at hkey
        rw [values_settleAll_of_forall_ne name _ hkey, values_settleAll_of_forall_ne name _ hkey,
          values_settleAll_of_forall_ne name _ fun item hmem => hkey item (hsub item hmem)]
    have herrors : ((ledger.settleAll name verdict front).settleAll name other items).errors =
        (ledger.settleAll name other items).errors := by
      have hclean : (front.flatMap fun item => reported (verdict item)) = [] :=
        flatMap_eq_nil_iff.mpr fun item hmem => (accepted_isSome_iff.mp (hboth item hmem).1).2
      rw [errors_settleAll, errors_settleAll, errors_settleAll, hclean, append_nil]
    exact Ledger.mk.injEq .. ▸ ⟨hvalues, herrors⟩

end TwoVerdicts

end Ledger

open Ledger

/-! ## A second attempt -/

section Retry

variable [DecidableEq N]

/-- The cases in which a first attempt, with the second for when it raises, ends as the
second alone. -/
inductive Agreement (items : List α) (verdict other : α → Except R (Outcome V E)) : Prop where
  | completed (hverdict : ∀ item ∈ items, ¬ Raises (verdict item))
      (hother : ∀ item ∈ items, ¬ Raises (other item))
      (haccepted : ∀ item ∈ items, accepted (verdict item) = accepted (other item))
      (hreported : (items.flatMap fun item => reported (verdict item)) =
        items.flatMap fun item => reported (other item))
  | bothRaise (hverdict : ∃ item ∈ items, Raises (verdict item))
      (hother : ∃ item ∈ items, Raises (other item))
  | retried {front back : List α} {item : α} (hitems : items = front ++ item :: back)
      (hverdict : Raises (verdict item)) (hother : ∀ item ∈ items, ¬ Raises (other item))
      (hfront : ∀ item ∈ front, (accepted (verdict item)).isSome ∧ (accepted (other item)).isSome)

theorem Agreement.congr {items : List α} {verdict verdict' other : α → Except R (Outcome V E)}
    (h : ∀ item ∈ items, verdict item = verdict' item) (hagree : Agreement items verdict other) :
    Agreement items verdict' other := by
  have hflat : (items.flatMap fun item => reported (verdict item)) =
      items.flatMap fun item => reported (verdict' item) :=
    flatMap_congr fun item hmem => by rw [h item hmem]
  cases hagree with
  | completed hverdict hother haccepted hreported =>
    exact .completed (fun item hmem => h item hmem ▸ hverdict item hmem) hother
      (fun item hmem => h item hmem ▸ haccepted item hmem) (hflat ▸ hreported)
  | bothRaise hverdict hother =>
    obtain ⟨item, hmem, hraises⟩ := hverdict
    exact .bothRaise ⟨item, hmem, h item hmem ▸ hraises⟩ hother
  | @retried front back raising hitems hverdict hother hfront =>
    have hmem : raising ∈ items := by rw [hitems]; simp
    refine .retried hitems (h raising hmem ▸ hverdict) hother fun item hmem => ?_
    rw [← h item (hitems ▸ mem_append_left _ hmem)]
    exact hfront item hmem

def retry (first : Ledger N V E × Option R) (second : Except R (Ledger N V E)) :
    Except R (Ledger N V E) :=
  match first with
  | (after, none) => .ok after
  | (after, some _) => second.map after.merge

theorem retry_eq_iff {name : α → N} {verdict other : α → Except R (Outcome V E)} {items : List α}
    {ledger : Ledger N V E} {second : Except R (Ledger N V E)} (hnodup : (items.map name).Nodup)
    (hfresh : ∀ item ∈ items, ledger.values (name item) = none)
    (hsecond : ∀ after, second = .ok after ↔
      (∀ item ∈ items, ¬ Raises (other item)) ∧ after = empty.settleAll name other items) :
    retry (attempt name verdict ledger items) second = second.map ledger.merge ↔
      Agreement items verdict other := by
  have hmerge (before : Ledger N V E) :
      before.merge (empty.settleAll name other items) = before.settleAll name other items := by
    rw [merge_settleAll, merge_empty]
  rcases exists_first_raises other items with hother | hother
  · rw [(hsecond _).mpr ⟨hother, rfl⟩]
    rcases exists_first_raises verdict items with hquiet | ⟨front, item, back, e, hitems, hfront, hitem⟩
    · rw [attempt_completes name verdict hquiet, retry, Except.map, Except.ok.injEq, hmerge,
        settleAll_eq_iff hnodup hfresh]
      constructor
      · rintro ⟨haccepted, hreported⟩
        exact .completed hquiet hother haccepted hreported
      · rintro (⟨-, -, haccepted, hreported⟩ | ⟨⟨item, hmem, hraises⟩, -⟩ |
          ⟨rfl, hraises, -, -⟩)
        · exact ⟨haccepted, hreported⟩
        · exact absurd hraises (hquiet item hmem)
        · exact absurd hraises (hquiet _ (by simp))
    · subst hitems
      rw [attempt_raises name verdict hfront hitem, retry, Except.map, Except.map, Except.ok.injEq,
        hmerge, hmerge, settleAll_settleAll_eq_iff rfl hnodup hfront hfresh]
      constructor
      · exact .retried rfl ⟨e, hitem⟩ hother
      · rintro (⟨hquiet, -, -, -⟩ | ⟨-, ⟨item, hmem, hraises⟩⟩ | ⟨hitems, hraises, -, hboth⟩)
        · exact absurd ⟨e, hitem⟩ (hquiet item (by simp))
        · exact absurd hraises (hother item hmem)
        · have hsame := front_unique hitems hfront ⟨e, hitem⟩
            (fun earlier hmem => (accepted_isSome_iff.mp (hboth earlier hmem).1).1) hraises
          exact hsame ▸ hboth
  · obtain ⟨front, item, back, e, hitems, -, hitem⟩ := hother
    have hnone : ¬ ∀ item ∈ items, ¬ Raises (other item) := by
      push Not
      exact ⟨item, by simp [hitems], e, hitem⟩
    cases hresult : second with
    | ok after => exact absurd ((hsecond after).mp hresult).1 hnone
    | error reason =>
      rcases exists_first_raises verdict items with hquiet | ⟨front, item, back, e, hitems, hfront, hitem⟩
      · rw [attempt_completes name verdict hquiet]
        refine iff_of_false (fun heq => nomatch heq) ?_
        rintro (⟨-, hall, -, -⟩ | ⟨⟨item, hmem, hraises⟩, -⟩ | ⟨-, -, hall, -⟩)
        · exact hnone hall
        · exact hquiet item hmem hraises
        · exact hnone hall
      · subst hitems
        rw [attempt_raises name verdict hfront hitem]
        refine iff_of_true rfl (.bothRaise ⟨item, by simp, e, hitem⟩ ?_)
        push Not at hnone
        exact hnone

end Retry

end AstraApi.Ledgers
