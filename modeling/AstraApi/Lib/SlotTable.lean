import Mathlib.Tactic

/-!
# Tables of words with exclusive slots

A radix dictionary whose nodes have one slot per kind of edge stores a set of
words over an alphabet of edge labels.  Two different labels of the same kind
cannot leave the same node, so storing one word may evict others: exactly the
words that first differ from it by a label competing for the same slot.  This
module is the general theory of such tables, independent of any node layout.
-/

namespace AstraApi.SlotTable

variable {α ι : Type*} [DecidableEq α]

/-- A finite or infinite table from words to values. -/
abbrev Table (α ι : Type*) := List α → Option ι

/-- The table seen from the node reached by `word`. -/
def after (table : Table α ι) (word : List α) : Table α ι :=
  fun rest => table (word ++ rest)

/-- `displaces rival stored fresh`: at the first position where the two words
differ, their labels compete for one slot. -/
def displaces (rival : α → α → Bool) : List α → List α → Bool
  | a :: stored, b :: fresh =>
    if a = b then displaces rival stored fresh else rival a b
  | _, _ => false

/-- Store `value` under `word`; the rivals of `word` are evicted. -/
def put (rival : α → α → Bool) (table : Table α ι) (word : List α) (value : ι) :
    Table α ι :=
  fun other =>
    if other = word then some value
    else if displaces rival other word then none
    else table other

/-- The table left by a sequence of `put`s. -/
def tableOf (rival : α → α → Bool) (puts : List (List α × ι)) : Table α ι :=
  puts.foldl (fun table entry => put rival table entry.1 entry.2) fun _ => none

/-- `word` was stored with `value`, and no later word replaced or displaced
it. -/
def Survives (rival : α → α → Bool) (puts : List (List α × ι))
    (word : List α) (value : ι) : Prop :=
  ∃ before later, puts = before ++ (word, value) :: later ∧
    ∀ entry ∈ later, entry.1 ≠ word ∧ displaces rival word entry.1 = false

omit [DecidableEq α] in
theorem after_after (table : Table α ι) (left right : List α) :
    after (after table left) right = after table (left ++ right) := by
  funext rest
  simp [after]

omit [DecidableEq α] in
theorem after_apply (table : Table α ι) (word rest : List α) :
    after table word rest = table (word ++ rest) := rfl

theorem displaces_append (rival : α → α → Bool) (common left right : List α) :
    displaces rival (common ++ left) (common ++ right) = displaces rival left right := by
  induction common with
  | nil => rfl
  | cons a common ih => simp [displaces, ih]

/-- Below the stored word's own path, a `put` is a `put` of the rest. -/
theorem after_put_append (rival : α → α → Bool) (table : Table α ι)
    (common word : List α) (value : ι) :
    after (put rival table (common ++ word) value) common =
      put rival (after table common) word value := by
  funext rest
  simp [after, put, displaces_append]

theorem put_nil_cons (rival : α → α → Bool) (table : Table α ι) (value : ι)
    (a : α) (rest : List α) :
    put rival table [] value (a :: rest) = table (a :: rest) := by
  simp [put, displaces]

theorem put_cons_nil (rival : α → α → Bool) (table : Table α ι) (value : ι)
    (a : α) (word : List α) :
    put rival table (a :: word) value [] = table [] := by
  simp [put, displaces]

theorem put_self (rival : α → α → Bool) (table : Table α ι) (word : List α)
    (value : ι) : put rival table word value word = some value := by
  simp [put]

theorem tableOf_append_singleton (rival : α → α → Bool)
    (puts : List (List α × ι)) (word : List α) (value : ι) :
    tableOf rival (puts ++ [(word, value)]) = put rival (tableOf rival puts) word value := by
  simp [tableOf]

private theorem survives_append_singleton_iff (rival : α → α → Bool)
    (puts : List (List α × ι)) (fresh : List α × ι) (word : List α) (value : ι) :
    Survives rival (puts ++ [fresh]) word value ↔ fresh = (word, value) ∨
        (Survives rival puts word value ∧ fresh.1 ≠ word ∧
          displaces rival word fresh.1 = false) := by
  constructor
  · rintro ⟨before, later, heq, hlater⟩
    rcases List.eq_nil_or_concat later with rfl | ⟨later', last, rfl⟩
    · left
      have hlast := (List.append_inj' heq rfl).2
      simpa using hlast
    · right
      have hsplit : puts ++ [fresh] = (before ++ (word, value) :: later') ++ [last] := by
        simpa using heq
      obtain ⟨hputs, hlast⟩ := List.append_inj' hsplit rfl
      obtain rfl : fresh = last := by simpa using hlast
      refine ⟨⟨before, later', hputs, fun entry hentry => ?_⟩, ?_⟩
      · exact hlater _ (by simp [hentry])
      · exact hlater _ (by simp)
  · rintro (rfl | ⟨⟨before, later, rfl, hlater⟩, hfresh⟩)
    · exact ⟨puts, [], rfl, by simp⟩
    · refine ⟨before, later ++ [fresh], by simp, fun entry hentry => ?_⟩
      rcases List.mem_append.mp hentry with hmem | hmem
      · exact hlater _ hmem
      · obtain rfl : entry = fresh := by simpa using hmem
        exact hfresh

theorem tableOf_eq_some_iff (rival : α → α → Bool) (puts : List (List α × ι))
    (word : List α) (value : ι) :
    tableOf rival puts word = some value ↔ Survives rival puts word value := by
  induction puts using List.reverseRecOn with
  | nil => simp [tableOf, Survives]
  | append_singleton puts fresh ih =>
    obtain ⟨freshWord, freshValue⟩ := fresh
    rw [tableOf_append_singleton, survives_append_singleton_iff, ← ih]
    by_cases hword : word = freshWord
    · subst hword
      simp [put_self]
    · have hword' : freshWord ≠ word := fun h => hword h.symm
      by_cases hrival : displaces rival word freshWord
      · simp [put, hword, hword', hrival]
      · simp [put, hword, hword', hrival]

/-! ## Compatible words -/

variable {rival : α → α → Bool} {puts puts' : List (List α × ι)}

/-- Two words that stand in a table beside each other. -/
def Compatible (rival : α → α → Bool) (left right : List α) : Prop :=
  left ≠ right ∧ displaces rival left right = false ∧ displaces rival right left = false

theorem Compatible.symm {left right : List α} (h : Compatible rival left right) :
    Compatible rival right left := ⟨h.1.symm, h.2.2, h.2.1⟩

theorem survives_iff_mem (h : puts.Pairwise fun first second => Compatible rival first.1 second.1)
    (word : List α) (value : ι) : Survives rival puts word value ↔ (word, value) ∈ puts := by
  constructor
  · rintro ⟨before, later, rfl, -⟩
    simp
  · intro hmem
    obtain ⟨before, later, rfl⟩ := List.append_of_mem hmem
    refine ⟨before, later, rfl, fun entry hentry => ?_⟩
    have hcompatible := (List.pairwise_cons.mp (List.pairwise_append.mp h).2.1).1 _ hentry
    exact ⟨hcompatible.1.symm, hcompatible.2.1⟩

/-- Compatible words may be stored in any order. -/
theorem tableOf_perm (hperm : puts.Perm puts')
    (h : puts.Pairwise fun first second => Compatible rival first.1 second.1) :
    tableOf rival puts = tableOf rival puts' := by
  have h' := (hperm.pairwise_iff fun hfirst => Compatible.symm hfirst).mp h
  funext word
  apply Option.ext
  intro value
  rw [tableOf_eq_some_iff, tableOf_eq_some_iff, survives_iff_mem h, survives_iff_mem h',
    hperm.mem_iff]

end AstraApi.SlotTable
