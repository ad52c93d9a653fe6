import Mathlib.Tactic

/-!
# Words in a text

A word stands in a text where its letters occur (after `fold`) with a left and a right
neighbour that are allowed; `none` is the edge of the text.  Separators cut the text: a word
stands in the whole exactly when it stands in a part.
-/

namespace AstraApi.Words

open List

variable {α β : Type*}

def Stands (fold : α → β) (left right : Option α → Prop) (word : List β) (text : List α) : Prop :=
  ∃ before found after, text = before ++ found ++ after ∧ found.map fold = word ∧
    left before.getLast? ∧ right after.head?

/-- A letter that is not of the word and that may stand beside it. -/
structure Separates (fold : α → β) (left right : Option α → Prop) (word : List β) (d : α) :
    Prop where
  notLetter : fold d ∉ word
  left : left (some d)
  right : right (some d)

variable {fold : α → β} {left right : Option α → Prop} {word : List β}

theorem not_stands_nil (hword : word ≠ []) : ¬ Stands fold left right word [] := by
  rintro ⟨before, found, after, htext, hfound, -, -⟩
  have hempty : found = [] := by simp_all
  rw [hempty] at hfound
  exact hword hfound.symm

/-- Without neighbours to look at, the word is an infix. -/
theorem stands_anywhere_iff {text : List α} :
    Stands fold (fun _ => True) (fun _ => True) word text ↔ word <:+: text.map fold := by
  constructor
  · rintro ⟨before, found, after, rfl, rfl, -, -⟩
    exact ⟨before.map fold, after.map fold, by simp⟩
  · rintro ⟨before, after, h⟩
    obtain ⟨front, back, htext, hfront, -⟩ := map_eq_append_iff.mp h.symm
    obtain ⟨first, found, hsplit, -, hfound⟩ := map_eq_append_iff.mp hfront
    exact ⟨first, found, back, by rw [htext, hsplit], hfound, trivial, trivial⟩

theorem stands_whole_iff (hleft : left none) (hright : right none) {text : List α}
    (htext : ∀ c ∈ text, ¬ left (some c) ∧ ¬ right (some c)) :
    Stands fold left right word text ↔ text.map fold = word := by
  constructor
  · rintro ⟨before, found, after, rfl, hfound, hbefore, hafter⟩
    have hfront : before = [] := by
      by_contra hne
      rw [getLast?_eq_some_getLast hne] at hbefore
      exact (htext _ (by simp)).1 hbefore
    have hback : after = [] := by
      by_contra hne
      rw [head?_eq_some_head hne] at hafter
      exact (htext _ (by simp)).2 hafter
    simpa [hfront, hback] using hfound
  · intro h
    exact ⟨[], text, [], by simp, h, hleft, hright⟩

theorem getLast?_behind (front rest : List α) (d c : α) :
    (front ++ d :: (rest ++ [c])).getLast? = some c := by
  rw [← cons_append, ← append_assoc, getLast?_concat]

section Separators

variable (hleft : left none) (hright : right none)

include hleft hright in
theorem stands_append_cons_iff {d : α} (hd : Separates fold left right word d)
    {front back : List α} :
    Stands fold left right word (front ++ d :: back) ↔
      Stands fold left right word front ∨ Stands fold left right word back := by
  constructor
  · rintro ⟨before, found, after, htext, hfound, hbefore, hafter⟩
    have hmem : d ∉ found := fun h => hd.notLetter (hfound ▸ mem_map_of_mem h)
    rcases append_eq_append_iff.mp htext with ⟨more, hinside, hback⟩ | ⟨more, rfl, rfl⟩
    · rcases more with - | ⟨c, more⟩
      · rw [append_nil] at hinside
        exact Or.inl ⟨before, found, [], by simpa using hinside.symm, hfound, hbefore, hright⟩
      · obtain ⟨rfl, rfl⟩ : d = c ∧ back = more ++ after := List.cons.inj hback
        rcases append_eq_append_iff.mp hinside with ⟨rest, -, rfl⟩ | ⟨rest, rfl, hrest⟩
        · simp at hmem
        · rcases rest with - | ⟨c, rest⟩
          · rw [nil_append] at hrest
            exact absurd (hrest ▸ mem_cons_self) hmem
          · obtain ⟨rfl, rfl⟩ : d = c ∧ more = rest ++ found := List.cons.inj hrest
            refine Or.inr ⟨rest, found, after, rfl, hfound, ?_, hafter⟩
            rcases eq_nil_or_concat rest with rfl | ⟨rest, c, rfl⟩
            · exact hleft
            · simpa only [getLast?_behind, concat_eq_append, getLast?_concat] using hbefore
    · refine Or.inl ⟨before, found, more, rfl, hfound, hbefore, ?_⟩
      cases more with
      | nil => exact hright
      | cons c more => simpa using hafter
  · rintro (⟨before, found, after, rfl, hfound, hbefore, hafter⟩ |
      ⟨before, found, after, rfl, hfound, hbefore, hafter⟩)
    · refine ⟨before, found, after ++ d :: back, by simp, hfound, hbefore, ?_⟩
      cases after with
      | nil => exact hd.right
      | cons c after => simpa using hafter
    · refine ⟨front ++ d :: before, found, after, by simp, hfound, ?_, hafter⟩
      rcases eq_nil_or_concat before with rfl | ⟨before, c, rfl⟩
      · simpa using hd.left
      · simpa only [getLast?_behind, concat_eq_append, getLast?_concat] using hbefore

variable (hword : word ≠ [])

include hleft hright hword in
theorem stands_append_iff {front text : List α}
    (hfront : ∀ d ∈ front, Separates fold left right word d) :
    Stands fold left right word (front ++ text) ↔ Stands fold left right word text := by
  induction front with
  | nil => rfl
  | cons d front ih =>
    have hd := hfront d mem_cons_self
    rw [cons_append, ← nil_append (d :: _),
      stands_append_cons_iff hleft hright hd, ih fun c hc => hfront c (by simp [hc])]
    exact or_iff_right (not_stands_nil hword)

include hleft hright hword in
theorem stands_append_right_iff {text back : List α}
    (hback : ∀ d ∈ back, Separates fold left right word d) :
    Stands fold left right word (text ++ back) ↔ Stands fold left right word text := by
  cases back with
  | nil => rw [append_nil]
  | cons d back =>
    have hrest : Stands fold left right word back ↔ Stands fold left right word [] := by
      have h : Stands fold left right word (back ++ []) ↔ Stands fold left right word [] :=
        stands_append_iff hleft hright hword fun c hc => hback c (mem_cons_of_mem d hc)
      rwa [append_nil] at h
    rw [stands_append_cons_iff hleft hright (hback d mem_cons_self), hrest]
    exact or_iff_left (not_stands_nil hword)

include hleft hright hword in
theorem stands_intercalate_iff {d : α} (hd : Separates fold left right word d)
    (pieces : List (List α)) :
    Stands fold left right word ([d].intercalate pieces) ↔
      ∃ piece ∈ pieces, Stands fold left right word piece := by
  induction pieces with
  | nil => simpa using not_stands_nil hword
  | cons piece pieces ih =>
    cases pieces with
    | nil => simp
    | cons next pieces =>
      rw [intercalate_cons_cons, append_assoc, singleton_append,
        stands_append_cons_iff hleft hright hd, ih]
      simp

include hleft hright hword in
theorem stands_splitOn_iff [DecidableEq α] {d : α} (hd : Separates fold left right word d)
    (text : List α) :
    Stands fold left right word text ↔
      ∃ piece ∈ text.splitOn d, Stands fold left right word piece := by
  rw [← stands_intercalate_iff hleft hright hword hd, intercalate_splitOn]

end Separators

/-! ## Splitting -/

theorem of_mem_splitOn [DecidableEq α] {sep : α} {list piece : List α}
    (h : piece ∈ list.splitOn sep) : sep ∉ piece ∧ ∀ b ∈ piece, b ∈ list := by
  induction list generalizing piece with
  | nil =>
    rw [splitOn_nil, mem_singleton] at h
    rw [h]
    exact ⟨not_mem_nil, forall_mem_nil _⟩
  | cons b list ih =>
    have hmore {piece : List α} (h : piece ∈ list.splitOn _) :
        sep ∉ piece ∧ ∀ d ∈ piece, d ∈ b :: list :=
      ⟨(ih h).1, fun d hd => mem_cons_of_mem b ((ih h).2 d hd)⟩
    rw [splitOn_cons_eq_if_modifyHead] at h
    split at h
    · rcases mem_cons.mp h with rfl | h
      · exact ⟨not_mem_nil, forall_mem_nil _⟩
      · exact hmore h
    · next hb =>
      obtain ⟨first, rest, heq⟩ := exists_cons_of_ne_nil (splitOn_ne_nil _ list)
      rw [heq, modifyHead_cons] at h
      rcases mem_cons.mp h with rfl | h
      · obtain ⟨hfirst, hmem⟩ := @hmore first (by rw [heq]; exact mem_cons_self)
        refine ⟨fun hsep => ?_, forall_mem_cons.mpr ⟨mem_cons_self, hmem⟩⟩
        rcases mem_cons.mp hsep with rfl | hsep
        · exact hb (beq_self_eq_true _)
        · exact hfirst hsep
      · exact hmore (by rw [heq]; exact mem_cons_of_mem _ h)

end AstraApi.Words
