import AstraApi.Multipart.Disposition

/-!
# The boundary parameter

A form request is parsed with the boundary that stands in its content type.  The scan
takes everything behind the first `boundary=`, and one byte less at either end when the
first byte is a quotation mark.
-/

namespace AstraApi.Multipart

open List
open Bytes Occurrence

/-- Subtraction of two `size_t`. -/
def sizeSub (a b : ℕ) : ℕ := if b ≤ a then a - b else a + 2 ^ 64 - b

def ciContains (text needle : Bytes) : Bool := (firstOccurrence needle (text.map lower)).isSome

inductive FormKind
  | urlencoded
  | multipart
  | other
  deriving DecidableEq

def formKind (contentType : Bytes) : FormKind :=
  if ciContains contentType (ascii "application/x-www-form-urlencoded") then .urlencoded
  else if ciContains contentType (ascii "multipart/form-data") then .multipart
  else .other

/-- `bnd_start` as a position in the content type, and `bnd_len`. -/
structure BoundaryExtent where
  start : ℕ
  len : ℕ
  deriving DecidableEq

/-- The loop with `strncasecmp`. -/
def boundaryExtent (contentType : Bytes) : Option BoundaryExtent :=
  (firstOccurrence (ascii "boundary=") (contentType.map lower)).map fun ci =>
    let start := ci + 9
    let len := sizeSub (sizeSub contentType.length ci) 9
    if 0 < len ∧ contentType[start]? = some quotationMark then
      { start := start + 1, len := sizeSub len 2 }
    else { start := start, len := len }

/-- The boundary that the streaming parser is created with.  A length beyond the content type
makes `std::string` throw. -/
def handedBoundary (contentType : Bytes) : Option Bytes :=
  match formKind contentType with
  | .multipart =>
    match boundaryExtent contentType with
    | none => none
    | some extent =>
      if 0 < extent.len ∧ extent.start + extent.len ≤ contentType.length then
        some ((contentType.drop extent.start).take extent.len)
      else none
  | _ => none

/-! ## Spellings of a boundary -/

def separators : Bytes := ascii "()<>@,;:\\\"/[]?=\x7b\x7d"

/-- A token as header values have them. -/
def IsToken (text : Bytes) : Prop :=
  text ≠ [] ∧ ∀ b ∈ text, 0x20 < b ∧ b < 0x7F ∧ b ∉ separators

/-- What may follow a parameter: spaces, and a semicolon with further parameters. -/
def IsTail (tail : Bytes) : Prop :=
  ∃ spaces rest, tail = spaces ++ rest ∧ (∀ b ∈ spaces, b = 0x20) ∧
    (rest = [] ∨ ∃ params, rest = semicolon :: params)

structure Spelled (contentType front boundary tail : Bytes) : Prop where
  token : IsToken boundary
  isTail : IsTail tail
  spelled : contentType = front ++ (ascii "boundary=" ++ (boundary ++ tail)) ∨
    contentType = front ++ (ascii "boundary=" ++ (quoted boundary ++ tail))

structure ExtractsBoundary (contentType : Bytes) : Prop where
  within : formKind contentType = .multipart → ∀ extent ∈ boundaryExtent contentType,
    extent.start + extent.len ≤ contentType.length
  exact_of_spelled : ∀ front boundary tail, Spelled contentType front boundary tail →
    handedBoundary contentType = some boundary

def FirstKey (contentType : Bytes) (i : ℕ) : Prop :=
  OccursAt (ascii "boundary=") i (contentType.map lower) ∧
    ∀ j < i, ¬ OccursAt (ascii "boundary=") j (contentType.map lower)

/-! ## What is extracted -/

section Extraction

variable {contentType : Bytes} {i : ℕ}

theorem firstKey_iff :
    firstOccurrence (ascii "boundary=") (contentType.map lower) = some i ↔ FirstKey contentType i :=
  firstOccurrence_eq_some_iff (by decide)

theorem FirstKey.le_length (h : FirstKey contentType i) : i + 9 ≤ contentType.length := by
  have hfits := h.1.add_length_le (by decide)
  rw [length_map] at hfits
  exact hfits

theorem sizeSub_of_le {a b : ℕ} (h : b ≤ a) : sizeSub a b = a - b := if_pos h

/-- The text between the ends that the code assumes. -/
def handedText (rest : Bytes) : Bytes :=
  if rest.head? = some quotationMark then rest.tail.dropLast else rest

/-- The extent in terms of what stands behind the key.  Behind a lone quotation mark, one less
two wraps around. -/
theorem FirstKey.boundaryExtent_cases (h : FirstKey contentType i) {rest : Bytes}
    (hrest : contentType.drop (i + 9) = rest) :
    rest = [quotationMark] ∧ boundaryExtent contentType = some ⟨i + 9 + 1, 2 ^ 64 - 1⟩ ∨
    rest ≠ [quotationMark] ∧ ∃ start, boundaryExtent contentType =
      some ⟨start, (handedText rest).length⟩ ∧
        (contentType.drop start).take (handedText rest).length = handedText rest ∧
        start + (handedText rest).length ≤ contentType.length := by
  have hlength := h.le_length
  have hrestLength : rest.length = contentType.length - (i + 9) := by
    rw [← hrest, length_drop]
  have hlen : sizeSub (sizeSub contentType.length i) 9 = rest.length := by
    have hkey : 9 ≤ contentType.length - i := by omega
    rw [sizeSub_of_le (Nat.le_of_add_right_le hlength), sizeSub_of_le hkey, hrestLength]
    omega
  have hhead : contentType[i + 9]? = rest.head? := by
    rw [← hrest, head?_drop]
  rw [boundaryExtent, firstKey_iff.mpr h, Option.map_some]
  simp only [hlen, hhead]
  by_cases hquote : rest.head? = some quotationMark
  · obtain ⟨more, rfl⟩ := head?_eq_some_iff.mp hquote
    rw [if_pos ⟨Nat.succ_pos _, hquote⟩]
    cases more with
    | nil => exact Or.inl ⟨rfl, rfl⟩
    | cons c more =>
      have hsub : sizeSub (quotationMark :: c :: more).length 2 = more.length :=
        sizeSub_of_le (Nat.le_add_left 2 _)
      have htext : handedText (quotationMark :: c :: more) = (c :: more).take more.length := by
        rw [handedText, if_pos hquote, tail_cons, dropLast_eq_take]
        rfl
      have htextLength : (handedText (quotationMark :: c :: more)).length = more.length := by
        rw [htext, length_take]
        exact min_eq_left (Nat.le_succ _)
      have hdrop : contentType.drop (i + 9 + 1) = c :: more := by
        rw [← drop_drop, hrest]
        rfl
      refine Or.inr ⟨fun heq => cons_ne_nil _ _ (List.cons.inj heq).2, i + 9 + 1, ?_, ?_, ?_⟩
      · rw [hsub, htextLength]
      · rw [htextLength, hdrop, htext]
      · simp only [length_cons] at hrestLength
        omega
  · have htext : handedText rest = rest := if_neg hquote
    rw [if_neg fun hboth => hquote hboth.2, htext]
    refine Or.inr ⟨?_, i + 9, rfl, ?_, ?_⟩
    · intro heq
      rw [heq] at hquote
      exact hquote rfl
    · rw [hrest, take_length]
    · omega

/-- The length is right unless a quotation mark is the last byte. -/
theorem FirstKey.within_iff (h : FirstKey contentType i) {rest : Bytes}
    (hrest : contentType.drop (i + 9) = rest) :
    (∀ extent ∈ boundaryExtent contentType, extent.start + extent.len ≤ contentType.length) ↔
      rest ≠ [quotationMark] := by
  rcases h.boundaryExtent_cases hrest with ⟨hlone, hextent⟩ | ⟨hne, start, hextent, -, hwithin⟩
  · have hrestLength := congrArg List.length hrest
    rw [hlone, length_drop, length_singleton] at hrestLength
    have hbeyond : ¬ i + 9 + 1 + (2 ^ 64 - 1) ≤ contentType.length := by omega
    constructor
    · exact fun hwithin => absurd (hwithin _ hextent) hbeyond
    · exact fun hne => absurd hlone hne
  · constructor
    · exact fun _ => hne
    · intro _ extent hmem
      rw [hextent] at hmem
      rw [← Option.some.inj hmem]
      exact hwithin

theorem FirstKey.handedBoundary_eq (h : FirstKey contentType i)
    (hkind : formKind contentType = .multipart) {rest : Bytes}
    (hrest : contentType.drop (i + 9) = rest) :
    handedBoundary contentType = if handedText rest = [] then none else some (handedText rest) := by
  rw [handedBoundary, hkind]
  rcases h.boundaryExtent_cases hrest with ⟨hlone, hextent⟩ | ⟨hne, start, hextent, htake, hwithin⟩
  · have hrestLength := congrArg List.length hrest
    rw [hlone, length_drop, length_singleton] at hrestLength
    have hempty : handedText rest = [] := by rw [hlone]; rfl
    rw [if_pos hempty, hextent]
    exact if_neg fun hboth => absurd hboth.2 (by dsimp only; omega)
  · simp only [hextent]
    rw [htake]
    by_cases hempty : handedText rest = []
    · rw [if_pos hempty, hempty]
      exact if_neg fun hboth => Nat.lt_irrefl 0 hboth.1
    · rw [if_neg hempty, if_pos ⟨length_pos_of_ne_nil hempty, hwithin⟩]

theorem handedBoundary_eq_some {boundary : Bytes} (h : handedBoundary contentType = some boundary) :
    formKind contentType = .multipart ∧ ∃ i, FirstKey contentType i ∧
      handedText (contentType.drop (i + 9)) = boundary := by
  have hkind : formKind contentType = .multipart := by
    rw [handedBoundary] at h
    split at h
    · assumption
    · cases h
  have hfirst : ∃ i, firstOccurrence (ascii "boundary=") (contentType.map lower) = some i := by
    rw [← Option.ne_none_iff_exists']
    intro hnone
    rw [handedBoundary, hkind, boundaryExtent, hnone] at h
    cases h
  have ⟨i, hi⟩ := hfirst
  have hkey := firstKey_iff.mp hi
  rw [hkey.handedBoundary_eq hkind rfl] at h
  split at h
  · cases h
  · exact ⟨hkind, i, hkey, Option.some.inj h⟩

end Extraction

/-! ## Spelled boundaries -/

section Spelled

variable {contentType front boundary tail : Bytes}

theorem IsToken.notMem (h : IsToken boundary) : quotationMark ∉ boundary :=
  fun hmem => (h.2 quotationMark hmem).2.2 (by decide)

theorem Spelled.rest (h : Spelled contentType front boundary tail) :
    contentType.drop (front.length + 9) = boundary ++ tail ∨
      contentType.drop (front.length + 9) = quoted boundary ++ tail := by
  have hdrop : ∀ rest, (front ++ (ascii "boundary=" ++ rest)).drop (front.length + 9) = rest := by
    intro rest
    rw [← append_assoc]
    exact drop_left' (by rw [length_append]; rfl)
  rcases h.spelled with heq | heq
  · exact Or.inl (by rw [heq, hdrop])
  · exact Or.inr (by rw [heq, hdrop])

theorem Spelled.occursAt (h : Spelled contentType front boundary tail) :
    OccursAt (ascii "boundary=") front.length (contentType.map lower) := by
  have hoccurs : ∀ rest, OccursAt (ascii "boundary=") front.length
      ((front ++ (ascii "boundary=" ++ rest)).map lower) := by
    intro rest
    have hkey : (ascii "boundary=").map lower = ascii "boundary=" := by decide
    rw [OccursAt, map_append, map_append, hkey, drop_left' (length_map _)]
    exact prefix_append _ _
  rcases h.spelled with heq | heq
  · exact heq ▸ hoccurs _
  · exact heq ▸ hoccurs _

theorem handedText_spelled (htoken : IsToken boundary) {rest : Bytes}
    (hrest : rest = boundary ++ tail ∨ rest = quoted boundary ++ tail) :
    handedText rest = boundary ↔ tail = [] := by
  rcases hrest with heq | heq
  · have hhead : rest.head? ≠ some quotationMark := by
      obtain ⟨b, bytes, hcons⟩ := exists_cons_of_ne_nil htoken.1
      rw [heq, hcons, cons_append, head?_cons]
      intro hquote
      apply htoken.notMem
      rw [hcons, Option.some.inj hquote]
      exact mem_cons_self
    rw [handedText, if_neg hhead, heq, append_right_eq_self]
  · have hsplit : rest = quotationMark :: (boundary ++ quotationMark :: tail) := by
      rw [heq, quoted, cons_append, append_assoc]
      rfl
    rw [handedText, hsplit, head?_cons, if_pos rfl, tail_cons]
    constructor
    · intro hsame
      have hlength := congrArg List.length hsame
      rw [length_dropLast, length_append, length_cons] at hlength
      exact length_eq_zero_iff.mp (by omega)
    · intro hnil
      rw [hnil, dropLast_concat]

theorem Spelled.handedText_ne (h : Spelled contentType front boundary tail) {i : ℕ}
    (hfirst : FirstKey contentType i) (hi : i < front.length) :
    handedText (contentType.drop (i + 9)) ≠ boundary := by
  intro hsame
  have hrestLength : (contentType.drop (front.length + 9)).length =
      contentType.length - (front.length + 9) := length_drop
  have hlong : boundary.length ≤ contentType.length - (front.length + 9) := by
    rw [← hrestLength]
    rcases h.rest with heq | heq
    · rw [heq, length_append]
      exact Nat.le_add_right _ _
    · rw [heq, quoted, cons_append, length_cons, append_assoc, length_append]
      omega
  have hfits : front.length + 9 ≤ contentType.length := by
    have hle := h.occursAt.add_length_le (by decide)
    rw [length_map] at hle
    exact hle
  have hlength := congrArg List.length hsame
  rw [handedText] at hlength
  split at hlength
  · rw [length_dropLast, length_tail, length_drop] at hlength
    -- Two keys would have to overlap.
    have hnear : front.length = i + 1 ∨ front.length = i + 2 := by omega
    rcases hnear with hnear | hnear
    · have hhere := h.occursAt.getElem? (j := 0) (by decide)
      rw [hnear, Nat.add_zero, hfirst.1.getElem? (j := 1) (by decide)] at hhere
      exact absurd hhere (by decide)
    · have hhere := h.occursAt.getElem? (j := 0) (by decide)
      rw [hnear, Nat.add_zero, hfirst.1.getElem? (j := 2) (by decide)] at hhere
      exact absurd hhere (by decide)
  · rw [length_drop] at hlength
    omega

theorem Spelled.handedBoundary_iff (h : Spelled contentType front boundary tail) :
    handedBoundary contentType = some boundary ↔
      formKind contentType = .multipart ∧ FirstKey contentType front.length ∧ tail = [] := by
  constructor
  · intro hhanded
    have ⟨hkind, i, hfirst, htext⟩ := handedBoundary_eq_some hhanded
    have hi : i = front.length := by
      rcases Nat.lt_trichotomy i front.length with hlt | heq | hgt
      · exact absurd htext (h.handedText_ne hfirst hlt)
      · exact heq
      · exact absurd h.occursAt (hfirst.2 _ hgt)
    rw [hi] at hfirst htext
    exact ⟨hkind, hfirst, (handedText_spelled h.token h.rest).mp htext⟩
  · rintro ⟨hkind, hfirst, htail⟩
    have htext := (handedText_spelled h.token h.rest).mpr htail
    rw [hfirst.handedBoundary_eq hkind rfl, htext, if_neg h.token.1]

end Spelled

/-- The extraction is right if and only if the first key is not followed by a lone quotation mark,
and every boundary that is spelled stands in a form without URL encoding, behind the first key and
at the end. -/
theorem extractsBoundary_iff (contentType : Bytes) :
    ExtractsBoundary contentType ↔
      (formKind contentType = .multipart → ∀ i, FirstKey contentType i →
        contentType.drop (i + 9) ≠ [quotationMark]) ∧
      ∀ front boundary tail, Spelled contentType front boundary tail →
        formKind contentType = .multipart ∧ FirstKey contentType front.length ∧ tail = [] := by
  constructor
  · intro h
    constructor
    · exact fun hkind i hfirst => (hfirst.within_iff rfl).mp (h.within hkind)
    · exact fun front boundary tail hspelled =>
        hspelled.handedBoundary_iff.mp (h.exact_of_spelled _ _ _ hspelled)
  · rintro ⟨hlone, hspelled⟩
    constructor
    · intro hkind extent hextent
      have hsome : ∃ i, firstOccurrence (ascii "boundary=") (contentType.map lower) = some i := by
        rw [← Option.ne_none_iff_exists']
        intro hnone
        rw [boundaryExtent, hnone] at hextent
        cases hextent
      have ⟨i, hi⟩ := hsome
      have hfirst := firstKey_iff.mp hi
      exact (hfirst.within_iff rfl).mpr (hlone hkind i hfirst) extent hextent
    · exact fun front boundary tail hmem =>
        hmem.handedBoundary_iff.mpr (hspelled _ _ _ hmem)

/-- A lone quotation mark gives a length of `2 ^ 64 - 1`. -/
theorem extractsBoundary_quotationMark :
    ¬ ∀ contentType : Bytes, ascii "multipart/form-data" <:+: contentType →
      ascii "boundary=" <:+: contentType → ExtractsBoundary contentType := by
  intro hall
  have hkind : formKind (ascii "multipart/form-data; boundary=\"") = .multipart := by decide
  have hextent : boundaryExtent (ascii "multipart/form-data; boundary=\"") =
      some ⟨31, 2 ^ 64 - 1⟩ := by decide
  have hwithin := (hall _ (by decide) (by decide)).within hkind _ hextent
  exact absurd hwithin (by decide)

end AstraApi.Multipart
