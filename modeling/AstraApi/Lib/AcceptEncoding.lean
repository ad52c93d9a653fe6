import AstraApi.Lib.Chunked
import AstraApi.Lib.Words

/-!
# Accept-Encoding

A list of codings, each with an optional weight.  The weights are numbers of thousandths.
-/

namespace AstraApi.Message

open List
open Words

def comma : Byte := 44
def semicolon : Byte := 59

structure CodingElement where
  coding : Bytes
  weight : ℕ
  deriving DecidableEq

/-- A weight from 0 to 1 with at most three decimals. -/
def readQvalue : Bytes → Option ℕ
  | [48] => some 0
  | [49] => some 1000
  | 48 :: 46 :: digits =>
    if digits.length ≤ 3 ∧ digits.all isDigit then
      some (digitsValue digits * 10 ^ (3 - digits.length))
    else none
  | 49 :: 46 :: digits =>
    if digits.length ≤ 3 ∧ digits.all (· = 48) then some 1000 else none
  | _ => none

/-- What follows a coding: nothing, or `;q=` and a weight. -/
def readWeight (rest : Bytes) : Option ℕ :=
  match rest with
  | [] => some 1000
  | rest =>
    match rest.dropWhile isOws with
    | 59 :: parameter =>
      match parameter.dropWhile isOws with
      | q :: 61 :: value => if lowerCase q = 113 then readQvalue value else none
      | _ => none
    | _ => none

/-- The names of codings do not depend on case. -/
def readElement (piece : Bytes) : Option CodingElement :=
  match piece.takeWhile isTokenChar with
  | [] => none
  | token =>
    (readWeight (piece.dropWhile isTokenChar)).map fun weight =>
      { coding := token.map lowerCase, weight }

/-- Empty elements are ignored. -/
def readAcceptEncoding (value : Bytes) : Option (List CodingElement) :=
  (((value.splitOn comma).map trim).filter (· ≠ [])).mapM readElement

def Listed (coding : Bytes) (elements : List CodingElement) : Prop :=
  ∃ element ∈ elements, element.coding = coding

def Acceptable (coding : Bytes) (elements : List CodingElement) : Prop :=
  (∃ element ∈ elements, element.coding = coding ∧ element.weight ≠ 0) ∨
    ¬ Listed coding elements ∧ ∃ element ∈ elements, element.coding = ascii "*" ∧
      element.weight ≠ 0

instance (coding : Bytes) (elements : List CodingElement) : Decidable (Listed coding elements) :=
  inferInstanceAs (Decidable (∃ _ ∈ _, _))

instance (coding : Bytes) (elements : List CodingElement) :
    Decidable (Acceptable coding elements) :=
  inferInstanceAs (Decidable (_ ∨ _))

/-! ## The shape of an element -/

def isWeightByte (b : Byte) : Bool := lowerCase b = 113 || b = 61 || b = 46 || isDigit b

theorem readQvalue_bytes {value : Bytes} {weight : ℕ} (h : readQvalue value = some weight) :
    ∀ b ∈ value, isWeightByte b = true := by
  have hdigit : ∀ b, isDigit b = true → isWeightByte b = true := by
    intro b hb
    simp [isWeightByte, hb]
  have hpoint : isWeightByte 46 = true := by decide
  have hzero : isWeightByte 48 = true := by decide
  have hone : isWeightByte 49 = true := by decide
  unfold readQvalue at h
  split at h
  · simp [hzero]
  · simp [hone]
  · split at h
    · rename_i hdigits
      simp only [mem_cons, forall_eq_or_imp, hzero, hpoint, true_and]
      exact fun b hb => hdigit b (all_eq_true.mp hdigits.2 b hb)
    · cases h
  · split at h
    · rename_i hdigits
      simp only [mem_cons, forall_eq_or_imp, hone, hpoint, true_and]
      intro b hb
      have hb : b = 48 := by simpa using all_eq_true.mp hdigits.2 b hb
      rw [hb, hzero]
    · cases h
  · cases h

theorem readWeight_eq_some {rest : Bytes} {weight : ℕ} (h : readWeight rest = some weight) :
    rest = [] ∨ ∃ front back value, rest = front ++ semicolon :: (back ++ value) ∧
      (∀ b ∈ front, isOws b = true) ∧ (∀ b ∈ back, isOws b = true) ∧
        ∀ b ∈ value, isWeightByte b = true := by
  unfold readWeight at h
  split at h
  · exact Or.inl rfl
  · split at h
    · rename_i parameter hparameter
      split at h
      · rename_i q value hvalue
        split at h
        · rename_i hq
          have hrest := takeWhile_append_dropWhile (p := isOws) (l := rest)
          have hback := takeWhile_append_dropWhile (p := isOws) (l := parameter)
          rw [hparameter] at hrest
          rw [hvalue] at hback
          refine Or.inr ⟨rest.takeWhile _, parameter.takeWhile _, q :: 61 :: value, ?_,
            fun b hb => mem_takeWhile_imp hb, fun b hb => mem_takeWhile_imp hb, ?_⟩
          · rw [hback]
            exact hrest.symm
          · have hequals : isWeightByte 61 = true := by decide
            simp only [mem_cons, forall_eq_or_imp, hequals, true_and]
            exact ⟨by simp [isWeightByte, hq], readQvalue_bytes h⟩
        · cases h
      · cases h
    · cases h

theorem readElement_eq_some {piece : Bytes} {element : CodingElement}
    (h : readElement piece = some element) :
    ∃ token rest, piece = token ++ rest ∧ IsToken token ∧
      element.coding = token.map lowerCase ∧ readWeight rest = some element.weight := by
  unfold readElement at h
  split at h
  · cases h
  · rename_i hne
    obtain ⟨weight, hweight, rfl⟩ := Option.map_eq_some_iff.mp h
    exact ⟨_, _, (takeWhile_append_dropWhile).symm,
      ⟨fun hempty => hne hempty, fun b hb => mem_takeWhile_imp hb⟩, rfl, hweight⟩

/-! ## Words in a header -/

section Words

variable {left right : Option Byte → Prop} {word : Bytes}

/-- The separators of the list stand beside the word, and it has a letter that no weight has. -/
structure Delimited (left right : Option Byte → Prop) (word : Bytes) : Prop where
  edgeLeft : left none
  edgeRight : right none
  separates : ∀ b, isOws b = true ∨ b = comma ∨ b = semicolon →
    Separates lowerCase left right word b
  letter : ∃ b ∈ word, ∀ c, lowerCase c = b → isWeightByte c = false

theorem Delimited.word_ne_nil (h : Delimited left right word) : word ≠ [] := by
  obtain ⟨b, hb, -⟩ := h.letter
  exact ne_nil_of_mem hb

variable (h : Delimited left right word)

include h in
theorem Delimited.not_stands_weight {value : Bytes} (hvalue : ∀ b ∈ value, isWeightByte b = true) :
    ¬ Stands lowerCase left right word value := by
  rintro ⟨before, found, after, rfl, hfound, -, -⟩
  obtain ⟨b, hb, hletter⟩ := h.letter
  rw [← hfound] at hb
  obtain ⟨c, hc, rfl⟩ := mem_map.mp hb
  have hbyte := hvalue c (by simp [hc])
  rw [hletter c rfl] at hbyte
  cases hbyte

include h in
theorem Delimited.stands_ows_iff {front text : Bytes} (hfront : ∀ b ∈ front, isOws b = true) :
    Stands lowerCase left right word (front ++ text) ↔ Stands lowerCase left right word text :=
  stands_append_iff h.edgeLeft h.edgeRight h.word_ne_nil fun b hb =>
    h.separates b (Or.inl (hfront b hb))

include h in
theorem Delimited.stands_trim_iff (piece : Bytes) :
    Stands lowerCase left right word (trim piece) ↔ Stands lowerCase left right word piece := by
  have hback : trim piece ++ (piece.dropWhile isOws).rtakeWhile isOws = piece.dropWhile isOws :=
    rdropWhile_append_rtakeWhile
  rw [← takeWhile_append_dropWhile (p := isOws) (l := piece),
    h.stands_ows_iff fun b hb => mem_takeWhile_imp hb,
    takeWhile_append_dropWhile, ← hback, stands_append_right_iff h.edgeLeft h.edgeRight
      h.word_ne_nil fun b hb => h.separates b (Or.inl (mem_rtakeWhile_imp hb))]

include h in
theorem Delimited.stands_element_iff {piece : Bytes} {element : CodingElement}
    (hread : readElement piece = some element) {P : Bytes → Prop}
    (hP : ∀ token, IsToken token →
      (Stands lowerCase left right word token ↔ P (token.map lowerCase))) :
    Stands lowerCase left right word piece ↔ P element.coding := by
  obtain ⟨token, rest, rfl, htoken, hcoding, hweight⟩ := readElement_eq_some hread
  rw [hcoding, ← hP token htoken]
  rcases readWeight_eq_some hweight with rfl | ⟨front, back, value, rfl, hfront, hback, hvalue⟩
  · rw [append_nil]
  · have hsemicolon := h.separates semicolon (Or.inr (Or.inr rfl))
    rw [← append_assoc, stands_append_cons_iff h.edgeLeft h.edgeRight hsemicolon,
      stands_append_right_iff h.edgeLeft h.edgeRight h.word_ne_nil fun b hb =>
        h.separates b (Or.inl (hfront b hb)), h.stands_ows_iff hback]
    exact or_iff_left (h.not_stands_weight hvalue)

include h in
theorem Delimited.stands_elements_iff {P : Bytes → Prop}
    (hP : ∀ token, IsToken token →
      (Stands lowerCase left right word token ↔ P (token.map lowerCase)))
    {pieces : List Bytes} {elements : List CodingElement}
    (hread : pieces.mapM readElement = some elements) :
    (∃ piece ∈ pieces, Stands lowerCase left right word piece) ↔
      ∃ element ∈ elements, P element.coding := by
  induction pieces generalizing elements with
  | nil =>
    cases hread
    simp
  | cons piece pieces ih =>
    simp only [mapM_cons, Option.bind_eq_bind, Option.bind_eq_some_iff] at hread
    obtain ⟨element, helement, rest, hrest, heq⟩ := hread
    cases heq
    simp only [mem_cons, exists_eq_or_imp, h.stands_element_iff helement hP, ih hrest]

include h in
theorem Delimited.stands_acceptEncoding_iff {P : Bytes → Prop}
    (hP : ∀ token, IsToken token →
      (Stands lowerCase left right word token ↔ P (token.map lowerCase)))
    {value : Bytes} {elements : List CodingElement}
    (hread : readAcceptEncoding value = some elements) :
    Stands lowerCase left right word value ↔ ∃ element ∈ elements, P element.coding := by
  have hcomma := h.separates comma (Or.inr (Or.inl rfl))
  rw [← h.stands_elements_iff hP hread,
    stands_splitOn_iff h.edgeLeft h.edgeRight h.word_ne_nil hcomma]
  constructor
  · rintro ⟨piece, hmem, hstands⟩
    have htrim := (h.stands_trim_iff piece).mpr hstands
    refine ⟨trim piece, mem_filter.mpr ⟨mem_map_of_mem hmem, ?_⟩, htrim⟩
    apply decide_eq_true
    intro hempty
    rw [hempty] at htrim
    exact not_stands_nil h.word_ne_nil htrim
  · rintro ⟨trimmed, hmem, hstands⟩
    obtain ⟨piece, hpiece, rfl⟩ := mem_map.mp (mem_filter.mp hmem).1
    exact ⟨piece, hpiece, (h.stands_trim_iff piece).mp hstands⟩

end Words

end AstraApi.Message
