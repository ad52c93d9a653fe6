import AstraApi.Lib.JsonText

/-!
# JSON texts with their numbers as they are written

Readers of JSON differ in what they make of a number.  A document keeps the bytes of
every number, and is read from a text in the way a value is.
-/

namespace AstraApi.Json

open List Option
open Message (isDigit digitsValue)

inductive Document where
  | null
  | bool (value : Bool)
  | number (literal : Bytes)
  | string (text : Text)
  | array (items : List Document)
  | object (members : List (Text × Document))

/-! ## Numbers -/

def readNumberText (text : Bytes) : Option (Bytes × Bytes) :=
  (readNumber text).map fun (_, rest) => (text.take (text.length - rest.length), rest)

/-- A number without a fraction and without an exponent. -/
def isIntegerLiteral (literal : Bytes) : Bool :=
  literal.all fun b => b ≠ 0x2e ∧ b ≠ 0x65 ∧ b ≠ 0x45

/-- The integer that a number without fraction and exponent stands for. -/
def integerOf (literal : Bytes) : ℤ :=
  if literal.head? = some 0x2d then -(digitsValue literal.tail : ℤ) else digitsValue literal

/-! ## Reading -/

def readDocument : ℕ → Bytes → Option (Document × Bytes)
  | 0, _ => none
  | _ + 1, [] => none
  | fuel + 1, b :: rest =>
    if b = 0x6e then
      (readLiteral (ascii "ull") .null rest).map fun (_, rest) => (.null, rest)
    else if b = 0x74 then
      (readLiteral (ascii "rue") (.bool true) rest).map fun (_, rest) => (.bool true, rest)
    else if b = 0x66 then
      (readLiteral (ascii "alse") (.bool false) rest).map fun (_, rest) => (.bool false, rest)
    else if b = 0x22 then
      (readChars fuel rest).map fun (text, rest) => (.string text, rest)
    else if b = 0x5b then
      (readItems (readDocument fuel) 0x5d fuel rest).map fun (items, rest) => (.array items, rest)
    else if b = 0x7b then
      (readItems (readMember (readDocument fuel) fuel) 0x7d fuel rest).map
        fun (members, rest) => (.object members, rest)
    else (readNumberText (b :: rest)).map fun (literal, rest) => (.number literal, rest)

def parseDocument (text : Bytes) : Option Document :=
  match readDocument text.length (skipSpace text) with
  | some (document, rest) => if skipSpace rest = [] then some document else none
  | none => none

/-! ## Fuel -/

theorem takes_readNumberText {text literal rest : Bytes}
    (h : readNumberText text = some (literal, rest)) : Takes text rest := by
  obtain ⟨⟨value, after⟩, hread, heq⟩ := map_eq_some_iff.mp h
  cases heq
  exact takes_readNumber hread

theorem takes_literal {b : Byte} {literal text rest : Bytes} {value : Json}
    {document found : Document} (hb : b.toNat < 128) (hascii : ∀ c ∈ literal, c.toNat < 128)
    (h : (readLiteral literal value text).map (fun (_, rest) => (document, rest)) =
      some (found, rest)) : Takes (b :: text) rest := by
  obtain ⟨⟨_, after⟩, hread, heq⟩ := map_eq_some_iff.mp h
  cases heq
  exact (takes_ascii hb _).trans_skips (skips_readLiteral hascii hread)

theorem exact_readDocument_fuel (fuel : ℕ) :
    Exact (fun text document rest => readDocument fuel text = some (document, rest))
      readDocument := by
  induction fuel with
  | zero => exact fun h => nomatch h
  | succ fuel ih =>
    intro text document rest h
    cases text with
    | nil => cases h
    | cons b text =>
      suffices Takes (b :: text) rest ∧ ∀ n, text.length ≤ n + rest.length →
          readDocument (n + 1) (b :: text) = some (document, rest) by
        refine ⟨this.1, fun enough henough => ?_⟩
        have hshort := this.1.2
        rw [length_cons] at henough hshort
        cases enough with
        | zero => omega
        | succ enough => exact this.2 enough (by omega)
      simp only [readDocument] at h ⊢
      split_ifs at h ⊢ with hn ht hf hquote harray hobject
      · exact ⟨takes_literal (by rw [hn]; decide) (by decide) h, fun _ _ => h⟩
      · exact ⟨takes_literal (by rw [ht]; decide) (by decide) h, fun _ _ => h⟩
      · exact ⟨takes_literal (by rw [hf]; decide) (by decide) h, fun _ _ => h⟩
      · obtain ⟨⟨chars, after⟩, hchars, heq⟩ := map_eq_some_iff.mp h
        cases heq
        obtain ⟨htakes, hread⟩ := exact_readChars ⟨fuel, hchars⟩
        refine ⟨(takes_ascii (by rw [hquote]; decide) _).trans_skips htakes.1, fun n hn => ?_⟩
        rw [hread n hn, map_some]
      · obtain ⟨⟨items, after⟩, hitems, heq⟩ := map_eq_some_iff.mp h
        cases heq
        obtain ⟨htakes, hread⟩ := (items_of_readItems hitems).exact ih (by decide) (by decide)
        refine ⟨(takes_ascii (by rw [harray]; decide) _).trans_skips htakes.1, fun n hn => ?_⟩
        rw [hread n n hn hn, map_some]
      · obtain ⟨⟨members, after⟩, hmembers, heq⟩ := map_eq_some_iff.mp h
        cases heq
        have hitems := (items_of_readItems hmembers).imp member_of_readMember
        obtain ⟨htakes, hread⟩ := hitems.exact (Member.exact ih) (by decide) (by decide)
        refine ⟨(takes_ascii (by rw [hobject]; decide) _).trans_skips htakes.1, fun n hn => ?_⟩
        rw [hread n n hn hn, map_some]
      · obtain ⟨⟨literal, after⟩, hliteral, heq⟩ := map_eq_some_iff.mp h
        cases heq
        exact ⟨takes_readNumberText hliteral, fun _ _ => h⟩

def ReadsDocument (text : Bytes) (document : Document) (rest : Bytes) : Prop :=
  ∃ fuel, readDocument fuel text = some (document, rest)

theorem exact_readDocument : Exact ReadsDocument readDocument := by
  rintro text document rest ⟨fuel, h⟩
  exact exact_readDocument_fuel _ h

theorem parseDocument_eq_some_iff {text : Bytes} {document : Document} :
    parseDocument text = some document ↔
      ∃ rest, ReadsDocument (skipSpace text) document rest ∧ skipSpace rest = [] := by
  rw [parseDocument]
  constructor
  · intro h
    split at h
    · next found rest hread =>
      split at h
      · next hrest =>
        cases h
        exact ⟨rest, ⟨_, hread⟩, hrest⟩
      · cases h
    · cases h
  · rintro ⟨rest, hreads, hrest⟩
    have hlength := length_skipSpace_le text
    rw [(exact_readDocument hreads).2 text.length (by omega)]
    exact if_pos hrest

/-! ## Texts that spell a document -/

theorem Spells.parseDocument {text : Bytes} {document : Document}
    (h : Spells ReadsDocument text document) : parseDocument text = some document := by
  have hreads := h.reads [] stops_nil
  rw [append_nil] at hreads
  rw [parseDocument_eq_some_iff, h.shown.skipSpace]
  exact ⟨[], hreads, rfl⟩

theorem spellsDocument_null : Spells ReadsDocument (ascii "null") .null :=
  ⟨shown_cons (by decide) _, fun _ _ => ⟨1, rfl⟩⟩

theorem spellsDocument_bool (value : Bool) :
    Spells ReadsDocument (if value then ascii "true" else ascii "false") (.bool value) := by
  cases value with
  | true | false => exact ⟨shown_cons (by decide) _, fun _ _ => ⟨1, rfl⟩⟩

theorem readNumberText_text (numeral : Numeral) {rest : Bytes} (hrest : Stops rest) :
    readNumberText (numeral.text ++ rest) = some (numeral.text, rest) := by
  rw [readNumberText, readNumber_text _ hrest]
  show some ((numeral.text ++ rest).take ((numeral.text ++ rest).length - rest.length), rest) = _
  rw [length_append, Nat.add_sub_cancel, take_left]

theorem spellsDocument_numeral (numeral : Numeral) :
    Spells ReadsDocument numeral.text (.number numeral.text) := by
  refine ⟨shown_numeral _, fun rest hrest => ⟨1, ?_⟩⟩
  obtain ⟨b, tail, heq, hb⟩ := numeral.exists_head
  have hread := readNumberText_text numeral hrest
  have hother := not_mem_of_numeral hb
  simp only [mem_cons, not_mem_nil, or_false, not_or] at hother
  rw [heq, cons_append] at hread ⊢
  rw [readDocument, if_neg hother.1, if_neg hother.2.1, if_neg hother.2.2.1, if_neg hother.2.2.2.1,
    if_neg hother.2.2.2.2.1, if_neg hother.2.2.2.2.2, hread, map_some]

theorem spellsDocument_string {escaped : Bytes} {text : Text} (h : SpellsChars escaped text) :
    Spells ReadsDocument (quoted escaped) (.string text) := by
  refine ⟨shown_quoted _, fun rest _ => ?_⟩
  rw [quoted_append]
  obtain ⟨fuel, hread⟩ := h _
  refine ⟨fuel + 1, ?_⟩
  show (readChars _ _).map _ = _
  rw [hread, map_some]

theorem readsDocument_array {text rest : Bytes} {items : List Document}
    (h : Items ReadsDocument 0x5d text items rest) :
    ReadsDocument (0x5b :: text) (.array items) rest := by
  obtain ⟨-, hread⟩ := h.exact exact_readDocument (by decide) (by decide)
  refine ⟨text.length + 1, ?_⟩
  show (readItems _ 0x5d _ _).map _ = _
  rw [hread _ _ (by omega) (by omega), map_some]

theorem readsDocument_object {text rest : Bytes} {members : List (Text × Document)}
    (h : Items (Member ReadsDocument) 0x7d text members rest) :
    ReadsDocument (0x7b :: text) (.object members) rest := by
  obtain ⟨-, hread⟩ := h.exact (Member.exact exact_readDocument) (by decide) (by decide)
  refine ⟨text.length + 1, ?_⟩
  show (readItems _ 0x7d _ _).map _ = _
  rw [hread _ _ (by omega) (by omega), map_some]

theorem spellsDocument_array {texts : List Bytes} {items : List Document}
    (h : List.Forall₂ (Spells ReadsDocument) texts items) :
    Spells ReadsDocument (bracketed 0x5b 0x5d texts) (.array items) := by
  refine ⟨shown_bracketed (by decide) _ _, fun rest _ => ?_⟩
  rw [bracketed_append]
  exact readsDocument_array (spells_items (by decide) (by decide) h _)

theorem spellsDocument_object {texts : List Bytes} {members : List (Text × Document)}
    (h : List.Forall₂ (Spells (Member ReadsDocument)) texts members) :
    Spells ReadsDocument (bracketed 0x7b 0x7d texts) (.object members) := by
  refine ⟨shown_bracketed (by decide) _ _, fun rest _ => ?_⟩
  rw [bracketed_append]
  exact readsDocument_object (spells_items (by decide) (by decide) h _)

end AstraApi.Json
