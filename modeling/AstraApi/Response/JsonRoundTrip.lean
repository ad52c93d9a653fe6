import AstraApi.Response.JsonWriter

/-!
# What `write_json` writes is JSON

A text that the writer returns spells a value, unless some leaf slips through: bytes
that are no UTF-8, a NaN with a sign or that signals, a member of an integer
enumeration beyond 64 bits.  One such leaf spoils the whole text.
-/

namespace AstraApi.Response.Writer

open Option hiding any_eq_false
open List
open Json (Spells Spoils Reads Member SpellsChars Numeral quoted memberText bracketed)
open Message (isDigit)

variable {F : Type*}

/-! ## The value of a text -/

mutual

/-- The JSON value of a value that is built from `None`, booleans, integers, strings,
lists, tuples and dictionaries with strings for keys. -/
def toJson : PyValue F → Option Json
  | .none => some .null
  | .bool value => some (.bool value)
  | .int value => some (.number value)
  | .str text => if text.utf8.isSome then some (.string text) else none
  | .dict items => (pairsToJson items).map .object
  | .list items => (itemsToJson items).map .array
  | .tuple items => (itemsToJson items).map .array
  | _ => none

def itemsToJson : List (PyValue F) → Option (List Json)
  | [] => some []
  | item :: items => do
    let value ← toJson item
    let values ← itemsToJson items
    some (value :: values)

def pairsToJson : List (Key × PyValue F) → Option (List (Text × Json))
  | [] => some []
  | (.str text, value) :: items => do
    let value ← toJson value
    let members ← pairsToJson items
    if text.utf8.isSome then some ((text, value) :: members) else none
  | (.other _, _) :: _ => none

end

/-- A leaf that is written, but not as JSON. -/
def slipsPart : PyValue F → Prop
  | .bytes data => ∀ text : Text, text.utf8 ≠ some data
  | .intEnum value _ _ => asLongLong value = none
  | .decimal value => value.slips = true
  | _ => False

def Clean (parts : List (ℕ × PyValue F)) : Prop := ∀ part ∈ parts, ¬ slipsPart part.2

theorem clean_cons_iff {part : ℕ × PyValue F} {parts : List (ℕ × PyValue F)} :
    Clean (part :: parts) ↔ ¬ slipsPart part.2 ∧ Clean parts :=
  forall_mem_cons

theorem clean_append_iff {left right : List (ℕ × PyValue F)} :
    Clean (left ++ right) ↔ Clean left ∧ Clean right :=
  forall_mem_append

/-! ## One text and many -/

section Written

variable {α : Type} {reads : Bytes → α → Bytes → Prop}

def Written (reads : Bytes → α → Bytes → Prop) (text : Bytes) (clean : Prop)
    (agrees : α → Prop) : Prop :=
  (clean ∧ ∃ value, Spells reads text value ∧ agrees value) ∨ (¬ clean ∧ Spoils reads text)

def WrittenAll (reads : Bytes → α → Bytes → Prop) (texts : List Bytes) (clean : Prop)
    (agrees : List α → Prop) : Prop :=
  (clean ∧ ∃ values, List.Forall₂ (Spells reads) texts values ∧ agrees values) ∨
    (¬ clean ∧ (∀ text ∈ texts, (∃ value, Spells reads text value) ∨ Spoils reads text) ∧
      ∃ text ∈ texts, Spoils reads text)

theorem WrittenAll.spells {texts : List Bytes} {clean : Prop} {agrees : List α → Prop}
    (h : WrittenAll reads texts clean agrees) :
    ∀ text ∈ texts, (∃ value, Spells reads text value) ∨ Spoils reads text := by
  cases h with
  | inl h =>
    obtain ⟨-, values, hspells, -⟩ := h
    intro text hmem
    obtain ⟨value, hvalue⟩ : ∃ value, Spells reads text value := by
      induction hspells with
      | nil => cases hmem
      | cons hfirst _ ih =>
        cases hmem with
        | head => exact ⟨_, hfirst⟩
        | tail _ hmem => exact ih hmem
    exact .inl ⟨value, hvalue⟩
  | inr h => exact h.2.1

theorem WrittenAll.cons {text : Bytes} {texts : List Bytes} {clean cleanAll cleanBoth : Prop}
    {agrees : α → Prop} {agreesAll agreesBoth : List α → Prop}
    (hfirst : Written reads text clean agrees) (hrest : WrittenAll reads texts cleanAll agreesAll)
    (hclean : cleanBoth ↔ clean ∧ cleanAll)
    (hagrees : ∀ {value values}, agrees value → agreesAll values → agreesBoth (value :: values)) :
    WrittenAll reads (text :: texts) cleanBoth agreesBoth := by
  have hspells := hrest.spells
  rcases hfirst with ⟨hc, value, hvalue, ha⟩ | ⟨hc, hspoils⟩
  · rcases hrest with ⟨hcs, values, hvalues, has⟩ | ⟨hcs, -, hspoilsAll⟩
    · exact .inl ⟨hclean.mpr ⟨hc, hcs⟩, value :: values, .cons hvalue hvalues, hagrees ha has⟩
    · obtain ⟨spoiled, hmem, hspoiled⟩ := hspoilsAll
      exact .inr ⟨fun h => hcs (hclean.mp h).2,
        forall_mem_cons.mpr ⟨.inl ⟨value, hvalue⟩, hspells⟩,
        spoiled, mem_cons_of_mem _ hmem, hspoiled⟩
  · exact .inr ⟨fun h => hc (hclean.mp h).1, forall_mem_cons.mpr ⟨.inr hspoils, hspells⟩,
      text, mem_cons_self, hspoils⟩

end Written

theorem WrittenAll.array {texts : List Bytes} {clean cleanBoth : Prop} {agrees : List Json → Prop}
    {agreesBoth : Json → Prop} (h : WrittenAll Reads texts clean agrees)
    (hclean : cleanBoth ↔ clean) (hagrees : ∀ {items}, agrees items → agreesBoth (.array items)) :
    Written Reads (bracketed 0x5b 0x5d texts) cleanBoth agreesBoth := by
  rcases h with ⟨hc, items, hitems, ha⟩ | ⟨hc, hspells, hspoils⟩
  · exact .inl ⟨hclean.mpr hc, _, Json.spells_array hitems, hagrees ha⟩
  · exact .inr ⟨fun h => hc (hclean.mp h), Json.spoils_array hspells hspoils⟩

theorem WrittenAll.object {texts : List Bytes} {clean cleanBoth : Prop}
    {agrees : List (Text × Json) → Prop} {agreesBoth : Json → Prop}
    (h : WrittenAll (Member Reads) texts clean agrees) (hclean : cleanBoth ↔ clean)
    (hagrees : ∀ {members}, agrees members → agreesBoth (.object members)) :
    Written Reads (bracketed 0x7b 0x7d texts) cleanBoth agreesBoth := by
  rcases h with ⟨hc, members, hmembers, ha⟩ | ⟨hc, hspells, hspoils⟩
  · exact .inl ⟨hclean.mpr hc, _, Json.spells_object hmembers, hagrees ha⟩
  · exact .inr ⟨fun h => hc (hclean.mp h), Json.spoils_object hspells hspoils⟩

/-! ## Strings, keys and names -/

variable (interp : Interpreter F)

theorem writeString_eq_ok {text : Text} {out : Bytes} (h : writeString interp text = .ok out) :
    text.Encodable ∧ out = quoted (escaped text.bytes) := by
  rw [writeString, asUtf8] at h
  cases hutf8 : text.utf8 with
  | none => rw [hutf8] at h; cases h
  | some utf8 =>
    obtain ⟨hencodable, hbytes⟩ := Text.utf8_eq_some_iff.mp hutf8
    rw [hutf8] at h
    have hout : writeEscapedStringBlocks interp.simd utf8 = out := Except.ok.inj h
    rw [writeEscapedStringBlocks_eq, writeEscapedString_eq_quoted, ← hbytes] at hout
    exact ⟨hencodable, hout.symm⟩

theorem writeKey_eq_ok {key : Key} {out : Bytes} (h : writeKey interp key = .ok out) :
    ∃ name : Text, name.Encodable ∧ out = quoted (escaped name.bytes) ∧
      ∀ text, key = .str text → name = text := by
  cases key with
  | str text =>
    obtain ⟨hencodable, hout⟩ := writeString_eq_ok _ h
    refine ⟨text, hencodable, hout, fun text heq => ?_⟩
    cases heq
    rfl
  | other str =>
    cases str with
    | none => cases h
    | some str =>
      obtain ⟨hencodable, hout⟩ := writeString_eq_ok _ h
      exact ⟨str, hencodable, hout, fun _ heq => nomatch heq⟩

def wordByte (b : Byte) : Bool :=
  0x80 ≤ b ∨ 0x41 ≤ b ∧ b ≤ 0x5a ∨ 0x61 ≤ b ∧ b ≤ 0x7a ∨ b = 0x5f ∨ isDigit b

set_option maxRecDepth 4096 in
theorem wordByte_spec {b : Byte} (h : wordByte b = true ∨ b = 0x2e) :
    Json.isSpace b = false ∧ b ∉ [0x2c, 0x5d, (0x7d : Byte)] :=
  forall_byte (P := fun b => wordByte b = true ∨ b = 0x2e →
    Json.isSpace b = false ∧ b ∉ [0x2c, 0x5d, (0x7d : Byte)]) (by decide) b h

theorem wordByte_of_high {b : Byte} (h : 128 ≤ b.toNat) : wordByte b = true := by
  have hle : (0x80 : Byte) ≤ b := by
    exact h
  simp [wordByte, hle]

theorem wordByte_of_mem_encode {c : CodePoint} (hc : isSurrogate c = false)
    (h : isNameStart c = true ∨ 0x30 ≤ c.val ∧ c.val ≤ 0x39) :
    ∀ b ∈ encode c, wordByte b = true ∧ (isNameStart c = true → isDigit b = false) := by
  intro b hb
  by_cases hascii : c.val < 128
  · rw [encode_ascii hascii, mem_singleton] at hb
    subst hb
    have hnat : (UInt8.ofNat c.val).toNat = c.val := by
      rw [UInt8.toNat_ofNat']
      omega
    simp only [isNameStart, decide_eq_true_eq] at h ⊢
    simp only [wordByte, isDigit, decide_eq_true_eq, UInt8.le_iff_toNat_le, ← UInt8.toNat_inj, hnat,
      Bool.and_eq_true, Bool.and_eq_false_iff, decide_eq_false_iff_not]
    constructor
    · show 128 ≤ c.val ∨ 65 ≤ c.val ∧ c.val ≤ 90 ∨ 97 ≤ c.val ∧ c.val ≤ 122 ∨ c.val = 95 ∨
        48 ≤ c.val ∧ c.val ≤ 57
      omega
    · show _ → ¬ 48 ≤ c.val ∨ ¬ c.val ≤ 57
      omega
  · have hhigh := le_of_mem_encode hc (not_lt.mp hascii) b hb
    refine ⟨wordByte_of_high hhigh, fun _ => ?_⟩
    simp only [isDigit, Bool.and_eq_false_iff, decide_eq_false_iff_not, UInt8.le_iff_toNat_le]
    refine .inr fun hle => ?_
    have hbound : b.toNat ≤ 57 := hle
    omega

theorem exists_after_literal {literal word more tail : Bytes} (hword : ∀ b ∈ word, wordByte b = true)
    (hliteral : (0x2e : Byte) ∉ literal) (h : word ++ 0x2e :: more = literal ++ tail) :
    ∃ b rest, tail = b :: rest ∧ (wordByte b = true ∨ b = 0x2e) := by
  induction literal generalizing word with
  | nil =>
    cases word with
    | nil => exact ⟨0x2e, more, h.symm, .inr rfl⟩
    | cons b word => exact ⟨b, word ++ 0x2e :: more, h.symm, .inl (hword b mem_cons_self)⟩
  | cons l literal ih =>
    cases word with
    | nil =>
      rw [(List.cons.inj h).1] at hliteral
      exact absurd mem_cons_self hliteral
    | cons b word =>
      exact ih (fun c hc => hword c (mem_cons_of_mem _ hc))
        (fun hmem => hliteral (mem_cons_of_mem _ hmem)) (List.cons.inj h).2

/-- A name and a point are no value of JSON. -/
theorem spoils_word {b : Byte} {word more : Bytes} (hb : wordByte b = true)
    (hdigit : isDigit b = false) (hword : ∀ c ∈ word, wordByte c = true) :
    Spoils Reads (b :: (word ++ 0x2e :: more)) := by
  obtain ⟨hspace, hclose⟩ := wordByte_spec (.inl hb)
  have hshown : Json.Shown (b :: (word ++ 0x2e :: more)) :=
    ⟨b, _, rfl, hspace, fun hmem => hclose (mem_cons_of_mem _ hmem)⟩
  have hliteral (literal : Bytes) (found : Json) (hmem : (b, literal, found) ∈
      [(0x6e, ascii "ull", Json.null), (0x74, ascii "rue", .bool true),
        (0x66, ascii "alse", .bool false)]) (hpoint : (0x2e : Byte) ∉ literal) :
      Spoils Reads (b :: (word ++ 0x2e :: more)) := by
    refine ⟨hshown, fun rest _ value tail hreads => ?_⟩
    rw [cons_append, append_assoc, cons_append] at hreads
    obtain ⟨-, heq⟩ := (Json.reads_literal_iff hmem).mp hreads
    obtain ⟨c, after, rfl, hc⟩ := exists_after_literal hword hpoint heq
    exact ⟨c, after, rfl, wordByte_spec hc⟩
  by_cases hn : b = 0x6e
  · exact hliteral (ascii "ull") .null (by simp [hn]) (by decide)
  · by_cases ht : b = 0x74
    · exact hliteral (ascii "rue") (.bool true) (by simp [ht]) (by decide)
    · by_cases hf : b = 0x66
      · exact hliteral (ascii "alse") (.bool false) (by simp [hf]) (by decide)
      · refine Json.spoils_of_readNumber hshown ?_ fun rest => ?_
        · intro hmem
          simp only [mem_cons, not_mem_nil, or_false, hn, ht, hf, false_or] at hmem
          rcases hmem with rfl | rfl | rfl <;> exact absurd hb (by decide)
        · have hminus : b ≠ 0x2d := by
            rintro rfl
            exact absurd hb (by decide)
          exact Json.readNumber_eq_none hminus hdigit _

/-- The name of a member is no value of JSON. -/
theorem spoils_enumStr {cls : ClassName} {member : Text} {text : Bytes}
    (h : (enumStr cls member).utf8 = some text) : Spoils Reads text := by
  obtain ⟨hencodable, rfl⟩ := Text.utf8_eq_some_iff.mp h
  have hfirst : isSurrogate cls.first = false := hencodable _ mem_cons_self
  have hothers : ∀ c ∈ cls.others, isSurrogate c = false := fun c hc =>
    hencodable c (mem_cons_of_mem _ (mem_append_left _ (mem_append_left _ hc)))
  have hbytes : (enumStr cls member).bytes =
      encode cls.first ++ (Text.bytes cls.others ++ 0x2e :: Text.bytes member) := by
    rw [enumStr, Text.bytes_append, Text.bytes_append, Text.bytes_cons, append_assoc, append_assoc]
    rfl
  obtain ⟨b, word, hencode⟩ := exists_cons_of_ne_nil (encode_ne_nil _)
  have hstart := wordByte_of_mem_encode hfirst (.inl cls.isNameStart_first)
  have hword : ∀ c ∈ word ++ Text.bytes cls.others, wordByte c = true := by
    intro c hc
    cases mem_append.mp hc with
    | inl hmem => exact (hstart c (by rw [hencode]; exact mem_cons_of_mem _ hmem)).1
    | inr hmem =>
      obtain ⟨d, hd, hmem⟩ := mem_flatMap.mp hmem
      exact (wordByte_of_mem_encode (hothers d hd) (cls.isName_others d hd) c hmem).1
  obtain ⟨hb, hdigit⟩ := hstart b (by rw [hencode]; exact mem_cons_self)
  rw [hbytes, hencode, cons_append, ← append_assoc]
  exact spoils_word hb (hdigit cls.isNameStart_first) hword

/-! ## What is written -/

def RyuPart (interp : Interpreter F) : PyValue F → Prop
  | .float value => interp.isnan value = false → interp.isinf value = false →
      ∃ numeral : Numeral, interp.d2s value = numeral.text
  | _ => True

def RyuParts (interp : Interpreter F) (parts : List (ℕ × PyValue F)) : Prop :=
  ∀ part ∈ parts, RyuPart interp part.2

/-- The value that was read, where a value was meant. -/
def Agrees (value : PyValue F) (found : Json) : Prop := ∀ json, toJson value = some json → found = json

theorem written_of_spells {depth : ℕ} {value : PyValue F} {text : Bytes} {json : Json}
    (hslips : ¬ slipsPart value) (hspells : Spells Reads text json) (hagrees : Agrees value json) :
    Written Reads text (Clean [(depth, value)]) (Agrees value) :=
  .inl ⟨forall_mem_singleton.mpr hslips, json, hspells, hagrees⟩

theorem written_of_spoils {depth : ℕ} {value : PyValue F} {text : Bytes} (hslips : slipsPart value)
    (hspoils : Spoils Reads text) : Written Reads text (Clean [(depth, value)]) (Agrees value) :=
  .inr ⟨fun hclean => hclean _ mem_cons_self hslips, hspoils⟩

theorem written_string {depth : ℕ} {value : PyValue F} {text : Text} {out : Bytes}
    (hslips : ¬ slipsPart value) (hagrees : Agrees value (.string text))
    (h : writeString interp text = .ok out) :
    Written Reads out (Clean [(depth, value)]) (Agrees value) := by
  obtain ⟨hencodable, rfl⟩ := writeString_eq_ok _ h
  exact written_of_spells hslips (Json.spells_string (spellsChars_escaped hencodable)) hagrees

theorem written_bytes (depth : ℕ) (data : Bytes) :
    Written Reads (quoted (escaped data)) (Clean [(depth, (PyValue.bytes data : PyValue F))])
      (Agrees (PyValue.bytes data : PyValue F)) := by
  by_cases hutf8 : ∃ text : Text, text.utf8 = some data
  · obtain ⟨text, htext⟩ := hutf8
    obtain ⟨hencodable, rfl⟩ := Text.utf8_eq_some_iff.mp htext
    exact written_of_spells (fun hslips => hslips _ htext)
      (Json.spells_string (spellsChars_escaped hencodable)) fun _ h => nomatch h
  · refine written_of_spoils (fun text htext => hutf8 ⟨text, htext⟩) ?_
    refine Json.spoils_string fun rest chars tail hreads => hutf8 ?_
    obtain ⟨text, hencodable, hbytes⟩ := exists_text_of_readsChars hreads
    exact ⟨text, Text.utf8_eq_some_iff.mpr ⟨hencodable, hbytes⟩⟩

theorem clean_container_iff {depth : ℕ} {value : PyValue F} {inner : List (ℕ × PyValue F)}
    (hslips : ¬ slipsPart value) : Clean ((depth, value) :: inner) ↔ Clean inner := by
  rw [clean_cons_iff, and_iff_right hslips]

variable {interp}

mutual

/-- Clean values are spelled, and one slip spoils the text. -/
theorem written_writeJson (depth : ℕ) (value : PyValue F) {text : Bytes}
    (hryu : RyuParts interp (parts depth value)) (h : writeJson interp depth value = .ok text) :
    Written Reads text (Clean (parts depth value)) (Agrees value) := by
  have hdepth : ¬ 64 < depth := by
    intro hdeep
    obtain ⟨error, herror⟩ := fails_too_deep interp hdeep value
    rw [herror] at h
    cases h
  cases value with
  | none =>
    rw [writeJson, if_neg hdepth] at h
    cases h
    exact written_of_spells id Json.spells_null fun _ h => Option.some.inj h
  | bool value =>
    rw [writeJson, if_neg hdepth] at h
    cases h
    exact written_of_spells id (Json.spells_bool value) fun _ h => Option.some.inj h
  | int value =>
    have htext : text = decimal value := by
      rw [writeJson, if_neg hdepth] at h
      cases hlong : asLongLong value with
      | some val =>
        simp only [hlong] at h
        rw [← Except.ok.inj h, fastI64ToBuf_eq hlong]
      | none =>
        simp only [hlong, intStr] at h
        split at h
        · cases h
        · exact (Except.ok.inj h).symm
    rw [htext]
    exact written_of_spells id (spells_decimal value) fun _ h => Option.some.inj h
  | intEnum value cls member =>
    rw [writeJson, if_neg hdepth] at h
    cases hlong : asLongLong value with
    | some val =>
      simp only [hlong] at h
      rw [← Except.ok.inj h, fastI64ToBuf_eq hlong]
      refine written_of_spells (fun hslips => ?_) (spells_decimal value) fun _ h => nomatch h
      rw [slipsPart, hlong] at hslips
      cases hslips
    | none =>
      simp only [hlong, asUtf8] at h
      split at h
      · next utf8 hutf8 =>
        rw [← Except.ok.inj h]
        exact written_of_spoils hlong (spoils_enumStr hutf8)
      · cases h
  | float value =>
    rw [writeJson, if_neg hdepth] at h
    split at h
    · cases h
    · next hnan =>
      split at h
      · cases h
      · next hinf =>
        obtain ⟨numeral, heq⟩ := hryu _ mem_cons_self (Bool.not_eq_true _ ▸ hnan) (Bool.not_eq_true _ ▸ hinf)
        obtain ⟨lower, hlower⟩ := exists_numeral_lowerExponent numeral
        rw [← Except.ok.inj h, heq, hlower]
        exact written_of_spells id (Json.spells_numeral lower) fun _ h => nomatch h
  | str string =>
    rw [writeJson, if_neg hdepth] at h
    refine written_string interp id (fun json hjson => ?_) h
    rw [toJson] at hjson
    split at hjson
    · exact Option.some.inj hjson
    · cases hjson
  | bytes data =>
    rw [writeJson, if_neg hdepth] at h
    rw [← Except.ok.inj h, writeEscapedStringBlocks_eq, writeEscapedString_eq_quoted]
    exact written_bytes depth data
  | dict items =>
    rw [writeJson, if_neg hdepth] at h
    cases hpairs : writePairs interp (depth + 1) items with
    | error error => rw [hpairs] at h; cases h
    | ok texts =>
      rw [hpairs] at h
      rw [← show bracketed 0x7b 0x7d texts = text from Except.ok.inj h, parts]
      rw [parts] at hryu
      refine (written_writePairs (depth + 1) items (forall_mem_cons.mp hryu).2 hpairs).object
        (clean_container_iff id) fun {members} hagrees json hjson => ?_
      obtain ⟨found, hfound, rfl⟩ := map_eq_some_iff.mp hjson
      rw [hagrees found hfound]
  | list items =>
    rw [writeJson, if_neg hdepth] at h
    cases helements : writeElements interp (depth + 1) items with
    | error error => rw [helements] at h; cases h
    | ok texts =>
      rw [helements] at h
      rw [← show bracketed 0x5b 0x5d texts = text from Except.ok.inj h, parts]
      rw [parts] at hryu
      have hinner := (forall_mem_cons.mp hryu).2
      refine (written_writeElements (depth + 1) items hinner helements).array
        (clean_container_iff id) fun {found} hagrees json hjson => ?_
      obtain ⟨found, hfound, rfl⟩ := map_eq_some_iff.mp hjson
      rw [hagrees found hfound]
  | tuple items =>
    rw [writeJson, if_neg hdepth] at h
    cases helements : writeElements interp (depth + 1) items with
    | error error => rw [helements] at h; cases h
    | ok texts =>
      rw [helements] at h
      rw [← show bracketed 0x5b 0x5d texts = text from Except.ok.inj h, parts]
      rw [parts] at hryu
      have hinner := (forall_mem_cons.mp hryu).2
      refine (written_writeElements (depth + 1) items hinner helements).array
        (clean_container_iff id) fun {found} hagrees json hjson => ?_
      obtain ⟨found, hfound, rfl⟩ := map_eq_some_iff.mp hjson
      rw [hagrees found hfound]
  | set items =>
    rw [writeJson, if_neg hdepth] at h
    cases helements : writeElements interp (depth + 1) items with
    | error error => rw [helements] at h; cases h
    | ok texts =>
      rw [helements] at h
      rw [← show bracketed 0x5b 0x5d texts = text from Except.ok.inj h, parts]
      rw [parts] at hryu
      have hinner := (forall_mem_cons.mp hryu).2
      exact (written_writeElements (depth + 1) items hinner helements).array
        (clean_container_iff id) fun _ _ hjson => nomatch hjson
  | enum value =>
    rw [writeJson, if_neg hdepth] at h
    rw [parts] at hryu
    rw [parts, Written, clean_container_iff id]
    rcases written_writeJson depth value (forall_mem_cons.mp hryu).2 h with ⟨hclean, json, hspells, -⟩ | hspoils
    · exact .inl ⟨hclean, json, hspells, fun _ h => nomatch h⟩
    · exact .inr hspoils
  | date isoformat =>
    rw [writeJson, if_neg hdepth] at h
    exact written_string interp id (fun _ h => nomatch h) h
  | timedelta totalSeconds =>
    rw [writeJson, if_neg hdepth] at h
    cases hlong : interp.longLong totalSeconds with
    | some val =>
      simp only [hlong] at h
      rw [← Except.ok.inj h]
      exact written_of_spells id (spells_decimal val) fun _ h => nomatch h
    | none =>
      simp only [hlong] at h
      obtain ⟨numeral, hnumeral⟩ := exists_numeral_format (interp.significant totalSeconds)
      rw [← Except.ok.inj h, hnumeral]
      exact written_of_spells id (Json.spells_numeral numeral) fun _ h => nomatch h
  | decimal value =>
    rw [writeJson, if_neg hdepth] at h
    simp only [isSpecialText_str] at h
    split at h
    · cases h
    · next hrefused =>
      rw [← Except.ok.inj h]
      cases hslips : value.slips with
      | true => exact written_of_spoils hslips (spoils_str interp.capitals hslips)
      | false =>
        obtain ⟨numeral, hnumeral⟩ := exists_numeral_of_finite interp.capitals hslips
          (Bool.not_eq_true _ ▸ hrefused)
        rw [hnumeral]
        refine written_of_spells (fun h => ?_) (Json.spells_numeral numeral) fun _ h => nomatch h
        rw [slipsPart, hslips] at h
        cases h
  | uuid str =>
    rw [writeJson, if_neg hdepth] at h
    exact written_string interp id (fun _ h => nomatch h) h

theorem written_writeElements (depth : ℕ) (items : List (PyValue F)) {texts : List Bytes}
    (hryu : RyuParts interp (itemParts depth items))
    (h : writeElements interp depth items = .ok texts) :
    WrittenAll Reads texts (Clean (itemParts depth items)) fun found =>
      ∀ json, itemsToJson items = some json → found = json := by
  cases items with
  | nil =>
    cases h
    exact .inl ⟨forall_mem_nil _, [], .nil, fun _ h => Option.some.inj h⟩
  | cons item items =>
    rw [writeElements] at h
    cases hitem : writeJson interp depth item with
    | error error => rw [hitem] at h; cases h
    | ok text =>
      cases hitems : writeElements interp depth items with
      | error error => rw [hitem, hitems] at h; cases h
      | ok more =>
        rw [hitem, hitems] at h
        rw [← show text :: more = texts from Except.ok.inj h, itemParts]
        rw [itemParts] at hryu
        obtain ⟨hfirst, hrest⟩ := forall_mem_append.mp hryu
        refine (written_writeElements depth items hrest hitems).cons
          (written_writeJson depth item hfirst hitem) clean_append_iff
          fun {value values} hvalue hvalues json hjson => ?_
        simp only [itemsToJson, bind_eq_bind, bind_eq_some_iff] at hjson
        obtain ⟨first, hfirst, others, hothers, heq⟩ := hjson
        rw [hvalue first hfirst, hvalues others hothers]
        exact Option.some.inj heq

theorem written_writePairs (depth : ℕ) (items : List (Key × PyValue F)) {texts : List Bytes}
    (hryu : RyuParts interp (pairParts depth items))
    (h : writePairs interp depth items = .ok texts) :
    WrittenAll (Member Reads) texts (Clean (pairParts depth items)) fun found =>
      ∀ json, pairsToJson items = some json → found = json := by
  cases items with
  | nil =>
    cases h
    exact .inl ⟨forall_mem_nil _, [], .nil, fun _ h => Option.some.inj h⟩
  | cons item items =>
    obtain ⟨key, value⟩ := item
    rw [writePairs] at h
    cases hkey : writeKey interp key with
    | error error => rw [hkey] at h; cases h
    | ok keyText =>
      cases hvalue : writeJson interp depth value with
      | error error => rw [hkey, hvalue] at h; cases h
      | ok text =>
        cases hitems : writePairs interp depth items with
        | error error => rw [hkey, hvalue, hitems] at h; cases h
        | ok more =>
          rw [hkey, hvalue, hitems] at h
          obtain ⟨name, hencodable, rfl, hname⟩ := writeKey_eq_ok interp hkey
          have hspells := spellsChars_escaped hencodable
          rw [pairParts] at hryu
          obtain ⟨hfirst, hrest⟩ := forall_mem_append.mp hryu
          have hmember : Written (Member Reads) (memberText (escaped name.bytes) text)
              (Clean (parts depth value)) fun entry =>
                entry.1 = name ∧ Agrees value entry.2 := by
            rcases written_writeJson depth value hfirst hvalue with
              ⟨hclean, json, hjson, hagrees⟩ | ⟨hclean, hspoils⟩
            · exact .inl ⟨hclean, (name, json), Json.spells_member hspells hjson, rfl, hagrees⟩
            · exact .inr ⟨hclean, Json.spoils_member hspells hspoils⟩
          rw [← show memberText (escaped name.bytes) text :: more = texts from
            Except.ok.inj h, pairParts]
          refine (written_writePairs depth items hrest hitems).cons hmember clean_append_iff
            fun {entry entries} hentry hentries json hjson => ?_
          cases key with
          | other str => cases hjson
          | str string =>
            simp only [pairsToJson, bind_eq_bind, bind_eq_some_iff] at hjson
            obtain ⟨first, hfirst, others, hothers, heq⟩ := hjson
            split at heq
            · obtain ⟨found, foundValue⟩ := entry
              obtain ⟨rfl, hagrees⟩ : found = name ∧ Agrees value foundValue := hentry
              rw [← Option.some.inj heq, hentries others hothers, hagrees first hfirst,
                ← hname string rfl]
            · cases heq

end

/-! ## Plain values -/

def plainPart : PyValue F → Prop
  | .none | .bool _ | .int _ | .list _ | .tuple _ => True
  | .str text => text.utf8.isSome = true
  | .dict items => ∀ item ∈ items, refusedKey item.1 = false
  | _ => False

mutual

theorem plain_parts {value : PyValue F} {json : Json} (h : toJson value = some json) (depth : ℕ) :
    ∀ part ∈ parts depth value, plainPart part.2 := by
  cases value with
  | none => exact forall_mem_singleton.mpr trivial
  | bool value | int value => exact forall_mem_singleton.mpr trivial
  | str text =>
    refine forall_mem_singleton.mpr ?_
    rw [toJson] at h
    split at h
    · assumption
    · cases h
  | dict items =>
    obtain ⟨members, hmembers, -⟩ := map_eq_some_iff.mp h
    obtain ⟨hkeys, hparts⟩ := plain_pairParts hmembers (depth + 1)
    exact forall_mem_cons.mpr ⟨hkeys, hparts⟩
  | list items | tuple items =>
    obtain ⟨values, hvalues, -⟩ := map_eq_some_iff.mp h
    exact forall_mem_cons.mpr ⟨trivial, plain_itemParts hvalues (depth + 1)⟩
  | _ => cases h

theorem plain_itemParts {items : List (PyValue F)} {values : List Json}
    (h : itemsToJson items = some values) (depth : ℕ) :
    ∀ part ∈ itemParts depth items, plainPart part.2 := by
  cases items with
  | nil => exact forall_mem_nil _
  | cons item items =>
    simp only [itemsToJson, bind_eq_bind, bind_eq_some_iff] at h
    obtain ⟨first, hfirst, others, hothers, -⟩ := h
    rw [itemParts]
    exact forall_mem_append.mpr ⟨plain_parts hfirst depth, plain_itemParts hothers depth⟩

theorem plain_pairParts {items : List (Key × PyValue F)} {members : List (Text × Json)}
    (h : pairsToJson items = some members) (depth : ℕ) :
    (∀ item ∈ items, refusedKey item.1 = false) ∧
      ∀ part ∈ pairParts depth items, plainPart part.2 := by
  match items with
  | [] => exact ⟨forall_mem_nil _, forall_mem_nil _⟩
  | (.other str, value) :: items => cases h
  | (.str text, value) :: items =>
    simp only [pairsToJson, bind_eq_bind, bind_eq_some_iff] at h
    obtain ⟨first, hfirst, others, hothers, heq⟩ := h
    split at heq
    · next htext =>
      obtain ⟨hkeys, hparts⟩ := plain_pairParts hothers depth
      rw [pairParts]
      refine ⟨forall_mem_cons.mpr ⟨?_, hkeys⟩,
        forall_mem_append.mpr ⟨plain_parts hfirst depth, hparts⟩⟩
      rw [refusedKey, isNone_eq_false_iff]
      exact htext
    · cases heq

end

theorem clean_of_plain {ps : List (ℕ × PyValue F)} (h : ∀ part ∈ ps, plainPart part.2) :
    Clean ps := by
  intro part hmem hslips
  have hplain := h _ hmem
  cases hvalue : part.2 <;> rw [hvalue] at hplain hslips <;>
    first | exact hplain | exact hslips

theorem ryuParts_of_plain {ps : List (ℕ × PyValue F)} (h : ∀ part ∈ ps, plainPart part.2) :
    RyuParts interp ps := by
  intro part hmem
  have hplain := h _ hmem
  cases hvalue : part.2 with
  | float value =>
    rw [hvalue] at hplain
    exact hplain.elim
  | _ => trivial

theorem refusedPart_of_plain {value : PyValue F} (h : plainPart value)
    (hint : ∀ n, value = .int n → ¬ Fails (intStr interp n)) : refusedPart interp value = false := by
  cases value with
  | int n =>
    have hn := hint n rfl
    rw [fails_intStr_iff] at hn
    rw [refusedPart, decide_eq_false_iff_not]
    exact fun hrefused => hn hrefused.2
  | str text =>
    rw [refusedPart, isNone_eq_false_iff]
    exact h
  | dict items =>
    rw [refusedPart, any_eq_false]
    exact fun item hmem => by rw [h _ hmem]; exact Bool.false_ne_true
  | none => rfl
  | bool value => rfl
  | list items => rfl
  | tuple items => rfl
  | _ => exact h.elim

theorem spells_writeJson {interp : Interpreter F} {depth : ℕ} {value : PyValue F} {text : Bytes}
    {json : Json} (h : writeJson interp depth value = .ok text) (hplain : toJson value = some json) :
    Spells Reads text json := by
  have hparts := plain_parts hplain depth
  rcases written_writeJson depth value (ryuParts_of_plain hparts) h with
    ⟨-, found, hspells, hagrees⟩ | ⟨hclean, -⟩
  · rw [← hagrees _ hplain]
    exact hspells
  · exact absurd (clean_of_plain hparts) hclean

/-- A plain value is read back from its text; it is refused when it is nested too deeply. -/
theorem writeJson_roundTrip (interp : Interpreter F) {value : PyValue F} {json : Json}
    (hplain : toJson value = some json)
    (hint : ∀ depth n, (depth, .int n) ∈ parts 0 value → ¬ Fails (intStr interp n)) :
    ((∀ part ∈ parts 0 value, part.1 ≤ 64) →
        ∃ text, writeJson interp 0 value = .ok text ∧ Json.parse text = some json) ∧
      ((∃ part ∈ parts 0 value, 64 < part.1) →
        ∃ error, writeJson interp 0 value = .error error) := by
  have hparts := plain_parts hplain 0
  have hrefused : ∀ part ∈ parts 0 value, refusedPart interp part.2 = false := fun part hmem =>
    refusedPart_of_plain (hparts _ hmem) fun n heq =>
      hint _ n (by rw [← heq]; exact hmem)
  constructor
  · intro hdepth
    cases fails_or_ok (writeJson interp 0 value) with
    | inl hfails =>
      obtain ⟨part, hmem, hdeep | hpart⟩ := (fails_writeJson_iff _ 0 _).mp hfails
      · exact absurd hdeep (not_lt.mpr (hdepth _ hmem))
      · rw [hrefused _ hmem] at hpart
        cases hpart
    | inr hok =>
      obtain ⟨text, htext⟩ := hok
      exact ⟨text, htext, (spells_writeJson htext hplain).parse⟩
  · rintro ⟨part, hmem, hdeep⟩
    exact (fails_writeJson_iff _ 0 _).mpr ⟨part, hmem, .inl hdeep⟩

def oneFloat : Interpreter Unit where
  isnan := fun _ => false
  isinf := fun _ => false
  d2s := fun _ => ascii "1.5E0"
  longLong := fun _ => none
  significant := fun _ =>
    { negative := false
      digits := ascii "15000000000000000"
      exponent := 0
      length_digits := by decide
      isDigit_digits := by decide
      head_ne := by decide }
  maxStrDigits := 4300
  capitals := true
  simd := { avx2 := true, sse2 := true }

theorem writeJson_roundTrip_pair :
    ∃ text, writeJson oneFloat 0
        (.dict [(.str (plainText "a"), .list [.int (-5), .tuple [.none, .bool true]])]) = .ok text ∧
      Json.parse text = some (.object [(plainText "a",
        .array [.number ((-5 : ℤ) : ℚ), .array [.null, .bool true]])]) := by
  refine (writeJson_roundTrip _ (by rfl) ?_).1 ?_
  · intro depth n hmem
    simp only [parts, pairParts, itemParts, append_nil, mem_cons, mem_append,
      not_mem_nil, Prod.mk.injEq, PyValue.int.injEq, reduceCtorEq, and_false, or_false,
      false_or] at hmem
    rw [hmem.2, fails_intStr_iff]
    decide
  · simp only [parts, pairParts, itemParts, append_nil, mem_cons, mem_append, not_mem_nil, or_false]
    rintro part (rfl | rfl | rfl | rfl | rfl | rfl) <;> decide

/-- A text that is written is JSON, exactly when a part of the value was refused or no
leaf slips through. -/
theorem writeJson_valid_iff (interp : Interpreter F) (value : PyValue F)
    (hryu : RyuParts interp (parts 0 value)) :
    (∀ text, writeJson interp 0 value = .ok text → Json.Valid text) ↔
      (∃ part ∈ parts 0 value, Refused interp part) ∨ Clean (parts 0 value) := by
  rw [← fails_writeJson_iff]
  constructor
  · intro h
    cases fails_or_ok (writeJson interp 0 value) with
    | inl hfails => exact .inl hfails
    | inr hok =>
      obtain ⟨text, htext⟩ := hok
      rcases written_writeJson 0 value hryu htext with ⟨hclean, -⟩ | ⟨-, hspoils⟩
      · exact .inr hclean
      · obtain ⟨-, json, hjson⟩ := h _ htext
        rw [hspoils.parse] at hjson
        cases hjson
  · rintro (⟨error, herror⟩ | hclean) text htext
    · rw [herror] at htext
      cases htext
    · rcases written_writeJson 0 value hryu htext with ⟨-, json, hspells, -⟩ | ⟨hnot, -⟩
      · exact Json.valid_of_parse hspells.parse
      · exact absurd hclean hnot

theorem writeJson_valid_iff_signalling :
    ¬ ∀ text, writeJson oneFloat 0 (.list [.float (), .decimal (.snan false 0)]) = .ok text →
      Json.Valid text := by
  have hparts : parts 0 (.list [.float (), .decimal (.snan false 0)] : PyValue Unit) =
      [(0, .list [.float (), .decimal (.snan false 0)]), (1, .float ()),
        (1, .decimal (.snan false 0))] := rfl
  have hryu : RyuParts oneFloat (parts 0 (.list [.float (), .decimal (.snan false 0)])) := by
    refine forall_mem_cons.mpr ⟨trivial, forall_mem_cons.mpr ⟨fun _ _ => ?_,
      forall_mem_singleton.mpr trivial⟩⟩
    refine ⟨⟨false, ascii "1", ascii "5", some ⟨0x45, none, ascii "0", .inr rfl, by decide, by decide⟩,
      by decide, by decide, by decide, by decide⟩, rfl⟩
  rw [writeJson_valid_iff oneFloat _ hryu, hparts]
  rintro (⟨part, hmem, hrefused⟩ | hclean)
  · simp only [mem_cons, not_mem_nil, or_false] at hmem
    rcases hmem with rfl | rfl | rfl <;> exact absurd hrefused (by decide)
  · exact hclean _ (.tail _ (.tail _ (.head _))) rfl

theorem writeJson_signalling :
    ¬ ∀ (value : PyValue Unit) (text : Bytes), writeJson oneFloat 0 value = .ok text →
      Json.Valid text := by
  intro h
  have hwritten : writeJson oneFloat 0 (.dict [(.str (plainText "price"), .decimal (.snan false 0))]) =
      .ok ([0x7b] ++ ascii "\"price\":sNaN" ++ [0x7d]) := rfl
  obtain ⟨-, json, hjson⟩ := h _ _ hwritten
  have hnone : Json.parse ([0x7b] ++ ascii "\"price\":sNaN" ++ [0x7d]) = none := by rfl
  cases hjson

end AstraApi.Response.Writer
