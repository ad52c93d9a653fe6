import AstraApi.Response.Splitting
import AstraApi.Response.EscapedString
import AstraApi.Response.JsonNumber

/-!
# The bodies of errors

Three places write a message into a JSON body.  `build_http_error_response` escapes
all that needs it, the answer to a body that is no JSON escapes quotes and
backslashes, and the answer to an exception of `json.loads` escapes nothing.
-/

namespace AstraApi.Response

open List hiding beq_eq_decide
open Json (Escaper SpellsChars Spells Spoils Reads Member ReadsChars quoted memberText bracketed)
open Occurrence (firstOccurrence firstOccurrence_none_iff firstOccurrence_append
  firstOccurrence_append_self)

/-! ## What is written -/

/-- The body for a `detail`; callers write `Error` for one without UTF-8. -/
def httpErrorBody (detail : Text) : Bytes := errorBody (detail.utf8.getD (ascii "Error"))

/-- What `json.loads` raises: a `JSONDecodeError`, or another exception with its `str()`. -/
inductive LoadsError where
  | decode (msg : Text) (lineno colno pos : ℕ)
  | other (str : Text)

def numberText (n : ℕ) : Text := (Nat.toDigits 10 n).map fun c => Fin.ofNat 0x110000 c.toNat

def LoadsError.str : LoadsError → Text
  | .decode msg lineno colno pos =>
    msg ++ plainText ": line " ++ numberText lineno ++ plainText " column " ++ numberText colno ++
      plainText " (char " ++ numberText pos ++ plainText ")"
  | .other str => str

def LoadsError.message : LoadsError → Text
  | .decode msg _ _ _ => msg
  | .other str => str

/-- A message of `yyjson`; none of them speaks of a line. -/
structure ReadMessage where
  bytes : Bytes
  not_position : ¬ ascii ": line " <:+: bytes

/-- `yyjson_parse_raw_with_err`. -/
def ReadMessage.errMsg (message : ReadMessage) : Bytes :=
  if cString message.bytes = [] then ascii "Invalid JSON" else cString message.bytes

def stripPosition (message : Bytes) : Bytes :=
  match firstOccurrence (ascii ": line ") message with
  | some colonPos => message.take colonPos
  | none => message

/-- The message of the exception without its position, or that of `yyjson`. -/
def decodeErrorMessage (raised : Option LoadsError) (readMessage : ReadMessage) : Bytes :=
  let pyErrMsg :=
    match raised with
    | some error => cString (error.str.utf8.getD [])
    | none => []
  let pyErrMsg := stripPosition pyErrMsg
  if pyErrMsg = [] then readMessage.errMsg else pyErrMsg

def escapeQuotes (c : Byte) : Bytes :=
  if c = 0x22 then ascii "\\\"" else if c = 0x5c then ascii "\\\\" else [c]

def jsonErrPrefix : Bytes :=
  ascii "\x7b\"detail\":[\x7b\"type\":\"json_invalid\",\"loc\":[\"body\",1],\"msg\":\"JSON decode error\",\"input\":\x7b\x7d,\"ctx\":\x7b\"error\":\""

def jsonErrSuffix : Bytes := ascii "\"\x7d\x7d]\x7d"

def jsonDecodeErrorBody (raised : Option LoadsError) (readMessage : ReadMessage) : Bytes :=
  jsonErrPrefix ++ (cString (decodeErrorMessage raised readMessage)).flatMap escapeQuotes ++
    jsonErrSuffix

def jsonLoadsErrorBody (error : LoadsError) : Bytes :=
  ascii "\x7b\"detail\":\"" ++ cString (error.str.utf8.getD []) ++ ascii "\"\x7d"

/-! ## What is read -/

def HasDetail (body : Bytes) (text : Text) : Prop :=
  ∃ members, Json.parse body = some (.object members) ∧ (plainText "detail", .string text) ∈ members

def decodeErrorJson (text : Text) : Json :=
  .object [(plainText "detail", .array [.object
    [(plainText "type", .string (plainText "json_invalid")),
      (plainText "loc", .array [.string (plainText "body"), .number ((1 : ℤ) : ℚ)]),
      (plainText "msg", .string (plainText "JSON decode error")), (plainText "input", .object []),
      (plainText "ctx", .object [(plainText "error", .string text)])]])]

theorem jsonEscapeByte_escaper : Escaper jsonEscapeByte := by
  refine ⟨fun b => ?_⟩
  rw [jsonEscapeByte]
  split_ifs with hquote hslash hn hr ht hlow
  · refine .inr ⟨by rw [hquote]; decide, rfl, fun rest => ?_⟩
    rw [hquote]
    rfl
  · refine .inr ⟨by rw [hslash]; decide, rfl, fun rest => ?_⟩
    rw [hslash]
    rfl
  · refine .inr ⟨by rw [hn]; decide, rfl, fun rest => ?_⟩
    rw [hn]
    rfl
  · refine .inr ⟨by rw [hr]; decide, rfl, fun rest => ?_⟩
    rw [hr]
    rfl
  · refine .inr ⟨by rw [ht]; decide, rfl, fun rest => ?_⟩
    rw [ht]
    rfl
  · have hsmall : b.toNat < 0x20 := UInt8.lt_iff_toNat_lt.mp hlow
    exact .inr ⟨by omega, rfl, fun rest => readUnicode_hexDigits b.toNat_lt _⟩
  · exact .inl ⟨rfl, hquote, hslash⟩

theorem le_of_jsonEscapeByte {b : Byte} (h : jsonEscapeByte b = [b]) : 0x20 ≤ b := by
  have hmore {first : Byte} {more : Bytes} (hne : more ≠ []) : first :: more ≠ [b] :=
    fun heq => hne (List.cons.inj heq).2
  rw [jsonEscapeByte] at h
  split_ifs at h with hquote hslash hn hr ht hlow
  · exact (hmore (cons_ne_nil _ _) h).elim
  · exact (hmore (cons_ne_nil _ _) h).elim
  · exact (hmore (cons_ne_nil _ _) h).elim
  · exact (hmore (cons_ne_nil _ _) h).elim
  · exact (hmore (cons_ne_nil _ _) h).elim
  · exact (hmore (cons_ne_nil _ _) h).elim
  · exact UInt8.not_lt.mp hlow

theorem escapeQuotes_escaper : Escaper escapeQuotes := by
  refine ⟨fun b => ?_⟩
  rw [escapeQuotes]
  split_ifs with hquote hslash
  · refine .inr ⟨by rw [hquote]; decide, rfl, fun rest => ?_⟩
    rw [hquote]
    rfl
  · refine .inr ⟨by rw [hslash]; decide, rfl, fun rest => ?_⟩
    rw [hslash]
    rfl
  · exact .inl ⟨rfl, hquote, hslash⟩

/-- What stands in a string without an escape. -/
def Plain (text : Text) : Prop := ∀ c ∈ text, 0x20 ≤ c.val ∧ c.val ≠ 0x22 ∧ c.val ≠ 0x5c

instance (text : Text) : Decidable (Plain text) := List.decidableBAll _ _

theorem plain_iff {text : Text} (h : text.Encodable) :
    Plain text ↔ ∀ b ∈ text.bytes, 0x20 ≤ b ∧ b ≠ 0x22 ∧ b ≠ 0x5c := by
  rw [Text.forall_mem_bytes_iff (fun b hb => ?_) h]
  · refine forall₂_congr fun c _ => ?_
    by_cases hascii : c.val < 128
    · have hnat : (UInt8.ofNat c.val).toNat = c.val := by
        rw [UInt8.toNat_ofNat']
        omega
      simp only [hascii, forall_const, UInt8.le_iff_toNat_le, ne_eq, ← UInt8.toNat_inj, hnat]
      rfl
    · omega
  · exact ⟨le_trans (by decide) hb, fun heq => absurd (heq ▸ hb) (by decide),
      fun heq => absurd (heq ▸ hb) (by decide)⟩

theorem spellsChars_plain {text : Text} (hencodable : text.Encodable) (hplain : Plain text) :
    SpellsChars text.bytes text := by
  have hbytes := (plain_iff hencodable).mp hplain
  have hself : text.bytes.flatMap escapeQuotes = text.bytes := by
    have hkept : text.bytes.flatMap escapeQuotes = text.bytes.flatMap fun b => [b] := by
      refine flatMap_congr fun b hb => ?_
      rw [escapeQuotes, if_neg (hbytes b hb).2.1, if_neg (hbytes b hb).2.2]
    rw [hkept, flatMap_singleton']
  have hspells := escapeQuotes_escaper.spellsChars hencodable fun b hb _ => (hbytes b hb).1
  rwa [hself] at hspells

/-! ## The answers 400 of the dispatcher -/

theorem spellsChars_literal (literal : String) (h : Plain (plainText literal) ∧
    (plainText literal).Encodable ∧ (plainText literal).bytes = ascii literal) :
    SpellsChars (ascii literal) (plainText literal) :=
  h.2.2 ▸ spellsChars_plain h.2.1 h.1

def detailBody (escaped : Bytes) : Bytes :=
  bracketed 0x7b 0x7d [memberText (ascii "detail") (quoted escaped)]

theorem detailBody_eq (escaped : Bytes) :
    detailBody escaped = ascii "\x7b\"detail\":\"" ++ (escaped ++ ascii "\"\x7d") := by
  simp only [detailBody, bracketed, memberText, quoted, intercalate_singleton, append_assoc]
  rfl

theorem spells_detailBody {escaped : Bytes} {text : Text} (h : SpellsChars escaped text) :
    Json.parse (detailBody escaped) = some (.object [(plainText "detail", .string text)]) := by
  have hname : SpellsChars (ascii "detail") (plainText "detail") := spellsChars_literal _ (by decide)
  exact (Json.spells_object (.cons (Json.spells_member hname (Json.spells_string h)) .nil)).parse

theorem hasDetail_detailBody {escaped : Bytes} {text other : Text} (h : SpellsChars escaped text) :
    HasDetail (detailBody escaped) other ↔ other = text := by
  rw [HasDetail, spells_detailBody h]
  constructor
  · rintro ⟨members, hparse, hmem⟩
    cases hparse
    rw [mem_singleton] at hmem
    exact Json.string.inj (Prod.mk.inj hmem).2
  · rintro rfl
    exact ⟨_, rfl, mem_singleton_self _⟩

theorem httpErrorBody_iff (message : Text) :
    HasDetail (httpErrorBody message) message ↔ message.Encodable ∧ 0 ∉ message := by
  have hbody (detail : Bytes) :
      errorBody detail = detailBody ((cString detail).flatMap jsonEscapeByte) := by
    rw [errorBody, detailBody_eq]
    simp only [append_assoc]
    rfl
  have hspells {text : Text} (h : text.Encodable) :
      SpellsChars (text.bytes.flatMap jsonEscapeByte) text :=
    jsonEscapeByte_escaper.spellsChars h fun _ _ => le_of_jsonEscapeByte
  rw [httpErrorBody, hbody]
  cases hutf8 : message.utf8 with
  | some bytes =>
    obtain ⟨hencodable, rfl⟩ := Text.utf8_eq_some_iff.mp hutf8
    have hcut : cString message.bytes = Text.bytes (message.takeWhile (· != 0)) := by
      rw [← (Text.bytes_takeWhile 0 (by decide) hencodable).1, cString]
      congr 1
      simp [bne, beq_eq_decide]
    have hpart : Text.Encodable (message.takeWhile (· != 0)) :=
      fun c hc => hencodable c (takeWhile_subset _ hc)
    rw [Option.getD_some, hcut, hasDetail_detailBody (hspells hpart), eq_comm,
      takeWhile_eq_self_iff]
    simp only [hencodable, true_and, bne_iff_ne]
    exact ⟨fun h hmem => h 0 hmem rfl, fun h c hc heq => h (heq ▸ hc)⟩
  | none =>
    have hnot : ¬ message.Encodable := fun h => by
      rw [Text.utf8_eq_some_iff.mpr ⟨h, rfl⟩] at hutf8
      cases hutf8
    have herror : SpellsChars ((cString (ascii "Error")).flatMap jsonEscapeByte)
        (plainText "Error") :=
      @hspells (plainText "Error") (by decide)
    rw [Option.getD_none, hasDetail_detailBody herror]
    constructor
    · rintro rfl
      exact absurd (by decide) hnot
    · rintro ⟨h, -⟩
      exact absurd h hnot

/-- What is not escaped is read back as it is only where nothing needs to be escaped. -/
theorem hasDetail_unescaped_iff {data : Bytes} {text : Text}
    (hlength : data.length ≤ text.bytes.length) :
    HasDetail (detailBody data) text ↔ text.Encodable ∧ Plain text ∧ text.bytes = data := by
  constructor
  · rintro ⟨members, hparse, hmem⟩
    obtain ⟨rest, hreads, -⟩ := Json.parse_eq_some_iff.mp hparse
    have hbody : Json.skipSpace (detailBody data) =
        0x7b :: (memberText (ascii "detail") (quoted data) ++ [0x7d]) := by
      rw [detailBody, (Json.shown_bracketed (by decide) _ _).skipSpace]
      simp only [bracketed, intercalate_singleton]
      rfl
    rw [hbody] at hreads
    obtain ⟨members, heq, hitems⟩ := Json.reads_object_iff.mp hreads
    cases heq
    -- The first member holds the data, the others are read from what stands in it.
    have hfirst {entry : Text × Json} {tail : Bytes}
        (h : Member _ _ _ _) :
        Reads (quoted data ++ [0x7d]) entry.2 tail :=
      (Json.reads_of_member (spellsChars_literal "detail" (by decide))
        (Json.shown_quoted _) h).2
    have hquoted : (quoted data ++ [0x7d]).length = data.length + 3 := by
      rw [Json.quoted_append, length_cons, length_append]
      rfl
    have hself {tail : Bytes} (hpos : 0 < (Json.skipSpace tail).length)
        (h : Reads (quoted data ++ [0x7d]) (.string text) tail) :
        text.Encodable ∧ Plain text ∧ text.bytes = data := by
      have htail := Json.length_skipSpace_le tail
      rw [Json.quoted_append] at h
      obtain ⟨chars, heq, hchars⟩ := Json.reads_string_iff.mp h
      cases heq
      rcases Json.length_of_readsChars hchars with ⟨heq, hencodable, hplain⟩ | hshort
      · refine ⟨hencodable, hplain, ?_⟩
        have hsum := congrArg List.length heq
        simp only [length_append, length_cons, length_nil] at hsum
        exact (append_inj_left heq (by omega)).symm
      · simp only [length_append, length_cons, length_nil] at hshort
        omega
    cases hitems with
    | empty => cases hmem
    | items hopen hsequence =>
      cases hsequence with
      | last hitem hclose =>
        rw [mem_singleton] at hmem
        subst hmem
        exact hself (by rw [hclose]; exact Nat.zero_lt_succ _) (hfirst hitem)
      | @more _ tail next _ _ _ hitem hcomma hothers =>
        rcases mem_cons.mp hmem with rfl | hmem
        · exact hself (by rw [hcomma]; exact Nat.zero_lt_succ _) (hfirst hitem)
        · have hlater := Json.length_of_sequence_string hothers hmem
          have hshort := (Json.exact_readValue (hfirst hitem)).1.2
          have hnext := Json.length_skipSpace_le next
          have htail := Json.length_skipSpace_le tail
          rw [hcomma, length_cons] at htail
          omega
  · rintro ⟨hencodable, hplain, rfl⟩
    exact (hasDetail_detailBody (spellsChars_plain hencodable hplain)).mpr rfl

theorem jsonLoadsErrorBody_iff (error : LoadsError) :
    HasDetail (jsonLoadsErrorBody error) error.str ↔ error.str.Encodable ∧ Plain error.str := by
  have hbody : jsonLoadsErrorBody error = detailBody (cString (error.str.utf8.getD [])) := by
    rw [jsonLoadsErrorBody, detailBody_eq, append_assoc]
  rw [hbody]
  cases hutf8 : error.str.utf8 with
  | some bytes =>
    obtain ⟨hencodable, rfl⟩ := Text.utf8_eq_some_iff.mp hutf8
    rw [Option.getD_some, hasDetail_unescaped_iff (cString_isInitial _).length_le]
    refine and_congr_right fun _ => and_iff_left_of_imp fun hplain => ?_
    rw [eq_comm, cString_eq_self_iff]
    intro hzero
    exact absurd ((plain_iff hencodable).mp hplain 0 hzero).1 (by decide)
  | none =>
    have hnot : ¬ error.str.Encodable := fun h => by
      rw [Text.utf8_eq_some_iff.mpr ⟨h, rfl⟩] at hutf8
      cases hutf8
    rw [hasDetail_unescaped_iff (Nat.zero_le _)]
    exact and_congr_right fun h => absurd h hnot

/-! ## The answer 422 -/

def decodeErrorText (escaped : Bytes) : Bytes :=
  bracketed 0x7b 0x7d [memberText (ascii "detail") (bracketed 0x5b 0x5d [bracketed 0x7b 0x7d
    [memberText (ascii "type") (quoted (ascii "json_invalid")),
      memberText (ascii "loc") (bracketed 0x5b 0x5d [quoted (ascii "body"), decimal 1]),
      memberText (ascii "msg") (quoted (ascii "JSON decode error")),
      memberText (ascii "input") (bracketed 0x7b 0x7d []),
      memberText (ascii "ctx") (bracketed 0x7b 0x7d
        [memberText (ascii "error") (quoted escaped)])]])]

set_option maxRecDepth 4000 in
theorem decodeErrorText_eq (escaped : Bytes) :
    decodeErrorText escaped = jsonErrPrefix ++ (escaped ++ jsonErrSuffix) := by
  have hone : decimal 1 = ascii "1" := by decide
  simp only [decodeErrorText, bracketed, memberText, quoted, intercalate_nil,
    intercalate_singleton, intercalate_cons_cons, append_assoc, hone]
  rfl

theorem spells_decodeErrorMembers : List.Forall₂ (Spells (Member Reads))
    [memberText (ascii "type") (quoted (ascii "json_invalid")),
      memberText (ascii "loc") (bracketed 0x5b 0x5d [quoted (ascii "body"), decimal 1]),
      memberText (ascii "msg") (quoted (ascii "JSON decode error")),
      memberText (ascii "input") (bracketed 0x7b 0x7d [])]
    [(plainText "type", .string (plainText "json_invalid")),
      (plainText "loc", .array [.string (plainText "body"), .number ((1 : ℤ) : ℚ)]),
      (plainText "msg", .string (plainText "JSON decode error")), (plainText "input", .object [])] := by
  have hstring (literal : String) (h : Plain _ ∧
      (plainText _).Encodable ∧ (plainText _).bytes = ascii _) :
      Spells Reads (quoted (ascii literal)) (.string (plainText literal)) :=
    Json.spells_string (spellsChars_literal _ h)
  refine .cons (Json.spells_member (spellsChars_literal _ (by decide)) (hstring _ (by decide))) ?_
  refine .cons (Json.spells_member (spellsChars_literal _ (by decide)) ?_) ?_
  · exact Json.spells_array (.cons (hstring _ (by decide)) (.cons (spells_decimal 1) .nil))
  refine .cons (Json.spells_member (spellsChars_literal _ (by decide)) (hstring _ (by decide))) ?_
  refine .cons (Json.spells_member (spellsChars_literal _ (by decide)) ?_) .nil
  exact Json.spells_object .nil

theorem spells_decodeErrorText {escaped : Bytes} {text : Text} (h : SpellsChars escaped text) :
    Spells Reads (decodeErrorText escaped) (decodeErrorJson text) := by
  have hcontext := Json.spells_object (.cons (Json.spells_member
    (spellsChars_literal "error" (by decide)) (Json.spells_string h)) .nil)
  have hmembers := rel_append spells_decodeErrorMembers (.cons (Json.spells_member
    (spellsChars_literal "ctx" (by decide)) hcontext) .nil)
  exact Json.spells_object (.cons (Json.spells_member
    (spellsChars_literal "detail" (by decide)) (Json.spells_array (.cons (Json.spells_object hmembers) .nil)))
    .nil)

theorem spoils_decodeErrorText {escaped : Bytes}
    (h : ∀ rest chars tail, ¬ ReadsChars (escaped ++ 0x22 :: rest) chars tail) :
    Spoils Reads (decodeErrorText escaped) := by
  have hcontext := Json.spoils_object_last .nil (Json.spoils_member
    (spellsChars_literal "error" (by decide)) (Json.spoils_string h))
  have herror := Json.spoils_object_last spells_decodeErrorMembers (Json.spoils_member
    (spellsChars_literal "ctx" (by decide)) hcontext)
  have hdetail := Json.spoils_array (forall_mem_singleton.mpr (.inr herror))
    ⟨_, mem_singleton_self _, herror⟩
  exact Json.spoils_object_last .nil (Json.spoils_member
    (spellsChars_literal "detail" (by decide)) hdetail)

theorem parse_decodeErrorText_iff {data : Bytes} {text : Text} :
    Json.parse (decodeErrorText (data.flatMap escapeQuotes)) = some (decodeErrorJson text) ↔
      text.Encodable ∧ text.bytes = data ∧ ∀ b ∈ data, 0x20 ≤ b := by
  have hkept (b : Byte) : (escapeQuotes b = [b] → 0x20 ≤ b) ↔ 0x20 ≤ b := by
    refine ⟨fun h => ?_, fun h _ => h⟩
    by_cases hquote : b = 0x22
    · rw [hquote]
      decide
    · by_cases hslash : b = 0x5c
      · rw [hslash]
        decide
      · exact h (by rw [escapeQuotes, if_neg hquote, if_neg hslash])
  constructor
  · intro hparse
    by_cases hreads : ∃ rest chars tail,
        ReadsChars (data.flatMap escapeQuotes ++ 0x22 :: rest) chars tail
    · obtain ⟨rest, chars, tail, hreads⟩ := hreads
      obtain ⟨hencodable, rfl, -, hplain⟩ := escapeQuotes_escaper.eq_of_readsChars hreads
      rw [(spells_decodeErrorText (escapeQuotes_escaper.spellsChars hencodable hplain)).parse] at hparse
      simp only [decodeErrorJson, Option.some.injEq, Json.object.injEq, List.cons.injEq,
        Prod.mk.injEq, Json.array.injEq, Json.string.injEq, true_and, and_true] at hparse
      subst hparse
      exact ⟨hencodable, rfl, fun b hb => (hkept b).mp (hplain b hb)⟩
    · have hspoils := spoils_decodeErrorText fun rest chars tail h => hreads ⟨rest, chars, tail, h⟩
      rw [hspoils.parse] at hparse
      cases hparse
  · rintro ⟨hencodable, rfl, hplain⟩
    exact (spells_decodeErrorText (escapeQuotes_escaper.spellsChars hencodable
      fun b hb _ => hplain b hb)).parse

theorem stripPosition_eq_self {message : Bytes} (h : ¬ ascii ": line " <:+: message) :
    stripPosition message = message := by
  rw [stripPosition, (firstOccurrence_none_iff (by decide)).mpr h]

theorem length_stripPosition_lt {message : Bytes} (h : ascii ": line " <:+: message) :
    (stripPosition message).length < message.length := by
  cases hfirst : firstOccurrence (ascii ": line ") message with
  | none => exact absurd h ((firstOccurrence_none_iff (by decide)).mp hfirst)
  | some colonPos =>
    have hfits := (((Occurrence.firstOccurrence_eq_some_iff (by decide)).mp hfirst).1).add_length_le
      (by decide)
    rw [stripPosition, hfirst, length_take]
    have hpattern : (ascii ": line ").length = 7 := by decide
    omega

theorem stripPosition_append (message more : Bytes) :
    stripPosition (message ++ ascii ": line " ++ more) = stripPosition message := by
  rw [stripPosition, stripPosition]
  cases hfirst : firstOccurrence (ascii ": line ") message with
  | none =>
    have hself : firstOccurrence (ascii ": line ") (message ++ ascii ": line ") =
        some message.length := firstOccurrence_append_self (by decide) hfirst
    rw [firstOccurrence_append (by decide) hself, append_assoc]
    exact take_left
  | some colonPos =>
    have hfits := (((Occurrence.firstOccurrence_eq_some_iff (by decide)).mp hfirst).1).add_length_le
      (by decide)
    rw [append_assoc, firstOccurrence_append (by decide) hfirst]
    exact take_append_of_le_length (by omega)

/-- A text of UTF-8 without control characters. -/
def Printable (text : Text) : Prop := text.Encodable ∧ ∀ c ∈ text, 0x20 ≤ c.val

instance (text : Text) : Decidable (Printable text) :=
  @instDecidableAnd _ _ _ (List.decidableBAll _ _)

theorem Printable.append {left right : Text} (hleft : Printable left) (hright : Printable right) :
    Printable (left ++ right) :=
  ⟨forall_mem_append.mpr ⟨hleft.1, hright.1⟩, forall_mem_append.mpr ⟨hleft.2, hright.2⟩⟩

theorem printable_iff {text : Text} (h : text.Encodable) :
    Printable text ↔ ∀ b ∈ text.bytes, 0x20 ≤ b := by
  rw [Printable, Text.forall_mem_bytes_iff (fun b hb => ?_) h, and_iff_right h]
  · refine forall₂_congr fun c _ => ?_
    by_cases hascii : c.val < 128
    · rw [forall_prop_of_true hascii, UInt8.le_iff_toNat_le, UInt8.toNat_ofNat',
        Nat.mod_eq_of_lt (by omega)]
      rfl
    · exact iff_of_true (by omega) fun h => absurd h hascii
  · exact le_trans (by decide) hb

theorem Printable.cString_bytes {text : Text} (h : Printable text) :
    cString text.bytes = text.bytes := by
  rw [cString_eq_self_iff]
  intro hzero
  exact absurd ((printable_iff h.1).mp h 0 hzero) (by decide)

theorem printable_numberText (n : ℕ) : Printable (numberText n) := by
  refine ⟨forall_mem_map.mpr fun digit _ => isSurrogate_toNat _,
    forall_mem_map.mpr fun digit hdigit => ?_⟩
  have hbounds := Char.isDigit_iff_toNat.mp
    (Nat.isDigit_of_mem_toDigits (by decide) (by decide) hdigit)
  have hzero : '0'.toNat = 48 := rfl
  rw [val_toNat]
  omega

/-- What `str()` writes behind the message. -/
def LoadsError.position : LoadsError → Text
  | .decode _ lineno colno pos =>
    plainText ": line " ++ (numberText lineno ++ plainText " column " ++ numberText colno ++
      plainText " (char " ++ numberText pos ++ plainText ")")
  | .other _ => []

theorem LoadsError.str_eq (error : LoadsError) : error.str = error.message ++ error.position := by
  cases error with
  | decode msg lineno colno pos => simp [str, message, position]
  | other str => exact (append_nil _).symm

theorem LoadsError.printable_position (error : LoadsError) : Printable error.position := by
  have hcolumn : Printable (plainText " column ") := by decide
  have hchar : Printable (plainText " (char ") := by decide
  have hlast : Printable (plainText ")") := by decide
  cases error with
  | decode msg lineno colno pos =>
    have hnumber := printable_numberText
    exact .append (by decide) ((((((hnumber _).append hcolumn).append (hnumber _)).append
      hchar).append (hnumber _)).append hlast)
  | other str => exact ⟨forall_mem_nil _, forall_mem_nil _⟩

theorem LoadsError.stripPosition_str {error : LoadsError} (h : Printable error.message) :
    stripPosition (cString (error.str.utf8.getD [])) = stripPosition error.message.bytes := by
  have hstr : Printable error.str := error.str_eq ▸ h.append error.printable_position
  rw [Text.utf8_eq_some_iff.mpr ⟨hstr.1, rfl⟩, Option.getD_some, hstr.cString_bytes,
    error.str_eq, Text.bytes_append]
  cases error with
  | decode msg lineno colno pos =>
    have hline : (plainText ": line ").bytes = ascii ": line " := by decide
    rw [position, Text.bytes_append, hline, ← append_assoc]
    exact stripPosition_append _ _
  | other str => rw [position, Text.bytes_nil, append_nil]

theorem ReadMessage.errMsg_ne_nil (readMessage : ReadMessage) : readMessage.errMsg ≠ [] := by
  rw [errMsg]
  split
  · decide
  · assumption

theorem ReadMessage.not_position_errMsg (readMessage : ReadMessage) :
    ¬ ascii ": line " <:+: readMessage.errMsg := by
  rw [errMsg]
  split
  · decide
  · exact fun h => readMessage.not_position (h.trans (cString_isInitial _).isInfix)

theorem ReadMessage.cString_errMsg (readMessage : ReadMessage) :
    cString readMessage.errMsg = readMessage.errMsg := by
  rw [cString_eq_self_iff, errMsg]
  split
  · decide
  · exact zero_notMem_cString _

theorem jsonDecodeErrorBody_iff (error : LoadsError) (readMessage : ReadMessage) :
    Json.parse (jsonDecodeErrorBody (some error) readMessage) =
        some (decodeErrorJson error.message) ↔
      Printable error.message ∧ error.message ≠ [] ∧
        ¬ ascii ": line " <:+: error.message.bytes := by
  have hbody : jsonDecodeErrorBody (some error) readMessage = decodeErrorText
      ((cString (decodeErrorMessage (some error) readMessage)).flatMap escapeQuotes) := by
    rw [jsonDecodeErrorBody, decodeErrorText_eq, append_assoc]
  rw [hbody, parse_decodeErrorText_iff]
  have hmessage (h : Printable error.message) : decodeErrorMessage (some error) readMessage =
      if stripPosition error.message.bytes = [] then readMessage.errMsg
      else stripPosition error.message.bytes := by
    rw [decodeErrorMessage]
    simp [LoadsError.stripPosition_str h]
  constructor
  · rintro ⟨hencodable, hbytes, hlow⟩
    have hprintable : Printable error.message := (printable_iff hencodable).mpr (hbytes ▸ hlow)
    rw [hmessage hprintable] at hbytes
    split at hbytes
    · -- The message of the reader has no position, so that nothing was stripped.
      next hempty =>
      rw [readMessage.cString_errMsg] at hbytes
      have hnot : ¬ ascii ": line " <:+: error.message.bytes :=
        hbytes ▸ readMessage.not_position_errMsg
      rw [stripPosition_eq_self hnot] at hempty
      exact absurd (hbytes.symm.trans hempty) readMessage.errMsg_ne_nil
    · next hne =>
      refine ⟨hprintable, fun hnil => ?_, fun hline => ?_⟩
      · rw [hnil] at hne
        exact hne (by decide)
      · have hshort := length_stripPosition_lt hline
        have hcut := (cString_isInitial (stripPosition error.message.bytes)).length_le
        rw [← hbytes] at hcut
        omega
  · rintro ⟨hprintable, hne, hnot⟩
    have hbytes : error.message.bytes ≠ [] := by
      obtain ⟨c, more, heq⟩ := exists_cons_of_ne_nil hne
      rw [heq, Text.bytes_cons]
      exact append_ne_nil_of_left_ne_nil (encode_ne_nil c) _
    rw [hmessage hprintable, stripPosition_eq_self hnot, if_neg hbytes, hprintable.cString_bytes]
    exact ⟨hprintable.1, rfl, (printable_iff hprintable.1).mp hprintable⟩

/-! ## The three bodies -/

/-- Each body has its message under its own condition. -/
theorem errorBodies_iff (message : Text) (error : LoadsError) (readMessage : ReadMessage) :
    (HasDetail (httpErrorBody message) message ↔ message.Encodable ∧ 0 ∉ message) ∧
      (Json.parse (jsonDecodeErrorBody (some error) readMessage) =
          some (decodeErrorJson error.message) ↔
        Printable error.message ∧ error.message ≠ [] ∧
          ¬ ascii ": line " <:+: error.message.bytes) ∧
      (HasDetail (jsonLoadsErrorBody error) error.str ↔ error.str.Encodable ∧ Plain error.str) :=
  ⟨httpErrorBody_iff _, jsonDecodeErrorBody_iff _ _, jsonLoadsErrorBody_iff _⟩

/-- A quote ends the detail of the answer to an exception of `json.loads`. -/
theorem errorBodies_quote :
    ¬ ∀ (message : Text) (readMessage : ReadMessage), HasDetail (httpErrorBody message) message ∧
        Json.parse (jsonDecodeErrorBody (some (.other message)) readMessage) =
          some (decodeErrorJson message) ∧
        HasDetail (jsonLoadsErrorBody (.other message)) message := by
  intro h
  obtain ⟨-, -, members, hparse, -⟩ := h (plainText "\"") ⟨ascii "unexpected end of data", by decide⟩
  have hnone : Json.parse (jsonLoadsErrorBody (.other (plainText "\""))) = none := by decide +kernel
  cases hparse

end AstraApi.Response
