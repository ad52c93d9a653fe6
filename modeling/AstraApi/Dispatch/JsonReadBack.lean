import AstraApi.Dispatch.JsonParser

/-!
# Reading back what was written

The reader finds every value of `None`, booleans, integers, strings, lists and
dictionaries again in the text that `write_json` has for it, but for integers beyond 64
bits: those are written with all their digits.
-/

namespace AstraApi.JsonParser

open List
open Json (Document ReadsDocument Spells Member isIntegerLiteral integerOf memberText bracketed)
open Message (isDigit digitsValue)
open Response hiding writeJson writeElements writePairs
open Response.Writer

variable {F : Type*}

/-! ## Integers -/

theorem isIntegerLiteral_decimal (value : ℤ) : isIntegerLiteral (decimal value) = true := by
  have hdigit {b : Byte} (hb : isDigit b = true) : b ≠ 0x2e ∧ b ≠ 0x65 ∧ b ≠ 0x45 :=
    ⟨Json.ne_of_isDigit hb (by decide), Json.ne_of_isDigit hb (by decide),
      Json.ne_of_isDigit hb (by decide)⟩
  rw [isIntegerLiteral, all_eq_true, decimal_eq_digits]
  intro b hb
  rw [decide_eq_true_eq]
  cases mem_append.mp hb with
  | inl hsign =>
    split at hsign
    · rw [mem_singleton] at hsign
      subst hsign
      decide
    · cases hsign
  | inr hmem => exact hdigit (isDigit_digits _ b hmem)

theorem integerOf_decimal (value : ℤ) : integerOf (decimal value) = value := by
  have hvalue : digitsValue (digits value.natAbs) = value.natAbs := by
    rw [digits_eq_decimal, digitsValue_decimal]
  rw [integerOf, decimal_eq_digits]
  by_cases hneg : value < 0
  · rw [if_pos hneg, singleton_append, if_pos head?_cons, tail_cons, hvalue]
    omega
  · have hhead : (digits value.natAbs).head? ≠ some 0x2d := fun hhead =>
      Json.ne_of_isDigit (isDigit_digits _ _ (mem_of_mem_head? hhead)) (by decide) rfl
    rw [if_neg hneg, nil_append, if_neg hhead, hvalue]
    omega

theorem allFit_decimal {value : ℤ} : AllFit [decimal value] ↔ Fits value := by
  rw [AllFit, forall_mem_singleton, integerOf_decimal]
  exact forall_prop_of_true (isIntegerLiteral_decimal value)

/-- The text of an integer, whichever way it is written. -/
theorem writeJson_int {interp : Interpreter F} {depth : ℕ} {value : ℤ} {text : Bytes}
    (h : writeJson interp depth (.int value) = .ok text) : text = decimal value := by
  rw [writeJson] at h
  split at h
  · cases h
  · cases hlong : asLongLong value with
    | some val =>
      simp only [hlong] at h
      rw [← Except.ok.inj h, fastI64ToBuf_eq hlong]
    | none =>
      simp only [hlong, intStr] at h
      split at h
      · cases h
      · exact (Except.ok.inj h).symm

/-! ## What is carried -/

/-- The values that JSON has: `None`, booleans, integers, strings without half a surrogate
pair, lists, and dictionaries with such strings for keys. -/
def CarriedPart : PyValue F → Prop
  | .none | .bool _ | .int _ | .list _ => True
  | .str text => text.utf8.isSome = true
  | .dict items => (∀ item ∈ items, ∃ name : Text, item.1 = .str name ∧ name.utf8.isSome = true) ∧
      (items.map Prod.fst).Nodup
  | _ => False

/-- The value is built from such values, at most 64 deep. -/
def Carried (value : PyValue F) : Prop :=
  ∀ part ∈ parts 0 value, part.1 ≤ 64 ∧ CarriedPart part.2

def FitsPart : PyValue F → Prop
  | .int value => Fits value
  | _ => True

def PartsFit (parts : List (ℕ × PyValue F)) : Prop := ∀ part ∈ parts, FitsPart part.2

theorem partsFit_append {left right : List (ℕ × PyValue F)} :
    PartsFit (left ++ right) ↔ PartsFit left ∧ PartsFit right :=
  forall_mem_append

theorem partsFit_cons {depth : ℕ} {value : PyValue F} (hvalue : FitsPart value)
    {parts : List (ℕ × PyValue F)} : PartsFit ((depth, value) :: parts) ↔ PartsFit parts :=
  forall_mem_cons.trans (and_iff_right hvalue)

/-! ## The document of a value -/

section Echo

variable (doubles : Doubles F) (interp : Interpreter F)

/-- The document stands for the value: it is what is written, what `json.loads` reads as
the value, and what the reader accepts where the integers of the value fit. -/
structure Echo (depth : ℕ) (value : PyValue F) (document : Document) : Prop where
  spells : ∀ text, writeJson interp depth value = .ok text → Spells ReadsDocument text document
  loads : loads doubles document = value
  fits : AllFit (numbers document) ↔ PartsFit (parts depth value)
  accepted : AllFit (numbers document) → ∃ val, yyVal doubles document = some val

structure EchoItems (depth : ℕ) (items : List (PyValue F)) (documents : List Document) : Prop where
  spells : ∀ texts, writeElements interp depth items = .ok texts →
    List.Forall₂ (Spells ReadsDocument) texts documents
  loads : loadsItems doubles documents = items
  fits : AllFit (itemNumbers documents) ↔ PartsFit (itemParts depth items)
  accepted : AllFit (itemNumbers documents) → ∃ vals, yyItems doubles documents = some vals

structure EchoPairs (depth : ℕ) (items : List (Key × PyValue F))
    (members : List (Text × Document)) : Prop where
  spells : ∀ texts, writePairs interp depth items = .ok texts →
    List.Forall₂ (Spells (Member ReadsDocument)) texts members
  loads : (loadsMembers doubles members).map (fun item => (Key.str item.1, item.2)) = items
  fits : AllFit ((memberNumbers members).flatMap Prod.snd) ↔ PartsFit (pairParts depth items)
  accepted : AllFit ((memberNumbers members).flatMap Prod.snd) →
    ∃ vals, yyMembers doubles members = some vals

variable {doubles interp}

theorem echo_none (depth : ℕ) : Echo doubles interp depth .none .null where
  spells := by
    intro text h
    rw [writeJson] at h
    split at h
    · cases h
    · rw [← Except.ok.inj h]
      exact Json.spellsDocument_null
  loads := rfl
  fits := iff_of_true (forall_mem_nil _) (forall_mem_singleton.mpr trivial)
  accepted := fun _ => ⟨_, rfl⟩

theorem echo_bool (depth : ℕ) (value : Bool) :
    Echo doubles interp depth (.bool value) (.bool value) where
  spells := by
    intro text h
    rw [writeJson] at h
    split at h
    · cases h
    · rw [← Except.ok.inj h]
      exact Json.spellsDocument_bool value
  loads := rfl
  fits := iff_of_true (forall_mem_nil _) (forall_mem_singleton.mpr trivial)
  accepted := fun _ => ⟨_, rfl⟩

theorem echo_int (depth : ℕ) (value : ℤ) :
    Echo doubles interp depth (.int value) (.number (decimal value)) where
  spells := by
    intro text h
    rw [writeJson_int h, ← intNumeral_text]
    exact Json.spellsDocument_numeral (intNumeral value)
  loads := by
    rw [JsonParser.loads, if_pos (isIntegerLiteral_decimal value), integerOf_decimal]
  fits := by
    show AllFit [decimal value] ↔ PartsFit [(depth, .int value)]
    rw [allFit_decimal, PartsFit, forall_mem_singleton]
    exact Iff.rfl
  accepted := by
    intro h
    have hfits : Fits (integerOf (decimal value)) := by
      rw [integerOf_decimal]
      exact allFit_decimal.mp h
    obtain ⟨val, hread, -⟩ := readNum_of_fits doubles (isIntegerLiteral_decimal value) hfits
    exact ⟨val, hread⟩

theorem echo_str (depth : ℕ) {text : Text} (htext : text.utf8.isSome = true) :
    Echo doubles interp depth (.str text) (.string text) where
  spells := by
    intro out h
    rw [writeJson] at h
    split at h
    · cases h
    · obtain ⟨hencodable, rfl⟩ := writeString_eq_ok interp h
      exact Json.spellsDocument_string (spellsChars_escaped hencodable)
  loads := rfl
  fits := iff_of_true (forall_mem_nil _) (forall_mem_singleton.mpr trivial)
  accepted := fun _ => ⟨_, if_pos htext⟩

theorem echo_list {depth : ℕ} {items : List (PyValue F)} {documents : List Document}
    (h : EchoItems doubles interp (depth + 1) items documents) :
    Echo doubles interp depth (.list items) (.array documents) where
  spells := by
    intro text htext
    rw [writeJson] at htext
    split at htext
    · cases htext
    · cases helements : writeElements interp (depth + 1) items with
      | error error => rw [helements] at htext; cases htext
      | ok texts =>
        rw [helements] at htext
        rw [← show bracketed 0x5b 0x5d texts = text from Except.ok.inj htext]
        exact Json.spellsDocument_array (h.spells texts helements)
  loads := congrArg PyValue.list h.loads
  fits := by
    rw [numbers, parts]
    exact h.fits.trans (partsFit_cons (show FitsPart (.list items) from trivial)).symm
  accepted := by
    intro hfits
    obtain ⟨vals, hvals⟩ := h.accepted hfits
    exact ⟨.arr vals, by rw [yyVal, hvals, Option.map_some]⟩

theorem lastOfEach_of_nodup {α β : Type*} [DecidableEq α] {pairs : List (α × β)}
    (h : (pairs.map Prod.fst).Nodup) : Dict.lastOfEach pairs = pairs := by
  rw [← Dict.items_ofList, Dict.items_ofList_of_nodup h]

theorem echo_dict {depth : ℕ} {items : List (Key × PyValue F)} {members : List (Text × Document)}
    (hkeys : (items.map Prod.fst).Nodup)
    (h : EchoPairs doubles interp (depth + 1) items members) :
    Echo doubles interp depth (.dict items) (.object members) := by
  have hnodup : (members.map Prod.fst).Nodup := by
    rw [← h.loads, loadsMembers_eq, map_map, map_map] at hkeys
    exact List.Nodup.of_map Key.str (by rwa [map_map])
  have hloads : Dict.lastOfEach (loadsMembers doubles members) = loadsMembers doubles members := by
    rw [loadsMembers_eq, Dict.lastOfEach_map, lastOfEach_of_nodup hnodup]
  have hnumbers : Dict.lastOfEach (memberNumbers members) = memberNumbers members := by
    rw [memberNumbers_eq, Dict.lastOfEach_map, lastOfEach_of_nodup hnodup]
  constructor
  · intro text htext
    rw [writeJson] at htext
    split at htext
    · cases htext
    · cases hpairs : writePairs interp (depth + 1) items with
      | error error => rw [hpairs] at htext; cases htext
      | ok texts =>
        rw [hpairs] at htext
        rw [← show bracketed 0x7b 0x7d texts = text from Except.ok.inj htext]
        exact Json.spellsDocument_object (h.spells texts hpairs)
  · rw [JsonParser.loads, hloads, pyDict, h.loads]
  · rw [numbers, hnumbers, parts]
    exact h.fits.trans (partsFit_cons (show FitsPart (.dict items) from trivial)).symm
  · intro hfits
    rw [numbers, hnumbers] at hfits
    obtain ⟨vals, hvals⟩ := h.accepted hfits
    exact ⟨.obj vals, by rw [yyVal, hvals, Option.map_some]⟩

theorem echoItems_nil (depth : ℕ) : EchoItems doubles interp depth [] [] where
  spells := by
    intro texts h
    rw [← Except.ok.inj h]
    exact .nil
  loads := rfl
  fits := iff_of_true (forall_mem_nil _) (forall_mem_nil _)
  accepted := fun _ => ⟨_, rfl⟩

theorem echoItems_cons {depth : ℕ} {item : PyValue F} {items : List (PyValue F)}
    {document : Document} {documents : List Document} (hitem : Echo doubles interp depth item document)
    (hitems : EchoItems doubles interp depth items documents) :
    EchoItems doubles interp depth (item :: items) (document :: documents) where
  spells := by
    intro texts h
    rw [writeElements] at h
    cases hfirst : writeJson interp depth item with
    | error error => rw [hfirst] at h; cases h
    | ok text =>
      cases hmore : writeElements interp depth items with
      | error error => rw [hfirst, hmore] at h; cases h
      | ok more =>
        rw [hfirst, hmore] at h
        rw [← show text :: more = texts from Except.ok.inj h]
        exact .cons (hitem.spells text hfirst) (hitems.spells more hmore)
  loads := by rw [loadsItems, hitem.loads, hitems.loads]
  fits := by rw [itemNumbers, allFit_append, itemParts, partsFit_append, hitem.fits, hitems.fits]
  accepted := by
    intro h
    obtain ⟨hfirst, hmore⟩ := allFit_append.mp h
    obtain ⟨val, hval⟩ := hitem.accepted hfirst
    obtain ⟨vals, hvals⟩ := hitems.accepted hmore
    exact ⟨val :: vals, by rw [yyItems, hval, hvals]; rfl⟩

theorem echoPairs_nil (depth : ℕ) : EchoPairs doubles interp depth [] [] where
  spells := by
    intro texts h
    rw [← Except.ok.inj h]
    exact .nil
  loads := rfl
  fits := iff_of_true (forall_mem_nil _) (forall_mem_nil _)
  accepted := fun _ => ⟨_, rfl⟩

theorem echoPairs_cons {depth : ℕ} {name : Text} {value : PyValue F}
    {items : List (Key × PyValue F)} {document : Document} {members : List (Text × Document)}
    (hname : name.utf8.isSome = true) (hvalue : Echo doubles interp depth value document)
    (hitems : EchoPairs doubles interp depth items members) :
    EchoPairs doubles interp depth ((.str name, value) :: items) ((name, document) :: members) where
  spells := by
    intro texts h
    rw [writePairs] at h
    cases hkey : writeKey interp (.str name) with
    | error error => rw [hkey] at h; cases h
    | ok keyText =>
      cases hfirst : writeJson interp depth value with
      | error error => rw [hkey, hfirst] at h; cases h
      | ok text =>
        cases hmore : writePairs interp depth items with
        | error error => rw [hkey, hfirst, hmore] at h; cases h
        | ok more =>
          rw [hkey, hfirst, hmore] at h
          obtain ⟨hencodable, rfl⟩ := writeString_eq_ok interp hkey
          rw [← show memberText (escaped name.bytes) text :: more = texts from Except.ok.inj h]
          exact .cons (Json.spells_member (spellsChars_escaped hencodable)
            (hvalue.spells text hfirst)) (hitems.spells more hmore)
  loads := by rw [loadsMembers, map_cons, hvalue.loads, hitems.loads]
  fits := by
    rw [memberNumbers, flatMap_cons, allFit_append, pairParts, partsFit_append, hvalue.fits,
      hitems.fits]
  accepted := by
    intro h
    rw [memberNumbers, flatMap_cons] at h
    obtain ⟨hfirst, hmore⟩ := allFit_append.mp h
    obtain ⟨val, hval⟩ := hvalue.accepted hfirst
    obtain ⟨vals, hvals⟩ := hitems.accepted hmore
    refine ⟨(name, val) :: vals, ?_⟩
    rw [yyMembers, hval, hvals]
    exact if_pos hname

mutual

theorem exists_echo (depth : ℕ) (value : PyValue F)
    (h : ∀ part ∈ parts depth value, CarriedPart part.2) :
    ∃ document, Echo doubles interp depth value document := by
  have hself := h _ (self_mem_parts depth value)
  cases value with
  | none => exact ⟨_, echo_none depth⟩
  | bool value => exact ⟨_, echo_bool depth value⟩
  | int value => exact ⟨_, echo_int depth value⟩
  | str text => exact ⟨_, echo_str depth hself⟩
  | list items =>
    obtain ⟨documents, hitems⟩ := exists_echoItems (depth + 1) items (forall_mem_cons.mp h).2
    exact ⟨_, echo_list hitems⟩
  | dict items =>
    obtain ⟨hkeys, hnodup⟩ := hself
    obtain ⟨members, hmembers⟩ := exists_echoPairs (depth + 1) items hkeys (forall_mem_cons.mp h).2
    exact ⟨_, echo_dict hnodup hmembers⟩
  | _ => exact hself.elim

theorem exists_echoItems (depth : ℕ) (items : List (PyValue F))
    (h : ∀ part ∈ itemParts depth items, CarriedPart part.2) :
    ∃ documents, EchoItems doubles interp depth items documents := by
  cases items with
  | nil => exact ⟨_, echoItems_nil depth⟩
  | cons item items =>
    obtain ⟨hitem, hitems⟩ := forall_mem_append.mp h
    obtain ⟨document, hdocument⟩ := exists_echo depth item hitem
    obtain ⟨documents, hdocuments⟩ := exists_echoItems depth items hitems
    exact ⟨_, echoItems_cons hdocument hdocuments⟩

theorem exists_echoPairs (depth : ℕ) (items : List (Key × PyValue F))
    (hkeys : ∀ item ∈ items, ∃ name : Text, item.1 = .str name ∧ name.utf8.isSome = true)
    (h : ∀ part ∈ pairParts depth items, CarriedPart part.2) :
    ∃ members, EchoPairs doubles interp depth items members := by
  match items with
  | [] => exact ⟨_, echoPairs_nil depth⟩
  | (key, value) :: items =>
    obtain ⟨⟨name, rfl, hname⟩, hmore⟩ := forall_mem_cons.mp hkeys
    obtain ⟨hvalue, hitems⟩ := forall_mem_append.mp h
    obtain ⟨document, hdocument⟩ := exists_echo depth value hvalue
    obtain ⟨members, hmembers⟩ := exists_echoPairs depth items hmore hitems
    exact ⟨_, echoPairs_cons hname hdocument hmembers⟩

end

end Echo

/-! ## What is read back -/

theorem plain_of_carried {value : PyValue F} (h : CarriedPart value) : plainPart value := by
  cases value with
  | dict items =>
    intro item hitem
    obtain ⟨name, hname, hutf8⟩ := h.1 item hitem
    rw [hname, refusedKey, Option.isNone_eq_false_iff]
    exact hutf8
  | tuple items => exact h.elim
  | _ => exact h

theorem not_fails_intStr {interp : Interpreter F}
    (hlimit : interp.maxStrDigits = 0 ∨ 640 ≤ interp.maxStrDigits) {value : ℤ} (h : Fits value) :
    ¬ Fails (intStr interp value) := by
  have hlength : (digits value.natAbs).length ≤ 20 := by
    rw [digits, length_map, Nat.length_toDigits_le_iff (by decide) (by decide)]
    have hlow := h.1
    have hhigh := h.2
    omega
  rw [fails_intStr_iff]
  rintro ⟨hne, hlt⟩
  cases hlimit with
  | inl hzero => exact hne hzero
  | inr hlarge => omega

/-- The numbers of a text, without those of a member that a later one replaces. -/
def textNumbers (text : Bytes) : List Bytes :=
  match Json.parseDocument text with
  | some document => numbers document
  | none => []

variable {doubles : Doubles F} {interp : Interpreter F}

theorem yyjsonParse_eq_ok_iff {text : Bytes} {value : PyValue F} :
    yyjsonParseToPyobject doubles text = .ok value ↔
      text ≠ [] ∧ ∃ root, yyjsonReadOpts doubles text = some root ∧ valToPyobject root = value := by
  rw [yyjsonParseToPyobject]
  by_cases hempty : text = []
  · rw [if_pos hempty]
    exact iff_of_false (fun h => nomatch h) fun h => h.1 hempty
  · rw [if_neg hempty, and_iff_right hempty]
    cases yyjsonReadOpts doubles text with
    | none => exact iff_of_false (fun h => nomatch h) fun ⟨_, h, _⟩ => nomatch h
    | some root =>
      constructor
      · intro h
        exact ⟨root, rfl, Except.ok.inj h⟩
      · rintro ⟨_, hroot, rfl⟩
        cases hroot
        rfl

theorem jsonLoads_eq_iff {text : Bytes} {value : PyValue F}
    (h : yyjsonParseToPyobject doubles text = .ok value) :
    jsonLoads doubles text = some value ↔ AllFit (textNumbers text) := by
  obtain ⟨-, root, hroot, rfl⟩ := yyjsonParse_eq_ok_iff.mp h
  obtain ⟨document, hdocument, hval⟩ := Option.bind_eq_some_iff.mp hroot
  rw [jsonLoads, textNumbers, hdocument, Option.map_some, Option.some.injEq, eq_comm]
  exact decoded_yyVal doubles hval

theorem readBack_iff (hlimit : interp.maxStrDigits = 0 ∨ 640 ≤ interp.maxStrDigits)
    {value : PyValue F} (hcarried : Carried value) :
    (∃ text, writeJson interp 0 value = .ok text ∧
      yyjsonParseToPyobject doubles text = .ok value) ↔ PartsFit (parts 0 value) := by
  obtain ⟨document, hecho⟩ : ∃ document, Echo doubles interp 0 value document :=
    exists_echo 0 value fun part hmem => (hcarried part hmem).2
  have hread {text : Bytes} (htext : writeJson interp 0 value = .ok text) :
      yyjsonReadOpts doubles text = yyVal doubles document := by
    rw [yyjsonReadOpts, (hecho.spells text htext).parseDocument, Option.bind_some]
  rw [← hecho.fits]
  constructor
  · rintro ⟨text, htext, hparse⟩
    obtain ⟨-, root, hroot, hvalue⟩ := yyjsonParse_eq_ok_iff.mp hparse
    rw [hread htext] at hroot
    apply (decoded_yyVal doubles hroot).mp
    rw [hvalue, hecho.loads]
  · intro hfits
    obtain ⟨text, htext⟩ : ∃ text, writeJson interp 0 value = .ok text := by
      refine (fails_or_ok _).resolve_left fun hfails => ?_
      obtain ⟨part, hmem, hdeep | hpart⟩ := (fails_writeJson_iff interp 0 value).mp hfails
      · exact absurd hdeep (not_lt.mpr (hcarried part hmem).1)
      · rw [refusedPart_of_plain (plain_of_carried (hcarried part hmem).2)] at hpart
        · cases hpart
        · intro n hn
          have hpartFits := hecho.fits.mp hfits part hmem
          rw [hn] at hpartFits
          exact not_fails_intStr hlimit hpartFits
    obtain ⟨root, hroot⟩ := hecho.accepted hfits
    refine ⟨text, htext, yyjsonParse_eq_ok_iff.mpr ⟨?_, root, ?_, ?_⟩⟩
    · obtain ⟨b, tail, heq, -⟩ := (hecho.spells text htext).shown
      rw [heq]
      exact cons_ne_nil b tail
    · rw [hread htext, hroot]
    · rw [(decoded_yyVal doubles hroot).mpr hfits, hecho.loads]

/-- The reader makes of a text what `json.loads` makes of it, and of a text that
`write_json` wrote the value that it was written from, exactly when the integers fit in
64 bits.  No interpreter limits the digits of `str()` to fewer than 640. -/
theorem yyjsonParse_exact_iff (doubles : Doubles F) (interp : Interpreter F)
    (hlimit : interp.maxStrDigits = 0 ∨ 640 ≤ interp.maxStrDigits) :
    (∀ text value, yyjsonParseToPyobject doubles text = .ok value →
        (jsonLoads doubles text = some value ↔ AllFit (textNumbers text))) ∧
      ∀ value, Carried value → ((∃ text, writeJson interp 0 value = .ok text ∧
          yyjsonParseToPyobject doubles text = .ok value) ↔ PartsFit (parts 0 value)) :=
  ⟨fun _ _ => jsonLoads_eq_iff, fun _ => readBack_iff hlimit⟩

/-! ## Large integers -/

/-- The nearest of the integers with 53 significant bits, the even one of two. -/
def nearestDouble (n : ℕ) : ℕ :=
  let unit := 2 ^ (n.log2 - 52)
  let odd := n / unit % 2
  if unit < 2 * (n % unit) + odd then (n / unit + 1) * unit else n / unit * unit

def integerDoubles : Doubles ℤ where
  yyjson := fun literal =>
    if nearestDouble (integerOf literal).natAbs < 2 ^ 1024 then
      some ((integerOf literal).sign * nearestDouble (integerOf literal).natAbs)
    else none
  python := fun literal => (integerOf literal).sign * nearestDouble (integerOf literal).natAbs
  agree := by
    intro literal value h
    split at h
    · exact Option.some.inj h
    · cases h

def integerInterpreter : Interpreter ℤ where
  isnan := fun _ => false
  isinf := fun _ => false
  d2s := fun value => decimal value ++ ascii "E0"
  longLong := asLongLong
  significant := fun _ => oneFloat.significant ()
  maxStrDigits := 4300
  capitals := true
  simd := { avx2 := true, sse2 := true }

theorem yyjsonParse_exact_iff_large :
    ¬ ∃ text, writeJson integerInterpreter 0 (.list [.int (2 ^ 64)]) = .ok text ∧
      yyjsonParseToPyobject integerDoubles text = .ok (.list [.int (2 ^ 64)]) := by
  have hparts : parts 0 (.list [.int (2 ^ 64)] : PyValue ℤ) =
      [(0, .list [.int (2 ^ 64)]), (1, .int (2 ^ 64))] := rfl
  have hcarried : Carried (.list [.int (2 ^ 64)] : PyValue ℤ) := by
    rw [Carried, hparts]
    exact forall_mem_cons.mpr ⟨⟨by decide, trivial⟩, forall_mem_singleton.mpr ⟨by decide, trivial⟩⟩
  rw [(yyjsonParse_exact_iff integerDoubles integerInterpreter (.inr (by decide))).2 _ hcarried, hparts]
  intro h
  have hfits : Fits (2 ^ 64) := h _ (.tail _ (.head _))
  exact absurd hfits.2 (by decide)

theorem yyjsonParse_rounds :
    ¬ ((∀ text value, yyjsonParseToPyobject integerDoubles text = .ok value →
        jsonLoads integerDoubles text = some value) ∧
      ∀ value, Carried value → ∃ text, writeJson integerInterpreter 0 value = .ok text ∧
        yyjsonParseToPyobject integerDoubles text = .ok value) := by
  rintro ⟨h, -⟩
  have hdocument : Json.parseDocument (ascii "18446744073709551617") =
      some (.number (ascii "18446744073709551617")) := by rfl
  have hlarge : ¬ (isIntegerLiteral (ascii "18446744073709551617") = true ∧
      Fits (integerOf (ascii "18446744073709551617"))) := by decide +kernel
  have hdouble : integerDoubles.yyjson (ascii "18446744073709551617") =
      some 18446744073709551616 := by decide +kernel
  have hroot : yyjsonReadOpts integerDoubles (ascii "18446744073709551617") =
      some (.real 18446744073709551616) := by
    rw [yyjsonReadOpts, hdocument, Option.bind_some, yyVal, readNum_of_not_fits _ hlarge, hdouble,
      Option.map_some]
  have hread : yyjsonParseToPyobject integerDoubles (ascii "18446744073709551617") =
      .ok (.float 18446744073709551616) :=
    yyjsonParse_eq_ok_iff.mpr ⟨by decide, _, hroot, rfl⟩
  have hloads := h _ _ hread
  rw [jsonLoads, hdocument, Option.map_some, loads, if_pos (by decide)] at hloads
  cases hloads

end AstraApi.JsonParser
