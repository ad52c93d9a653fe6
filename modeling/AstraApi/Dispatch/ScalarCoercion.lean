import AstraApi.Dispatch.TrustedHost
import AstraApi.Dispatch.QueryParsers
import AstraApi.Lib.Decimal

/-!
# Coercing scalar parameters

`batch_coerce_scalars` and `batch_extract_params_inline` turn the strings of declared
parameters into numbers and truth values.  Both read an integer with `strtoll` and look
only at its end pointer.  A string without an encoding keeps its place, but the exception
that its encoding has raised stays pending and turns the call into a `SystemError`.
-/

namespace AstraApi.Dispatch

open List
open Decimal (readWhole denoted InRange)

/-- Python values that a parameter may have; `F` is the type of its floats. -/
inductive Scalar (F : Type) where
  | str (text : Text)
  | int (value : ℤ)
  | float (value : F)
  | bool (value : Bool)
  | list (items : List (Scalar F))
  | object (id : ℕ)

abbrev Dict (F : Type) := Text → Option (Scalar F)

/-- A dictionary as far as it is filled, and whether an exception is pending. -/
structure Filling (F : Type) where
  dict : Dict F
  pending : Bool := false

inductive CallError where
  | systemError
  deriving DecidableEq

/-- What the interpreter makes of a result. -/
def Filling.result {F : Type} (filling : Filling F) : Except CallError (Dict F) :=
  if filling.pending then .error .systemError else .ok filling.dict

def Filling.set {F : Type} (filling : Filling F) (name : Text) (value : Scalar F) : Filling F :=
  { filling with dict := Function.update filling.dict name (some value) }

section Coercion

variable {F : Type} (strtod : Bytes → Option F)

/-! ## `batch_coerce_scalars` -/

def pyString (s : Bytes) : Option (Scalar F) := (Text.ofUtf8 s).map .str

def coerceToInt (s : Bytes) : Option (Scalar F) :=
  match readWhole s with
  | some v => some (.int v)
  | none => pyString s

/-- `strtod` gives the number when its end pointer is at the end of the text. -/
def coerceToFloat (s : Bytes) : Option (Scalar F) :=
  match strtod s with
  | some v => some (.float v)
  | none => pyString s

def coerceToBool (s : Bytes) : Option (Scalar F) := some (.bool (decide (s ∈ trueWords)))

structure ScalarSpec where
  fieldName : Text
  typeTag : ℤ

/-- One turn of the loop over the specifications; `none` is one that is not a dictionary
with both keys. -/
def coerceStep (filling : Filling F) : Option ScalarSpec → Filling F
  | none => filling
  | some spec =>
    match filling.dict spec.fieldName with
    | some (.str val) =>
      match val.utf8 with
      | none => { filling with pending := true }
      | some s =>
        let coerced :=
          if spec.typeTag = 1 then coerceToInt s
          else if spec.typeTag = 2 then coerceToFloat strtod s
          else if spec.typeTag = 3 then coerceToBool s
          else none
        match coerced with
        | some value => filling.set spec.fieldName value
        | none => filling
    | _ => filling

def batchCoerceScalars (params : Dict F) (fieldSpecs : List (Option ScalarSpec)) :
    Except CallError (Dict F) :=
  (fieldSpecs.foldl (coerceStep strtod) { dict := params }).result

/-! ## `batch_extract_params_inline` -/

/-- The value, and whether an exception is left pending. -/
def coerceValue (val : Scalar F) (typeTag : ℤ) : Scalar F × Bool :=
  match val with
  | .str text =>
    match text.utf8 with
    | none => (val, true)
    | some s =>
      if typeTag = 1 then
        match readWhole s with
        | some v => (.int v, false)
        | none => (val, false)
      else if typeTag = 2 then
        match strtod s with
        | some v => (.float v, false)
        | none => (val, false)
      else if typeTag = 3 then
        if s ∈ trueWords then (.bool true, false)
        else if s ∈ falseWords then (.bool false, false)
        else (val, false)
      else (val, false)
  | _ => (val, false)

/-- A specification as it is passed; a value `None` counts as a missing one. -/
structure SpecDict (F : Type) where
  fieldName : Option Text
  aliasName : Option Text := none
  headerLookupKey : Option Text := none
  pyLookupKey : Option Text := none
  pyFieldName : Option Text := none
  location : ℤ := 0
  typeTag : ℤ := 0
  isSequence : Bool := false
  defaultValue : Option (Scalar F) := none

structure ParamSpec (F : Type) where
  location : ℤ
  typeTag : ℤ
  isSequence : Bool
  defaultValue : Option (Scalar F)
  pyLookupKey : Text
  pyFieldName : Text

def SpecDict.lookupKey (sd : SpecDict F) (fieldName : Bytes) : Bytes :=
  match sd.headerLookupKey.bind asUtf8 with
  | some (b :: key) =>
    if sd.location = 1 then b :: key else (sd.aliasName.bind asUtf8).getD fieldName
  | _ => (sd.aliasName.bind asUtf8).getD fieldName

/-- The loop that builds the specifications leaves out what has no field name. -/
def SpecDict.toParamSpec (sd : SpecDict F) : Option (ParamSpec F) := do
  let fieldName ← sd.fieldName.bind asUtf8
  let lookupKey ← sd.pyLookupKey.or (Text.ofUtf8 (sd.lookupKey fieldName))
  let name ← sd.pyFieldName.or (Text.ofUtf8 fieldName)
  return {
    location := sd.location
    typeTag := sd.typeTag
    isSequence := sd.isSequence
    defaultValue := sd.defaultValue
    pyLookupKey := lookupKey
    pyFieldName := name }

def SpecDict.raises (sd : SpecDict F) : Bool :=
  [sd.fieldName, sd.aliasName, sd.headerLookupKey].any fun name =>
    name.any fun text => text.utf8.isNone

/-- What a specification writes, with the exception that it leaves. -/
def ParamSpec.extracted (ps : ParamSpec F) (source : Dict F) : Option (Scalar F × Bool) :=
  match source ps.pyLookupKey with
  | some (.list items) =>
    if ps.isSequence then some (.list items, false)
    else items.head?.map fun item => coerceValue strtod item ps.typeTag
  | some val => some (coerceValue strtod val ps.typeTag)
  | none => ps.defaultValue.map (·, false)

def extractStep (source : Dict F) (filling : Filling F) (ps : ParamSpec F) : Filling F :=
  match ps.extracted strtod source with
  | some (value, raised) =>
    { filling.set ps.pyFieldName value with pending := filling.pending || raised }
  | none => filling

/-- `None` stands for a source that is not a dictionary. -/
def extractFromSource (filling : Filling F) (source : Option (Dict F))
    (specs : List (ParamSpec F)) (location : ℤ) : Filling F :=
  match source with
  | none => filling
  | some source => (specs.filter (·.location = location)).foldl (extractStep strtod source) filling

structure Sources (F : Type) where
  queryParams : Option (Dict F)
  headers : Option (Dict F)
  cookies : Option (Dict F)
  pathParams : Option (Dict F)

/-- `py_batch_extract_params_inline`; `none` is a specification that is not a dictionary. -/
def batchExtractParamsInline (sources : Sources F) (fieldSpecs : List (Option (SpecDict F))) :
    Except CallError (Dict F) :=
  let dicts := fieldSpecs.reduceOption
  let specs := dicts.filterMap SpecDict.toParamSpec
  let filling : Filling F := { dict := fun _ => none, pending := dicts.any SpecDict.raises }
  let filling := extractFromSource strtod filling sources.queryParams specs 0
  let filling := extractFromSource strtod filling sources.headers specs 1
  let filling := extractFromSource strtod filling sources.cookies specs 2
  (extractFromSource strtod filling sources.pathParams specs 3).result

/-! ## What a call has to give -/

def Exact (s : Text) (value : Option (Scalar F)) : Prop :=
  value = some (.str s) ∨ ∃ n, denoted s.bytes = some n ∧ value = some (.int n)

/-- The string is not empty, and when it is a numeral behind white space, then there is no
white space and the number has 64 bits. -/
def ReadExactly (s : Text) : Prop :=
  s ≠ [] ∧ ∀ n, denoted (s.bytes.dropWhile Decimal.isSpace) = some n →
    s.bytes.dropWhile Decimal.isSpace = s.bytes ∧ InRange n

def DeclaredInt (fieldSpecs : List (Option ScalarSpec)) (name : Text) : Prop :=
  (∃ spec, some spec ∈ fieldSpecs ∧ spec.fieldName = name) ∧
    ∀ spec, some spec ∈ fieldSpecs → spec.fieldName = name → spec.typeTag = 1

def EncodableFields (params : Dict F) (fieldSpecs : List (Option ScalarSpec)) : Prop :=
  ∀ spec, some spec ∈ fieldSpecs → ∀ text, params spec.fieldName = some (.str text) →
    text.Encodable

/-- The value that a specification coerces. -/
def ParamSpec.found (ps : ParamSpec F) (source : Dict F) : Option (Scalar F) :=
  match source ps.pyLookupKey with
  | some (.list items) => if ps.isSequence then none else items.head?
  | value => value

/-- Each specification with its source, in the order in which they are used. -/
def Sources.lookups (sources : Sources F) (fieldSpecs : List (Option (SpecDict F))) :
    List (Dict F × ParamSpec F) :=
  let specs := fieldSpecs.reduceOption.filterMap SpecDict.toParamSpec
  [(sources.queryParams, (0 : ℤ)), (sources.headers, 1), (sources.cookies, 2),
    (sources.pathParams, 3)].flatMap fun (source, location) =>
      source.toList.flatMap fun source => (specs.filter (·.location = location)).map (source, ·)

/-- The string is the last that is written to a field, and is written as an integer. -/
def ExtractsInt (strtod : Bytes → Option F) (sources : Sources F)
    (fieldSpecs : List (Option (SpecDict F))) (name s : Text) : Prop :=
  ∃ front source ps back, sources.lookups fieldSpecs = front ++ (source, ps) :: back ∧
    ps.pyFieldName = name ∧ ps.typeTag = 1 ∧ ps.found source = some (.str s) ∧
      ∀ later ∈ back, later.2.pyFieldName = name → later.2.extracted strtod later.1 = none

/-- The names of the specifications and the strings that they find have encodings. -/
def EncodableLookups (sources : Sources F) (fieldSpecs : List (Option (SpecDict F))) : Prop :=
  (∀ sd, some sd ∈ fieldSpecs → sd.raises = false) ∧
    ∀ lookup ∈ sources.lookups fieldSpecs, ∀ text,
      lookup.2.found lookup.1 = some (.str text) → text.Encodable

/-! ## One string -/

/-- What both coercions make of a string with an encoding. -/
def intOf (s : Text) : Scalar F :=
  match readWhole s.bytes with
  | some v => .int v
  | none => .str s

theorem exact_intOf_iff {s : Text} : Exact (F := F) s (some (intOf s)) ↔ ReadExactly s := by
  have hbytes : s.bytes ≠ [] ↔ s ≠ [] := not_congr bytes_eq_nil_iff
  rw [ReadExactly, ← hbytes, ← Decimal.readWhole_exact_iff, Exact, intOf]
  cases readWhole s.bytes with
  | none => simp
  | some v => simp

theorem pyString_bytes {s : Text} (hs : s.Encodable) : pyString (F := F) s.bytes = some (.str s) := by
  rw [pyString, Text.ofUtf8_eq_some_iff.mpr ⟨hs, rfl⟩, Option.map_some]

theorem coerceToInt_bytes {s : Text} (hs : s.Encodable) :
    coerceToInt (F := F) s.bytes = some (intOf s) := by
  rw [coerceToInt, intOf, pyString_bytes hs]
  cases readWhole s.bytes <;> rfl

theorem utf8_eq_none_iff {text : Text} : text.utf8 = none ↔ ¬ text.Encodable := by
  rw [Option.eq_none_iff_forall_ne_some]
  constructor
  · intro h hencodable
    exact h _ (Text.utf8_eq_some_iff.mpr ⟨hencodable, rfl⟩)
  · intro h bytes hbytes
    exact h (Text.utf8_eq_some_iff.mp hbytes).1

theorem coerceValue_int {s : Text} (hs : s.Encodable) :
    coerceValue strtod (.str s) 1 = (intOf s, false) := by
  simp only [coerceValue, Text.utf8_eq_some_iff.mpr ⟨hs, rfl⟩, intOf]
  cases readWhole s.bytes <;> rfl

theorem coerceValue_raises_iff (val : Scalar F) (typeTag : ℤ) :
    (coerceValue strtod val typeTag).2 = true ↔ ∃ text, val = .str text ∧ ¬ text.Encodable := by
  cases val with
  | str text =>
    cases hutf8 : text.utf8 with
    | none => simp [coerceValue, hutf8, utf8_eq_none_iff.mp hutf8]
    | some s =>
      have hencodable : text.Encodable := (Text.utf8_eq_some_iff.mp hutf8).1
      have hquiet : (coerceValue strtod (.str text) typeTag).2 = false := by
        simp only [coerceValue, hutf8]
        cases readWhole s <;> cases strtod s <;> simp only [] <;> split_ifs <;> rfl
      simp [hquiet, hencodable]
  | _ => simp [coerceValue]

/-! ## The loop over the fields -/

/-- The dictionary after some of the specifications. -/
structure Coerced (params : Dict F) (done : List (Option ScalarSpec)) (filling : Filling F) :
    Prop where
  str : ∀ name text, filling.dict name = some (.str text) → params name = some (.str text)
  kept : ∀ name text, params name = some (.str text) → ¬ text.Encodable →
    filling.dict name = some (.str text)
  pending : filling.pending = true ↔ ¬ EncodableFields params done
  int : ∀ name s, params name = some (.str s) → s.Encodable →
    (∀ spec, some spec ∈ done → spec.fieldName = name → spec.typeTag = 1) →
      filling.dict name = some (intOf s) ∨
        filling.dict name = some (.str s) ∧ ∀ spec, some spec ∈ done → spec.fieldName ≠ name

theorem Coerced.start (params : Dict F) : Coerced params [] { dict := params } where
  str _ _ h := h
  kept _ _ h _ := h
  pending := by simp [EncodableFields]
  int name s h _ _ := .inr ⟨h, by simp⟩

theorem encodableFields_append {params : Dict F} {done : List (Option ScalarSpec)}
    {spec : ScalarSpec} :
    EncodableFields params (done ++ [some spec]) ↔ EncodableFields params done ∧
        ∀ text, params spec.fieldName = some (.str text) → text.Encodable := by
  simp only [EncodableFields, mem_append, mem_singleton, Option.some.injEq]
  constructor
  · intro h
    exact ⟨fun other hmem => h _ (.inl hmem), h _ (.inr rfl)⟩
  · rintro ⟨hdone, hspec⟩ other (hmem | rfl)
    · exact hdone _ hmem
    · exact hspec

/-- A field that is no string, or no longer one, is skipped. -/
theorem coerceStep_other {filling : Filling F} {spec : ScalarSpec}
    (h : ∀ text, filling.dict spec.fieldName ≠ some (.str text)) :
    coerceStep strtod filling (some spec) = filling := by
  rw [coerceStep]
  cases hfield : filling.dict spec.fieldName with
  | none => rfl
  | some value =>
    cases value with
    | str text => exact absurd hfield (h _)
    | _ => rfl

theorem coerceStep_raises {filling : Filling F} {spec : ScalarSpec} {text : Text}
    (h : filling.dict spec.fieldName = some (.str text)) (htext : ¬ text.Encodable) :
    coerceStep strtod filling (some spec) = { filling with pending := true } := by
  rw [coerceStep, h]
  simp [utf8_eq_none_iff.mpr htext]

/-- A string that is read becomes a value of another type or stays what it is. -/
theorem coerceStep_str {filling : Filling F} {spec : ScalarSpec} {text : Text}
    (h : filling.dict spec.fieldName = some (.str text)) (htext : text.Encodable) :
    ∃ value : Scalar F, coerceStep strtod filling (some spec) = filling.set spec.fieldName value ∧
        (∀ other, value = .str other → other = text) ∧ (spec.typeTag = 1 → value = intOf text) := by
  have hself : filling = filling.set spec.fieldName (.str text) := by
    rw [Filling.set, ← h, Function.update_eq_self]
  rw [coerceStep, h]
  simp only [Text.utf8_eq_some_iff.mpr ⟨htext, rfl⟩, coerceToInt_bytes htext, coerceToBool,
    coerceToFloat, pyString_bytes htext]
  split_ifs with hint hfloat hbool
  · refine ⟨intOf _, rfl, fun other hother => ?_, fun _ => rfl⟩
    rw [intOf] at hother
    cases hread : readWhole text.bytes <;> rw [hread] at hother <;> cases hother
    rfl
  · cases hread : strtod text.bytes with
    | none =>
      refine ⟨.str text, rfl, fun other hother => ?_, fun h1 => absurd h1 hint⟩
      cases hother
      rfl
    | some v =>
      refine ⟨.float v, rfl, fun other hother => ?_, fun h1 => absurd h1 hint⟩
      cases hother
  · refine ⟨_, rfl, fun other hother => ?_, fun h1 => absurd h1 hint⟩
    cases hother
  · refine ⟨.str text, hself, fun other hother => ?_, fun h1 => absurd h1 hint⟩
    cases hother
    rfl

theorem Filling.set_dict {filling : Filling F} {name other : Text} {value : Scalar F} :
    (filling.set name value).dict other = if other = name then some value else filling.dict other := by
  simp [Filling.set, Function.update_apply]

/-- What the loop has made of a field that the next specification does not name. -/
theorem Coerced.int_frame {params : Dict F} {done : List (Option ScalarSpec)} {filling : Filling F}
    (h : Coerced params done filling) {spec : ScalarSpec} {name s : Text}
    (hne : spec.fieldName ≠ name) (hparam : params name = some (.str s)) (hs : s.Encodable)
    (hint : ∀ other, some other ∈ done ++ [some spec] → other.fieldName = name →
      other.typeTag = 1) :
    filling.dict name = some (intOf s) ∨ filling.dict name = some (.str s) ∧
      ∀ other, some other ∈ done ++ [some spec] → other.fieldName ≠ name := by
  rcases h.int name s hparam hs fun other hmem => hint other (mem_append_left _ hmem) with
    hread | ⟨hstr, hnone⟩
  · exact .inl hread
  · refine .inr ⟨hstr, fun other hmem => ?_⟩
    rcases mem_append.mp hmem with hmem | hmem
    · exact hnone _ hmem
    · cases mem_singleton.mp hmem
      exact hne

theorem Coerced.step_str {params : Dict F} {done : List (Option ScalarSpec)} {filling : Filling F}
    (h : Coerced params done filling) {spec : ScalarSpec} {text : Text}
    (htext : filling.dict spec.fieldName = some (.str text))
    (hparam : params spec.fieldName = some (.str text)) (hencodable : text.Encodable) :
    Coerced params (done ++ [some spec]) (coerceStep strtod filling (some spec)) := by
  obtain ⟨value, heq, hvalue, hread⟩ := coerceStep_str _ htext hencodable
  rw [heq]
  constructor
  case str =>
    intro name other hother
    rw [Filling.set_dict] at hother
    split_ifs at hother with hname
    · rw [hvalue _ (Option.some.inj hother), hname, hparam]
    · exact h.str _ _ hother
  case kept =>
    intro name other hother hbad
    rw [Filling.set_dict]
    split_ifs with hname
    · rw [hname, hparam] at hother
      cases hother
      exact absurd hencodable hbad
    · exact h.kept _ _ hother hbad
  case pending =>
    have hspec : ∀ other, params spec.fieldName = some (.str other) → other.Encodable := by
      intro other hother
      rw [hparam] at hother
      cases hother
      exact hencodable
    rw [encodableFields_append, and_iff_left hspec]
    exact h.pending
  case int =>
    intro name s hname hs hint
    rw [Filling.set_dict]
    split_ifs with heq
    · subst heq
      rw [hparam] at hname
      cases hname
      have htag := hint _ (mem_append_right _ mem_cons_self) rfl
      exact .inl (congrArg _ (hread htag))
    · exact h.int_frame (Ne.symm heq) hname hs hint

theorem Coerced.step {params : Dict F} {done : List (Option ScalarSpec)} {filling : Filling F}
    (h : Coerced params done filling) (spec : Option ScalarSpec) :
    Coerced params (done ++ [spec]) (coerceStep strtod filling spec) := by
  cases spec with
  | none =>
    have hmem (spec : ScalarSpec) : some spec ∈ done ++ [none] ↔ some spec ∈ done := by simp
    refine ⟨h.str, h.kept, ?_, ?_⟩
    · simp only [EncodableFields, hmem]
      exact h.pending
    · simp only [hmem]
      exact h.int
  | some spec =>
    by_cases hstr : ∃ text, filling.dict spec.fieldName = some (.str text)
    · obtain ⟨text, htext⟩ := hstr
      have hparam := h.str _ _ htext
      by_cases hencodable : text.Encodable
      · exact h.step_str _ htext hparam hencodable
      · rw [coerceStep_raises _ htext hencodable]
        refine ⟨h.str, h.kept, ?_, fun name s hname hs hint => ?_⟩
        · refine iff_of_true rfl fun hall => ?_
          exact hencodable ((encodableFields_append.mp hall).2 text hparam)
        · refine h.int_frame (fun heq => ?_) hname hs hint
          rw [heq, hname] at hparam
          cases hparam
          exact hencodable hs
    · rw [coerceStep_other _ (not_exists.mp hstr)]
      refine ⟨h.str, h.kept, ?_, fun name s hname hs hint => ?_⟩
      · have hspec : ∀ text, params spec.fieldName = some (.str text) → text.Encodable := by
          intro text hparam
          by_contra hencodable
          exact hstr ⟨text, h.kept _ _ hparam hencodable⟩
        rw [h.pending, encodableFields_append, and_iff_left hspec]
      · by_cases heq : spec.fieldName = name
        · subst heq
          rcases h.int _ s hname hs fun other hmem => hint other (mem_append_left _ hmem)
            with hread | ⟨hfield, -⟩
          · exact .inl hread
          · exact absurd ⟨s, hfield⟩ hstr
        · exact h.int_frame heq hname hs hint

theorem Coerced.run {params : Dict F} (specs : List (Option ScalarSpec)) {filling : Filling F}
    {done : List (Option ScalarSpec)} (h : Coerced params done filling) :
    Coerced params (done ++ specs) (specs.foldl (coerceStep strtod) filling) := by
  induction specs generalizing done filling with
  | nil => rwa [append_nil]
  | cons spec specs ih =>
    rw [append_cons]
    exact ih (h.step _ _)

theorem batchCoerceScalars_eq_ok_iff {params : Dict F} {fieldSpecs : List (Option ScalarSpec)}
    {result : Dict F} :
    batchCoerceScalars strtod params fieldSpecs = .ok result ↔ EncodableFields params fieldSpecs ∧
        result = (fieldSpecs.foldl (coerceStep strtod) { dict := params }).dict := by
  have hrun := (Coerced.start params).run strtod fieldSpecs
  rw [nil_append] at hrun
  rw [batchCoerceScalars, Filling.result]
  cases hpending : (fieldSpecs.foldl (coerceStep strtod) { dict := params }).pending with
  | true => simp [hrun.pending.mp hpending]
  | false =>
    have hall : EncodableFields params fieldSpecs := by
      by_contra hbad
      rw [hrun.pending.mpr hbad] at hpending
      cases hpending
    simp [hall, eq_comm]

/-- The value of an integer field after the loop. -/
theorem foldl_coerceStep_int {params : Dict F} {fieldSpecs : List (Option ScalarSpec)}
    {name s : Text} (hparam : params name = some (.str s)) (hint : DeclaredInt fieldSpecs name)
    (hs : s.Encodable) :
    (fieldSpecs.foldl (coerceStep strtod) { dict := params }).dict name = some (intOf s) := by
  have hrun := (Coerced.start params).run strtod fieldSpecs
  obtain ⟨⟨spec, hmem, hname⟩, htags⟩ := hint
  rcases hrun.int name s hparam hs htags with hread | ⟨-, hnone⟩
  · exact hread
  · exact absurd hname (hnone _ hmem)

theorem batchCoerceScalars_exact_iff {params : Dict F} {fieldSpecs : List (Option ScalarSpec)}
    {name s : Text} (hparam : params name = some (.str s)) (hint : DeclaredInt fieldSpecs name) :
    (∃ result, batchCoerceScalars strtod params fieldSpecs = .ok result ∧ Exact s (result name)) ↔
      ReadExactly s ∧ EncodableFields params fieldSpecs := by
  have hencodable (hall : EncodableFields params fieldSpecs) : s.Encodable := by
    obtain ⟨⟨spec, hmem, rfl⟩, -⟩ := hint
    exact hall _ hmem s hparam
  simp only [batchCoerceScalars_eq_ok_iff]
  constructor
  · rintro ⟨_, ⟨hall, rfl⟩, hexact⟩
    rw [foldl_coerceStep_int _ hparam hint (hencodable hall)] at hexact
    exact ⟨exact_intOf_iff.mp hexact, hall⟩
  · rintro ⟨hread, hall⟩
    refine ⟨_, ⟨hall, rfl⟩, ?_⟩
    rw [foldl_coerceStep_int _ hparam hint (hencodable hall)]
    exact exact_intOf_iff.mpr hread

/-! ## The loops over the sources -/

def lookupStep (filling : Filling F) (lookup : Dict F × ParamSpec F) : Filling F :=
  extractStep strtod lookup.1 filling lookup.2

theorem extractFromSource_eq (filling : Filling F) (source : Option (Dict F))
    (specs : List (ParamSpec F)) (location : ℤ) :
    extractFromSource strtod filling source specs location = (source.toList.flatMap fun source =>
        (specs.filter (·.location = location)).map (source, ·)).foldl (lookupStep strtod) filling := by
  cases source with
  | none => rfl
  | some source =>
    rw [extractFromSource, Option.toList_some, flatMap_singleton, foldl_map]
    rfl

theorem batchExtractParamsInline_eq (sources : Sources F)
    (fieldSpecs : List (Option (SpecDict F))) :
    batchExtractParamsInline strtod sources fieldSpecs =
      ((sources.lookups fieldSpecs).foldl (lookupStep strtod)
        { dict := fun _ => none, pending := fieldSpecs.reduceOption.any SpecDict.raises }).result := by
  simp [batchExtractParamsInline, Sources.lookups, extractFromSource_eq]

theorem ParamSpec.extracted_of_found {ps : ParamSpec F} {source : Dict F} {val : Scalar F}
    (h : ps.found source = some val) :
    ps.extracted strtod source = some (coerceValue strtod val ps.typeTag) := by
  rw [ParamSpec.found] at h
  rw [ParamSpec.extracted]
  split at h
  · split at h
    · cases h
    · rename_i hlist hsequence
      simp [hlist, hsequence, h]
  · rename_i hother
    rw [h] at hother ⊢
    cases val with
    | list items => exact absurd rfl (hother _)
    | _ => rfl

/-- An exception comes from a string that a specification has found. -/
theorem ParamSpec.extracted_raises_iff (ps : ParamSpec F) (source : Dict F) :
    (∃ value, ps.extracted strtod source = some (value, true)) ↔
      ∃ text, ps.found source = some (.str text) ∧ ¬ text.Encodable := by
  cases hfound : ps.found source with
  | some val =>
    rw [ParamSpec.extracted_of_found _ hfound]
    have hraises := coerceValue_raises_iff strtod val ps.typeTag
    simp only [Option.some.injEq, Prod.ext_iff, exists_and_right, exists_eq', true_and]
    exact hraises
  | none =>
    refine iff_of_false ?_ (by simp)
    rintro ⟨value, hvalue⟩
    rw [ParamSpec.found] at hfound
    rw [ParamSpec.extracted] at hvalue
    split at hvalue <;> simp_all

theorem pending_foldl_lookupStep (lookups : List (Dict F × ParamSpec F)) (filling : Filling F) :
    (lookups.foldl (lookupStep strtod) filling).pending = false ↔
      filling.pending = false ∧ ∀ lookup ∈ lookups, ∀ text,
        lookup.2.found lookup.1 = some (.str text) → text.Encodable := by
  induction lookups generalizing filling with
  | nil => simp
  | cons lookup lookups ih =>
    have hraises := lookup.2.extracted_raises_iff strtod lookup.1
    have hstep : (lookupStep strtod filling lookup).pending = false ↔ filling.pending = false ∧
          ∀ text, lookup.2.found lookup.1 = some (.str text) → text.Encodable := by
      have hquiet : (∀ text, lookup.2.found lookup.1 = some (.str text) → text.Encodable) ↔
          ¬ ∃ value, lookup.2.extracted strtod lookup.1 = some (value, true) := by
        rw [hraises]
        push Not
        rfl
      rw [hquiet, lookupStep, extractStep]
      cases lookup.2.extracted strtod lookup.1 with
      | none => simp
      | some written => simp [Prod.ext_iff]
    rw [foldl_cons, ih, hstep, forall_mem_cons, and_assoc]

theorem dict_foldl_lookupStep {lookups : List (Dict F × ParamSpec F)} {name : Text}
    (h : ∀ lookup ∈ lookups, lookup.2.pyFieldName = name →
      lookup.2.extracted strtod lookup.1 = none) (filling : Filling F) :
    (lookups.foldl (lookupStep strtod) filling).dict name = filling.dict name := by
  induction lookups generalizing filling with
  | nil => rfl
  | cons lookup lookups ih =>
    obtain ⟨hlookup, hrest⟩ := forall_mem_cons.mp h
    rw [foldl_cons, ih hrest, lookupStep, extractStep]
    cases hwritten : lookup.2.extracted strtod lookup.1 with
    | none => rfl
    | some written =>
      have hne : name ≠ lookup.2.pyFieldName := by
        intro heq
        rw [hlookup heq.symm] at hwritten
        cases hwritten
      exact Filling.set_dict.trans (if_neg hne)

/-- What a name gets from the only specification that writes it. -/
theorem dict_foldl_lookupStep_of_nodup {lookups : List (Dict F × ParamSpec F)}
    (hnodup : (lookups.map (·.2.pyFieldName)).Nodup) {source : Dict F} {ps : ParamSpec F}
    (hmem : (source, ps) ∈ lookups) (filling : Filling F) :
    (lookups.foldl (lookupStep strtod) filling).dict ps.pyFieldName =
      ((ps.extracted strtod source).map Prod.fst).or (filling.dict ps.pyFieldName) := by
  obtain ⟨front, back, rfl⟩ := append_of_mem hmem
  rw [map_append, map_cons, nodup_middle, nodup_cons, mem_append] at hnodup
  have hother {side : List (Dict F × ParamSpec F)}
      (hside : ps.pyFieldName ∉ side.map (·.2.pyFieldName)) :
      ∀ lookup ∈ side, lookup.2.pyFieldName = ps.pyFieldName →
        lookup.2.extracted strtod lookup.1 = none :=
    fun lookup hlookup heq => absurd (heq ▸ mem_map_of_mem hlookup) hside
  have hfront := dict_foldl_lookupStep _ (hother fun h => hnodup.1 (.inl h)) filling
  rw [foldl_append, foldl_cons,
    dict_foldl_lookupStep _ (hother fun h => hnodup.1 (.inr h)), lookupStep, extractStep]
  cases ps.extracted strtod source with
  | none => exact hfront
  | some written => exact Filling.set_dict.trans (if_pos rfl)

theorem batchExtractParamsInline_eq_ok_iff {sources : Sources F}
    {fieldSpecs : List (Option (SpecDict F))} {result : Dict F} :
    batchExtractParamsInline strtod sources fieldSpecs = .ok result ↔
      EncodableLookups sources fieldSpecs ∧
        result = ((sources.lookups fieldSpecs).foldl (lookupStep strtod)
          { dict := fun _ => none,
            pending := fieldSpecs.reduceOption.any SpecDict.raises }).dict := by
  have hpending := pending_foldl_lookupStep strtod (sources.lookups fieldSpecs)
    { dict := fun _ => none, pending := fieldSpecs.reduceOption.any SpecDict.raises }
  have hspecs : fieldSpecs.reduceOption.any SpecDict.raises = false ↔
      ∀ sd, some sd ∈ fieldSpecs → sd.raises = false := by
    rw [any_eq_false]
    change (∀ sd ∈ fieldSpecs.filterMap id, _) ↔ _
    simp
  rw [EncodableLookups, ← hspecs, ← hpending, batchExtractParamsInline_eq, Filling.result]
  split_ifs with h
  · simp [h]
  · simp [h, eq_comm]

theorem batchExtractParamsInline_exact_iff {sources : Sources F}
    {fieldSpecs : List (Option (SpecDict F))} {name s : Text}
    (h : ExtractsInt strtod sources fieldSpecs name s) :
    (∃ result, batchExtractParamsInline strtod sources fieldSpecs = .ok result ∧
        Exact s (result name)) ↔
      ReadExactly s ∧ EncodableLookups sources fieldSpecs := by
  obtain ⟨front, source, ps, back, hlookups, rfl, htag, hfound, hback⟩ := h
  have hencodable (hall : EncodableLookups _ _) : s.Encodable :=
    hall.2 (source, ps) (by rw [hlookups]; exact mem_append_right _ mem_cons_self) s hfound
  have hdict (hs : s.Encodable) (filling : Filling F) :
      ((sources.lookups fieldSpecs).foldl (lookupStep strtod) filling).dict ps.pyFieldName =
        some (intOf s) := by
    rw [hlookups, foldl_append, foldl_cons, dict_foldl_lookupStep _ hback, lookupStep,
      extractStep, ParamSpec.extracted_of_found _ hfound, htag, coerceValue_int _ hs]
    exact Filling.set_dict.trans (if_pos rfl)
  simp only [batchExtractParamsInline_eq_ok_iff]
  constructor
  · rintro ⟨_, ⟨hall, rfl⟩, hexact⟩
    rw [hdict (hencodable hall)] at hexact
    exact ⟨exact_intOf_iff.mp hexact, hall⟩
  · rintro ⟨hread, hall⟩
    refine ⟨_, ⟨hall, rfl⟩, ?_⟩
    rw [hdict (hencodable hall)]
    exact exact_intOf_iff.mpr hread

/-! ## Both calls -/

/-- Either call gives an integer field the integer that its string denotes, or the string,
exactly when the string is read as it stands and no encoding fails. -/
theorem intCoercion_exact_iff :
    (∀ (params : Dict F) (fieldSpecs : List (Option ScalarSpec)) (name s : Text),
      params name = some (.str s) → DeclaredInt fieldSpecs name →
        ((∃ result, batchCoerceScalars strtod params fieldSpecs = .ok result ∧
            Exact s (result name)) ↔
          ReadExactly s ∧ EncodableFields params fieldSpecs)) ∧
    ∀ (sources : Sources F) (fieldSpecs : List (Option (SpecDict F))) (name s : Text),
      ExtractsInt strtod sources fieldSpecs name s →
        ((∃ result, batchExtractParamsInline strtod sources fieldSpecs = .ok result ∧
            Exact s (result name)) ↔
          ReadExactly s ∧ EncodableLookups sources fieldSpecs) :=
  ⟨fun _ _ _ _ hparam hint => batchCoerceScalars_exact_iff _ hparam hint,
    fun _ _ _ _ h => batchExtractParamsInline_exact_iff _ h⟩

end Coercion

def single (s : Text) : Dict Empty := fun name => if name = plainText "n" then some (.str s) else none

def queryOf (s : Text) : Sources Empty :=
  { queryParams := some (single s), headers := none, cookies := none, pathParams := none }

theorem readExactly_fortyTwo : ReadExactly (plainText "-42") := by
  have hread : denoted ((plainText "-42").bytes.dropWhile Decimal.isSpace) = some (-42) := by
    decide +kernel
  refine ⟨by decide, fun n hn => ?_⟩
  cases hn
  exact ⟨by decide +kernel, by decide⟩

def intField : List (Option ScalarSpec) := [some { fieldName := plainText "n", typeTag := 1 }]

theorem declaredInt_intField : DeclaredInt intField (plainText "n") := by
  refine ⟨⟨_, mem_cons_self, rfl⟩, fun spec hmem _ => ?_⟩
  cases mem_singleton.mp hmem
  rfl

theorem encodableFields_single {s : Text} (hs : s.Encodable) :
    EncodableFields (single s) intField := by
  intro spec hmem text htext
  cases mem_singleton.mp hmem
  cases htext
  exact hs

def intQuery : List (Option (SpecDict Empty)) :=
  [some { fieldName := some (plainText "n"), typeTag := 1 }]

def intParam : ParamSpec Empty where
  location := 0
  typeTag := 1
  isSequence := false
  defaultValue := none
  pyLookupKey := plainText "n"
  pyFieldName := plainText "n"

theorem lookups_intQuery (s : Text) : (queryOf s).lookups intQuery = [(single s, intParam)] := by
  have hname : Text.ofUtf8 (ascii "n") = some (plainText "n") :=
    Text.ofUtf8_eq_some_iff.mpr ⟨by decide, by decide +kernel⟩
  have hfield : asUtf8 (plainText "n") = some (ascii "n") := by decide +kernel
  have hspec : SpecDict.toParamSpec (F := Empty)
      { fieldName := some (plainText "n"), typeTag := 1 } = some intParam := by
    rfl
  rfl

theorem intCoercion_exact_fortyTwo :
    (∃ result, batchCoerceScalars (fun _ => none) (single (plainText "-42")) intField =
        .ok result ∧ Exact (plainText "-42") (result (plainText "n"))) ∧
      ∃ result, batchExtractParamsInline (fun _ => none) (queryOf (plainText "-42")) intQuery =
        .ok result ∧ Exact (plainText "-42") (result (plainText "n")) := by
  have hencodable : (plainText "-42").Encodable := by decide
  obtain ⟨hbatch, hextract⟩ := intCoercion_exact_iff _
  constructor
  · exact (hbatch _ _ _ _ rfl declaredInt_intField).mpr
      ⟨readExactly_fortyTwo, encodableFields_single hencodable⟩
  · refine (hextract _ _ _ _ ⟨[], _, _, [], lookups_intQuery _, rfl, rfl, rfl, by simp⟩).mpr
      ⟨readExactly_fortyTwo, fun sd hmem => ?_, fun lookup hmem text hfound => ?_⟩
    · cases mem_singleton.mp hmem
      decide
    · rw [lookups_intQuery, mem_singleton] at hmem
      subst hmem
      cases hfound
      exact hencodable

/-- One more than the greatest value of 64 bits comes back as that value, and the empty
string comes back as zero. -/
theorem intCoercion_saturates :
    (∃ result, batchCoerceScalars (fun _ => none) (single (plainText "9223372036854775808"))
        intField = .ok result ∧
      result (plainText "n") = some (.int 9223372036854775807) ∧
      denoted (plainText "9223372036854775808").bytes = some 9223372036854775808 ∧
      ¬ Exact (plainText "9223372036854775808") (result (plainText "n"))) ∧
    ∃ result, batchCoerceScalars (fun _ => none) (single []) intField = .ok result ∧
      result (plainText "n") = some (.int 0) ∧ denoted [] = none ∧
      ¬ Exact [] (result (plainText "n")) := by
  have hread : readWhole (plainText "9223372036854775808").bytes = some 9223372036854775807 := by
    decide +kernel
  have hdenoted : denoted (plainText "9223372036854775808").bytes = some 9223372036854775808 := by
    decide +kernel
  have hresult {s : Text} {v : ℤ} (hs : s.Encodable) (hv : readWhole s.bytes = some v) :
      ∃ result, batchCoerceScalars (fun _ => none) (single s) intField = .ok result ∧
        result (plainText "n") = some (.int v) := by
    refine ⟨_, (batchCoerceScalars_eq_ok_iff _).mpr ⟨encodableFields_single hs, rfl⟩, ?_⟩
    rw [foldl_coerceStep_int _ (s := s) rfl declaredInt_intField hs, intOf, hv]
  obtain ⟨result, hcall, hvalue⟩ := hresult (by decide) hread
  obtain ⟨result', hcall', hvalue'⟩ := hresult (s := []) (by decide) rfl
  constructor
  · refine ⟨result, hcall, hvalue, hdenoted, ?_⟩
    rw [hvalue, Exact, hdenoted]
    simp
  · refine ⟨result', hcall', hvalue', rfl, ?_⟩
    rw [hvalue', Exact]
    simp [denoted, Decimal.readSign, Message.readDecimal]

end AstraApi.Dispatch
