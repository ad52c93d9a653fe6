import AstraApi.Dispatch.CookieParsers
import AstraApi.Dispatch.ScalarCoercion
import AstraApi.Lib.Ledger

/-!
# Parameters in one call or by location

`solve_dependencies` has the core extract the parameters of all locations in one call, and
validates them one after the other.  When that raises, a function for each location reads
the request again, and adds to the values and errors that are there by then.
-/

namespace AstraApi.Dispatch.ParamExtraction

open List
open Deps (Kwargs)
open Ledgers
open Ledgers.Ledger (record attempt settleAll)

/-! ## Fields and requests -/

inductive Location where
  | path
  | query
  | header
  | cookie
  deriving DecidableEq

/-- `ParamTypes`. -/
def Location.value : Location → Text
  | .path => plainText "path"
  | .query => plainText "query"
  | .header => plainText "header"
  | .cookie => plainText "cookie"

inductive ScalarType where
  | str
  | int
  | float
  | bool
  deriving DecidableEq

/-- Exceptions; those of a validator are told apart by a number. -/
inductive Raised where
  | systemError
  | unicodeError
  | typeError
  | validator (id : ℕ)
  deriving DecidableEq

abbrev Loc := List (Text ⊕ ℤ)

structure ErrorDetail (F : Type) where
  type : String
  loc : Loc
  msg : String
  input : Option (Scalar F)

/-- A value, where `none` is `None`, or errors. -/
abbrev Verdict (F : Type) := Except Raised (Outcome (Option (Scalar F)) (ErrorDetail F))

/-- A parameter with a scalar or sequence type.  The annotation and the core schema are
given when they are one of the four types, the schema only without constraints. -/
structure ModelField (F : Type) where
  name : Text
  validationAlias : Text
  required : Bool
  default : Option (Scalar F)
  annotation : Option ScalarType
  schema : Option ScalarType
  isSequence : Bool
  isJson : Bool
  convertUnderscores : Bool
  validate : Scalar F → Loc → Verdict F

/-- The parameters of a function, so their names differ. -/
structure Dependant (F : Type) where
  pathParams : List (ModelField F)
  queryParams : List (ModelField F)
  headerParams : List (ModelField F)
  cookieParams : List (ModelField F)
  nodup : ((pathParams ++ queryParams ++ headerParams ++ cookieParams).map (·.name)).Nodup

/-- What the branches read of a request, with what an earlier call may have left there. -/
structure RequestScope (F : Type) where
  queryString : Bytes := []
  headers : List (Bytes × Bytes) := []
  pathParams : Dict F := fun _ => none
  coreQueryParams : Option MultiDict := none
  coreHeaders : Option (Text → Option Text) := none
  coreCookies : Option (Text → Option Text) := none
  nonempty : ∀ parsed ∈ coreQueryParams, ∀ entry ∈ parsed, entry.2 ≠ [] := by simp

abbrev State (F : Type) := Ledger Text (Option (Scalar F)) (ErrorDetail F)

section Branches

variable {F : Type} (strtod : Bytes → Option F) (lower : Text → Text)

/-- `isinstance` in the fast path, where a truth value is an integer. -/
def ScalarType.matches : ScalarType → Scalar F → Bool
  | .str, .str _ => true
  | .int, .int _ => true
  | .int, .bool _ => true
  | .float, .float _ => true
  | .float, .int _ => true
  | .bool, .bool _ => true
  | _, _ => false

def missingFieldError (loc : Loc) : ErrorDetail F where
  type := "missing"
  loc := loc
  msg := "Field required"
  input := none

def validateValue (location : Location) (field : ModelField F) (value : Option (Scalar F)) :
    Verdict F :=
  let loc := [.inl location.value, .inl field.validationAlias]
  match value with
  | none =>
    if field.required then .ok (none, [missingFieldError loc]) else .ok (field.default, [])
  | some value =>
    if field.schema.any (·.matches value) then .ok (some value, [])
    else field.validate value loc

/-! ## Reading the request -/

/-- `parse_query_string` of the query string, unless it is done or not wanted. -/
def readQuery (scope : RequestScope F) (wanted : Bool) : Except Raised MultiDict :=
  match scope.coreQueryParams with
  | some parsed => .ok parsed
  | none =>
    if wanted then
      (parseQueryString (Text.ofLatin1 scope.queryString).bytes).elim (.error .unicodeError) .ok
    else .ok []

def cookieText (cookies : Kwargs String) (key : Text) : Option Text :=
  ((key.utf8.bind pyUnicode).bind cookies).map plainText

/-- `parse_cookie_header` of the `cookie` headers. -/
def readCookies (scope : RequestScope F) (wanted : Bool) : Except Raised (Text → Option Text) :=
  match scope.coreCookies with
  | some cookies => .ok cookies
  | none =>
    let cookieParts := (scope.headers.filter (·.1 = ascii "cookie")).map
      fun header => (Text.ofLatin1 header.2).bytes
    if wanted && !cookieParts.isEmpty then
      ((parseCookieHeader ((ascii "; ").intercalate cookieParts)).map cookieText).elim
        (.error .unicodeError) .ok
    else .ok fun _ => none

def normalizeByte (convertUnderscores : Bool) (c : Byte) : Byte :=
  if convertUnderscores && Http.lower c == 45 then 95 else Http.lower c

/-- `py_parse_scope_headers`: the last of the headers with one name counts. -/
def parseScopeHeaders (rawHeaders : List (Bytes × Bytes)) (convertUnderscores : Bool) :
    Option (Text → Option Text) :=
  rawHeaders.foldlM (fun result (name, value) => do
    let key ← Text.ofUtf8 (name.map (normalizeByte convertUnderscores))
    let val ← Text.ofUtf8 value
    return Function.update result key (some val)) fun _ => none

def readHeaders (scope : RequestScope F) (convertUnderscores : Bool) :
    Except Raised (Text → Option Text) :=
  (parseScopeHeaders scope.headers convertUnderscores).elim (.error .unicodeError) .ok

def headersGet (headers : List (Bytes × Bytes)) (key : Text) : Option (Scalar F) :=
  let found := headers.filter fun header => lower (Text.ofLatin1 header.1) = lower key
  if found.isEmpty then none
  else some (.str ((plainText ", ").intercalate (found.map fun header => Text.ofLatin1 header.2)))

def textDict (texts : Text → Option Text) : Dict F := fun key => (texts key).map .str

def listDict (parsed : MultiDict) : Dict F :=
  fun key => (parsed.lookup key).map fun values => .list (values.map .str)

/-! ## The batch branch -/

def ScalarType.tag : ScalarType → ℤ
  | .str => 0
  | .int => 1
  | .float => 2
  | .bool => 3

/-- The name under which the batch branch looks a field up. -/
def ModelField.lookupKey (field : ModelField F) : Text :=
  if field.validationAlias = [] then field.name else field.validationAlias

def ModelField.typeTag (field : ModelField F) : ℤ := (field.annotation.map ScalarType.tag).getD 0

def querySpec (field : ModelField F) : SpecDict F where
  fieldName := some field.name
  aliasName := some field.lookupKey
  pyFieldName := some field.name
  pyLookupKey := some field.lookupKey
  location := 0
  typeTag := field.typeTag
  isSequence := field.isSequence

def headerSpec (field : ModelField F) : SpecDict F where
  fieldName := some field.name
  aliasName := some field.lookupKey
  headerLookupKey := some field.lookupKey
  pyFieldName := some field.name
  pyLookupKey := some field.lookupKey
  location := 1
  typeTag := field.typeTag

def cookieSpec (field : ModelField F) : SpecDict F where
  fieldName := some field.name
  aliasName := some field.lookupKey
  pyFieldName := some field.name
  pyLookupKey := some field.lookupKey
  location := 2
  typeTag := field.typeTag

def pathSpec (field : ModelField F) : SpecDict F where
  fieldName := some field.name
  aliasName := some field.lookupKey
  pyFieldName := some field.name
  pyLookupKey := some field.lookupKey
  location := 3
  typeTag := field.typeTag

namespace Dependant

variable (dependant : Dependant F) (scope : RequestScope F)

def allParamFields : List (Location × ModelField F) :=
  dependant.pathParams.map (.path, ·) ++ dependant.queryParams.map (.query, ·) ++
    dependant.headerParams.map (.header, ·) ++ dependant.cookieParams.map (.cookie, ·)

def batchSpecs : List (SpecDict F) :=
  dependant.queryParams.map querySpec ++ dependant.headerParams.map headerSpec ++
    dependant.cookieParams.map cookieSpec ++ dependant.pathParams.map pathSpec

def hasSequenceHeader : Bool :=
  dependant.headerParams.any fun field => field.isSequence && !field.isJson

def triesBatch : Bool := !dependant.hasSequenceHeader && !dependant.allParamFields.isEmpty

def batchHeaders : Except Raised (Text → Option Text) :=
  if dependant.headerParams.isEmpty then .ok fun _ => none else readHeaders scope false

def batchSources : Except Raised (Sources F) := do
  let query ← readQuery scope (!dependant.queryParams.isEmpty)
  let headers ← dependant.batchHeaders scope
  let cookies ← readCookies scope (!dependant.cookieParams.isEmpty)
  return {
    queryParams := some (listDict query)
    headers := some (textDict headers)
    cookies := some (textDict cookies)
    pathParams := some scope.pathParams }

def extracted : Except Raised (Dict F) := do
  let sources ← dependant.batchSources scope
  (batchExtractParamsInline strtod sources (dependant.batchSpecs.map some)).mapError
    fun | .systemError => .systemError

end Dependant

def dropEmpty (field : ModelField F) : Option (Scalar F) → Option (Scalar F)
  | some (.list []) => if field.isSequence then none else some (.list [])
  | value => value

def batchVerdict (extracted : Dict F) (item : Location × ModelField F) : Verdict F :=
  validateValue item.1 item.2 (dropEmpty item.2 (extracted item.2.name))

/-! ## The functions for each location -/

def Scalar.len : Scalar F → Except Raised ℕ
  | .str text => .ok text.length
  | .list items => .ok items.length
  | _ => .error .typeError

/-- `_get_multidict_value`; its `isinstance` is for classes that no request uses. -/
def getMultidictValue (field : ModelField F) (values : Dict F) :
    Except Raised (Option (Scalar F)) :=
  let absent := if field.required then none else field.default
  match values field.validationAlias with
  | none => .ok absent
  | some value =>
    if field.isSequence then do
      let length ← Scalar.len value
      return if length = 0 then absent else some value
    else .ok (some value)

def requestVerdict (location : Location) (receivedParams : Dict F) (field : ModelField F) :
    Verdict F :=
  (getMultidictValue field receivedParams).bind (validateValue location field)

def requestParamsToArgs (location : Location) (fields : List (ModelField F))
    (receivedParams : Dict F) : Except Raised (State F) := do
  let _ ← fields.mapM fun field => getMultidictValue field receivedParams
  record ModelField.name (requestVerdict location receivedParams) Ledger.empty fields

/-- The call of `batch_coerce_scalars`; its specifications are tuples here. -/
def coerceScalars (params : Dict F) (fieldSpecs : List (ModelField F)) : Dict F :=
  if fieldSpecs.isEmpty then fun _ => none
  else
    match batchCoerceScalars strtod params (fieldSpecs.map fun _ => none) with
    | .ok coerced => coerced
    | .error _ => fun _ => none

/-- The last loop of the functions below: a field without a value has its default, and a
value is replaced by the one that has been coerced under the name of the field. -/
def argVerdict (location : Location) (value : Option (Scalar F)) (coerced : Dict F)
    (field : ModelField F) : Verdict F :=
  if value.isNone && !field.required then .ok (field.default, [])
  else validateValue location field ((coerced field.name).or value)

/-- `raw_values`, where fields with one alias share an entry. -/
def rawValues (parsed : MultiDict) (fields : List (ModelField F)) : Dict F :=
  fields.foldl (fun raw field =>
    match parsed.lookup field.validationAlias with
    | none => raw
    | some fieldValues =>
      Function.update raw field.validationAlias
        (if field.isSequence && !field.isJson then some (.list (fieldValues.map .str))
        else fieldValues.head?.map .str)) fun _ => none

def querySpecs (parsed : MultiDict) (fields : List (ModelField F)) : List (ModelField F) :=
  fields.filter fun field =>
    ((parsed.lookup field.validationAlias).any fun fieldValues => !fieldValues.isEmpty) &&
      !(field.isSequence && !field.isJson) && field.annotation.isSome

def queryValue (raw : Dict F) (field : ModelField F) : Option (Scalar F) :=
  match raw field.validationAlias with
  | some (.str []) => if field.isSequence then none else some (.str [])
  | value => dropEmpty field value

def queryVerdict (fields : List (ModelField F)) (parsed : MultiDict) (field : ModelField F) :
    Verdict F :=
  let raw := rawValues parsed fields
  argVerdict .query (queryValue raw field) (coerceScalars strtod raw (querySpecs parsed fields)) field

def coreQueryParamsToArgs (fields : List (ModelField F)) (parsed : MultiDict) :
    Except Raised (State F) :=
  record ModelField.name (queryVerdict strtod fields parsed) Ledger.empty fields

def headerKey (field : ModelField F) : Text :=
  lower (if field.convertUnderscores && decide (field.validationAlias = field.name) then
    field.validationAlias.map fun c => if c = 0x5f then 0x2d else c
  else field.validationAlias)

def headerParams (headers : Text → Option Text) (fields : List (ModelField F)) : Dict F :=
  fields.foldl (fun params field =>
    match headers (headerKey lower field) with
    | none => params
    | some value => Function.update params field.validationAlias (some (.str value))) fun _ => none

def headerVerdict (fields : List (ModelField F)) (headers : Text → Option Text)
    (field : ModelField F) : Verdict F :=
  let params := headerParams lower headers fields
  let specs := fields.filter fun field =>
    field.annotation.isSome && (params field.validationAlias).isSome
  argVerdict .header (textDict headers (headerKey lower field)) (coerceScalars strtod params specs)
    field

def coreHeaderParamsToArgs (fields : List (ModelField F)) (headers : Text → Option Text) :
    Except Raised (State F) :=
  record ModelField.name (headerVerdict strtod lower fields headers) Ledger.empty fields

def cookieVerdict (fields : List (ModelField F)) (cookies : Text → Option Text)
    (field : ModelField F) : Verdict F :=
  let specs := fields.filter fun field =>
    field.annotation.isSome && (cookies field.validationAlias).isSome
  argVerdict .cookie (textDict cookies field.validationAlias)
    (coerceScalars strtod (textDict cookies) specs) field

def coreCookieParamsToArgs (fields : List (ModelField F)) (cookies : Text → Option Text) :
    Except Raised (State F) :=
  record ModelField.name (cookieVerdict strtod fields cookies) Ledger.empty fields

namespace Dependant

variable (dependant : Dependant F) (scope : RequestScope F)

def coreHeaders : Except Raised (Text → Option Text) :=
  match scope.coreHeaders with
  | some headers => .ok headers
  | none => readHeaders scope true

def queryArgs : Except Raised (State F) :=
  if dependant.queryParams.isEmpty then .ok Ledger.empty
  else do
    let parsed ← readQuery scope true
    coreQueryParamsToArgs strtod dependant.queryParams parsed

def headerArgs : Except Raised (State F) :=
  if dependant.hasSequenceHeader then
    requestParamsToArgs .header dependant.headerParams (headersGet lower scope.headers)
  else if dependant.headerParams.isEmpty then .ok Ledger.empty
  else do
    let headers ← coreHeaders scope
    coreHeaderParamsToArgs strtod lower dependant.headerParams headers

def cookieArgs : Except Raised (State F) :=
  if dependant.cookieParams.isEmpty then .ok Ledger.empty
  else do
    let cookies ← readCookies scope true
    coreCookieParamsToArgs strtod dependant.cookieParams cookies

/-- The values and errors of all locations. -/
def argsByLocation : Except Raised (State F) := do
  let path ← requestParamsToArgs .path dependant.pathParams scope.pathParams
  let query ← dependant.queryArgs strtod scope
  let header ← dependant.headerArgs strtod lower scope
  let cookie ← dependant.cookieArgs strtod scope
  return ((path.merge query).merge header).merge cookie

/-- The fallback branch from the values and errors that it finds. -/
def fallbackBranch (state : State F) : Except Raised (State F) :=
  (dependant.argsByLocation strtod lower scope).map state.merge

/-- Path, query, header and cookie parameters in `solve_dependencies`. -/
def solveParams (state : State F) : Except Raised (State F) :=
  if dependant.triesBatch then
    match dependant.extracted strtod scope with
    | .error _ => dependant.fallbackBranch strtod lower scope state
    | .ok extracted =>
      retry (attempt (·.2.name) (batchVerdict extracted) state dependant.allParamFields)
        (dependant.argsByLocation strtod lower scope)
  else dependant.fallbackBranch strtod lower scope state

end Dependant

/-! ## What the branches find -/

/-- The specification of a field at a location, when its names have encodings. -/
def paramSpec (item : Location × ModelField F) : ParamSpec F where
  location :=
    match item.1 with
    | .query => 0
    | .header => 1
    | .cookie => 2
    | .path => 3
  typeTag := item.2.typeTag
  isSequence := decide (item.1 = .query) && item.2.isSequence
  defaultValue := none
  pyLookupKey := item.2.lookupKey
  pyFieldName := item.2.name

/-! ## What a request holds for a field -/

/-- A text as a value of the annotated type, which is read with `strtoll`, with `strtod` or
from the lists of words. -/
def asAnnotated (scalarType : Option ScalarType) : Scalar F → Scalar F
  | .str text =>
    match scalarType, text.utf8 with
    | some .int, some s => ((Decimal.readWhole s).map .int).getD (.str text)
    | some .float, some s => ((strtod s).map .float).getD (.str text)
    | some .bool, some s =>
      if s ∈ trueWords then .bool true else if s ∈ falseWords then .bool false else .str text
    | _, _ => .str text
  | value => value

/-- Every header has a decoding. -/
def Readable (headers : List (Bytes × Bytes)) (spelled : Byte → Byte) : Prop :=
  ∀ header ∈ headers, (Text.ofUtf8 (header.1.map spelled)).isSome ∧ (Text.ofUtf8 header.2).isSome

instance (headers : List (Bytes × Bytes)) (spelled : Byte → Byte) :
    Decidable (Readable headers spelled) :=
  decidableBAll _ _

def lastHeader (headers : List (Bytes × Bytes)) (spelled : Byte → Byte) (key : Text) :
    Option Text :=
  headers.reverse.findSome? fun header =>
    if Text.ofUtf8 (header.1.map spelled) = some key then Text.ofUtf8 header.2 else none

def underscored (c : Byte) : Byte := if Http.lower c = 0x2D then 0x5F else Http.lower c

def declaredHeader (field : ModelField F) : Text :=
  lower (if field.convertUnderscores = true ∧ field.validationAlias = field.name then
    field.validationAlias.map fun c => if c = 0x5F then 0x2D else c
  else field.validationAlias)

/-- The value of a field in the fallback, where `named` is what stands under its name: if any
value is to be coerced, that one comes first. -/
def orNamed (field : ModelField F) (own named : Option (Scalar F)) (coerces : Bool) :
    Option (Scalar F) :=
  if own.isNone ∧ field.required = false then none
  else if coerces then named.or own else own

namespace Dependant

variable (dependant : Dependant F) (scope : RequestScope F)

def heldUnder (query : MultiDict) (cookies : Text → Option Text) :
    Location × ModelField F → Option (Scalar F)
  | (location, field) =>
    let key := if field.validationAlias = [] then field.name else field.validationAlias
    match location with
    | .query => (query.lookup key).bind fun texts =>
      if field.isSequence then some (.list (texts.map .str)) else texts.head?.map .str
    | .header => (lastHeader scope.headers Http.lower key).map .str
    | .cookie => (cookies key).map .str
    | .path =>
      match scope.pathParams key with
      | some (.list items) => items.head?
      | value => value

/-- The batch branch reads texts as values of the annotated type. -/
def heldInBatch (query : MultiDict) (cookies : Text → Option Text)
    (item : Location × ModelField F) : Option (Scalar F) :=
  dropEmpty item.2 ((heldUnder scope query cookies item).map (asAnnotated strtod (ModelField.annotation item.2)))

def queryEntry (query : MultiDict) (key : Text) : Option (Scalar F) :=
  (dependant.queryParams.reverse.find? (·.validationAlias = key)).bind fun last =>
    (query.lookup key).bind fun texts =>
      if last.isSequence && !last.isJson then some (.list (texts.map .str))
      else texts.head?.map .str

def headerEntry (headers : Text → Option Text) (key : Text) : Option (Scalar F) :=
  dependant.headerParams.reverse.findSome? fun field =>
    if field.validationAlias = key then (headers (declaredHeader lower field)).map .str else none

/-- The headers as an earlier call has left them, or in lower case with underscores for dashes. -/
def underscoredHeaders : Except Raised (Text → Option Text) :=
  match scope.coreHeaders with
  | some headers => .ok headers
  | none =>
    if Readable scope.headers underscored then .ok (lastHeader scope.headers underscored)
    else .error .unicodeError

def heldInFallback : Location × ModelField F → Except Raised (Option (Scalar F))
  | (.path, field) =>
    let absent := if field.required then none else field.default
    match field.isSequence, scope.pathParams field.validationAlias with
    | _, none => .ok absent
    | false, some value => .ok (some value)
    | true, some (.str text) => .ok (if text = [] then absent else some (.str text))
    | true, some (.list items) => .ok (if items.isEmpty then absent else some (.list items))
    | true, some _ => .error .typeError
  | (.query, field) => (readQuery scope true).map fun query =>
    let own :=
      match field.isSequence, dependant.queryEntry query field.validationAlias with
      | true, some (.str []) => none
      | true, some (.list []) => none
      | _, value => value
    orNamed field own (dependant.queryEntry query field.name) <|
      dependant.queryParams.any fun other =>
        ((query.lookup other.validationAlias).any fun texts => !texts.isEmpty) &&
          !(other.isSequence && !other.isJson) && other.annotation.isSome
  | (.header, field) => (underscoredHeaders scope).map fun headers =>
    let own := (headers (declaredHeader lower field)).map .str
    orNamed field own (dependant.headerEntry lower headers field.name) <|
      dependant.headerParams.any fun other =>
        other.annotation.isSome && (dependant.headerEntry lower headers other.validationAlias).isSome
  | (.cookie, field) => (readCookies scope true).map fun cookies =>
    orNamed field ((cookies field.validationAlias).map .str) ((cookies field.name).map .str) <|
      dependant.cookieParams.any fun other =>
        other.annotation.isSome && (cookies other.validationAlias).isSome

/-- Where the batch branch is tried and can read the request, the validators of the fields
answer alike to what the request holds for each branch. -/
def AgreesOn : Prop :=
  dependant.triesBatch = true → (dependant.headerParams ≠ [] → Readable scope.headers Http.lower) →
    ∀ query cookies, readQuery scope (!dependant.queryParams.isEmpty) = .ok query →
      readCookies scope (!dependant.cookieParams.isEmpty) = .ok cookies →
        (∀ item ∈ dependant.allParamFields, item.2.name.Encodable ∧
          item.2.validationAlias.Encodable ∧
            ∀ text, heldUnder scope query cookies item = some (.str text) → text.Encodable) →
            Agreement dependant.allParamFields
              (fun item => validateValue item.1 item.2 (heldInBatch strtod scope query cookies item))
              (fun item => (dependant.heldInFallback lower scope item).bind
                (validateValue item.1 item.2))

end Dependant

/-! ### The readings of the code -/

theorem bind_eq_ok_iff {A B : Type} {x : Except Raised A} {f : A → Except Raised B} {b : B} :
    x.bind f = .ok b ↔ ∃ a, x = .ok a ∧ f a = .ok b := by
  cases x <;> simp [Except.bind]

theorem coerceValue_typeTag (field : ModelField F) (value : Scalar F) :
    (coerceValue strtod value field.typeTag).1 = asAnnotated strtod field.annotation value := by
  cases value with
  | str text =>
    rw [ModelField.typeTag]
    cases hutf8 : text.utf8 with
    | none => simp [coerceValue, asAnnotated, hutf8]
    | some s =>
      cases field.annotation with
      | none => simp [coerceValue, asAnnotated, hutf8]
      | some type =>
        cases type with
        | str => simp [coerceValue, asAnnotated, hutf8, ScalarType.tag]
        | int => cases hread : Decimal.readWhole s <;>
            simp [coerceValue, asAnnotated, hutf8, ScalarType.tag, hread]
        | float => cases hread : strtod s <;>
            simp [coerceValue, asAnnotated, hutf8, ScalarType.tag, hread]
        | bool =>
          simp only [coerceValue, asAnnotated, hutf8, ScalarType.tag, Option.map_some, Option.getD_some]
          split_ifs <;> first | rfl | omega
  | _ => rfl

theorem parseScopeHeaders_eq (headers : List (Bytes × Bytes)) (convertUnderscores : Bool) :
    parseScopeHeaders headers convertUnderscores =
      if Readable headers (normalizeByte convertUnderscores) then
        some (lastHeader headers (normalizeByte convertUnderscores))
      else none := by
  have hfold (result : Text → Option Text) :
      headers.foldlM (fun result (name, value) => do
        let key ← Text.ofUtf8 (name.map (normalizeByte convertUnderscores))
        let val ← Text.ofUtf8 value
        return Function.update result key (some val)) result =
        if Readable headers (normalizeByte convertUnderscores) then
          some fun key => (lastHeader headers (normalizeByte convertUnderscores) key).or (result key)
        else none := by
    induction headers generalizing result with
    | nil => rfl
    | cons header headers ih =>
      obtain ⟨name, value⟩ := header
      have hreadable : Readable ((name, value) :: headers) (normalizeByte convertUnderscores) ↔
          ((Text.ofUtf8 (name.map (normalizeByte convertUnderscores))).isSome ∧
            (Text.ofUtf8 value).isSome) ∧ Readable headers (normalizeByte convertUnderscores) :=
        forall_mem_cons
      rw [foldlM_cons]
      simp only [hreadable]
      cases hkey : Text.ofUtf8 (name.map (normalizeByte convertUnderscores)) with
      | none => simp
      | some named =>
        cases hvalue : Text.ofUtf8 value with
        | none => simp
        | some val =>
          refine (ih (Function.update result named (some val))).trans ?_
          refine if_congr (by simp) (congrArg some (funext fun key => ?_)) rfl
          rw [lastHeader, lastHeader, reverse_cons, findSome?_append, Option.or_assoc]
          congr 1
          by_cases hsame : named = key
          · simp [hsame, hkey, hvalue]
          · simp [hsame, hkey, Function.update_of_ne (Ne.symm hsame)]
  rw [parseScopeHeaders, hfold]
  simp

theorem readHeaders_eq (scope : RequestScope F) (convertUnderscores : Bool) :
    readHeaders scope convertUnderscores =
      if Readable scope.headers (normalizeByte convertUnderscores) then
        .ok (lastHeader scope.headers (normalizeByte convertUnderscores))
      else .error .unicodeError := by
  rw [readHeaders, parseScopeHeaders_eq]
  split_ifs <;> rfl

theorem normalizeByte_eq (convertUnderscores : Bool) :
    normalizeByte convertUnderscores = if convertUnderscores then underscored else Http.lower := by
  funext c
  cases convertUnderscores <;> simp [normalizeByte, underscored]

theorem rawValues_eq (query : MultiDict) (fields : List (ModelField F)) (key : Text) :
    rawValues query fields key =
      (fields.reverse.find? (·.validationAlias = key)).bind fun last =>
        (query.lookup key).bind fun texts =>
          if last.isSequence && !last.isJson then some (.list (texts.map .str))
          else texts.head?.map .str := by
  induction fields using List.reverseRecOn with
  | nil => rfl
  | append_singleton fields field ih =>
    rw [rawValues, foldl_append, ← rawValues, reverse_append, reverse_singleton, singleton_append,
      find?_cons]
    by_cases hkey : field.validationAlias = key
    · rw [decide_eq_true hkey, foldl_cons, foldl_nil, hkey]
      cases hlookup : query.lookup key with
      | none => simp [ih, hlookup]
      | some texts => simp
    · rw [decide_eq_false hkey, ← ih, foldl_cons, foldl_nil]
      cases query.lookup field.validationAlias with
      | none => rfl
      | some texts => exact Function.update_of_ne (Ne.symm hkey) ..

theorem headerKey_eq (field : ModelField F) : headerKey lower field = declaredHeader lower field := by
  simp [headerKey, declaredHeader]

theorem headerParams_eq (headers : Text → Option Text) (fields : List (ModelField F)) (key : Text) :
    headerParams lower headers fields key =
      fields.reverse.findSome? fun field =>
        if field.validationAlias = key then (headers (declaredHeader lower field)).map .str
        else none := by
  induction fields using List.reverseRecOn with
  | nil => rfl
  | append_singleton fields field ih =>
    rw [headerParams, foldl_append, ← headerParams, reverse_append, reverse_singleton,
      singleton_append, findSome?_cons, foldl_cons, foldl_nil, headerKey_eq]
    cases headers (declaredHeader lower field) with
    | none => simp [ih]
    | some value =>
      by_cases hsame : field.validationAlias = key
      · simp [hsame]
      · simp [hsame, Function.update_of_ne (Ne.symm hsame), ih]

theorem coerceScalars_eq (dict : Dict F) (specs : List (ModelField F)) :
    coerceScalars strtod dict specs = if specs.isEmpty then fun _ => none else dict := by
  have hsteps : ∀ filling : Filling F,
      (specs.map fun _ => none).foldl (coerceStep strtod) filling = filling := by
    intro filling
    induction specs with
    | nil => rfl
    | cons spec specs ih => exact ih
  rw [coerceScalars, batchCoerceScalars, hsteps]
  rfl

theorem argVerdict_eq (location : Location) (value : Option (Scalar F)) (dict : Dict F)
    (specs : List (ModelField F)) (field : ModelField F) :
    argVerdict location value (coerceScalars strtod dict specs) field =
      validateValue location field (orNamed field value (dict field.name) (!specs.isEmpty)) := by
  rw [argVerdict, coerceScalars_eq, orNamed]
  cases value <;> cases specs.isEmpty <;> cases hrequired : field.required <;>
    simp [validateValue, hrequired]

theorem not_isEmpty_filter (p : ModelField F → Bool) (fields : List (ModelField F)) :
    (!(fields.filter p).isEmpty) = fields.any p := by
  induction fields with
  | nil => rfl
  | cons field fields ih =>
    rw [filter_cons, any_cons, ← ih]
    cases p field <;> rfl

namespace Dependant

variable (dependant : Dependant F) (scope : RequestScope F)

def fallbackVerdict (item : Location × ModelField F) : Verdict F :=
  (dependant.heldInFallback lower scope item).bind (validateValue item.1 item.2)

/-- Where the batch branch looks, by what the request holds. -/
def requestSource (query : MultiDict) (cookies : Text → Option Text) : Location → Dict F
  | .path => scope.pathParams
  | .query => listDict query
  | .header => textDict fun key =>
    if dependant.headerParams.isEmpty then none else lastHeader scope.headers Http.lower key
  | .cookie => textDict cookies

def requestSources (query : MultiDict) (cookies : Text → Option Text) : Sources F where
  queryParams := some (dependant.requestSource scope query cookies .query)
  headers := some (dependant.requestSource scope query cookies .header)
  cookies := some (dependant.requestSource scope query cookies .cookie)
  pathParams := some (dependant.requestSource scope query cookies .path)

theorem batchSources_eq_ok_iff {sources : Sources F} :
    dependant.batchSources scope = .ok sources ↔
      (dependant.headerParams ≠ [] → Readable scope.headers Http.lower) ∧
        ∃ query cookies, readQuery scope (!dependant.queryParams.isEmpty) = .ok query ∧
          readCookies scope (!dependant.cookieParams.isEmpty) = .ok cookies ∧
            dependant.requestSources scope query cookies = sources := by
  have hheaders : dependant.batchHeaders scope =
      if dependant.headerParams ≠ [] → Readable scope.headers Http.lower then
        .ok fun key => if dependant.headerParams.isEmpty then none
          else lastHeader scope.headers Http.lower key
      else .error .unicodeError := by
    rw [batchHeaders, readHeaders_eq, normalizeByte_eq]
    cases dependant.headerParams with
    | nil => simp
    | cons field fields => simp
  rw [batchSources, hheaders]
  by_cases hreadable : dependant.headerParams ≠ [] → Readable scope.headers Http.lower
  · rw [if_pos hreadable, and_iff_right hreadable]
    constructor
    · intro h
      obtain ⟨query, hquery, h⟩ := bind_eq_ok_iff.mp h
      obtain ⟨_, ⟨⟩, h⟩ := bind_eq_ok_iff.mp h
      obtain ⟨cookies, hcookies, h⟩ := bind_eq_ok_iff.mp h
      exact ⟨query, cookies, hquery, hcookies, Except.ok.inj h⟩
    · rintro ⟨query, cookies, hquery, hcookies, rfl⟩
      rw [hquery, hcookies]
      rfl
  · rw [if_neg hreadable]
    refine iff_of_false (fun h => ?_) fun h => hreadable h.1
    obtain ⟨query, -, h⟩ := bind_eq_ok_iff.mp h
    cases h

end Dependant

/-! ## The fallback branch -/

theorem exists_mapM_ok {A B : Type} {f : A → Except Raised B} {items : List A}
    (h : ∀ item ∈ items, ∃ b, f item = .ok b) : ∃ results, items.mapM f = .ok results := by
  induction items with
  | nil => exact ⟨[], rfl⟩
  | cons item items ih =>
    obtain ⟨⟨b, hb⟩, hitems⟩ := forall_mem_cons.mp h
    obtain ⟨results, hresults⟩ := ih hitems
    exact ⟨b :: results, by rw [mapM_cons, hb, hresults]; rfl⟩

/-- The verdicts on the fields, none of which raises, have been recorded. -/
def Settles (fields : List (ModelField F)) (verdict : ModelField F → Verdict F)
    (after : State F) : Prop :=
  (∀ field ∈ fields, ¬ Raises (verdict field)) ∧
    after = Ledger.empty.settleAll ModelField.name verdict fields

theorem settles_congr {fields : List (ModelField F)} {verdict other : ModelField F → Verdict F}
    (h : ∀ field, verdict field = other field) {after : State F} :
    Settles fields verdict after ↔ Settles fields other after := by
  rw [funext h]

theorem requestParamsToArgs_eq_ok_iff {location : Location} {fields : List (ModelField F)}
    {receivedParams : Dict F} {after : State F} :
    requestParamsToArgs location fields receivedParams = .ok after ↔
      Settles fields (requestVerdict location receivedParams) after := by
  constructor
  · intro h
    obtain ⟨-, -, hrecord⟩ := bind_eq_ok_iff.mp h
    exact (Ledger.record_eq_ok_iff _ _).mp hrecord
  · rintro ⟨hquiet, hafter⟩
    have hread : ∀ field ∈ fields, ∃ value, getMultidictValue field receivedParams = .ok value := by
      intro field hmem
      cases hvalue : getMultidictValue field receivedParams with
      | ok value => exact ⟨value, rfl⟩
      | error e =>
        exact absurd ⟨e, by rw [requestVerdict, hvalue]; rfl⟩ (hquiet _ hmem)
    obtain ⟨results, hresults⟩ := exists_mapM_ok hread
    exact bind_eq_ok_iff.mpr ⟨results, hresults, (Ledger.record_eq_ok_iff _ _).mpr ⟨hquiet, hafter⟩⟩

theorem readThenRecord_eq_ok_iff {P : Type} {reading : Except Raised P}
    {verdict : P → ModelField F → Verdict F} {fields : List (ModelField F)} {after : State F} :
    (if fields.isEmpty then .ok Ledger.empty
      else reading.bind fun part => record ModelField.name (verdict part) Ledger.empty fields) =
        .ok after ↔ Settles fields (fun field => reading.bind (verdict · field)) after := by
  cases fields with
  | nil => simp [Settles, settleAll, eq_comm]
  | cons field fields =>
    cases reading with
    | error e =>
      refine iff_of_false (by rintro ⟨⟩) fun h => ?_
      exact h.1 field mem_cons_self ⟨e, rfl⟩
    | ok part => exact Ledger.record_eq_ok_iff _ _

namespace Dependant

variable (dependant : Dependant F) (scope : RequestScope F)

theorem forall_allParamFields {P : Location × ModelField F → Prop} :
    (∀ item ∈ dependant.allParamFields, P item) ↔
      (∀ field ∈ dependant.pathParams, P (.path, field)) ∧
        (∀ field ∈ dependant.queryParams, P (.query, field)) ∧
          (∀ field ∈ dependant.headerParams, P (.header, field)) ∧
            ∀ field ∈ dependant.cookieParams, P (.cookie, field) := by
  simp only [allParamFields, forall_mem_append, forall_mem_map, and_assoc]

theorem settleAll_allParamFields (verdict : Location × ModelField F → Verdict F) :
    Ledger.empty.settleAll (fun item : Location × ModelField F => item.2.name) verdict
        dependant.allParamFields =
      (((Ledger.empty.settleAll ModelField.name (fun field => verdict (.path, field))
        dependant.pathParams).merge
          (Ledger.empty.settleAll ModelField.name (fun field => verdict (.query, field))
            dependant.queryParams)).merge
              (Ledger.empty.settleAll ModelField.name (fun field => verdict (.header, field))
                dependant.headerParams)).merge
                  (Ledger.empty.settleAll ModelField.name (fun field => verdict (.cookie, field))
                    dependant.cookieParams) := by
  simp only [allParamFields, Ledger.settleAll_append, Ledger.merge_settleAll, Ledger.merge_empty]
  simp [settleAll, foldl_map]

theorem pathArgs_eq_ok_iff {after : State F} :
    requestParamsToArgs .path dependant.pathParams scope.pathParams = .ok after ↔
      Settles dependant.pathParams (fun field => dependant.fallbackVerdict lower scope (.path, field))
        after := by
  refine requestParamsToArgs_eq_ok_iff.trans (settles_congr fun field => ?_)
  have hheld : getMultidictValue field scope.pathParams =
      dependant.heldInFallback lower scope (.path, field) := by
    rw [getMultidictValue, heldInFallback]
    cases hvalue : scope.pathParams field.validationAlias with
    | none => cases field.isSequence <;> rfl
    | some value =>
      cases field.isSequence with
      | false => rfl
      | true =>
        cases value with
        | str text => cases text <;> rfl
        | list items => cases items <;> rfl
        | _ => rfl
  rw [requestVerdict, hheld, fallbackVerdict]

theorem queryArgs_eq_ok_iff {after : State F} :
    dependant.queryArgs strtod scope = .ok after ↔
      Settles dependant.queryParams
        (fun field => dependant.fallbackVerdict lower scope (.query, field)) after := by
  refine readThenRecord_eq_ok_iff.trans (settles_congr fun field => ?_)
  rw [fallbackVerdict, heldInFallback]
  cases readQuery scope true with
  | error e => rfl
  | ok query =>
    have hentry : rawValues query dependant.queryParams = dependant.queryEntry query :=
      funext fun key => rawValues_eq query _ key
    change queryVerdict strtod dependant.queryParams query field = validateValue .query field _
    rw [queryVerdict, argVerdict_eq, querySpecs, not_isEmpty_filter, hentry, queryValue]
    congr 2
    cases hkind : field.isSequence <;> cases dependant.queryEntry query field.validationAlias with
    | none => rfl
    | some value =>
      cases value with
      | str text => cases text <;> rfl
      | list items => cases items <;> simp [dropEmpty, hkind]
      | _ => rfl

theorem headerArgs_eq_ok_iff (hsequence : dependant.hasSequenceHeader = false) {after : State F} :
    dependant.headerArgs strtod lower scope = .ok after ↔
      Settles dependant.headerParams
        (fun field => dependant.fallbackVerdict lower scope (.header, field)) after := by
  rw [headerArgs, hsequence, if_neg Bool.false_ne_true]
  refine readThenRecord_eq_ok_iff.trans (settles_congr fun field => ?_)
  have hheaders : coreHeaders scope = underscoredHeaders scope := by
    rw [coreHeaders, underscoredHeaders, readHeaders_eq, normalizeByte_eq]
    rfl
  rw [fallbackVerdict, heldInFallback, hheaders]
  cases underscoredHeaders scope with
  | error e => rfl
  | ok headers =>
    have hentry : ParamExtraction.headerParams lower headers dependant.headerParams =
        dependant.headerEntry lower headers := funext fun key => headerParams_eq _ _ _ key
    have hkey : headerKey lower field = declaredHeader lower field := headerKey_eq _ _
    change headerVerdict strtod lower dependant.headerParams headers field =
      validateValue .header field _
    rw [headerVerdict, argVerdict_eq, not_isEmpty_filter, hentry, hkey]
    rfl

theorem cookieArgs_eq_ok_iff {after : State F} :
    dependant.cookieArgs strtod scope = .ok after ↔
      Settles dependant.cookieParams
        (fun field => dependant.fallbackVerdict lower scope (.cookie, field)) after := by
  refine readThenRecord_eq_ok_iff.trans (settles_congr fun field => ?_)
  rw [fallbackVerdict, heldInFallback]
  cases readCookies scope true with
  | error e => rfl
  | ok cookies =>
    change cookieVerdict strtod dependant.cookieParams cookies field = validateValue .cookie field _
    rw [cookieVerdict, argVerdict_eq, not_isEmpty_filter]
    rfl

theorem argsByLocation_eq_ok_iff (hsequence : dependant.hasSequenceHeader = false)
    {after : State F} : dependant.argsByLocation strtod lower scope = .ok after ↔
      (∀ item ∈ dependant.allParamFields, ¬ Raises (dependant.fallbackVerdict lower scope item)) ∧
        after = Ledger.empty.settleAll (fun item : Location × ModelField F => item.2.name)
          (dependant.fallbackVerdict lower scope) dependant.allParamFields := by
  rw [forall_allParamFields, settleAll_allParamFields]
  constructor
  · intro h
    obtain ⟨path, hpath, h⟩ := bind_eq_ok_iff.mp h
    obtain ⟨query, hquery, h⟩ := bind_eq_ok_iff.mp h
    obtain ⟨header, hheader, h⟩ := bind_eq_ok_iff.mp h
    obtain ⟨cookie, hcookie, h⟩ := bind_eq_ok_iff.mp h
    obtain ⟨hpathQuiet, rfl⟩ := (dependant.pathArgs_eq_ok_iff lower _).mp hpath
    obtain ⟨hqueryQuiet, rfl⟩ := (dependant.queryArgs_eq_ok_iff _ lower _).mp hquery
    obtain ⟨hheaderQuiet, rfl⟩ := (dependant.headerArgs_eq_ok_iff _ _ _ hsequence).mp hheader
    obtain ⟨hcookieQuiet, rfl⟩ := (dependant.cookieArgs_eq_ok_iff _ lower _).mp hcookie
    cases h
    exact ⟨⟨hpathQuiet, hqueryQuiet, hheaderQuiet, hcookieQuiet⟩, rfl⟩
  · rintro ⟨⟨hpath, hquery, hheader, hcookie⟩, rfl⟩
    refine bind_eq_ok_iff.mpr ⟨_, (dependant.pathArgs_eq_ok_iff lower _).mpr ⟨hpath, rfl⟩, ?_⟩
    refine bind_eq_ok_iff.mpr ⟨_, (dependant.queryArgs_eq_ok_iff _ lower _).mpr ⟨hquery, rfl⟩, ?_⟩
    refine bind_eq_ok_iff.mpr
      ⟨_, (dependant.headerArgs_eq_ok_iff _ _ _ hsequence).mpr ⟨hheader, rfl⟩, ?_⟩
    exact bind_eq_ok_iff.mpr
      ⟨_, (dependant.cookieArgs_eq_ok_iff _ lower _).mpr ⟨hcookie, rfl⟩, rfl⟩

/-! ## The batch branch -/

theorem nodup_allParamFields : (dependant.allParamFields.map (·.2.name)).Nodup := by
  have hnames : dependant.allParamFields.map (·.2.name) =
      (dependant.pathParams ++ dependant.queryParams ++ dependant.headerParams ++
        dependant.cookieParams).map (·.name) := by
    simp [allParamFields, Function.comp_def]
  rw [hnames]
  exact dependant.nodup

end Dependant

def batchSpec : Location × ModelField F → SpecDict F
  | (.path, field) => pathSpec field
  | (.query, field) => querySpec field
  | (.header, field) => headerSpec field
  | (.cookie, field) => cookieSpec field

theorem toParamSpec_batchSpec {item : Location × ModelField F}
    (h : (batchSpec item).raises = false) :
    (batchSpec item).toParamSpec = some (paramSpec item) := by
  obtain ⟨location, field⟩ := item
  have hname : ∃ bytes, asUtf8 field.name = some bytes := by
    cases hutf8 : field.name.utf8 with
    | none =>
      refine absurd h ?_
      cases location <;> simp [batchSpec, pathSpec, querySpec, headerSpec, cookieSpec, SpecDict.raises, hutf8]
    | some bytes => exact ⟨_, by rw [asUtf8, hutf8]; rfl⟩
  obtain ⟨bytes, hbytes⟩ := hname
  cases location <;>
    simp [batchSpec, pathSpec, querySpec, headerSpec, cookieSpec, SpecDict.toParamSpec, hbytes, paramSpec]

namespace Dependant

variable (dependant : Dependant F) (scope : RequestScope F)

def batchItems : List (Location × ModelField F) :=
  dependant.queryParams.map (.query, ·) ++ dependant.headerParams.map (.header, ·) ++
    dependant.cookieParams.map (.cookie, ·) ++ dependant.pathParams.map (.path, ·)

theorem batchSpecs_eq : dependant.batchSpecs = dependant.batchItems.map batchSpec := by
  simp [batchSpecs, batchItems, batchSpec, Function.comp_def]

theorem perm_batchItems : dependant.batchItems.Perm dependant.allParamFields := by
  rw [batchItems, allParamFields, append_assoc (dependant.pathParams.map _),
    append_assoc (dependant.pathParams.map _)]
  exact perm_append_comm

theorem lookups_eq (query : MultiDict) (cookies : Text → Option Text)
    (hquiet : ∀ spec ∈ dependant.batchSpecs, spec.raises = false) :
    (dependant.requestSources scope query cookies).lookups (dependant.batchSpecs.map some) =
      dependant.batchItems.map fun item =>
        (dependant.requestSource scope query cookies item.1, paramSpec item) := by
  have hspecs : (dependant.batchSpecs.map some).reduceOption.filterMap SpecDict.toParamSpec =
      dependant.batchItems.map paramSpec := by
    have hread : dependant.batchSpecs.filterMap SpecDict.toParamSpec =
        dependant.batchItems.filterMap fun item => some (paramSpec item) := by
      rw [batchSpecs_eq, filterMap_map]
      refine filterMap_congr fun item hmem => toParamSpec_batchSpec (hquiet _ ?_)
      rw [batchSpecs_eq]
      exact mem_map_of_mem hmem
    change ((dependant.batchSpecs.map some).filterMap id).filterMap _ = _
    rw [filterMap_map, Function.id_comp, filterMap_some, hread,
      filterMap_eq_map']
  simp only [Sources.lookups, hspecs, batchItems, map_append, filter_append, map_map,
    filter_map, flatMap_cons, flatMap_nil, append_nil]
  simp [Function.comp_def, paramSpec, requestSources]

/-- What the request holds under a key is a value, the list of a sequence, or the head of a list. -/
theorem heldUnder_eq {item : Location × ModelField F} (hmem : item ∈ dependant.allParamFields)
    (query : MultiDict) (cookies : Text → Option Text) :
    heldUnder scope query cookies item =
      match dependant.requestSource scope query cookies item.1 item.2.lookupKey with
      | some (.list items) => if (paramSpec item).isSequence then some (.list items) else items.head?
      | value => value := by
  obtain ⟨location, field⟩ := item
  cases location with
  | path =>
    change (match scope.pathParams field.lookupKey with
      | some (.list items) => items.head?
      | value => value) = _
    rfl
  | query =>
    change (query.lookup field.lookupKey).bind _ = _
    cases hvalue : query.lookup field.lookupKey <;>
      simp [requestSource, listDict, hvalue, paramSpec]
  | header =>
    have hparams : dependant.headerParams.isEmpty = false := by
      cases hparams : dependant.headerParams with
      | nil => simp [allParamFields, hparams] at hmem
      | cons first fields => rfl
    change (lastHeader scope.headers Http.lower field.lookupKey).map _ = _
    cases hvalue : lastHeader scope.headers Http.lower field.lookupKey <;>
      simp [requestSource, textDict, hvalue, hparams]
  | cookie =>
    change (cookies field.lookupKey).map _ = _
    cases hvalue : cookies field.lookupKey <;> simp [requestSource, textDict, hvalue]

/-- What the core finds for a field, and converts to the type of its annotation. -/
theorem extracted_paramSpec {item : Location × ModelField F}
    (hmem : item ∈ dependant.allParamFields) (query : MultiDict) (cookies : Text → Option Text) :
    ((paramSpec item).extracted strtod
        (dependant.requestSource scope query cookies item.1)).map Prod.fst =
      (heldUnder scope query cookies item).map (asAnnotated strtod (ModelField.annotation item.2)) := by
  have hread := coerceValue_typeTag strtod item.2
  have hkey : (paramSpec item).pyLookupKey = item.2.lookupKey := rfl
  have htag : (paramSpec item).typeTag = item.2.typeTag := rfl
  rw [dependant.heldUnder_eq scope hmem, ParamSpec.extracted, hkey]
  cases dependant.requestSource scope query cookies item.1 item.2.lookupKey with
  | none => rfl
  | some value =>
    cases value with
    | list items =>
      cases (paramSpec item).isSequence with
      | true => rfl
      | false => cases items <;> simp [htag, hread]
    | _ => simp [htag, hread]

theorem found_paramSpec {item : Location × ModelField F}
    (hmem : item ∈ dependant.allParamFields) (query : MultiDict) (cookies : Text → Option Text)
    (text : Text) :
    (paramSpec item).found (dependant.requestSource scope query cookies item.1) =
        some (.str text) ↔
      heldUnder scope query cookies item = some (.str text) := by
  have hkey : (paramSpec item).pyLookupKey = item.2.lookupKey := rfl
  rw [dependant.heldUnder_eq scope hmem, ParamSpec.found, hkey]
  cases dependant.requestSource scope query cookies item.1 item.2.lookupKey with
  | none => rfl
  | some value => cases value <;> cases (paramSpec item).isSequence <;> simp

end Dependant

theorem raises_batchSpec_iff (item : Location × ModelField F) :
    (batchSpec item).raises = false ↔
      item.2.name.Encodable ∧ item.2.validationAlias.Encodable := by
  have hsome : ∀ text : Text, text.utf8.isNone = false ↔ text.Encodable := by
    intro text
    cases hutf8 : text.utf8 with
    | none => simp [utf8_eq_none_iff.mp hutf8]
    | some bytes => simp [(Text.utf8_eq_some_iff.mp hutf8).1]
  have hkey : item.2.lookupKey.Encodable ∧ item.2.name.Encodable ↔
      item.2.name.Encodable ∧ item.2.validationAlias.Encodable := by
    rw [ModelField.lookupKey]
    split_ifs with hempty
    · simp [hempty, Text.Encodable]
    · exact and_comm
  rw [← hkey]
  obtain ⟨location, field⟩ := item
  cases location <;>
    simp [batchSpec, pathSpec, querySpec, headerSpec, cookieSpec, SpecDict.raises, hsome, and_comm]

namespace Dependant

variable (dependant : Dependant F) (scope : RequestScope F)

theorem encodableLookups_iff (query : MultiDict) (cookies : Text → Option Text) :
    EncodableLookups (dependant.requestSources scope query cookies)
        (dependant.batchSpecs.map some) ↔
      ∀ item ∈ dependant.allParamFields, item.2.name.Encodable ∧
        item.2.validationAlias.Encodable ∧
          ∀ text, heldUnder scope query cookies item = some (.str text) → text.Encodable := by
  have hmem : ∀ item, item ∈ dependant.batchItems ↔ item ∈ dependant.allParamFields :=
    fun item => dependant.perm_batchItems.mem_iff
  have hquiet : (∀ sd, some sd ∈ dependant.batchSpecs.map some → sd.raises = false) ↔
      ∀ item ∈ dependant.allParamFields, item.2.name.Encodable ∧
        item.2.validationAlias.Encodable := by
    simp only [batchSpecs_eq, mem_map, Option.some.injEq, exists_eq_right, forall_exists_index,
      and_imp, forall_apply_eq_imp_iff₂, raises_batchSpec_iff, hmem]
  have htexts (hnames : ∀ item ∈ dependant.allParamFields, item.2.name.Encodable ∧
      item.2.validationAlias.Encodable) :
      (∀ lookup ∈ (dependant.requestSources scope query cookies).lookups
          (dependant.batchSpecs.map some), ∀ text,
            lookup.2.found lookup.1 = some (.str text) → text.Encodable) ↔
        ∀ item ∈ dependant.allParamFields, ∀ text,
          heldUnder scope query cookies item = some (.str text) → text.Encodable := by
    rw [dependant.lookups_eq scope query cookies fun spec hspec =>
      hquiet.mpr hnames _ (mem_map_of_mem hspec), forall_mem_map]
    refine forall_congr' fun item => ?_
    rw [hmem]
    refine forall_congr' fun hitem => forall_congr' fun text => ?_
    rw [dependant.found_paramSpec scope hitem]
  rw [EncodableLookups, hquiet]
  constructor
  · rintro ⟨hnames, hall⟩ item hitem
    exact ⟨(hnames item hitem).1, (hnames item hitem).2, (htexts hnames).mp hall item hitem⟩
  · intro h
    have hnames : ∀ item ∈ dependant.allParamFields, item.2.name.Encodable ∧
        item.2.validationAlias.Encodable :=
      fun item hitem => ⟨(h item hitem).1, (h item hitem).2.1⟩
    exact ⟨hnames, (htexts hnames).mpr fun item hitem => (h item hitem).2.2⟩

/-- What the core gives for a field. -/
theorem extracted_apply {query : MultiDict} {cookies : Text → Option Text} {extracted : Dict F}
    (hextracted : batchExtractParamsInline strtod (dependant.requestSources scope query cookies)
      (dependant.batchSpecs.map some) = .ok extracted)
    {item : Location × ModelField F} (hmem : item ∈ dependant.allParamFields) :
    extracted item.2.name =
      (heldUnder scope query cookies item).map (asAnnotated strtod (ModelField.annotation item.2)) := by
  obtain ⟨⟨hquiet, -⟩, rfl⟩ := (batchExtractParamsInline_eq_ok_iff _).mp hextracted
  have hlookups := dependant.lookups_eq scope query cookies fun spec hspec =>
    hquiet _ (mem_map_of_mem hspec)
  have hnodup : (((dependant.requestSources scope query cookies).lookups
      (dependant.batchSpecs.map some)).map (·.2.pyFieldName)).Nodup := by
    rw [hlookups, map_map]
    exact ((dependant.perm_batchItems.map _).nodup_iff).mpr dependant.nodup_allParamFields
  have hlookup := dict_foldl_lookupStep_of_nodup strtod hnodup
    (hlookups ▸ mem_map_of_mem (dependant.perm_batchItems.mem_iff.mpr hmem))
    { dict := fun _ => none, pending := (dependant.batchSpecs.map some).reduceOption.any SpecDict.raises }
  rw [Option.or_none] at hlookup
  exact hlookup.trans (dependant.extracted_paramSpec strtod scope hmem _ _)

/-- The branches agree exactly where the validators answer alike to what both find. -/
theorem solveParams_eq_fallback_iff {state : State F}
    (hfresh : ∀ item ∈ dependant.allParamFields, state.values item.2.name = none) :
    dependant.solveParams strtod lower scope state =
        dependant.fallbackBranch strtod lower scope state ↔
      dependant.AgreesOn strtod lower scope := by
  cases htries : dependant.triesBatch with
  | false => simp [solveParams, AgreesOn, htries]
  | true =>
    have hsequence : dependant.hasSequenceHeader = false := by
      rw [triesBatch, Bool.and_eq_true] at htries
      simpa using htries.1
    rw [solveParams, htries, if_pos rfl]
    cases hsources : dependant.batchSources scope with
    | error e =>
      have hextracted : dependant.extracted strtod scope = .error e := by
        rw [extracted, hsources]
        rfl
      rw [hextracted]
      refine iff_of_true rfl fun _ hreadable query cookies hquery hcookies => ?_
      have hok := (dependant.batchSources_eq_ok_iff scope).mpr
        ⟨hreadable, query, cookies, hquery, hcookies, rfl⟩
      rw [hsources] at hok
      cases hok
    | ok sources =>
      obtain ⟨hreadable, query, cookies, hquery, hcookies, rfl⟩ :=
        (dependant.batchSources_eq_ok_iff scope).mp hsources
      have hagrees : dependant.AgreesOn strtod lower scope ↔
          (EncodableLookups (dependant.requestSources scope query cookies)
              (dependant.batchSpecs.map some) →
            Agreement dependant.allParamFields
              (fun item => validateValue item.1 item.2 (heldInBatch strtod scope query cookies item))
              (dependant.fallbackVerdict lower scope)) := by
        rw [dependant.encodableLookups_iff]
        refine ⟨fun h => h htries hreadable _ _ hquery hcookies, fun h _ _ other jar hother hjar => ?_⟩
        cases hquery.symm.trans hother
        cases hcookies.symm.trans hjar
        exact h
      rw [hagrees]
      cases hbatch : batchExtractParamsInline strtod (dependant.requestSources scope query cookies)
          (dependant.batchSpecs.map some) with
      | error e =>
        have hextracted : dependant.extracted strtod scope = .error .systemError := by
          rw [extracted, hsources]
          exact congrArg (Except.mapError _) hbatch
        rw [hextracted]
        refine iff_of_true rfl fun hencodable => ?_
        have hok := (batchExtractParamsInline_eq_ok_iff strtod).mpr ⟨hencodable, rfl⟩
        rw [hbatch] at hok
        cases hok
      | ok extracted =>
        have hextracted : dependant.extracted strtod scope = .ok extracted := by
          rw [Dependant.extracted, hsources]
          exact congrArg (Except.mapError _) hbatch
        have hverdict : ∀ item ∈ dependant.allParamFields, batchVerdict extracted item =
            validateValue item.1 item.2 (heldInBatch strtod scope query cookies item) := by
          intro item hmem
          rw [batchVerdict, dependant.extracted_apply strtod scope hbatch hmem, heldInBatch]
        have hencodable := ((batchExtractParamsInline_eq_ok_iff _).mp hbatch).1
        rw [hextracted, fallbackBranch]
        refine (retry_eq_iff dependant.nodup_allParamFields hfresh fun after =>
          dependant.argsByLocation_eq_ok_iff _ _ _ hsequence).trans ⟨?_, ?_⟩
        · exact fun hagree _ => hagree.congr hverdict
        · exact fun hagree => (hagree hencodable).congr fun item hmem => (hverdict item hmem).symm

end Dependant

end Branches

def textField (name validationAlias : String) : ModelField Empty where
  name := plainText name
  validationAlias := plainText validationAlias
  required := true
  default := none
  annotation := some .str
  schema := some .str
  isSequence := false
  isJson := false
  convertUnderscores := true
  validate value _ := .ok (some value, [])

/-- A number, which the validator reads from its text. -/
def countField : ModelField Empty where
  name := plainText "n"
  validationAlias := plainText "n"
  required := true
  default := none
  annotation := some .int
  schema := some .int
  isSequence := false
  isJson := false
  convertUnderscores := true
  validate
    | .str text, _ => .ok ((text.utf8.bind Decimal.readWhole).map .int, [])
    | _, _ => .error (.validator 0)

def searchDependant : Dependant Empty where
  pathParams := []
  queryParams := [textField "q" "q", countField]
  headerParams := []
  cookieParams := []
  nodup := by decide

def searchScope : RequestScope Empty where
  coreQueryParams := some [(plainText "q", [plainText "x"]), (plainText "n", [plainText "5"])]
  nonempty := by decide

/-- The branches find the number 5 and the text `5`. -/
theorem agreesOn_search : searchDependant.AgreesOn (fun _ => none) id searchScope := by
  intro _ _ query cookies hquery _ _
  have hitems : searchDependant.allParamFields =
      [(.query, textField "q" "q"), (.query, countField)] := rfl
  have hbatch : ∀ item ∈ searchDependant.allParamFields, validateValue item.1 item.2
      (Dependant.heldInBatch (fun _ => none) searchScope query cookies item) =
        (searchDependant.heldInFallback id searchScope item).bind
          (validateValue item.1 item.2) := by
    cases hquery
    rw [hitems, forall_mem_cons, forall_mem_singleton]
    exact ⟨rfl, rfl⟩
  have hquiet : ∀ item ∈ searchDependant.allParamFields,
      ¬ Raises ((searchDependant.heldInFallback id searchScope item).bind
        (validateValue item.1 item.2)) := by
    rw [hitems, forall_mem_cons, forall_mem_singleton]
    exact ⟨by rintro ⟨e, ⟨⟩⟩, by rintro ⟨e, ⟨⟩⟩⟩
  refine .completed ?_ hquiet ?_ ?_
  · exact fun item hmem => hbatch item hmem ▸ hquiet item hmem
  · exact fun item hmem => congrArg accepted (hbatch item hmem)
  · exact flatMap_congr fun item hmem => congrArg reported (hbatch item hmem)

theorem solveParams_search :
    searchDependant.solveParams (fun _ => none) id searchScope Ledger.empty =
      searchDependant.fallbackBranch (fun _ => none) id searchScope Ledger.empty :=
  (searchDependant.solveParams_eq_fallback_iff _ _ _ fun _ _ => rfl).mpr agreesOn_search

def headerDependant (validationAlias : String) : Dependant Empty where
  pathParams := []
  queryParams := []
  headerParams := [textField "x_token" validationAlias]
  cookieParams := []
  nodup := by simp

def headerScope (name : String) : RequestScope Empty where
  headers := [(ascii name, ascii "secret")]

/-- A validator that looks the text up in a table, and raises for an integer. -/
def codeField : ModelField Empty where
  name := plainText "code"
  validationAlias := plainText "code"
  required := true
  default := none
  annotation := some .int
  schema := none
  isSequence := false
  isJson := false
  convertUnderscores := true
  validate
    | .str text, _ => .ok (some (.str text), [])
    | _, _ => .error (.validator 0)

def codeDependant : Dependant Empty where
  pathParams := []
  queryParams := [textField "q" "q", codeField]
  headerParams := []
  cookieParams := []
  nodup := by decide

def codeScope : RequestScope Empty where
  queryString := ascii "code=1"

def lowerAscii (text : Text) : Text :=
  text.map fun c => if 65 ≤ c.val ∧ c.val ≤ 90 then c + 32 else c

/-- The number of errors of both branches. -/
def errorCounts (dependant : Dependant Empty) (scope : RequestScope Empty) :
    Option ℕ × Option ℕ :=
  let solved := dependant.solveParams (fun _ => none) lowerAscii scope Ledger.empty
  let fallback := dependant.fallbackBranch (fun _ => none) lowerAscii scope Ledger.empty
  ((solved.map (·.errors.length)).toOption, (fallback.map (·.errors.length)).toOption)

/-- Only the batch branch finds a header with a dash, only the fallback finds one with a
capital letter in its alias, and a missing parameter is reported twice when the validator
of a later one raises. -/
theorem solveParams_ne_fallback :
    errorCounts (headerDependant "x-token") (headerScope "X-Token") = (some 0, some 1) ∧
      errorCounts (headerDependant "Token") (headerScope "Token") = (some 1, some 0) ∧
      errorCounts codeDependant codeScope = (some 2, some 1) ∧
      ¬ ∀ (dependant : Dependant Empty) (scope : RequestScope Empty),
        dependant.solveParams (fun _ => none) lowerAscii scope Ledger.empty =
          dependant.fallbackBranch (fun _ => none) lowerAscii scope Ledger.empty := by
  have hdash : errorCounts (headerDependant "x-token") (headerScope "X-Token") =
      (some 0, some 1) := by decide +kernel
  refine ⟨hdash, by decide +kernel, by decide +kernel, fun hall => ?_⟩
  rw [errorCounts, hall] at hdash
  have hcounts := (Prod.ext_iff.mp hdash).1.symm.trans (Prod.ext_iff.mp hdash).2
  cases hcounts

end AstraApi.Dispatch.ParamExtraction
