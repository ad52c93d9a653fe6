import AstraApi.Dispatch.Request
import AstraApi.Http.Batch
import AstraApi.Router.Trie
import AstraApi.Lib.Utf8

/-!
# Parameters of a request

`dispatch_one_request` fills the keyword arguments from the path, the query
string, the cookies and the headers.  Each value becomes a Python string first,
which fails on bytes that are not UTF-8.  Header values are checked; a path or
query value that fails makes the dispatcher return a null pointer, and a cookie
value, or a parameter that the route does not declare, is stored unchecked.
-/

namespace AstraApi.Dispatch

open List Option
open Deps (Name Kwargs)
open Http (Header ParsedHttpRequest Dispatched iequals lower fastParse)
open Routing (splitAtByte MatchParams Router)

def ampersand : Byte := 38
def equals : Byte := 61
def percent : Byte := 37
def plus : Byte := 43
def space : Byte := 32
def semicolon : Byte := 59
def dash : Byte := 45
def underscore : Byte := 95

/-! ## Field specifications -/

inductive ParamType where
  | str
  | int
  | float
  | bool

structure FieldSpec where
  fieldName : Name
  aliasName : Bytes
  headerLookupKey : Bytes := []
  typeTag : ParamType := .str
  convertUnderscores : Bool := true
  isSequence : Bool := false
  seqUnderscoreOnly : Bool := false
  defaultValue : Option Value := none

/-- A string that the route was registered with. -/
def nameBytes (name : Name) : Bytes := name.toUTF8.data.toList

/-- The specification of a route, by location. -/
structure FastRouteSpec where
  hasBodyParams : Bool := false
  hasDependencies : Bool := false
  pathSpecs : List FieldSpec := []
  querySpecs : List FieldSpec := []
  headerSpecs : List FieldSpec := []
  cookieSpecs : List FieldSpec := []

structure RouteInfo where
  fastSpec : FastRouteSpec
  isForm : Bool := false
  isMultiMethod : Bool := false

/-- A lookup map: the last field with a key holds it. -/
def lookupField (key : FieldSpec → Bytes) (specs : List FieldSpec) (name : Bytes) :
    Option FieldSpec :=
  specs.reverse.find? fun fs => key fs == name

def FieldSpec.aliasKey (fs : FieldSpec) : Bytes :=
  if fs.aliasName ≠ [] then fs.aliasName else nameBytes fs.fieldName

def FastRouteSpec.pathMap (spec : FastRouteSpec) : Bytes → Option FieldSpec :=
  lookupField FieldSpec.aliasKey spec.pathSpecs

/-- An alias that equals the field name makes no difference here. -/
def FastRouteSpec.queryMap (spec : FastRouteSpec) : Bytes → Option FieldSpec :=
  lookupField FieldSpec.aliasKey spec.querySpecs

def FastRouteSpec.headerMap (spec : FastRouteSpec) : Bytes → Option FieldSpec :=
  lookupField FieldSpec.headerLookupKey spec.headerSpecs

def FastRouteSpec.cookieMap (spec : FastRouteSpec) : Bytes → Option FieldSpec :=
  lookupField (fun fs => nameBytes fs.fieldName) spec.cookieSpecs

def FastRouteSpec.hasQueryParams (spec : FastRouteSpec) : Bool := !spec.querySpecs.isEmpty
def FastRouteSpec.hasHeaderParams (spec : FastRouteSpec) : Bool := !spec.headerSpecs.isEmpty
def FastRouteSpec.hasCookieParams (spec : FastRouteSpec) : Bool := !spec.cookieSpecs.isEmpty

/-! ## Python strings -/

def IsUtf8 (bytes : Bytes) : Prop := ByteArray.IsValidUTF8 ⟨bytes.toArray⟩

instance (bytes : Bytes) : Decidable (IsUtf8 bytes) :=
  inferInstanceAs (Decidable (ByteArray.IsValidUTF8 _))

/-- `PyUnicode_FromStringAndSize`; `none` is a null pointer. -/
def pyUnicode (bytes : Bytes) : Option String := String.fromUTF8? ⟨bytes.toArray⟩

def trueWords : List Bytes := ["true", "True", "1", "yes", "Yes", "on", "On"].map ascii
def falseWords : List Bytes := ["false", "False", "0", "no", "No", "off", "Off"].map ascii

def coerceParam (val : Bytes) : ParamType → Option Value
  | .bool =>
    if val ∈ trueWords then some (.bool true)
    else if val ∈ falseWords then some (.bool false)
    else (pyUnicode val).map .text
  | .int | .float | .str => (pyUnicode val).map .text

/-- What the dispatcher does with a null pointer that it does not check. -/
inductive Fault where
  /-- `PyDict_SetItem` gets it. -/
  | nullItem
  /-- The dispatcher returns it. -/
  | nullResult
  deriving DecidableEq

theorem exists_pyUnicode_iff (bytes : Bytes) : (∃ text, pyUnicode bytes = some text) ↔ IsUtf8 bytes := by
  simp [pyUnicode, IsUtf8, String.fromUTF8?]

theorem isUtf8_of_word {val : Bytes} (hword : val ∈ trueWords ++ falseWords) : IsUtf8 val := by
  have hwords : ∀ word ∈ trueWords ++ falseWords, IsUtf8 word := by decide
  exact hwords _ hword

theorem exists_coerceParam_iff (val : Bytes) (tag : ParamType) :
    (∃ value, coerceParam val tag = some value) ↔ IsUtf8 val := by
  have htext : (∃ value, (pyUnicode val).map Value.text = some value) ↔ IsUtf8 val := by
    rw [← exists_pyUnicode_iff]
    simp
  cases tag with
  | str | int | float => exact htext
  | bool =>
    simp only [coerceParam]
    split
    · rename_i hword
      simp [isUtf8_of_word (mem_append_left _ hword)]
    · split
      · rename_i hword
        simp [isUtf8_of_word (mem_append_right _ hword)]
      · exact htext

theorem isUtf8_iff {bytes : Bytes} :
    IsUtf8 bytes ↔ ∃ text : Text, text.Encodable ∧ text.bytes = bytes := by
  rw [← exists_pyUnicode_iff]
  simp only [← Text.ofUtf8_eq_some_iff, Text.ofUtf8, map_eq_some_iff]
  constructor
  · rintro ⟨string, h⟩
    exact ⟨_, string, h, rfl⟩
  · rintro ⟨_, string, h, -⟩
    exact ⟨string, h⟩

/-- Bytes are cut into strings in front of a character. -/
theorem isUtf8_append {left right : Bytes} (hright : ∀ b ∈ right.head?, isContinuation b = false)
    (h : IsUtf8 (left ++ right)) : IsUtf8 left ∧ IsUtf8 right := by
  obtain ⟨text, hencodable, hbytes⟩ := isUtf8_iff.mp h
  obtain ⟨front, back, rfl, hfront, hback⟩ := Text.exists_append hencodable hright hbytes
  obtain ⟨hfrontEncodable, hbackEncodable⟩ := forall_mem_append.mp hencodable
  exact ⟨isUtf8_iff.mpr ⟨front, hfrontEncodable, hfront⟩,
    isUtf8_iff.mpr ⟨back, hbackEncodable, hback⟩⟩

theorem isUtf8_split {sep : Byte} (hsep : sep.toNat < 128) {left right : Bytes}
    (h : IsUtf8 (left ++ sep :: right)) : IsUtf8 left ∧ IsUtf8 right := by
  have hval : (Fin.ofNat 0x110000 sep.toNat : CodePoint).val = sep.toNat := by
    rw [Fin.val_ofNat, Nat.mod_eq_of_lt (by omega)]
  have hencode : encode (Fin.ofNat 0x110000 sep.toNat) = [sep] := by
    rw [encode_ascii (by omega), hval, UInt8.ofNat_toNat]
  have hfirst : isContinuation sep = false := by
    rw [isContinuation, Bool.and_eq_false_iff, decide_eq_false_iff_not, UInt8.le_iff_toNat_le]
    exact .inl (not_le.mpr hsep)
  obtain ⟨hleft, hback⟩ := isUtf8_append (fun b hb => by rw [← Option.some.inj hb, hfirst]) h
  refine ⟨hleft, ?_⟩
  obtain ⟨text, hencodable, hbytes⟩ := isUtf8_iff.mp hback
  cases text with
  | nil => cases hbytes
  | cons c text =>
    obtain ⟨hc, hmore⟩ := forall_mem_cons.mp hencodable
    rw [Text.bytes_cons, ← singleton_append, ← hencode] at hbytes
    obtain ⟨-, hrest⟩ := encode_append_inj hc (isSurrogate_ascii (by omega)) hbytes
    exact isUtf8_iff.mpr ⟨text, hmore, hrest⟩

/-! ## Decoding -/

def hexVal (c : Byte) : Option Byte :=
  if 48 ≤ c ∧ c ≤ 57 then some (c - 48)
  else if 97 ≤ c ∧ c ≤ 102 then some (10 + (c - 97))
  else if 65 ≤ c ∧ c ≤ 70 then some (10 + (c - 65))
  else none

/-- `percent_decode_into_if_needed`.  Bytes without an escape come back as they
are, so the caller's choice between the two buffers is not modelled. -/
def percentDecode : Bytes → Bytes
  | c :: high :: low :: rest =>
    match if c = percent then hexVal high else none, hexVal low with
    | some hi, some lo => (hi <<< 4 ||| lo) :: percentDecode rest
    | _, _ => (if c = plus then space else c) :: percentDecode (high :: low :: rest)
  | c :: rest => (if c = plus then space else c) :: percentDecode rest
  | [] => []

/-- The keys and values of a query string, still encoded.  A segment without
`=` is skipped. -/
def querySegments (query : Bytes) : List (Bytes × Bytes) :=
  (query.splitOn ampersand).filterMap (splitAtByte equals)

def cookiePairs (value : Bytes) : List (Bytes × Bytes) :=
  match _hsplit : splitAtByte equals (value.dropWhile fun c => c == space || c == semicolon) with
  | none => []
  | some (name, rest) =>
    (name, rest.takeWhile (· ≠ semicolon)) :: cookiePairs (rest.dropWhile (· ≠ semicolon))
termination_by value.length
decreasing_by
  have hlength := Routing.length_of_splitAtByte _hsplit
  have hdropped : (value.dropWhile fun c => c == space || c == semicolon).length ≤ value.length :=
    (dropWhile_suffix _).length_le
  have hrest : (rest.dropWhile (· ≠ semicolon)).length ≤ rest.length :=
    (dropWhile_suffix _).length_le
  omega

theorem cookiePairs_eq (value : Bytes) :
    cookiePairs value =
      match splitAtByte equals (value.dropWhile fun c => c == space || c == semicolon) with
      | none => []
      | some (name, rest) =>
        (name, rest.takeWhile (· ≠ semicolon)) :: cookiePairs (rest.dropWhile (· ≠ semicolon)) := by
  rw [cookiePairs]
  split <;> simp_all

/-! ## Filling the dictionary -/

/-- The method, body and content type for the dispatcher of a group. -/
def injectGroup (request : ParsedHttpRequest) (kwargs : Kwargs Value) : Kwargs Value :=
  let kwargs :=
    match pyUnicode request.method with
    | some method => kwargs.set methodKey (.text method)
    | none => kwargs
  let kwargs := if request.body ≠ [] then kwargs.set bodyKey (.bytes request.body) else kwargs
  match request.headers.find? fun header => iequals header.1 "content-type" with
  | some header =>
    match pyUnicode header.2 with
    | some contentType => kwargs.set contentTypeKey (.text contentType)
    | none => kwargs
  | none => kwargs

def pathStep (spec : FastRouteSpec) (kwargs : Kwargs Value) (param : Bytes × Bytes) :
    Except Fault (Kwargs Value) :=
  match spec.pathMap param.1 with
  | some fs =>
    match coerceParam param.2 fs.typeTag with
    | some value => .ok (kwargs.set fs.fieldName value)
    | none => .error .nullResult
  | none =>
    match pyUnicode param.1, pyUnicode param.2 with
    | some name, some value => .ok (kwargs.set name (.text value))
    | _, _ => .error .nullItem

def queryStep (spec : FastRouteSpec) (kwargs : Kwargs Value) (segment : Bytes × Bytes) :
    Except Fault (Kwargs Value) :=
  match spec.queryMap (percentDecode segment.1) with
  | none => .ok kwargs
  | some fs =>
    match coerceParam (percentDecode segment.2) fs.typeTag with
    | some value => .ok (kwargs.set fs.fieldName (promote (kwargs fs.fieldName) value))
    | none => .error .nullResult

def cookieStep (spec : FastRouteSpec) (kwargs : Kwargs Value) (cookie : Bytes × Bytes) :
    Except Fault (Kwargs Value) :=
  match spec.cookieMap cookie.1 with
  | none => .ok kwargs
  | some fs =>
    match pyUnicode cookie.2 with
    | some value => .ok (kwargs.set fs.fieldName (.text value))
    | none => .error .nullItem

def headerNorm (b : Byte) : Byte := if b = dash then underscore else lower b

def collectHeader : Option Value → Value → Value
  | some (.list items), value => .list (items ++ [value])
  | _, value => .list [value]

def headerParam (spec : FastRouteSpec) (kwargs : Kwargs Value) (header : Header) :
    Kwargs Value :=
  if 255 < header.1.length then kwargs
  else
    match spec.headerMap (header.1.map headerNorm) with
    | none => kwargs
    | some fs =>
      let hasDash := (!fs.convertUnderscores || fs.seqUnderscoreOnly) && header.1.contains dash
      if !fs.convertUnderscores && hasDash && !fs.isSequence then kwargs
      else
        match pyUnicode header.2 with
        | none => kwargs
        | some text =>
          if fs.isSequence && !(fs.seqUnderscoreOnly && hasDash) then
            kwargs.set fs.fieldName (collectHeader (kwargs fs.fieldName) (.text text))
          else kwargs.set fs.fieldName (.text text)

def headerStep (spec : FastRouteSpec) (kwargs : Kwargs Value) (header : Header) :
    Except Fault (Kwargs Value) :=
  if spec.hasCookieParams && iequals header.1 "cookie" then
    (cookiePairs header.2).foldlM (cookieStep spec) kwargs
  else if spec.hasHeaderParams then .ok (headerParam spec kwargs header)
  else .ok kwargs

def fillDefaults (specs : List FieldSpec) (kwargs : Kwargs Value) : Kwargs Value :=
  kwargs.fill (specs.filterMap fun fs => fs.defaultValue.map (fs.fieldName, ·))

def needsKwargs (route : RouteInfo) (params : List (Bytes × Bytes))
    (request : ParsedHttpRequest) : Bool :=
  !params.isEmpty || route.fastSpec.hasQueryParams || route.fastSpec.hasHeaderParams ||
    route.fastSpec.hasCookieParams || route.fastSpec.hasBodyParams ||
    route.fastSpec.hasDependencies || request.queryString ≠ [] || route.isForm ||
    route.isMultiMethod

/-- The parameters of a request to a matched route; the result `none` is for a
route that takes no arguments at all. -/
def extractParams (route : RouteInfo) (params : List (Bytes × Bytes))
    (request : ParsedHttpRequest) : Except Fault (Option (Kwargs Value)) :=
  let spec := route.fastSpec
  if needsKwargs route params request then do
    let kwargs := if route.isMultiMethod then injectGroup request Kwargs.empty else Kwargs.empty
    let kwargs ← params.foldlM (pathStep spec) kwargs
    let kwargs ←
      (if spec.hasQueryParams then querySegments request.queryString else []).foldlM
        (queryStep spec) kwargs
    let kwargs ← request.headers.foldlM (headerStep spec) kwargs
    return some (fillDefaults spec.cookieSpecs
      (fillDefaults spec.headerSpecs (fillDefaults spec.querySpecs kwargs)))
  else .ok none

/-- How a call of `dispatch_one_request` ends. -/
inductive Ending (T : Type*) where
  | returned (result : Dispatched T)
  /-- It returns a null pointer, which the batch loops hand to `PyTuple_Check`. -/
  | null
  /-- `PyDict_SetItem` dereferences a null pointer. -/
  | crashed

/-- A request to a matched route, when `answer` is what the code after the
extraction makes of the arguments. -/
def dispatchMatched {T : Type*} (answer : Option (Kwargs Value) → Dispatched T)
    (route : RouteInfo) (params : List (Bytes × Bytes)) (request : ParsedHttpRequest) : Ending T :=
  match extractParams route params request with
  | .ok kwargs => .returned (answer kwargs)
  | .error .nullResult => .null
  | .error .nullItem => .crashed

/-! ## Strings without a check -/

def pathStrings (spec : FastRouteSpec) (param : Bytes × Bytes) : List Bytes :=
  if (spec.pathMap param.1).isSome then [param.2] else [param.1, param.2]

def queryStrings (spec : FastRouteSpec) (segment : Bytes × Bytes) : List Bytes :=
  if (spec.queryMap (percentDecode segment.1)).isSome then [percentDecode segment.2] else []

def cookieStrings (spec : FastRouteSpec) (cookie : Bytes × Bytes) : List Bytes :=
  if (spec.cookieMap cookie.1).isSome then [cookie.2] else []

def headerStrings (spec : FastRouteSpec) (header : Header) : List Bytes :=
  if spec.hasCookieParams && iequals header.1 "cookie" then
    (cookiePairs header.2).flatMap (cookieStrings spec)
  else []

/-- What a request brings for the parameters of the route in its path, its query
string and its cookies: the values of declared parameters, decoded, and each path
parameter that is not declared, with its name. -/
def parameterStrings (route : RouteInfo) (params : List (Bytes × Bytes))
    (request : ParsedHttpRequest) : List Bytes :=
  params.flatMap (pathStrings route.fastSpec) ++
    (querySegments request.queryString).flatMap (queryStrings route.fastSpec) ++
    request.headers.flatMap (headerStrings route.fastSpec)

section Fallible

universe u

variable {ε : Type*} {α : Type*} {β γ : Type u}

theorem exists_bind_iff {first : Except ε β} {next : β → Except ε γ} {G : Prop}
    (hnext : ∀ value, (∃ result, next value = .ok result) ↔ G) :
    (∃ result, (first >>= next) = .ok result) ↔ (∃ value, first = .ok value) ∧ G := by
  cases first with
  | error fault => simp [bind, Except.bind]
  | ok value => simpa [bind, Except.bind] using hnext _

theorem exists_foldlM_iff {step : β → α → Except ε β} {G : α → Prop}
    (hstep : ∀ state item, (∃ next, step state item = .ok next) ↔ G item)
    (items : List α) (state : β) :
    (∃ result, items.foldlM step state = .ok result) ↔ ∀ item ∈ items, G item := by
  induction items generalizing state with
  | nil => simp [pure, Except.pure]
  | cons item items ih =>
    rw [foldlM_cons, exists_bind_iff fun next => ih _, hstep, forall_mem_cons]

end Fallible

theorem exists_pathStep_iff (spec : FastRouteSpec) (kwargs : Kwargs Value)
    (param : Bytes × Bytes) :
    (∃ next, pathStep spec kwargs param = .ok next) ↔
      ∀ bytes ∈ pathStrings spec param, IsUtf8 bytes := by
  simp only [pathStep, pathStrings]
  cases spec.pathMap param.1 with
  | some fs =>
    simp only [isSome_some, if_true, forall_mem_singleton]
    rw [← exists_coerceParam_iff]
    cases coerceParam param.2 fs.typeTag <;> simp
  | none =>
    simp only [isSome_none, Bool.false_eq_true, if_false, forall_mem_cons]
    rw [← exists_pyUnicode_iff, ← exists_pyUnicode_iff]
    cases pyUnicode param.1 <;> cases pyUnicode param.2 <;> simp

theorem exists_queryStep_iff (spec : FastRouteSpec) (kwargs : Kwargs Value)
    (segment : Bytes × Bytes) :
    (∃ next, queryStep spec kwargs segment = .ok next) ↔
      ∀ bytes ∈ queryStrings spec segment, IsUtf8 bytes := by
  simp only [queryStep, queryStrings]
  cases spec.queryMap (percentDecode segment.1) with
  | none => simp
  | some fs =>
    simp only [isSome_some, if_true, forall_mem_singleton]
    rw [← exists_coerceParam_iff]
    cases coerceParam (percentDecode segment.2) fs.typeTag <;> simp

theorem exists_cookieStep_iff (spec : FastRouteSpec) (kwargs : Kwargs Value)
    (cookie : Bytes × Bytes) :
    (∃ next, cookieStep spec kwargs cookie = .ok next) ↔
      ∀ bytes ∈ cookieStrings spec cookie, IsUtf8 bytes := by
  simp only [cookieStep, cookieStrings]
  cases spec.cookieMap cookie.1 with
  | none => simp
  | some fs =>
    simp only [isSome_some, if_true, forall_mem_singleton]
    rw [← exists_pyUnicode_iff]
    cases pyUnicode cookie.2 <;> simp

theorem exists_headerStep_iff (spec : FastRouteSpec) (kwargs : Kwargs Value) (header : Header) :
    (∃ next, headerStep spec kwargs header = .ok next) ↔
      ∀ bytes ∈ headerStrings spec header, IsUtf8 bytes := by
  simp only [headerStep, headerStrings]
  split
  · rw [exists_foldlM_iff (exists_cookieStep_iff _)]
    simp only [forall_mem_flatMap]
  · split <;> simp

theorem lookupField_nil (key : FieldSpec → Bytes) (name : Bytes) : lookupField key [] name = none :=
  rfl

theorem queryStrings_of_isEmpty {spec : FastRouteSpec} (hempty : spec.hasQueryParams = false)
    (segment : Bytes × Bytes) : queryStrings spec segment = [] := by
  have hspecs : spec.querySpecs = [] := by simpa [FastRouteSpec.hasQueryParams] using hempty
  simp [queryStrings, FastRouteSpec.queryMap, hspecs, lookupField_nil]

/-- A route without arguments has no unchecked string. -/
theorem parameterStrings_of_not_needs {route : RouteInfo} {params : List (Bytes × Bytes)}
    {request : ParsedHttpRequest} (hneeds : needsKwargs route params request = false) :
    parameterStrings route params request = [] := by
  simp only [needsKwargs, Bool.or_eq_false_iff] at hneeds
  obtain ⟨⟨⟨⟨⟨⟨⟨⟨hparams, hquery⟩, -⟩, hcookie⟩, -⟩, -⟩, -⟩, -⟩, -⟩ := hneeds
  have hnil : params = [] := by simpa using hparams
  have hheaders : ∀ header, headerStrings route.fastSpec header = [] := by
    intro header
    simp [headerStrings, hcookie]
  simp [parameterStrings, hnil, queryStrings_of_isEmpty hquery, hheaders]

/-- The parameters of a request are extracted without a null pointer exactly when
their strings are UTF-8. -/
theorem extractParams_ok_iff (route : RouteInfo) (params : List (Bytes × Bytes))
    (request : ParsedHttpRequest) :
    (∃ kwargs, extractParams route params request = .ok kwargs) ↔
      ∀ bytes ∈ parameterStrings route params request, IsUtf8 bytes := by
  cases hneeds : needsKwargs route params request with
  | false => simp [extractParams, hneeds, parameterStrings_of_not_needs hneeds]
  | true =>
    have hsegments : (∀ segment ∈
          (if route.fastSpec.hasQueryParams then querySegments request.queryString else []),
        ∀ bytes ∈ queryStrings route.fastSpec segment, IsUtf8 bytes) ↔
        ∀ segment ∈ querySegments request.queryString,
          ∀ bytes ∈ queryStrings route.fastSpec segment, IsUtf8 bytes := by
      cases hquery : route.fastSpec.hasQueryParams with
      | true => simp
      | false => simp [queryStrings_of_isEmpty hquery]
    have hheaders := exists_foldlM_iff (exists_headerStep_iff route.fastSpec) request.headers
    have hqueries := exists_foldlM_iff (exists_queryStep_iff route.fastSpec)
    simp only [extractParams, hneeds, if_true]
    rw [exists_bind_iff (G := (∀ segment ∈ querySegments request.queryString,
          ∀ bytes ∈ queryStrings route.fastSpec segment, IsUtf8 bytes) ∧
        ∀ header ∈ request.headers, ∀ bytes ∈ headerStrings route.fastSpec header, IsUtf8 bytes),
      exists_foldlM_iff (exists_pathStep_iff _)]
    · simp only [parameterStrings, forall_mem_append, forall_mem_flatMap, and_assoc]
    · intro kwargs
      rw [exists_bind_iff, hqueries, hsegments]
      intro kwargs
      rw [exists_bind_iff (G := True), hheaders]
      · simp
      · intro kwargs
        simp [pure, Except.pure]

/-- A request to a matched route has a result for the batch loops exactly when the
strings that it brings for the parameters are UTF-8. -/
theorem parameters_defined_iff {T : Type*} (answer : Option (Kwargs Value) → Dispatched T)
    (route : RouteInfo) (params : List (Bytes × Bytes)) (request : ParsedHttpRequest) :
    (∃ result, dispatchMatched answer route params request = .returned result) ↔
      ∀ bytes ∈ parameterStrings route params request, IsUtf8 bytes := by
  rw [← extractParams_ok_iff, dispatchMatched]
  cases extractParams route params request with
  | ok kwargs => simp
  | error fault => cases fault <;> simp

def itemRoute : RouteInfo where
  fastSpec :=
    { pathSpecs := [{ fieldName := "id", aliasName := ascii "id" }]
      cookieSpecs := [{ fieldName := "tag", aliasName := ascii "tag" }] }

def itemRouter : Option Router := Router.insertAll {} [(ascii "/items/{id}", 0)]

def strayPath : Bytes := ascii "GET /items/" ++ [0xff] ++ ascii " HTTP/1.1\r\n\r\n"

def strayCookie : Bytes :=
  ascii "GET /items/7 HTTP/1.1\r\nCookie: tag=" ++ [0xff] ++ ascii "\r\n\r\n"

/-- The ending of a request that the scanner accepts and the router knows. -/
def itemEnding (data : Bytes) : Option (Ending Unit) := do
  let request ← fastParse data
  let found ← (← itemRouter).at request.path
  return dispatchMatched (fun _ => .handled request.totalConsumed) itemRoute found.params request

theorem headerStep_strayCookie (kwargs : Kwargs Value) :
    headerStep itemRoute.fastSpec kwargs (ascii "Cookie", ascii "tag=" ++ [0xff]) =
      .error .nullItem := by
  have hcookie : (itemRoute.fastSpec.hasCookieParams && iequals (ascii "Cookie") "cookie") = true :=
    rfl
  have hpairs : cookiePairs (ascii "tag=" ++ [0xff]) = [(ascii "tag", [0xff])] := by
    rw [cookiePairs_eq]
    have hrest : cookiePairs [] = [] := by
      rw [cookiePairs_eq]
      rfl
    simp [ascii, splitAtByte, equals, space, semicolon, hrest]
  rw [headerStep, if_pos hcookie, hpairs]
  rfl

/-- A stray byte in the path ends in a null pointer, one in a cookie in a crash. -/
theorem parameters_undefined_stray :
    itemEnding strayPath = some .null ∧ itemEnding strayCookie = some .crashed := by
  constructor
  · rfl
  · let request : ParsedHttpRequest :=
      { method := ascii "GET", path := ascii "/items/7"
        headers := [(ascii "Cookie", ascii "tag=" ++ [0xff])], keepAlive := true
        noBody := true, totalConsumed := strayCookie.length }
    have hrequest : fastParse strayCookie = some request := by rfl
    have hending : itemEnding strayCookie = some (dispatchMatched
        (fun _ => .handled request.totalConsumed) itemRoute [(ascii "id", ascii "7")] request) := by
      rfl
    have hfault : extractParams itemRoute [(ascii "id", ascii "7")] request = .error .nullItem := by
      have hneeds : needsKwargs itemRoute [(ascii "id", ascii "7")] request = true := rfl
      have hcookie : request.headers.foldlM (headerStep itemRoute.fastSpec)
          (Kwargs.empty.set "id" (.text "7")) = .error .nullItem := by
        rw [foldlM_cons, headerStep_strayCookie]
        rfl
      change (request.headers.foldlM (headerStep itemRoute.fastSpec)
        (Kwargs.empty.set "id" (.text "7")) >>= fun kwargs => .ok (some kwargs)) = _
      rw [hcookie]
      rfl
    rw [hending, dispatchMatched, hfault]

end AstraApi.Dispatch
