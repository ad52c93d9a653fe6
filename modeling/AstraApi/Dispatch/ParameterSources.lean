import AstraApi.Dispatch.CookieParsers
import AstraApi.Dispatch.QueryParsers

/-!
# Where a parameter comes from

The path, the query string, the headers and the cookies are written one after another into
one dictionary, under the names of the fields.  Fields of different places may have one
name, and then a value from one place replaces a value from another, or makes a list with it.
-/

namespace AstraApi.Dispatch

open List
open Deps (Name Kwargs)
open Http (ParsedHttpRequest iequals)
open Routing (splitAtByte)

/-- A place in a request that values are taken from. -/
inductive Source where
  /-- What the dispatcher puts in for the dispatcher of a group. -/
  | group (key : Name)
  | path (name : Bytes)
  | query (key : Bytes)
  | header (key : Bytes)
  | cookie (name : Bytes)
  deriving DecidableEq

/-- A value that arrives with a request. -/
inductive Arrival where
  | group (key : Name) (value : Value)
  | path (name value : Bytes)
  | query (key value : Bytes)
  | header (name value : Bytes)
  | cookie (name value : Bytes)

def Arrival.source : Arrival → Source
  | .group key _ => .group key
  | .path name _ => .path name
  | .query key _ => .query key
  | .header name _ => .header (name.map headerNorm)
  | .cookie name _ => .cookie name

def FastRouteSpec.fields (spec : FastRouteSpec) : List (Source × FieldSpec) :=
  spec.pathSpecs.map (fun fs => (.path fs.aliasKey, fs)) ++
    spec.querySpecs.map (fun fs => (.query fs.aliasKey, fs)) ++
    spec.headerSpecs.map (fun fs => (.header fs.headerLookupKey, fs)) ++
    spec.cookieSpecs.map fun fs => (.cookie (nameBytes fs.fieldName), fs)

section Arrivals

variable (spec : FastRouteSpec)

def skipsHeader (fs : FieldSpec) (name : Bytes) : Bool :=
  !fs.convertUnderscores && name.contains dash && !fs.isSequence

/-- The name that a value is stored under. -/
def Arrival.target : Arrival → Option Name
  | .group key _ => some key
  | .path name _ =>
    match spec.pathMap name with
    | some fs => some fs.fieldName
    | none => pyUnicode name
  | .query key _ => (spec.queryMap key).map FieldSpec.fieldName
  | .header name value =>
    if 255 < name.length then none
    else
      match spec.headerMap (name.map headerNorm) with
      | none => none
      | some fs =>
        if skipsHeader fs name then none else (pyUnicode value).map fun _ => fs.fieldName
  | .cookie name _ => (spec.cookieMap name).map FieldSpec.fieldName

/-- What is stored, given what is there. -/
def Arrival.write (old : Option Value) : Arrival → Option Value
  | .group _ value => some value
  | .path name value =>
    match spec.pathMap name with
    | some fs => coerceParam value fs.typeTag
    | none => (pyUnicode value).map .text
  | .query key value =>
    match spec.queryMap key with
    | some fs => (coerceParam value fs.typeTag).map (promote old)
    | none => old
  | .header name value =>
    match spec.headerMap (name.map headerNorm) with
    | none => old
    | some fs =>
      (pyUnicode value).map fun text =>
        if fs.isSequence && !(fs.seqUnderscoreOnly && name.contains dash) then
          collectHeader old (.text text)
        else .text text
  | .cookie _ value => (pyUnicode value).map .text

def groupArrivals (request : ParsedHttpRequest) : List Arrival :=
  ((pyUnicode request.method).map fun method => Arrival.group methodKey (.text method)).toList ++
    (if request.body ≠ [] then [.group bodyKey (.bytes request.body)] else []) ++
    (((request.headers.find? fun header => iequals header.1 "content-type").bind fun header =>
      pyUnicode header.2).map fun text => Arrival.group contentTypeKey (.text text)).toList

def headerArrivals (header : Http.Header) : List Arrival :=
  if spec.hasCookieParams && iequals header.1 "cookie" then
    (cookiePairs header.2).map fun cookie => .cookie cookie.1 cookie.2
  else if spec.hasHeaderParams then [.header header.1 header.2]
  else []

def queryArrivals (query : Bytes) : List Arrival :=
  (querySegments query).map fun segment =>
    .query (percentDecode segment.1) (percentDecode segment.2)

/-- The values of a request in the order in which they are stored. -/
def arrivals (route : RouteInfo) (params : List (Bytes × Bytes)) (request : ParsedHttpRequest) :
    List Arrival :=
  (if route.isMultiMethod then groupArrivals request else []) ++
    params.map (fun param => .path param.1 param.2) ++
    queryArrivals request.queryString ++
    request.headers.flatMap (headerArrivals route.fastSpec)

def landed (name : Name) (old : Option Value) (items : List Arrival) : Option Value :=
  (items.filter fun item => item.target spec = some name).foldl
    (fun old item => item.write spec old) old

end Arrivals

section Landed

variable {spec : FastRouteSpec} {name : Name} {kwargs kwargs' : Kwargs Value}

theorem landed_append (old : Option Value) (items more : List Arrival) :
    landed spec name old (items ++ more) = landed spec name (landed spec name old items) more := by
  rw [landed, filter_append, foldl_append]
  rfl

theorem landed_cons (old : Option Value) (item : Arrival) (items : List Arrival) :
    landed spec name old (item :: items) =
      landed spec name (if item.target spec = some name then item.write spec old else old) items := by
  by_cases h : item.target spec = some name
  · simp [h, landed]
  · simp [h, landed]

def Stores (spec : FastRouteSpec) (kwargs kwargs' : Kwargs Value) (items : List Arrival) : Prop :=
  ∀ name, kwargs' name = landed spec name (kwargs name) items

theorem Stores.foldlM {α : Type*} {step : Kwargs Value → α → Except Fault (Kwargs Value)}
    {arrive : α → List Arrival}
    (hstep : ∀ kwargs item kwargs', step kwargs item = .ok kwargs' →
      Stores spec kwargs kwargs' (arrive item)) {items : List α}
    (h : items.foldlM step kwargs = .ok kwargs') :
    Stores spec kwargs kwargs' (items.flatMap arrive) := by
  induction items generalizing kwargs with
  | nil =>
    cases h
    exact fun _ => rfl
  | cons item items ih =>
    rw [foldlM_cons] at h
    cases hfirst : step kwargs item with
    | error fault => rw [hfirst] at h; cases h
    | ok next =>
      rw [hfirst] at h
      intro name
      rw [flatMap_cons, landed_append, ← hstep _ _ _ hfirst _]
      exact ih h _

theorem stores_set {item : Arrival} {key : Name} {value : Value}
    (htarget : item.target spec = some key) (hwrite : item.write spec (kwargs key) = some value) :
    Stores spec kwargs (kwargs.set key value) [item] := by
  intro name
  rw [landed_cons, htarget, Kwargs.set_apply]
  by_cases h : name = key
  · subst h
    simp [hwrite, landed]
  · simp [h, Ne.symm h, landed]

theorem stores_skip {item : Arrival} (htarget : item.target spec = none) :
    Stores spec kwargs kwargs [item] := by
  intro name
  simp [htarget, landed]

theorem stores_pathStep {param : Bytes × Bytes} (h : pathStep spec kwargs param = .ok kwargs') :
    Stores spec kwargs kwargs' [.path param.1 param.2] := by
  rw [pathStep] at h
  split at h
  · next fs hfs =>
    split at h
    · next value hvalue =>
      cases h
      exact stores_set (by simp [Arrival.target, hfs]) (by simp [Arrival.write, hfs, hvalue])
    · cases h
  · next hfs =>
    split at h
    · next name value hname hvalue =>
      cases h
      exact stores_set (by simp [Arrival.target, hfs, hname]) (by simp [Arrival.write, hfs, hvalue])
    · cases h

theorem stores_queryStep {segment : Bytes × Bytes}
    (h : queryStep spec kwargs segment = .ok kwargs') :
    Stores spec kwargs kwargs' [.query (percentDecode segment.1) (percentDecode segment.2)] := by
  rw [queryStep] at h
  split at h
  · next hfs =>
    cases h
    exact stores_skip (by simp [Arrival.target, hfs])
  · next fs hfs =>
    split at h
    · next value hvalue =>
      cases h
      exact stores_set (by simp [Arrival.target, hfs]) (by simp [Arrival.write, hfs, hvalue])
    · cases h

theorem stores_cookieStep {cookie : Bytes × Bytes}
    (h : cookieStep spec kwargs cookie = .ok kwargs') :
    Stores spec kwargs kwargs' [.cookie cookie.1 cookie.2] := by
  rw [cookieStep] at h
  split at h
  · next hfs =>
    cases h
    exact stores_skip (by simp [Arrival.target, hfs])
  · next fs hfs =>
    split at h
    · next value hvalue =>
      cases h
      exact stores_set (by simp [Arrival.target, hfs]) (by simp [Arrival.write, hvalue])
    · cases h

theorem stores_headerParam (header : Http.Header) :
    Stores spec kwargs (headerParam spec kwargs header) [.header header.1 header.2] := by
  rw [headerParam]
  split
  · next hlong => exact stores_skip (by simp [Arrival.target, hlong])
  · next hshort =>
    split
    · next hfs => exact stores_skip (by simp [Arrival.target, hfs])
    · next fs hfs =>
      have hskips : (!fs.convertUnderscores && ((!fs.convertUnderscores || fs.seqUnderscoreOnly) &&
          header.1.contains dash) && !fs.isSequence) = skipsHeader fs header.1 := by
        rw [skipsHeader]
        cases fs.convertUnderscores <;> simp
      have hcollects : (fs.isSequence && !(fs.seqUnderscoreOnly &&
          ((!fs.convertUnderscores || fs.seqUnderscoreOnly) && header.1.contains dash))) =
            (fs.isSequence && !(fs.seqUnderscoreOnly && header.1.contains dash)) := by
        cases fs.seqUnderscoreOnly <;> simp
      dsimp only
      rw [hskips, hcollects]
      split
      · next hskip => exact stores_skip (by simp [Arrival.target, hfs, hskip])
      · next hkept =>
        split
        · next hvalue => exact stores_skip (by simp [Arrival.target, hfs, hkept, hvalue])
        · next text hvalue =>
          split
          · next hcollect =>
            exact stores_set (by simp [Arrival.target, hshort, hfs, hkept, hvalue])
              (by simp only [Arrival.write, hfs, hvalue, Option.map_some, if_pos hcollect])
          · next hplain =>
            exact stores_set (by simp [Arrival.target, hshort, hfs, hkept, hvalue])
              (by simp only [Arrival.write, hfs, hvalue, Option.map_some, if_neg hplain])

theorem stores_headerStep {header : Http.Header} (h : headerStep spec kwargs header = .ok kwargs') :
    Stores spec kwargs kwargs' (headerArrivals spec header) := by
  rw [headerStep] at h
  rw [headerArrivals]
  split at h
  · next hcookie =>
    rw [if_pos hcookie, map_eq_flatMap]
    exact Stores.foldlM (fun _ _ _ hstep => stores_cookieStep hstep) h
  · next hcookie =>
    rw [if_neg hcookie]
    split at h
    · next hheader =>
      cases h
      rw [if_pos hheader]
      exact stores_headerParam _
    · next hheader =>
      cases h
      rw [if_neg hheader]
      exact fun _ => rfl

theorem Stores.append {middle : Kwargs Value} {items more : List Arrival}
    (h : Stores spec kwargs middle items) (hmore : Stores spec middle kwargs' more) :
    Stores spec kwargs kwargs' (items ++ more) := by
  intro name
  rw [landed_append, ← h]
  exact hmore _

theorem stores_injectGroup (request : ParsedHttpRequest) :
    Stores spec kwargs (injectGroup request kwargs) (groupArrivals request) := by
  unfold injectGroup
  extract_lets first second
  have hmethod : Stores spec kwargs first ((pyUnicode request.method).map fun method =>
      Arrival.group methodKey (.text method)).toList := by
    simp only [first]
    cases pyUnicode request.method with
    | none => exact fun _ => rfl
    | some method => exact stores_set rfl rfl
  have hbody : Stores spec first second
      (if request.body ≠ [] then [.group bodyKey (.bytes request.body)] else []) := by
    simp only [second]
    split
    · exact stores_set rfl rfl
    · exact fun _ => rfl
  refine (hmethod.append hbody).append ?_
  cases request.headers.find? fun header => iequals header.1 "content-type" with
  | none => exact fun _ => rfl
  | some header =>
    dsimp only [Option.bind_some]
    cases pyUnicode header.2 with
    | none => exact fun _ => rfl
    | some contentType => exact stores_set rfl rfl

/-- The value that a field gets if nothing arrives. -/
def FastRouteSpec.defaultOf (spec : FastRouteSpec) (name : Name) : Option Value :=
  fillDefaults spec.cookieSpecs
    (fillDefaults spec.headerSpecs (fillDefaults spec.querySpecs Kwargs.empty)) name

theorem fillDefaults_at (name : Name) :
    fillDefaults spec.cookieSpecs
      (fillDefaults spec.headerSpecs (fillDefaults spec.querySpecs kwargs)) name =
        (kwargs name).or (spec.defaultOf name) := by
  simp [FastRouteSpec.defaultOf, fillDefaults, Kwargs.fill_apply, Kwargs.empty, Option.or_assoc]

theorem landed_of_forall {old : Option Value} {items : List Arrival}
    (h : ∀ item ∈ items, item.target spec ≠ some name) : landed spec name old items = old := by
  have hnone : items.filter (fun item => item.target spec = some name) = [] :=
    filter_eq_nil_iff.mpr fun item hitem => by simpa using h _ hitem
  rw [landed, hnone]
  rfl

theorem landed_queryArrivals (h : spec.hasQueryParams = false) (old : Option Value)
    (query : Bytes) : landed spec name old (queryArrivals query) = old := by
  have hspecs : spec.querySpecs = [] := by simpa [FastRouteSpec.hasQueryParams] using h
  apply landed_of_forall
  intro item hitem
  obtain ⟨segment, -, rfl⟩ := mem_map.mp hitem
  simp [Arrival.target, FastRouteSpec.queryMap, hspecs, lookupField_nil]

/-- What the dictionary has in the end is what has landed, or the default. -/
theorem extractParams_at {route : RouteInfo} {params : List (Bytes × Bytes)}
    {request : ParsedHttpRequest} {stored : Option (Kwargs Value)}
    (h : extractParams route params request = .ok stored) (name : Name) :
    (stored.bind fun kwargs => kwargs name) =
      (landed route.fastSpec name none (arrivals route params request)).or
        (route.fastSpec.defaultOf name) := by
  rw [extractParams] at h
  split at h
  · simp only [bind, Except.bind] at h
    split at h
    · cases h
    · next afterPath hpath =>
      split at h
      · cases h
      · next afterQuery hquery =>
        split at h
        · cases h
        · next afterHeaders hheaders =>
          cases h
          have hgroup : (if route.isMultiMethod then injectGroup request Kwargs.empty
              else Kwargs.empty) name = landed route.fastSpec name none
                (if route.isMultiMethod then groupArrivals request else []) := by
            split
            · exact stores_injectGroup _ _
            · rfl
          have hpaths := Stores.foldlM (fun _ _ _ hstep => stores_pathStep hstep) hpath name
          have hqueries : afterQuery name = landed route.fastSpec name (afterPath name)
              (queryArrivals request.queryString) := by
            cases hread : route.fastSpec.hasQueryParams with
            | true =>
              rw [hread, if_pos rfl] at hquery
              rw [queryArrivals, map_eq_flatMap]
              exact Stores.foldlM (fun _ _ _ hstep => stores_queryStep hstep) hquery _
            | false =>
              rw [hread] at hquery
              cases hquery
              exact (landed_queryArrivals hread _ _).symm
          have hlast := Stores.foldlM (fun _ _ _ hstep => stores_headerStep hstep) hheaders name
          rw [arrivals, landed_append, landed_append, landed_append, ← hgroup,
            map_eq_flatMap, ← hpaths, ← hqueries, ← hlast]
          exact fillDefaults_at _
  · next hneeds =>
    cases h
    simp only [needsKwargs, Bool.or_eq_true, not_or, Bool.not_eq_true] at hneeds
    obtain ⟨⟨⟨⟨⟨⟨⟨⟨hparams, hquery⟩, hheader⟩, hcookie⟩, -⟩, -⟩, -⟩, -⟩, hgroup⟩ := hneeds
    have hnil : params = [] := by simpa using hparams
    have hheaders : request.headers.flatMap (headerArrivals route.fastSpec) = [] := by
      simp [headerArrivals, hcookie, hheader]
    have hdefault : route.fastSpec.defaultOf name = none := by
      simp only [FastRouteSpec.hasQueryParams, FastRouteSpec.hasHeaderParams,
        FastRouteSpec.hasCookieParams, Bool.not_eq_false', List.isEmpty_iff] at hquery hheader hcookie
      simp [FastRouteSpec.defaultOf, fillDefaults, hquery, hheader, hcookie, Kwargs.fill,
        Kwargs.empty]
    rw [arrivals, hgroup, hnil, hheaders, landed_append, landed_append, landed_append,
      landed_queryArrivals hquery, hdefault]
    rfl

end Landed

/-! ## What a value depends on -/

def Source.data (params : List (Bytes × Bytes)) (request : ParsedHttpRequest) :
    Source → List (Bytes × Bytes)
  | .group _ => []
  | .path name => params.filter fun param => param.1 = name
  | .query key =>
    ((querySegments request.queryString).map fun segment =>
      (percentDecode segment.1, percentDecode segment.2)).filter fun pair => pair.1 = key
  | .header key => request.headers.filter fun header => header.1.map headerNorm = key
  | .cookie name =>
    ((request.headers.filter fun header => iequals header.1 "cookie").flatMap fun header =>
      cookiePairs header.2).filter fun cookie => cookie.1 = name

/-- The value of each field of a route, whose pattern has the given parameters, depends on
what is at the place of the field, and on nothing else. -/
def Separate (route : RouteInfo) (names : List Name) : Prop :=
  ∀ field ∈ route.fastSpec.fields, ∀ params params' request request' stored stored',
    params.map Prod.fst = names.map nameBytes → params'.map Prod.fst = names.map nameBytes →
    field.1.data params request = field.1.data params' request' →
    extractParams route params request = .ok stored →
    extractParams route params' request' = .ok stored' →
    (stored.bind fun kwargs => kwargs field.2.fieldName) =
      stored'.bind fun kwargs => kwargs field.2.fieldName

def lastPath (spec : FastRouteSpec) (names : List Bytes) (name : Name) : Option Bytes :=
  (names.filter fun path => (Arrival.path path []).target spec = some name).getLast?

/-- A place from which a value can come to stand under a name. -/
def Reaches (route : RouteInfo) (names : List Name) (name : Name) : Source → Prop
  | .group key =>
    route.isMultiMethod = true ∧ key ∈ [methodKey, bodyKey, contentTypeKey] ∧ key = name ∧
      lastPath route.fastSpec (names.map nameBytes) name = none
  | .path path => lastPath route.fastSpec (names.map nameBytes) name = some path
  | .query key => (Arrival.query key []).target route.fastSpec = some name
  | .header key =>
    ∃ header : Bytes, header.map headerNorm = key ∧
      (route.fastSpec.hasCookieParams && iequals header "cookie") = false ∧
      (Arrival.header header []).target route.fastSpec = some name
  | .cookie cookie =>
    equals ∉ cookie ∧ (∀ b ∈ cookie.head?, skipsSpace b = false) ∧
      (Arrival.cookie cookie []).target route.fastSpec = some name

/-- The header that a field reads has the other values too. -/
def Source.contains : Source → Source → Bool
  | .header key, .group other => key = ascii "content_type" ∧ other = contentTypeKey
  | .header key, .cookie _ => key = ascii "cookie"
  | _, _ => false

/-- No two places give values under one name. -/
def Apart (route : RouteInfo) (names : List Name) : Prop :=
  ∀ field ∈ route.fastSpec.fields, ∀ other, Reaches route names field.2.fieldName other →
    other = field.1 ∨ field.1.contains other = true

section Views

variable {spec : FastRouteSpec} {route : RouteInfo} {name : Name} {names : List Name}
  {own : Source} {params params' : List (Bytes × Bytes)} {request request' : ParsedHttpRequest}

/-- An arrival that can be read off the place of a field. -/
def views (own : Source) (item : Arrival) : Bool :=
  item.source = own ∨ own.contains item.source = true

theorem landed_views {items : List Arrival}
    (h : ∀ item ∈ items, item.target spec = some name → views own item = true)
    (old : Option Value) :
    landed spec name old items = landed spec name old (items.filter (views own)) := by
  rw [landed, landed, filter_filter]
  congr 1
  refine filter_congr fun item hitem => ?_
  by_cases htarget : item.target spec = some name
  · simp [h _ hitem htarget]
  · simp [htarget]

theorem queryArrivals_views (h : own.data params request = own.data params' request') :
    (queryArrivals request.queryString).filter (views own) =
      (queryArrivals request'.queryString).filter (views own) := by
  have hquery (query : Bytes) : (queryArrivals query).filter (views own) =
      (((querySegments query).map fun segment =>
        (percentDecode segment.1, percentDecode segment.2)).filter fun pair =>
          Source.query pair.1 = own).map fun pair => Arrival.query pair.1 pair.2 := by
    rw [queryArrivals, filter_map, filter_map, map_map]
    congr 1
    refine filter_congr fun segment _ => ?_
    cases own <;> simp [views, Arrival.source, Source.contains]
  rw [hquery, hquery]
  congr 1
  cases own with
  | query key => simpa [Source.data] using h
  | group _ | path _ | header _ | cookie _ => simp

theorem headerNorm_lower (b : Byte) : headerNorm (Http.lower b) = headerNorm b := by
  simp only [headerNorm, Http.lower, dash, underscore]
  grind

theorem headerNorm_of_iequals {header : Bytes} {word : String} (h : iequals header word = true) :
    header.map headerNorm = (ascii word).map headerNorm := by
  have hlower : header.map Http.lower = ascii word := by simpa [iequals] using h
  rw [← hlower, map_map]
  exact map_congr_left fun b _ => (headerNorm_lower b).symm

@[simp] theorem views_header (header value : Bytes) :
    views own (.header header value) = decide (.header (header.map headerNorm) = own) := by
  cases own <;> simp [views, Arrival.source, Source.contains]

@[simp] theorem views_cookie (cookie value : Bytes) :
    views own (.cookie cookie value) =
      decide (.cookie cookie = own ∨ own = .header (ascii "cookie")) := by
  cases own <;> simp [views, Arrival.source, Source.contains]

theorem flatMap_views {wanted : Http.Header → Bool} {headers : List Http.Header}
    (h : ∀ header, wanted header = false → (headerArrivals spec header).filter (views own) = []) :
    (headers.flatMap (headerArrivals spec)).filter (views own) =
      (headers.filter wanted).flatMap fun header =>
        (headerArrivals spec header).filter (views own) := by
  rw [filter_flatMap]
  induction headers with
  | nil => rfl
  | cons header headers ih =>
    rw [flatMap_cons, ih]
    cases hwanted : wanted header with
    | true => rw [filter_cons_of_pos hwanted, flatMap_cons]
    | false => rw [filter_cons_of_neg (by simp [hwanted]), h _ hwanted, nil_append]

theorem headerArrivals_views (h : own.data params request = own.data params' request') :
    (request.headers.flatMap (headerArrivals spec)).filter (views own) =
      (request'.headers.flatMap (headerArrivals spec)).filter (views own) := by
  cases own with
  | header key =>
    have hnone (header : Http.Header) (hother : decide (header.1.map headerNorm = key) = false) :
        (headerArrivals spec header).filter (views (.header key)) = [] := by
      have hkey : header.1.map headerNorm ≠ key := of_decide_eq_false hother
      rw [headerArrivals]
      split
      · next hcookie =>
        rw [headerNorm_of_iequals (Bool.and_elim_right hcookie)] at hkey
        have hnot : key ≠ ascii "cookie" := hkey.symm
        simp [filter_map, hnot]
      · split
        · simp [hkey]
        · rfl
    rw [flatMap_views hnone, flatMap_views hnone]
    exact congrArg _ h
  | cookie name =>
    have hnone (header : Http.Header) (hother : iequals header.1 "cookie" = false) :
        (headerArrivals spec header).filter (views (.cookie name)) = [] := by
      rw [headerArrivals, hother, Bool.and_false]
      simp only [Bool.false_eq_true, if_false]
      split <;> simp
    have hcookies (request : ParsedHttpRequest) :
        (request.headers.flatMap (headerArrivals spec)).filter (views (.cookie name)) =
          if spec.hasCookieParams then
            (Source.data [] request (.cookie name)).map fun cookie => .cookie cookie.1 cookie.2
          else [] := by
      rw [flatMap_views hnone, Source.data, filter_flatMap, map_flatMap]
      split
      · next hread =>
        refine flatMap_congr fun header hheader => ?_
        rw [headerArrivals, hread, (mem_filter.mp hheader).2]
        simp [filter_map, Function.comp_def]
      · next hread =>
        refine flatMap_eq_nil_iff.mpr fun header _ => ?_
        rw [headerArrivals, Bool.eq_false_iff.mpr hread]
        simp only [Bool.false_and, Bool.false_eq_true, if_false]
        split <;> simp
    rw [hcookies, hcookies]
    exact congrArg (fun pairs => if spec.hasCookieParams then
      List.map (fun cookie => Arrival.cookie cookie.1 cookie.2) pairs else []) h
  | group _ | path _ | query _ =>
    rw [@flatMap_views, @flatMap_views, filter_false, filter_false] <;>
    · intro header _
      rw [headerArrivals]
      split
      · simp [filter_map]
      · split <;> simp

@[simp] theorem views_group (key : Name) (value : Value) : views own (.group key value) =
    decide (.group key = own ∨ own = .header (ascii "content_type") ∧ key = contentTypeKey) := by
  cases own <;> simp [views, Arrival.source, Source.contains]

/-- Of what the dispatcher puts in, a header gives the content type. -/
theorem groupArrivals_views (hown : ∀ key, .group key ≠ own)
    (h : own.data params request = own.data params' request') :
    (groupArrivals request).filter (views own) = (groupArrivals request').filter (views own) := by
  have hmethod : methodKey ≠ contentTypeKey := by decide
  have hbody : bodyKey ≠ contentTypeKey := by decide
  have hgroup (request : ParsedHttpRequest) : (groupArrivals request).filter (views own) =
      (((request.headers.find? fun header => iequals header.1 "content-type").bind fun header =>
        pyUnicode header.2).map fun text => Arrival.group contentTypeKey (.text text)).toList.filter
          (views own) := by
    rw [groupArrivals, filter_append, filter_append]
    cases pyUnicode request.method <;> split <;> simp [hown, hmethod, hbody]
  rw [hgroup, hgroup]
  by_cases hkey : own = .header (ascii "content_type")
  · subst hkey
    have hfind (request : ParsedHttpRequest) :
        (request.headers.find? fun header => iequals header.1 "content-type") =
          (Source.data [] request (.header (ascii "content_type"))).find? fun header =>
            iequals header.1 "content-type" := by
      rw [Source.data, find?_filter]
      congr 1
      funext header
      cases hname : iequals header.1 "content-type" with
      | false => simp
      | true => simp [headerNorm_of_iequals hname, show (ascii "content-type").map headerNorm =
          ascii "content_type" by decide]
    rw [hfind, hfind]
    exact congrArg (fun headers : List Http.Header => ((((headers.find? fun header =>
      iequals header.1 "content-type").bind fun header => pyUnicode header.2).map fun text =>
        Arrival.group _ (.text text)).toList.filter (views _))) h
  · have hnone (text : Option _) : ((text.map fun text =>
        Arrival.group contentTypeKey (.text text)).toList.filter (views own)) = [] := by
      cases text <;> simp [hown, hkey]
    rw [hnone, hnone]

/-- The last of the parameters of the path that are stored under a name replaces all others. -/
theorem landed_path (params : List (Bytes × Bytes)) (old : Option Value) :
    landed spec name old (params.map fun param => .path param.1 param.2) =
      match (params.filter fun param => (Arrival.path param.1 []).target spec = some name).getLast? with
      | none => old
      | some param => (Arrival.path param.1 param.2).write spec none := by
  have hfold (items : List (Bytes × Bytes)) :
      (items.map fun param => Arrival.path param.1 param.2).foldl
          (fun old item => item.write spec old) old =
        match items.getLast? with
        | none => old
        | some param => (Arrival.path param.1 param.2).write spec none := by
    rcases eq_nil_or_concat items with rfl | ⟨front, param, rfl⟩
    · rfl
    · simp [Arrival.write]
  rw [landed, filter_map]
  exact hfold _

theorem getLast?_filter_of {α : Type*} {items : List α} {item : α} {p : α → Bool}
    (h : items.getLast? = some item) (hp : p item = true) :
    (items.filter p).getLast? = some item := by
  obtain ⟨front, rfl⟩ := getLast?_eq_some_iff.mp h
  simp [hp]

theorem lastPath_fst (hnames : params.map Prod.fst = names.map nameBytes) :
    ((params.filter fun param => (Arrival.path param.1 []).target spec = some name).getLast?.map
      Prod.fst) = lastPath spec (names.map nameBytes) name := by
  rw [← getLast?_map, lastPath, ← hnames, filter_map]
  rfl

/-- The part of the path gives one value if the last parameter is the field's own. -/
theorem path_agree (h : own.data params request = own.data params' request') {path : Bytes}
    (hown : own = .path path) (hnames : params.map Prod.fst = names.map nameBytes)
    (hnames' : params'.map Prod.fst = names.map nameBytes)
    (hlast : lastPath spec (names.map nameBytes) name = some path) (old old' : Option Value) :
    landed spec name old (params.map fun param => .path param.1 param.2) =
      landed spec name old' (params'.map fun param => .path param.1 param.2) := by
  have hvalue (params : List (Bytes × Bytes)) (hnames : params.map Prod.fst = names.map nameBytes) :
      ∃ param, (params.filter fun param =>
          (Arrival.path param.1 []).target spec = some name).getLast? = some param ∧
        (params.filter fun param => param.1 = path).getLast? = some param := by
    obtain ⟨param, hparam, rfl⟩ := Option.map_eq_some_iff.mp ((lastPath_fst hnames).trans hlast)
    have htarget := (mem_filter.mp (mem_of_getLast? hparam)).2
    have hown := @getLast?_filter_of _ _ _ (fun other => other.1 = param.1) hparam (by simp)
    refine ⟨param, hparam, ?_⟩
    rw [← hown, filter_filter]
    congr 1
    refine filter_congr fun other _ => ?_
    by_cases heq : other.1 = param.1
    · simp [heq, htarget]
    · simp [heq]
  subst hown
  obtain ⟨param, hparam, hdata⟩ := hvalue _ hnames
  obtain ⟨param', hparam', hdata'⟩ := hvalue _ hnames'
  have hsame : param = param' := by
    rw [show params.filter (fun param => param.1 = path) =
      params'.filter fun param => param.1 = path from h, hdata'] at hdata
    exact (Option.some.inj hdata).symm
  rw [landed_path, landed_path, hparam, hparam', hsame]

theorem equals_notMem_scanPairs (value : Bytes) :
    ∀ pair ∈ scanPairs skipsSpace value, equals ∉ pair.1 := by
  induction value using scanPairs.induct skipsSpace with
  | case1 value hsplit =>
    rw [scanPairs_eq, hsplit]
    exact forall_mem_nil _
  | case2 value name rest hsplit ih =>
    rw [scanPairs_eq, hsplit]
    exact forall_mem_cons.mpr ⟨(splitAtByte_eq_some_iff.mp hsplit).2, ih⟩

theorem target_header {header value value' : Bytes} (hutf8 : IsUtf8 value')
    (h : (Arrival.header header value).target spec = some name) :
    (Arrival.header header value').target spec = some name := by
  obtain ⟨text, htext⟩ := (exists_pyUnicode_iff _).mpr hutf8
  simp only [Arrival.target] at h ⊢
  split at h
  · cases h
  · next hshort =>
    rw [if_neg hshort]
    split at h
    · cases h
    · split at h
      · cases h
      · next hkept =>
        obtain ⟨_, -, hname⟩ := Option.map_eq_some_iff.mp h
        simp [hkept, htext, hname]

theorem reaches_query {query : Bytes} {item : Arrival} (h : item ∈ queryArrivals query)
    (htarget : item.target route.fastSpec = some name) : Reaches route names name item.source := by
  obtain ⟨segment, -, rfl⟩ := mem_map.mp h
  exact htarget

theorem reaches_header {header : Http.Header} {item : Arrival}
    (h : item ∈ headerArrivals route.fastSpec header)
    (htarget : item.target route.fastSpec = some name) : Reaches route names name item.source := by
  rw [headerArrivals] at h
  split at h
  · obtain ⟨cookie, hcookie, rfl⟩ := mem_map.mp h
    rw [cookiePairs_eq_scanPairs] at hcookie
    exact ⟨equals_notMem_scanPairs _ _ hcookie, head_of_scanPairs _ _ hcookie, htarget⟩
  · next hcookie =>
    split at h
    · cases mem_singleton.mp h
      refine ⟨header.1, rfl, Bool.eq_false_iff.mpr hcookie, ?_⟩
      exact target_header (by decide) htarget
    · cases h

theorem reaches_group {item : Arrival} (h : item ∈ groupArrivals request)
    (hmulti : route.isMultiMethod = true)
    (hlast : lastPath route.fastSpec (names.map nameBytes) name = none)
    (htarget : item.target route.fastSpec = some name) : Reaches route names name item.source := by
  obtain ⟨key, value, rfl, hkey⟩ : ∃ key value, item = .group key value ∧
      key ∈ [methodKey, bodyKey, contentTypeKey] := by
    rcases mem_append.mp h with h | h
    · rcases mem_append.mp h with h | h
      · obtain ⟨_, -, rfl⟩ := Option.map_eq_some_iff.mp (Option.mem_toList.mp h)
        exact ⟨_, _, rfl, by simp⟩
      · split at h
        · cases mem_singleton.mp h
          exact ⟨_, _, rfl, by simp⟩
        · cases h
    · obtain ⟨_, -, rfl⟩ := Option.map_eq_some_iff.mp (Option.mem_toList.mp h)
      exact ⟨_, _, rfl, by simp⟩
  exact ⟨hmulti, hkey, Option.some.inj htarget, hlast⟩

theorem group_ne {field : Source × FieldSpec} (h : field ∈ spec.fields) (key : Name) :
    .group key ≠ field.1 := by
  intro heq
  simp only [FastRouteSpec.fields, mem_append, mem_map] at h
  rcases h with ((⟨_, -, rfl⟩ | ⟨_, -, rfl⟩) | ⟨_, -, rfl⟩) | ⟨_, -, rfl⟩ <;> cases heq

theorem separate_of_apart (h : Apart route names) : Separate route names := by
  intro field hfield params params' request request' stored stored' hnames hnames' hdata hok hok'
  rw [extractParams_at hok, extractParams_at hok']
  have hviews {item : Arrival}
      (hreach : Reaches route names field.2.fieldName item.source) : views field.1 item = true := by
    simpa [views] using h _ hfield _ hreach
  have hqueries (old : Option _) :
      landed route.fastSpec field.2.fieldName old (queryArrivals request.queryString) =
        landed route.fastSpec field.2.fieldName old (queryArrivals request'.queryString) := by
    rw [landed_views fun item hitem htarget => hviews (reaches_query hitem htarget),
      landed_views fun item hitem htarget => hviews (reaches_query hitem htarget),
      queryArrivals_views hdata]
  have hheaders (old : Option _) : landed route.fastSpec field.2.fieldName old
        (request.headers.flatMap (headerArrivals route.fastSpec)) =
      landed route.fastSpec field.2.fieldName old
        (request'.headers.flatMap (headerArrivals route.fastSpec)) := by
    have hreach (headers : List _) : ∀ item ∈ headers.flatMap
        (headerArrivals route.fastSpec), item.target route.fastSpec = some field.2.fieldName →
          views field.1 item = true := by
      intro item hitem htarget
      obtain ⟨header, -, hheader⟩ := mem_flatMap.mp hitem
      exact hviews (reaches_header hheader htarget)
    rw [landed_views (hreach _), landed_views (hreach _), headerArrivals_views hdata]
  suffices hpath : landed route.fastSpec field.2.fieldName none
      ((if route.isMultiMethod then groupArrivals request else []) ++
        params.map fun param => .path param.1 param.2) =
      landed route.fastSpec field.2.fieldName none
        ((if route.isMultiMethod then groupArrivals request' else []) ++
          params'.map fun param => .path param.1 param.2) by
    simp only [landed_append] at hpath
    simp only [arrivals, landed_append]
    rw [hpath, hqueries, hheaders]
  rw [landed_append, landed_append]
  cases hlast : lastPath route.fastSpec (names.map nameBytes) field.2.fieldName with
  | some path =>
    have hpath : .path path = field.1 := by
      simpa [Source.contains] using h _ hfield (.path path) hlast
    exact path_agree hdata hpath.symm hnames hnames' hlast _ _
  | none =>
    have hpath (old : Option _) (params : List _)
        (hnames : params.map Prod.fst = names.map nameBytes) :
        landed route.fastSpec field.2.fieldName old
          (params.map fun param => .path param.1 param.2) = old := by
      rw [landed_path, Option.map_eq_none_iff.mp ((lastPath_fst hnames).trans hlast)]
    rw [hpath _ _ hnames, hpath _ _ hnames']
    split
    · next hmulti =>
      rw [landed_views fun item hitem htarget =>
          hviews (reaches_group hitem hmulti hlast htarget),
        landed_views fun item hitem htarget =>
          hviews (reaches_group hitem hmulti hlast htarget), groupArrivals_views (group_ne hfield) hdata]
    · rfl

end Views

/-! ## What shows a dependence -/

/-- A value that every type takes as it is. -/
def Plain (value : Bytes) : Prop :=
  ∃ text, pyUnicode value = some text ∧ ∀ tag, coerceParam value tag = some (.text text)

/-- Bytes that stand at the end of what is stored, as they are or as text. -/
def Shows (letter : Bytes) : Option Value → Prop
  | some (.bytes data) => data = letter
  | some (.text text) => nameBytes text = letter
  | some (.list items) => ∃ text, items.getLast? = some (.text text) ∧ nameBytes text = letter
  | _ => False

def Arrival.Carries (value : Bytes) : Arrival → Prop
  | .group _ _ => False
  | .path _ given | .query _ given | .header _ given | .cookie _ given => given = value

section Shown

variable {spec : FastRouteSpec} {route : RouteInfo} {name : Name} {names : List Name}
  {value : Bytes} {text : String} {params params' : List (Bytes × Bytes)}
  {request request' : ParsedHttpRequest}

theorem Shows.inj {letter letter' : Bytes} {stored : Option Value} (h : Shows letter stored)
    (h' : Shows letter' stored) : letter = letter' := by
  match stored with
  | some (.bytes _) | some (.text _) => exact h.symm.trans h'
  | some (.list _) =>
    obtain ⟨text, hlast, rfl⟩ := h
    obtain ⟨text', hlast', rfl⟩ := h'
    cases hlast.symm.trans hlast'
    rfl
  | none | some .none | some (.bool _) | some (.number _) | some (.dict _) | some (.upload _)
  | some (.headers _) | some (.backgroundTasks _) | some (.object _) => exact h.elim

theorem shows_promote (old : Option Value) : Shows (nameBytes text) (promote old (.text text)) := by
  unfold promote
  split <;> simp [Shows]

theorem shows_collectHeader (old : Option Value) :
    Shows (nameBytes text) (collectHeader old (.text text)) := by
  unfold collectHeader
  split <;> simp [Shows]

/-- A plain value that is stored can be seen at the end, whatever was there. -/
theorem shows_write (hplain : Plain value) {item : Arrival} (hitem : item.Carries value)
    (htarget : item.target spec = some name) (old : Option Value) :
    Shows value (item.write spec old) := by
  obtain ⟨text, htext, hcoerce⟩ := hplain
  obtain rfl := pyUnicode_eq_some_iff.mp htext
  cases item with
  | group key given => exact hitem.elim
  | path path given =>
    subst hitem
    rw [Arrival.write]
    split
    · rw [hcoerce]
      rfl
    · rw [htext]
      rfl
  | query key given =>
    subst hitem
    obtain ⟨fs, hfs, -⟩ := Option.map_eq_some_iff.mp htarget
    simp only [Arrival.write, hfs, hcoerce]
    exact shows_promote _
  | header header given =>
    subst hitem
    simp only [Arrival.target] at htarget
    split at htarget
    · cases htarget
    · split at htarget
      · cases htarget
      · next fs hfs =>
        simp only [Arrival.write, hfs, htext, Option.map_some]
        split
        · exact shows_collectHeader _
        · rfl
  | cookie cookie given =>
    subst hitem
    rw [Arrival.write, htext]
    rfl

/-- Two values that every type takes. -/
def letters : List Bytes := [ascii "a", ascii "b"]

theorem Plain.of_notMem (h : pyUnicode value = some text) (htrue : value ∉ trueWords)
    (hfalse : value ∉ falseWords) : Plain value := by
  refine ⟨text, h, fun tag => ?_⟩
  cases tag <;> simp [coerceParam, h, htrue, hfalse]

theorem plain_letters : ∀ letter ∈ letters, Plain letter := by
  have ha : pyUnicode (ascii "a") = some "a" := by decide
  have hb : pyUnicode (ascii "b") = some "b" := by decide
  exact forall_mem_cons.mpr ⟨.of_notMem ha (by decide) (by decide),
    forall_mem_singleton.mpr (.of_notMem hb (by decide) (by decide))⟩

/-- Requests that agree at the place of a field and give it different values. -/
theorem not_separate {field : Source × FieldSpec} (hfield : field ∈ route.fastSpec.fields)
    (params : Bytes → List (Bytes × Bytes)) (request : Bytes → ParsedHttpRequest)
    (hnames : ∀ letter, (params letter).map Prod.fst = names.map nameBytes)
    (hdata : ∀ letter ∈ letters, ∀ letter' ∈ letters,
      field.1.data (params letter) (request letter) = field.1.data (params letter') (request letter'))
    (hutf8 : ∀ letter ∈ letters,
      ∀ bytes ∈ parameterStrings route (params letter) (request letter), IsUtf8 bytes)
    (hshows : ∀ letter ∈ letters, Shows letter
      (landed route.fastSpec field.2.fieldName none (arrivals route (params letter) (request letter)))) :
    ¬Separate route names := by
  intro h
  have hvalue (letter : Bytes) (hletter : letter ∈ letters) : ∃ stored,
      extractParams route (params letter) (request letter) = .ok stored ∧
        Shows letter (stored.bind fun kwargs => kwargs field.2.fieldName) := by
    obtain ⟨stored, hstored⟩ := (extractParams_ok_iff _ _ _).mpr (hutf8 _ hletter)
    refine ⟨stored, hstored, ?_⟩
    have hlanded := hshows _ hletter
    rw [extractParams_at hstored]
    cases hfound : landed route.fastSpec field.2.fieldName none
      (arrivals route (params letter) (request letter)) with
    | none =>
      rw [hfound] at hlanded
      exact hlanded.elim
    | some found => rwa [hfound] at hlanded
  obtain ⟨stored, hstored, hfirst⟩ := hvalue (ascii "a") (by decide)
  obtain ⟨stored', hstored', hsecond⟩ := hvalue (ascii "b") (by decide)
  rw [h _ hfield _ _ _ _ _ _ (hnames _) (hnames _)
    (hdata _ (by decide) _ (by decide)) hstored hstored'] at hfirst
  exact absurd (hfirst.inj hsecond) (by decide)

/-- Nothing comes after a value that takes its place. -/
theorem shows_landed (hletter : value ∈ letters) {front back : List Arrival} {item : Arrival}
    (hitem : item.Carries value) (htarget : item.target spec = some name)
    (hback : ∀ other ∈ back, other.target spec ≠ some name) (old : Option Value) :
    Shows value (landed spec name old (front ++ item :: back)) := by
  rw [landed_append, landed_cons, if_pos htarget, landed_of_forall hback]
  exact shows_write (plain_letters _ hletter) hitem htarget _

/-- The parameters of the path, without values. -/
def blank (names : List Name) : List (Bytes × Bytes) := names.map fun name => (nameBytes name, [])

theorem blank_fst (names : List Name) : (blank names).map Prod.fst = names.map nameBytes := by
  simp [blank]

theorem utf8_nameBytes (name : Name) : IsUtf8 (nameBytes name) :=
  (exists_pyUnicode_iff _).mp ⟨name, pyUnicode_eq_some_iff.mpr rfl⟩

theorem utf8_path (h : ∀ param ∈ params, IsUtf8 param.1 ∧ IsUtf8 param.2) :
    ∀ bytes ∈ params.flatMap (pathStrings spec), IsUtf8 bytes := by
  intro bytes hbytes
  obtain ⟨param, hparam, hmem⟩ := mem_flatMap.mp hbytes
  rw [pathStrings] at hmem
  have hboth := h _ hparam
  split at hmem
  · simp_all
  · rcases mem_pair.mp hmem with rfl | rfl
    · exact hboth.1
    · exact hboth.2

theorem utf8_blank (names : List Name) :
    ∀ bytes ∈ (blank names).flatMap (pathStrings spec), IsUtf8 bytes := by
  refine utf8_path fun param hparam => ?_
  obtain ⟨name, -, rfl⟩ := mem_map.mp hparam
  exact ⟨utf8_nameBytes _, (by decide : IsUtf8 [])⟩

/-- A digit in upper or lower case of a number below 16. -/
def hexDigit (n : Byte) : Byte := if n < 10 then 48 + n else 87 + n

def escapeKey (key : Bytes) : Bytes :=
  key.flatMap fun b : Byte => [percent, hexDigit (b >>> 4), hexDigit (b &&& 15)]

theorem percentDecode_escapeKey (key : Bytes) : percentDecode (escapeKey key) = key := by
  induction key with
  | nil => simp [escapeKey, percentDecode]
  | cons b key ih =>
    have hall : ∀ n < 256, hexVal (hexDigit (UInt8.ofNat n >>> 4)) = some (UInt8.ofNat n >>> 4) ∧
        hexVal (hexDigit (UInt8.ofNat n &&& 15)) = some (UInt8.ofNat n &&& 15) ∧
        (UInt8.ofNat n >>> 4) <<< 4 ||| UInt8.ofNat n &&& 15 = UInt8.ofNat n := by
      decide +kernel
    obtain ⟨hhigh, hlow, hbyte⟩ := hall _ b.toNat_lt
    rw [UInt8.ofNat_toNat] at hhigh hlow hbyte
    exact (percentDecode_escape hhigh hlow _).trans (by rw [hbyte]; exact congrArg _ ih)

theorem notMem_escapeKey (key : Bytes) : ampersand ∉ escapeKey key ∧ equals ∉ escapeKey key := by
  have hall : ∀ n < 256, ∀ sep ∈ [ampersand, equals],
      sep ∉ [percent, hexDigit (UInt8.ofNat n >>> 4), hexDigit (UInt8.ofNat n &&& 15)] := by
    decide +kernel
  have hkey (sep : Byte) (hsep : sep ∈ [ampersand, equals]) : sep ∉ escapeKey key := by
    intro hmem
    obtain ⟨b, -, hb⟩ := mem_flatMap.mp hmem
    have hnot := hall _ b.toNat_lt _ hsep
    rw [UInt8.ofNat_toNat] at hnot
    exact hnot hb
  exact ⟨hkey _ (by decide), hkey _ (by decide)⟩

theorem queryArrivals_escapeKey (key : Bytes) {letter : Bytes} (hletter : letter ∈ letters) :
    querySegments (escapeKey key ++ equals :: letter) = [(escapeKey key, letter)] ∧
      percentDecode letter = letter ∧ IsUtf8 letter := by
  obtain ⟨hampersand, hequals⟩ := notMem_escapeKey key
  have hall : ∀ letter ∈ letters,
      ampersand ∉ equals :: letter ∧ percentDecode letter = letter ∧ IsUtf8 letter := by decide
  obtain ⟨hletter, hplain⟩ := hall _ hletter
  refine ⟨?_, hplain⟩
  rw [querySegments, splitOn_eq_singleton]
  · simp [Routing.splitAtByte_append hequals]
  · exact fun hmem => (mem_append.mp hmem).elim hampersand hletter

theorem querySegments_nil : querySegments [] = [] := by decide

theorem cookiePairs_single {cookie : Bytes} (hequals : equals ∉ cookie)
    (hhead : ∀ b ∈ cookie.head?, skipsSpace b = false) {letter : Bytes} (hletter : letter ∈ letters) :
    cookiePairs (cookie ++ equals :: letter) = [(cookie, letter)] := by
  have hkept : (cookie ++ equals :: letter).dropWhile skipsSpace = cookie ++ equals :: letter := by
    cases cookie with
    | nil => exact dropWhile_cons_of_neg (by decide)
    | cons b cookie => exact dropWhile_cons_of_neg (Bool.eq_false_iff.mp (hhead b rfl))
  have hall : ∀ letter ∈ letters, letter.takeWhile (· ≠ semicolon) = letter ∧
      letter.dropWhile (· ≠ semicolon) = [] := by decide
  obtain ⟨htake, hdrop⟩ := hall _ hletter
  have hnil : scanPairs skipsSpace [] = [] := by
    rw [scanPairs_eq]
    rfl
  rw [cookiePairs_eq_scanPairs, scanPairs_eq, hkept, Routing.splitAtByte_append hequals]
  simp only [htake, hdrop, hnil]

section Probes

variable {field : Source × FieldSpec} (hfield : field ∈ route.fastSpec.fields)

include hfield

theorem not_separate_query {key : Bytes} (hother : .query key ≠ field.1)
    (h : Reaches route names field.2.fieldName (.query key)) : ¬Separate route names := by
  refine not_separate hfield _ (fun letter => { queryString := escapeKey key ++ equals :: letter })
    (fun _ => blank_fst _) (fun letter hletter letter' hletter' => ?_)
    (fun letter hletter => ?_) fun letter hletter => ?_
  · cases hown : field.1 with
    | query own =>
      have hkey : key ≠ own := fun heq => hother (by rw [heq, hown])
      simp [Source.data, (queryArrivals_escapeKey _ hletter).1,
        (queryArrivals_escapeKey _ hletter').1, percentDecode_escapeKey, hkey]
    | group _ | path _ | header _ | cookie _ => rfl
  · obtain ⟨hsegments, hdecode, hutf8⟩ := queryArrivals_escapeKey key hletter
    simp only [parameterStrings, hsegments, flatMap_nil, append_nil]
    refine forall_mem_append.mpr ⟨utf8_blank _, fun bytes hbytes => ?_⟩
    simp only [queryStrings, flatMap_cons, flatMap_nil, hdecode] at hbytes
    split at hbytes <;> simp_all
  · obtain ⟨hsegments, hdecode, -⟩ := queryArrivals_escapeKey key hletter
    simp only [arrivals, queryArrivals, hsegments, map_cons, map_nil,
      percentDecode_escapeKey, hdecode, flatMap_nil, append_nil]
    exact shows_landed hletter (show Arrival.Carries letter (.query key letter) from rfl) h
      (forall_mem_nil _) _

theorem not_separate_path {path : Bytes} (hother : .path path ≠ field.1)
    (h : Reaches route names field.2.fieldName (.path path)) : ¬Separate route names := by
  have hnames (letter : Bytes) : (names.map fun name =>
      (nameBytes name, if nameBytes name = path then letter else [])).map Prod.fst =
        names.map nameBytes := by simp
  refine not_separate hfield _ (fun _ => {})
    hnames (fun letter _ letter' _ => ?_) (fun letter hletter => ?_) fun letter hletter => ?_
  · cases hown : field.1 with
    | path own =>
      have hpath : path ≠ own := fun heq => hother (by rw [heq, hown])
      simp only [Source.data, filter_map]
      refine map_congr_left fun name hname => ?_
      have heq : nameBytes name = own := by simpa using (mem_filter.mp hname).2
      simp [heq, hpath.symm]
    | group _ | query _ | header _ | cookie _ => rfl
  · simp only [parameterStrings, querySegments_nil, flatMap_nil, append_nil]
    refine utf8_path fun param hparam => ?_
    obtain ⟨name, -, rfl⟩ := mem_map.mp hparam
    refine ⟨utf8_nameBytes _, ?_⟩
    split
    · exact (queryArrivals_escapeKey [] hletter).2.2
    · exact (by decide : IsUtf8 [])
  · obtain ⟨param, hparam, hfst⟩ := Option.map_eq_some_iff.mp ((lastPath_fst (hnames _)).trans h)
    obtain ⟨hmem, htarget⟩ := mem_filter.mp (mem_of_getLast? hparam)
    obtain ⟨name, -, rfl⟩ := mem_map.mp hmem
    simp only [arrivals, queryArrivals, querySegments_nil, map_nil, flatMap_nil,
      append_nil, landed_append]
    rw [landed_path, hparam]
    have hcarries : Arrival.Carries letter (.path (nameBytes name)
      (if nameBytes name = path then letter else [])) := if_pos hfst
    exact shows_write (plain_letters _ hletter) hcarries (of_decide_eq_true htarget) _

/-- Headers come last. -/
theorem not_separate_headers (header : Bytes → Http.Header)
    (hdata : ∀ letter ∈ letters, ∀ letter' ∈ letters,
      field.1.data [] { headers := [header letter] } = field.1.data [] { headers := [header letter'] })
    (hutf8 : ∀ letter ∈ letters, ∀ bytes ∈ headerStrings route.fastSpec (header letter), IsUtf8 bytes)
    (hshows : ∀ letter ∈ letters, ∀ old, Shows letter (landed route.fastSpec field.2.fieldName old
      (headerArrivals route.fastSpec (header letter)))) : ¬Separate route names := by
  refine not_separate hfield _ (fun letter => { headers := [header letter] })
    (fun _ => blank_fst _) (fun letter hletter letter' hletter' => ?_)
    (fun letter hletter => ?_) fun letter hletter => ?_
  · have h := hdata _ hletter _ hletter'
    cases hown : field.1 with
    | group _ | path _ | query _ => rfl
    | header _ | cookie _ => simpa [Source.data, hown] using h
  · simp only [parameterStrings, querySegments_nil, flatMap_nil, append_nil, flatMap_singleton]
    exact forall_mem_append.mpr ⟨utf8_blank _, hutf8 _ hletter⟩
  · rw [arrivals, landed_append, flatMap_singleton]
    exact hshows _ hletter _

theorem not_separate_header {key : Bytes} (hother : .header key ≠ field.1)
    (h : Reaches route names field.2.fieldName (.header key)) : ¬Separate route names := by
  obtain ⟨header, rfl, hcookie, htarget⟩ := h
  have hread : route.fastSpec.hasHeaderParams = true := by
    cases hread : route.fastSpec.hasHeaderParams with
    | true => rfl
    | false =>
      have hspecs : route.fastSpec.headerSpecs = [] := by
        simpa [FastRouteSpec.hasHeaderParams] using hread
      simp [Arrival.target, FastRouteSpec.headerMap, hspecs, lookupField_nil] at htarget
  refine not_separate_headers hfield (fun letter => (header, letter))
    (fun letter hletter letter' hletter' => ?_) (fun letter hletter => ?_)
    fun letter hletter old => ?_
  · cases hown : field.1 with
    | header own =>
      have hkey : header.map headerNorm ≠ own := fun heq => hother (by rw [heq, hown])
      simp [Source.data, hkey]
    | cookie own =>
      have hspecs : route.fastSpec.hasCookieParams = true := by
        simp only [FastRouteSpec.fields, mem_append, mem_map] at hfield
        rcases hfield with ((⟨_, -, rfl⟩ | ⟨_, -, rfl⟩) | ⟨_, -, rfl⟩) | ⟨fs, hfs, rfl⟩
        · cases hown
        · cases hown
        · cases hown
        · simp [FastRouteSpec.hasCookieParams, ne_nil_of_mem hfs]
      rw [hspecs, Bool.true_and] at hcookie
      simp [Source.data, hcookie]
    | group _ | path _ | query _ => rfl
  · simp [headerStrings, hcookie]
  · rw [headerArrivals, hcookie, hread]
    exact @shows_landed _ _ _ hletter [] _ _
      (show Arrival.Carries letter (.header header letter) from rfl) (target_header (queryArrivals_escapeKey [] hletter).2.2 htarget) (forall_mem_nil _) old

theorem not_separate_cookie {cookie : Bytes} (hother : .cookie cookie ≠ field.1)
    (hcontains : field.1.contains (.cookie cookie) = false)
    (h : Reaches route names field.2.fieldName (.cookie cookie)) : ¬Separate route names := by
  obtain ⟨hequals, hhead, htarget⟩ := h
  have hread : route.fastSpec.hasCookieParams = true := by
    cases hread : route.fastSpec.hasCookieParams with
    | true => rfl
    | false =>
      have hspecs : route.fastSpec.cookieSpecs = [] := by
        simpa [FastRouteSpec.hasCookieParams] using hread
      simp [Arrival.target, FastRouteSpec.cookieMap, hspecs, lookupField_nil] at htarget
  have hname : iequals (ascii "cookie") "cookie" = true := by decide
  refine not_separate_headers hfield (fun letter => (ascii "cookie", cookie ++ equals :: letter))
    (fun letter hletter letter' hletter' => ?_) (fun letter hletter => ?_)
    fun letter hletter old => ?_
  · cases hown : field.1 with
    | header own =>
      rw [hown] at hcontains
      have hkey : (ascii "cookie").map headerNorm ≠ own := by
        rintro rfl
        exact absurd hcontains (by simp [Source.contains, show (ascii "cookie").map headerNorm =
          ascii "cookie" by decide])
      simp [Source.data, hkey]
    | cookie own =>
      have hcookie : cookie ≠ own := fun heq => hother (by rw [heq, hown])
      simp [Source.data, hname, cookiePairs_single hequals hhead hletter,
        cookiePairs_single hequals hhead hletter', hcookie]
    | group _ | path _ | query _ => rfl
  · have hstrings : headerStrings route.fastSpec (ascii "cookie", cookie ++ equals :: letter) =
        cookieStrings route.fastSpec (cookie, letter) := by
      simp [headerStrings, hread, hname, cookiePairs_single hequals hhead hletter]
    intro bytes hbytes
    rw [hstrings, cookieStrings] at hbytes
    split at hbytes
    · rw [mem_singleton.mp hbytes]
      exact (queryArrivals_escapeKey [] hletter).2.2
    · cases hbytes
  · have harrivals : headerArrivals route.fastSpec (ascii "cookie", cookie ++ equals :: letter) =
        [.cookie cookie letter] := by
      simp [headerArrivals, hread, hname, cookiePairs_single hequals hhead hletter]
    rw [harrivals]
    exact @shows_landed _ _ _ hletter [] _ _
      (show Arrival.Carries letter (.cookie cookie letter) from rfl) htarget (forall_mem_nil _) old

/-- A value that the dispatcher puts in stays if no parameter of the path has its name. -/
theorem not_separate_group {key : Name} (hcontains : field.1.contains (.group key) = false)
    (h : Reaches route names field.2.fieldName (.group key)) : ¬Separate route names := by
  obtain ⟨hmulti, hkey, rfl, hlast⟩ := h
  have hblank (old : Option Value) : landed route.fastSpec field.2.fieldName old
      ((blank names).map fun param => .path param.1 param.2) = old := by
    rw [landed_path, Option.map_eq_none_iff.mp ((lastPath_fst (blank_fst names)).trans hlast)]
  have hprobe (request : Bytes → ParsedHttpRequest) (hquery : ∀ letter, (request letter).queryString = [])
      (hdata : ∀ letter letter', field.1.data (blank names) (request letter) =
        field.1.data (blank names) (request letter'))
      (hutf8 : ∀ letter, (request letter).headers.flatMap (headerStrings route.fastSpec) = [])
      (hshows : ∀ letter ∈ letters, Shows letter (landed route.fastSpec field.2.fieldName
        (landed route.fastSpec field.2.fieldName none (groupArrivals (request letter)))
          ((request letter).headers.flatMap (headerArrivals route.fastSpec)))) :
      ¬Separate route names := by
    refine not_separate hfield (fun _ => blank names) request (fun _ => blank_fst names)
      (fun letter _ letter' _ => hdata letter letter') (fun letter hletter => ?_)
      fun letter hletter => ?_
    · simpa [parameterStrings, hquery, querySegments_nil, hutf8] using utf8_blank names
    · simp only [arrivals, hmulti, if_true, hquery, queryArrivals, querySegments_nil, map_nil,
        append_nil, landed_append, hblank]
      exact hshows letter hletter
  simp only [mem_cons, not_mem_nil, or_false] at hkey
  rcases hkey with hkey | hkey | hkey
  · refine hprobe (fun letter => { method := letter }) (fun _ => rfl) (fun _ _ => ?_)
      (fun _ => rfl) fun letter hletter => ?_
    · cases field.1 <;> rfl
    · obtain ⟨text, htext, -⟩ := plain_letters letter hletter
      simp [groupArrivals, htext, hkey, landed, Arrival.target, Arrival.write, Shows,
        pyUnicode_eq_some_iff.mp htext]
  · refine hprobe (fun letter => { body := letter }) (fun _ => rfl) (fun _ _ => ?_)
      (fun _ => rfl) fun letter hletter => ?_
    · cases field.1 <;> rfl
    · have hletter : letter ≠ [] := fun hnil => absurd (hnil ▸ hletter) (by decide)
      have hmethod : methodKey ≠ bodyKey := by decide
      cases hempty : pyUnicode [] <;>
        simp [groupArrivals, hletter, hkey, landed, Arrival.target, Arrival.write, Shows]
  · have hname : iequals (ascii "content-type") "content-type" = true := by decide
    have hcookie : iequals (ascii "content-type") "cookie" = false := by decide
    refine hprobe (fun letter => { headers := [(ascii "content-type", letter)] }) (fun _ => rfl)
      (fun _ _ => ?_) (fun _ => by simp [headerStrings, hcookie]) fun letter hletter => ?_
    · cases hown : field.1 with
      | header own =>
        have hother : (ascii "content-type").map headerNorm ≠ own := by
          rintro rfl
          exact absurd hcontains (by simp [hown, Source.contains, hkey,
            show (ascii "content-type").map headerNorm = ascii "content_type" by decide])
        simp [Source.data, hother]
      | cookie own => simp [Source.data, hcookie]
      | group _ | path _ | query _ => rfl
    · obtain ⟨text, htext, -⟩ := plain_letters letter hletter
      have hgroup : Shows letter (landed route.fastSpec field.2.fieldName none
          (groupArrivals { headers := [(ascii "content-type", letter)] })) := by
        have hmethod : methodKey ≠ contentTypeKey := by decide
        cases hempty : pyUnicode [] <;>
          simp [groupArrivals, htext, hname, hkey, landed, Arrival.target, Arrival.write, Shows, pyUnicode_eq_some_iff.mp htext]
      rw [flatMap_singleton, headerArrivals, hcookie]
      simp only [Bool.and_false, Bool.false_eq_true, if_false]
      split
      · by_cases htarget : (Arrival.header (ascii "content-type") letter).target route.fastSpec =
          some field.2.fieldName
        · exact @shows_landed _ _ _ hletter [] _ _ (show Arrival.Carries letter
            (.header (ascii "content-type") letter) from rfl) htarget (forall_mem_nil _) _
        · rw [landed_cons, if_neg htarget]
          exact hgroup
      · exact hgroup

end Probes

/-- The values of the fields are separate exactly when no two places have one name. -/
theorem separate_iff (route : RouteInfo) (names : List Name) :
    Separate route names ↔ Apart route names := by
  refine ⟨fun h field hfield other hreach => ?_, separate_of_apart⟩
  by_contra hnot
  obtain ⟨hother, hcontains⟩ := not_or.mp hnot
  rw [Bool.not_eq_true] at hcontains
  cases other with
  | group key => exact not_separate_group hfield hcontains hreach h
  | path path => exact not_separate_path hfield hother hreach h
  | query key => exact not_separate_query hfield hother hreach h
  | header key => exact not_separate_header hfield hother hreach h
  | cookie cookie => exact not_separate_cookie hfield hother hcontains hreach h

end Shown

/-- A parameter of the path and one of the query string have the field name `id`, one of the
query string and one of the headers the field name `token`. -/
def mixedRoute : RouteInfo where
  fastSpec :=
    { pathSpecs := [{ fieldName := "id", aliasName := ascii "item_id" }]
      querySpecs := [{ fieldName := "id", aliasName := [] }, { fieldName := "token", aliasName := [] }]
      headerSpecs :=
        [{ fieldName := "token", aliasName := [], headerLookupKey := ascii "token" }] }

theorem extractParams_mixes :
    (∃ kwargs, extractParams mixedRoute [(ascii "item_id", ascii "7")]
      { queryString := ascii "id=8&token=x", headers := [(ascii "token", ascii "y")] } =
        .ok (some kwargs) ∧ kwargs "id" = some (.list [.text "7", .text "8"]) ∧
          kwargs "token" = some (.text "y")) ∧
      ¬Separate mixedRoute ["item_id"] := by
  refine ⟨⟨_, rfl, rfl, rfl⟩, fun h => ?_⟩
  have hsame := h (.path (ascii "item_id"), { fieldName := "id", aliasName := ascii "item_id" })
    mem_cons_self [(ascii "item_id", ascii "7")]
    [(ascii "item_id", ascii "7")] { queryString := ascii "id=8" } {} _ _ rfl rfl rfl rfl rfl
  have hdiffer : some (Value.list [.text "7", .text "8"]) = some (.text "7") := hsame
  simp at hdiffer

end AstraApi.Dispatch
