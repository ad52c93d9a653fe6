import AstraApi.Dispatch.TrustedHost
import AstraApi.Response.Completion

/-!
# One policy, five builders

The origin of a request is judged by the C++ core, by `CORSMiddleware` and by
`_get_cors_headers_for_origin`, and each of them writes headers of its own; the core and
the middleware answer preflight requests as well.
-/

namespace AstraApi.Dispatch

open List
open AstraApi.Http (Header)
open AstraApi.Response (CorsConfig CorsKwargs PythonRuntime buildCorsHeaders corsFields fieldText
  connectionField getCorsHeadersForOrigin decimal)
open Message (Field CrlfFree fieldLine crlf writeMessage)

/-! ## The middleware -/

/-- The arguments of `CORSMiddleware` that only a preflight response uses. -/
structure PreflightKwargs where
  allowMethods : List Text := [plainText "GET"]
  allowHeaders : List Text := []
  maxAge : ℤ := 600

def allowOrigin : Bytes := ascii "access-control-allow-origin"

def varyOrigin : Field := (ascii "vary", ascii "Origin")

def credentialsFields (credentials : Bool) : List Field :=
  if credentials then [(ascii "access-control-allow-credentials", ascii "true")] else []

structure CORSMiddleware where
  allowAllOrigins : Bool
  allowOrigins : List Text
  allowOriginRegex : Option Text
  allowAllHeaders : Bool
  allowHeaders : List Text
  allowCredentials : Bool
  exposeHeaders : List Text
  preflightHeaders : List Field

/-- What becomes of a request: it goes to the application, with the origin in the send
wrapper, or it is answered. -/
inductive CorsOutcome where
  | app (origin : Option Text)
  | respond (status : ℤ) (headers : List Field) (body : Bytes)

def allMethods : List Text :=
  [plainText "DELETE", plainText "GET", plainText "HEAD", plainText "OPTIONS", plainText "PATCH",
    plainText "POST", plainText "PUT"]

namespace CORSMiddleware

section Python

variable {F O : Type*} (python : PythonRuntime F O)

/-- `re.compile` accepts the pattern. -/
def compiles (kwargs : CorsKwargs) : Bool :=
  match kwargs.allowOriginRegex with
  | none => true
  | some regex => (python.fullmatch regex []).isSome

/-- `__init__`; `none` for a pattern that does not compile or a list without Latin-1. -/
def init (upper : Text → Text) (kwargs : CorsKwargs) (preflight : PreflightKwargs) :
    Option CORSMiddleware :=
  let methods :=
    if preflight.allowMethods.contains (plainText "*") then allMethods
    else preflight.allowMethods.map upper
  let allowAll := kwargs.allowOrigins.contains (plainText "*")
  if !compiles python kwargs then none
  else
    match kwargs.exposeFields, Text.latin1 ((plainText ", ").intercalate methods) with
    | some _, some methods =>
      some
        { allowAllOrigins := allowAll
          allowOrigins := kwargs.allowOrigins.map python.lower
          allowOriginRegex := kwargs.allowOriginRegex
          allowAllHeaders := preflight.allowHeaders.contains (plainText "*")
          allowHeaders := preflight.allowHeaders.map python.lower
          allowCredentials := kwargs.allowCredentials
          exposeHeaders := kwargs.exposeHeaders
          preflightHeaders :=
            (if allowAll then [(allowOrigin, ascii "*")] else []) ++
              credentialsFields kwargs.allowCredentials ++
              [(ascii "access-control-allow-methods", methods),
                (ascii "access-control-max-age", decimal preflight.maxAge)] }
    | _, _ => none

variable (middleware : CORSMiddleware)

def isOriginAllowed (origin : Text) : Bool :=
  middleware.allowAllOrigins || middleware.allowOrigins.contains (python.lower origin) ||
    match middleware.allowOriginRegex with
    | none => false
    | some regex => python.fullmatch regex origin == some true

/-- `_CorsSendWrapper`: the headers of `http.response.start`. -/
def sendWrapper (origin : Option Text) (headers : List Field) : Option (List Field) :=
  match origin with
  | none => some headers
  | some [] => some headers
  | some origin =>
    if middleware.isOriginAllowed python origin then
      let allow :=
        if middleware.allowAllOrigins && !middleware.allowCredentials then
          some [(allowOrigin, ascii "*")]
        else origin.latin1.map fun origin => [(allowOrigin, origin), varyOrigin]
      match allow, ({ exposeHeaders := middleware.exposeHeaders } : CorsKwargs).exposeFields with
      | some allow, some expose =>
        some (headers ++ allow ++ credentialsFields middleware.allowCredentials ++ expose)
      | _, _ => none
    else some headers

/-- `access-control-allow-headers` of a preflight response: an exception, a refusal or
the header. -/
def allowHeadersFields (requested : Bytes) : Option (Option (List Field)) :=
  if middleware.allowAllHeaders ∧ requested ≠ [] then
    some (some [(ascii "access-control-allow-headers", requested)])
  else if requested ≠ [] ∧ middleware.allowHeaders ≠ [] then
    let names := ((Text.ofLatin1 requested).splitOn 44).map fun h => python.lower (python.strip h)
    if !names.all (middleware.allowHeaders.contains ·) && !middleware.allowAllHeaders then
      some none
    else some (some [(ascii "access-control-allow-headers", requested)])
  else if middleware.allowHeaders ≠ [] then
    (Text.latin1 ((plainText ", ").intercalate middleware.allowHeaders)).map fun list =>
      some [(ascii "access-control-allow-headers", list)]
  else some (some [])

def preflightResponse (origin : Text) (requestedMethod requestedHeaders : Bytes) :
    Option CorsOutcome :=
  let allow :=
    if middleware.allowAllOrigins then some []
    else origin.latin1.map fun origin => [(allowOrigin, origin), varyOrigin]
  match allow, middleware.allowHeadersFields python requestedHeaders with
  | some _, some none => some (.respond 400 [] (ascii "Disallowed CORS headers"))
  | some allow, some (some allowHeaders) =>
    some (.respond 200
      (middleware.preflightHeaders ++ allow ++ allowHeaders ++
        (if requestedMethod = [] then []
          else [(ascii "access-control-allow-methods", requestedMethod)]))
      (ascii "OK"))
  | _, _ => none

/-- Values of one name, the last one or all in one list. -/
def requestedMethod (headers : List Header) : Bytes :=
  (headers.reverse.find? fun header => header.1 == ascii "access-control-request-method").elim []
    Prod.snd

def requestedHeaders (headers : List Header) : Bytes :=
  headers.foldl
    (fun requested header =>
      if header.1 ≠ ascii "access-control-request-headers" then requested
      else if requested = [] then header.2
      else requested ++ ascii ", " ++ header.2) []

def call (method : Text) (headers : List Header) : Option CorsOutcome :=
  let origin := (headers.find? fun header => Http.iequals header.1 "origin").map fun header =>
    Text.ofLatin1 header.2
  match origin with
  | none => some (.app none)
  | some origin =>
    if method = plainText "OPTIONS" ∧ origin ≠ [] ∧ middleware.isOriginAllowed python origin then
      middleware.preflightResponse python origin (requestedMethod headers)
        (requestedHeaders headers)
    else some (.app (some origin))

end Python

end CORSMiddleware

/-! ## The core -/

section Core

variable {F O : Type*} (python : PythonRuntime F O)

/-- `configure_cors`; the two regular expression engines agree on full matches. -/
def configureCors (kwargs : CorsKwargs) (preflight : PreflightKwargs) :
    CorsConfig × PreflightConfig :=
  let origins := kwargs.allowOrigins.filterMap asUtf8
  ({ allowAnyOrigin := origins.contains (ascii "*")
     allowOrigins := origins
     allowOriginRegex := kwargs.allowOriginRegex.map fun regex origin =>
       python.fullmatch regex (Text.ofLatin1 origin) == some true
     allowCredentials := kwargs.allowCredentials
     exposeHeaders := kwargs.exposeHeaders.filterMap asUtf8 },
   { allowMethods := preflight.allowMethods.filterMap asUtf8
     allowHeaders := preflight.allowHeaders.filterMap asUtf8
     maxAge := preflight.maxAge })

end Core

instance (bytes : Bytes) : Decidable (CrlfFree bytes) :=
  inferInstanceAs (Decidable (_ ∧ _))

/-- The headers that the core adds to a response. -/
def coreFields (config : CorsConfig) (origin : Bytes) : List Field :=
  if config.originAllowed origin ∧ CrlfFree origin then config.fields origin else []

def preflightFields (cors : CorsConfig × PreflightConfig) (origin : Bytes) (keepAlive : Bool)
    (requestHeaders : Bytes) : List Field :=
  [(allowOrigin, if !cors.1.allowCredentials && cors.1.isWildcard then ascii "*" else origin),
    (ascii "access-control-allow-methods",
      if cors.2.allowMethods = [] then ascii "GET, POST, PUT, DELETE, PATCH, OPTIONS, HEAD"
      else (ascii ", ").intercalate cors.2.allowMethods)] ++
  (if cors.2.allowHeaders = [] then []
    else [(ascii "access-control-allow-headers",
      if cors.2.allowHeaders = [ascii "*"] ∧ requestHeaders ≠ [] then requestHeaders
      else (ascii ", ").intercalate cors.2.allowHeaders)]) ++
  [(ascii "access-control-max-age", decimal cors.2.maxAge)] ++
  credentialsFields cors.1.allowCredentials ++
  [varyOrigin, (ascii "content-length", ascii "2"), (ascii "content-type", ascii "text/plain"),
    connectionField keepAlive]

/-- What the three implementations rely on. -/
structure CorsPython {F O : Type*} (python : PythonRuntime F O) : Prop where
  /-- `str.strip` cuts at both ends. -/
  strips : ∀ text, python.strip text <:+: text
  /-- A pattern compiles or not, whatever it is matched with. -/
  compiles : ∀ regex text other,
    (python.fullmatch regex text).isSome = (python.fullmatch regex other).isSome
  /-- The empty pattern. -/
  empty : ∀ text, python.fullmatch [] text = some (decide (text = []))

section Decisions

variable {F O : Type*} (python : PythonRuntime F O) (kwargs : CorsKwargs)

def helperAllows (origin : Bytes) : Bool :=
  origin ≠ [] && kwargs.denies python (python.strip (Text.ofLatin1 origin)) == some false

def CORSMiddleware.allows (middleware : CORSMiddleware) (origin : Bytes) : Bool :=
  origin ≠ [] && middleware.isOriginAllowed python (Text.ofLatin1 origin)

/-- An entry of the list is this origin in letters of either case. -/
def Folded (origin : Text) : Prop :=
  ∃ entry ∈ kwargs.allowOrigins,
    entry = plainText "*" ∨ python.lower origin = python.lower entry

def SpelledAs (entry : Text) (origin : Bytes) : Prop :=
  ∃ bytes, asUtf8 entry = some bytes ∧ (bytes = ascii "*" ∨ origin = bytes)

def MatchesRegex (origin : Text) : Prop :=
  ∃ regex, kwargs.allowOriginRegex = some regex ∧ regex ≠ [] ∧
    python.fullmatch regex origin = some true

/-- The policy that the arguments stand for. -/
def Admits (origin : Text) : Prop := Folded python kwargs origin ∨ MatchesRegex python kwargs origin

/-- An origin that is an entry in letters of either case is spelled like one or matches
the pattern, an entry outside ASCII is not met by its bytes alone, and white space
around the origin does not matter. -/
structure Unambiguous (origin : Bytes) : Prop where
  spelled : Folded python kwargs (Text.ofLatin1 origin) →
    (∃ entry ∈ kwargs.allowOrigins, SpelledAs entry origin) ∨
      MatchesRegex python kwargs (Text.ofLatin1 origin)
  plain : ∀ entry ∈ kwargs.allowOrigins, ¬ IsPlain entry → SpelledAs entry origin →
    Admits python kwargs (Text.ofLatin1 origin)
  stripped : python.strip (Text.ofLatin1 origin) ≠ Text.ofLatin1 origin →
    (Admits python kwargs (python.strip (Text.ofLatin1 origin)) ↔
      Admits python kwargs (Text.ofLatin1 origin))

/-- What the constructor makes of its arguments. -/
structure Initialised (middleware : CORSMiddleware) : Prop where
  allowAll : middleware.allowAllOrigins = kwargs.allowOrigins.contains (plainText "*")
  origins : middleware.allowOrigins = kwargs.allowOrigins.map python.lower
  regex : middleware.allowOriginRegex = kwargs.allowOriginRegex
  credentials : middleware.allowCredentials = kwargs.allowCredentials
  compiles : ∀ regex, kwargs.allowOriginRegex = some regex → (python.fullmatch regex []).isSome
  exposes : ∃ expose, kwargs.exposeFields = some expose ∧
    ({ exposeHeaders := middleware.exposeHeaders } : CorsKwargs).exposeFields = some expose
  preflight : ∃ methods age, middleware.preflightHeaders =
    (if middleware.allowAllOrigins then [(allowOrigin, ascii "*")] else []) ++
      credentialsFields middleware.allowCredentials ++
      [(ascii "access-control-allow-methods", methods), (ascii "access-control-max-age", age)]

variable {python kwargs}

theorem matchesRegex_iff (hpython : CorsPython python) {origin : Text} (hne : origin ≠ []) :
    MatchesRegex python kwargs origin ↔
      ∃ regex, kwargs.allowOriginRegex = some regex ∧ python.fullmatch regex origin = some true := by
  constructor
  · rintro ⟨regex, hregex, -, hmatch⟩
    exact ⟨regex, hregex, hmatch⟩
  · rintro ⟨regex, hregex, hmatch⟩
    refine ⟨regex, hregex, ?_, hmatch⟩
    rintro rfl
    rw [hpython.empty, decide_eq_false hne] at hmatch
    cases hmatch

theorem initialised {upper : Text → Text} {preflight : PreflightKwargs}
    {middleware : CORSMiddleware}
    (hinit : CORSMiddleware.init python upper kwargs preflight = some middleware) :
    Initialised python kwargs middleware := by
  simp only [CORSMiddleware.init] at hinit
  split at hinit
  · cases hinit
  · rename_i hcompiles
    split at hinit
    · rename_i expose methods hexpose hmethods
      obtain rfl := Option.some.inj hinit
      refine ⟨rfl, rfl, rfl, rfl, ?_, ⟨expose, hexpose, hexpose⟩, ⟨methods, _, rfl⟩⟩
      intro regex hregex
      have h : CORSMiddleware.compiles python kwargs = true := by simpa using hcompiles
      rwa [CORSMiddleware.compiles, hregex] at h
    · cases hinit

theorem folded_iff {origin : Text} :
    Folded python kwargs origin ↔
      kwargs.allowOrigins.contains (plainText "*") = true ∨
        (kwargs.allowOrigins.map python.lower).contains (python.lower origin) = true := by
  simp only [Folded, contains_iff_mem, mem_map]
  constructor
  · rintro ⟨entry, hmem, rfl | heq⟩
    · exact .inl hmem
    · exact .inr ⟨entry, hmem, heq.symm⟩
  · rintro (hstar | ⟨entry, hmem, heq⟩)
    · exact ⟨_, hstar, .inl rfl⟩
    · exact ⟨entry, hmem, .inr heq.symm⟩

theorem originAllowed_iff (hpython : CorsPython python) (preflight : PreflightKwargs)
    {origin : Bytes} (hne : origin ≠ []) :
    (configureCors python kwargs preflight).1.originAllowed origin = true ↔
      (∃ entry ∈ kwargs.allowOrigins, SpelledAs entry origin) ∨
        MatchesRegex python kwargs (Text.ofLatin1 origin) := by
  have htext : Text.ofLatin1 origin ≠ [] := fun h => hne (map_eq_nil_iff.mp h)
  have hspelled : (∃ entry ∈ kwargs.allowOrigins, SpelledAs entry origin) ↔
      ascii "*" ∈ kwargs.allowOrigins.filterMap asUtf8 ∨
        origin ∈ kwargs.allowOrigins.filterMap asUtf8 := by
    simp only [SpelledAs, mem_filterMap]
    constructor
    · rintro ⟨entry, hmem, bytes, hentry, rfl | rfl⟩
      · exact .inl ⟨entry, hmem, hentry⟩
      · exact .inr ⟨entry, hmem, hentry⟩
    · rintro (⟨entry, hmem, hentry⟩ | ⟨entry, hmem, hentry⟩)
      · exact ⟨entry, hmem, _, hentry, .inl rfl⟩
      · exact ⟨entry, hmem, _, hentry, .inr rfl⟩
  rw [hspelled, matchesRegex_iff hpython htext]
  simp only [CorsConfig.originAllowed, configureCors, decide_eq_true hne, Bool.true_and,
    Bool.or_eq_true, contains_iff_mem]
  cases kwargs.allowOriginRegex with
  | none => simp
  | some regex => simp

theorem allows_iff (hpython : CorsPython python) {upper : Text → Text}
    {preflight : PreflightKwargs} {middleware : CORSMiddleware}
    (hinit : CORSMiddleware.init python upper kwargs preflight = some middleware)
    {origin : Bytes} (hne : origin ≠ []) :
    middleware.allows python origin = true ↔ Admits python kwargs (Text.ofLatin1 origin) := by
  have htext : Text.ofLatin1 origin ≠ [] := fun h => hne (map_eq_nil_iff.mp h)
  rw [Admits, folded_iff, matchesRegex_iff hpython htext]
  have hsame := initialised hinit
  simp only [CORSMiddleware.allows, CORSMiddleware.isOriginAllowed, hsame.allowAll, hsame.origins,
    hsame.regex, decide_eq_true hne, Bool.true_and, Bool.or_eq_true]
  cases kwargs.allowOriginRegex with
  | none => simp
  | some regex => simp

theorem helperAllows_iff {origin : Bytes} (hne : origin ≠ []) :
    helperAllows python kwargs origin = true ↔
      Admits python kwargs (python.strip (Text.ofLatin1 origin)) := by
  rw [Admits, folded_iff]
  simp only [helperAllows, CorsKwargs.denies, MatchesRegex, decide_eq_true hne, Bool.true_and,
    beq_iff_eq]
  split
  · rename_i hstar
    exact iff_of_true rfl (.inl (.inl hstar))
  · rename_i hstar
    split
    · rename_i hlower
      exact iff_of_true rfl (.inl (.inr hlower))
    · rename_i hlower
      rw [or_iff_right (not_or.mpr ⟨hstar, hlower⟩)]
      cases kwargs.allowOriginRegex with
      | none => simp
      | some regex => cases regex <;> simp

theorem SpelledAs.folded {entry : Text} {origin : Bytes} (hplain : IsPlain entry)
    (hmem : entry ∈ kwargs.allowOrigins) (h : SpelledAs entry origin) :
    Folded python kwargs (Text.ofLatin1 origin) := by
  obtain ⟨bytes, hentry, rfl | rfl⟩ := h
  · exact ⟨entry, hmem, .inl (asUtf8_plain hplain hentry).symm⟩
  · exact ⟨entry, hmem, .inr (congrArg _ (asUtf8_plain hplain hentry))⟩

/-- The three decisions are one exactly if the list leaves no room for another. -/
theorem decisions_iff (hpython : CorsPython python) {upper : Text → Text}
    {preflight : PreflightKwargs} {middleware : CORSMiddleware}
    (hinit : CORSMiddleware.init python upper kwargs preflight = some middleware)
    {origin : Bytes} (hne : origin ≠ []) :
    ((configureCors python kwargs preflight).1.originAllowed origin =
          middleware.allows python origin ∧
        middleware.allows python origin = helperAllows python kwargs origin) ↔
      Unambiguous python kwargs origin := by
  apply (and_congr Bool.eq_iff_iff Bool.eq_iff_iff).trans
  rw [originAllowed_iff hpython _ hne, allows_iff hpython hinit hne, helperAllows_iff hne]
  constructor
  · rintro ⟨hcore, hhelper⟩
    refine ⟨fun hfolded => hcore.mpr (.inl hfolded), ?_, fun _ => hhelper.symm⟩
    intro entry hmem _ hspelled
    exact hcore.mp (.inl ⟨entry, hmem, hspelled⟩)
  · intro h
    refine ⟨⟨?_, ?_⟩, ?_⟩
    · rintro (⟨entry, hmem, hspelled⟩ | hmatch)
      · by_cases hplain : IsPlain entry
        · exact .inl (hspelled.folded hplain hmem)
        · exact h.plain _ hmem hplain hspelled
      · exact .inr hmatch
    · rintro (hfolded | hmatch)
      · exact h.spelled hfolded
      · exact .inr hmatch
    · by_cases hstrip : python.strip (Text.ofLatin1 origin) = Text.ofLatin1 origin
      · rw [hstrip]
      · exact (h.stripped hstrip).symm

end Decisions

/-! ## The headers -/

/-- The header is there exactly for an allowed origin, it is `*` only without
credentials, and an echoed origin comes with `Vary`. -/
structure Sound (allowed credentials : Bool) (fields : List Field) : Prop where
  present : (∃ value, (allowOrigin, value) ∈ fields) ↔ allowed = true
  star : (allowOrigin, ascii "*") ∈ fields → credentials = false
  vary : ∀ value, (allowOrigin, value) ∈ fields → value ≠ ascii "*" → varyOrigin ∈ fields

def corePreflight (cors : CorsConfig × PreflightConfig) (origin : Bytes) (keepAlive : Bool)
    (requestHeaders : Bytes) : List Field :=
  if cors.1.originAllowed origin ∧ CrlfFree origin then
    preflightFields cors origin keepAlive requestHeaders
  else []

/-- The headers of an answer of the middleware itself. -/
def CorsOutcome.fields : Option CorsOutcome → List Field
  | some (.respond _ headers _) => headers
  | _ => []

/-- Fields with at most one `access-control-allow-origin`. -/
theorem sound_iff {allowed credentials : Bool} {fields : List Field} {shown : Prop} {value : Bytes}
    (hvalue : ∀ other, (allowOrigin, other) ∈ fields ↔ shown ∧ other = value) :
    Sound allowed credentials fields ↔
      (shown ↔ allowed = true) ∧ (shown → (value = ascii "*" → credentials = false) ∧
        (value ≠ ascii "*" → varyOrigin ∈ fields)) := by
  have hshown : (∃ other, (allowOrigin, other) ∈ fields) ↔ shown := by
    simp [hvalue]
  constructor
  · intro h
    refine ⟨hshown.symm.trans h.present, fun hshow => ⟨?_, ?_⟩⟩
    · intro hstar
      exact h.star ((hvalue _).mpr ⟨hshow, hstar.symm⟩)
    · exact h.vary _ ((hvalue _).mpr ⟨hshow, rfl⟩)
  · intro h
    refine ⟨hshown.trans h.1, ?_, ?_⟩
    · intro hmem
      obtain ⟨hshow, hstar⟩ := (hvalue _).mp hmem
      exact (h.2 hshow).1 hstar.symm
    · intro other hmem hne
      obtain ⟨hshow, rfl⟩ := (hvalue _).mp hmem
      exact (h.2 hshow).2 hne

/-- Fields with `*` or else an echoed origin and `Vary`. -/
theorem sound_choice_iff {allowed credentials star : Bool} {fields : List Field} {shown : Prop}
    {echo : Bytes}
    (hvalue : ∀ other, (allowOrigin, other) ∈ fields ↔
      shown ∧ other = if star then ascii "*" else echo)
    (hshown : shown → allowed = true) (hvary : shown → star = false → varyOrigin ∈ fields) :
    Sound allowed credentials fields ↔
      (allowed = true → shown ∧ (star = true ∨ echo = ascii "*" → credentials = false)) := by
  rw [sound_iff hvalue]
  constructor
  · intro h hallowed
    have hshow := h.1.mpr hallowed
    refine ⟨hshow, ?_⟩
    rintro (rfl | rfl)
    · exact (h.2 hshow).1 rfl
    · exact (h.2 hshow).1 (ite_self _)
  · intro h
    refine ⟨⟨hshown, fun hallowed => (h hallowed).1⟩, ?_⟩
    intro hshow
    have hstar := (h (hshown hshow)).2
    cases star with
    | true => exact ⟨fun _ => hstar (.inl rfl), fun hne => absurd rfl hne⟩
    | false => exact ⟨fun hecho => hstar (.inr hecho), fun _ => hvary hshow rfl⟩

theorem not_mem_credentialsFields (credentials : Bool) (value : Bytes) :
    (allowOrigin, value) ∉ credentialsFields credentials := by
  have hname : allowOrigin ≠ ascii "access-control-allow-credentials" := by decide
  cases credentials <;> simp [credentialsFields, hname]

theorem mem_fields_allow (config : CorsConfig) (origin other : Bytes) :
    (allowOrigin, other) ∈ config.fields origin ↔
      other = if !config.allowCredentials && config.isWildcard then ascii "*" else origin := by
  have hexpose : allowOrigin ≠ ascii "access-control-expose-headers" := by decide
  have hvary : allowOrigin ≠ ascii "vary" := by decide
  have hcredentials := not_mem_credentialsFields config.allowCredentials other
  simp only [CorsConfig.fields, mem_append]
  constructor
  · rintro (((hallow | hmem) | hmem) | hmem)
    · exact congrArg Prod.snd (mem_singleton.mp hallow)
    · exact absurd hmem hcredentials
    · split at hmem
      · cases hmem
      · exact absurd (congrArg Prod.fst (mem_singleton.mp hmem)) hexpose
    · split at hmem
      · exact absurd (congrArg Prod.fst (mem_singleton.mp hmem)) hvary
      · cases hmem
  · rintro rfl
    exact .inl (.inl (.inl (mem_singleton.mpr rfl)))

theorem mem_fields_vary (config : CorsConfig) (origin : Bytes) :
    varyOrigin ∈ config.fields origin ↔
      config.allowCredentials = true ∨ (config.allowOrigins ≠ [] ∧ config.isWildcard = false) := by
  have hallow : ascii "vary" ≠ ascii "access-control-allow-origin" := by decide
  have hcredentials : ascii "vary" ≠ ascii "access-control-allow-credentials" := by decide
  have hexpose : ascii "vary" ≠ ascii "access-control-expose-headers" := by decide
  simp only [CorsConfig.fields, varyOrigin, mem_append, mem_ite_nil_right,
    mem_ite_nil_left, mem_singleton, Prod.mk.injEq, hallow, hcredentials, hexpose,
    false_and, and_false, false_or, and_true, Bool.or_eq_true, Bool.and_eq_true,
    decide_eq_true_eq, beq_iff_eq, Bool.not_eq_true']
  cases horigins : config.allowOrigins with
  | nil => simp
  | cons first rest =>
    cases rest with
    | nil => simp
    | cons second rest =>
      have hwild : config.isWildcard = false := by
        rw [Response.CorsConfig.isWildcard, horigins]
        simp
      simp [hwild]

theorem coreFields_sound_iff (config : CorsConfig) (origin : Bytes) :
    Sound (config.originAllowed origin) config.allowCredentials (coreFields config origin) ↔
      (config.originAllowed origin = true → CrlfFree origin ∧
        (origin = ascii "*" → config.allowCredentials = false) ∧
        (origin ≠ ascii "*" → config.allowCredentials = true ∨ config.allowOrigins ≠ [])) := by
  have hvalue : ∀ other, (allowOrigin, other) ∈ coreFields config origin ↔
      (config.originAllowed origin = true ∧ CrlfFree origin) ∧
        other = if !config.allowCredentials && config.isWildcard then ascii "*" else origin := by
    intro other
    rw [coreFields]
    split
    · rename_i hshown
      rw [mem_fields_allow]
      exact (and_iff_right hshown).symm
    · rename_i hshown
      exact iff_of_false not_mem_nil fun h => hshown h.1
  have hvary : config.originAllowed origin = true ∧ CrlfFree origin →
      (varyOrigin ∈ coreFields config origin ↔
        config.allowCredentials = true ∨ (config.allowOrigins ≠ [] ∧ config.isWildcard = false)) := by
    intro hshown
    rw [coreFields, if_pos hshown, mem_fields_vary]
  rw [sound_iff hvalue]
  constructor
  · intro h hallowed
    have hshown := h.1.mpr hallowed
    refine ⟨hshown.2, ?_, ?_⟩
    · rintro rfl
      exact (h.2 hshown).1 (ite_self _)
    · intro hne
      by_contra hnot
      rw [not_or, not_not, Bool.not_eq_true] at hnot
      have hecho : (if !config.allowCredentials && config.isWildcard then ascii "*" else origin) =
          origin := by
        rw [hnot.1, Response.CorsConfig.isWildcard, hnot.2]
        rfl
      have hmem := (h.2 hshown).2 (hecho.trans_ne hne)
      rcases (hvary hshown).mp hmem with hcredentials | hlist
      · exact Bool.false_ne_true (hnot.1.symm.trans hcredentials)
      · exact hlist.1 hnot.2
  · intro h
    refine ⟨⟨And.left, fun hallowed => ⟨hallowed, (h hallowed).1⟩⟩, ?_⟩
    intro hshown
    obtain ⟨-, hstar, hlist⟩ := h hshown.1
    rw [hvary hshown]
    cases hcredentials : config.allowCredentials with
    | true =>
      rw [hcredentials] at hstar
      exact ⟨hstar, fun _ => .inl rfl⟩
    | false =>
      refine ⟨fun _ => rfl, ?_⟩
      intro hne
      cases hwild : config.isWildcard with
      | true =>
        rw [hwild] at hne
        exact absurd rfl hne
      | false =>
        rw [hwild] at hne
        rw [hcredentials] at hlist
        exact .inr ⟨(hlist hne).resolve_left Bool.false_ne_true, rfl⟩

theorem mem_preflightFields_allow (cors : CorsConfig × PreflightConfig) (origin : Bytes)
    (keepAlive : Bool) (requestHeaders other : Bytes) :
    (allowOrigin, other) ∈ preflightFields cors origin keepAlive requestHeaders ↔
      other = if !cors.1.allowCredentials && cors.1.isWildcard then ascii "*" else origin := by
  have hmethods : allowOrigin ≠ ascii "access-control-allow-methods" := by decide
  have hheaders : allowOrigin ≠ ascii "access-control-allow-headers" := by decide
  have hage : allowOrigin ≠ ascii "access-control-max-age" := by decide
  have hvary : allowOrigin ≠ ascii "vary" := by decide
  have hlength : allowOrigin ≠ ascii "content-length" := by decide
  have htype : allowOrigin ≠ ascii "content-type" := by decide
  have hconnection : allowOrigin ≠ ascii "connection" := by decide
  have hcredentials := not_mem_credentialsFields cors.1.allowCredentials other
  simp [preflightFields, varyOrigin, connectionField, hmethods, hheaders, hage, hvary, hlength, htype, hconnection, hcredentials]

theorem corePreflight_sound_iff (cors : CorsConfig × PreflightConfig) (origin : Bytes)
    (keepAlive : Bool) (requestHeaders : Bytes) :
    Sound (cors.1.originAllowed origin) cors.1.allowCredentials
        (corePreflight cors origin keepAlive requestHeaders) ↔
      (cors.1.originAllowed origin = true → CrlfFree origin ∧
        (origin = ascii "*" → cors.1.allowCredentials = false)) := by
  have hvalue : ∀ other, (allowOrigin, other) ∈ corePreflight cors origin keepAlive requestHeaders ↔
      (cors.1.originAllowed origin = true ∧ CrlfFree origin) ∧
        other = if !cors.1.allowCredentials && cors.1.isWildcard then ascii "*" else origin := by
    intro other
    rw [corePreflight]
    split
    · rename_i hshown
      rw [mem_preflightFields_allow]
      exact (and_iff_right hshown).symm
    · rename_i hshown
      exact iff_of_false not_mem_nil fun h => hshown h.1
  have hvary : cors.1.originAllowed origin = true ∧ CrlfFree origin →
      varyOrigin ∈ corePreflight cors origin keepAlive requestHeaders := by
    intro hshown
    rw [corePreflight, if_pos hshown, preflightFields]
    exact mem_append_right _ mem_cons_self
  rw [sound_choice_iff hvalue And.left fun hshown _ => hvary hshown]
  constructor
  · intro h hallowed
    exact ⟨(h hallowed).1.2, fun horigin => (h hallowed).2 (.inr horigin)⟩
  · intro h hallowed
    refine ⟨⟨hallowed, (h hallowed).1⟩, ?_⟩
    rintro (hstar | horigin)
    · rw [Bool.and_eq_true, Bool.not_eq_true'] at hstar
      exact hstar.1
    · exact (h hallowed).2 horigin

section Python

variable {F O : Type*} {python : PythonRuntime F O} {kwargs : CorsKwargs}
  {middleware : CORSMiddleware}

theorem not_mem_exposeFields {kwargs : CorsKwargs} {expose : List Field}
    (h : kwargs.exposeFields = some expose) (value : Bytes) : (allowOrigin, value) ∉ expose := by
  have hname : allowOrigin ≠ ascii "access-control-expose-headers" := by decide
  rw [CorsKwargs.exposeFields] at h
  split at h
  · cases h
    exact not_mem_nil
  · obtain ⟨list, -, rfl⟩ := Option.map_eq_some_iff.mp h
    intro hmem
    exact hname (congrArg Prod.fst (mem_singleton.mp hmem))

theorem sendWrapper_eq (h : Initialised python kwargs middleware) (origin : Bytes)
    (headers : List Field) :
    ∃ expose, kwargs.exposeFields = some expose ∧
      middleware.sendWrapper python (some (Text.ofLatin1 origin)) headers =
        some (headers ++ if middleware.allows python origin then
          (if middleware.allowAllOrigins && !middleware.allowCredentials then
              [(allowOrigin, ascii "*")]
            else [(allowOrigin, origin), varyOrigin]) ++
            credentialsFields middleware.allowCredentials ++ expose
          else []) := by
  obtain ⟨expose, hexpose, hsame⟩ := h.exposes
  refine ⟨expose, hexpose, ?_⟩
  cases origin with
  | nil => simp [CORSMiddleware.sendWrapper, CORSMiddleware.allows, Text.ofLatin1]
  | cons b origin =>
    have hallows : middleware.allows python (b :: origin) =
        middleware.isOriginAllowed python (Text.ofLatin1 (b :: origin)) := by
      simp [CORSMiddleware.allows]
    have hlatin := latin1_ofLatin1 (b :: origin)
    rw [hallows]
    rw [Text.ofLatin1, map_cons] at hlatin ⊢
    rw [CORSMiddleware.sendWrapper]
    split
    · cases hstar : middleware.allowAllOrigins && !middleware.allowCredentials <;>
        simp only [hlatin, hsame, Option.map_some, if_true, if_false, Bool.false_eq_true,
          append_assoc]
    · rw [append_nil]
    · simp

theorem sendWrapper_sound_iff (h : Initialised python kwargs middleware) (origin : Bytes) :
    Sound (middleware.allows python origin) kwargs.allowCredentials
        ((middleware.sendWrapper python (some (Text.ofLatin1 origin)) []).getD []) ↔
      (middleware.allows python origin = true →
        (origin = ascii "*" → kwargs.allowCredentials = false)) := by
  obtain ⟨expose, hexpose, hsend⟩ := sendWrapper_eq h _ []
  rw [hsend, Option.getD_some, nil_append, h.credentials]
  have hcredentials := not_mem_credentialsFields kwargs.allowCredentials
  have hvalue : ∀ other, (allowOrigin, other) ∈ (if middleware.allows python origin then
        (if middleware.allowAllOrigins && !kwargs.allowCredentials then [(allowOrigin, ascii "*")]
          else [(allowOrigin, origin), varyOrigin]) ++ credentialsFields kwargs.allowCredentials ++
          expose
      else []) ↔ middleware.allows python origin = true ∧
        other = if middleware.allowAllOrigins && !kwargs.allowCredentials then ascii "*"
          else origin := by
    intro other
    have hvary : allowOrigin ≠ ascii "vary" := by decide
    have hexpose' := not_mem_exposeFields hexpose other
    cases middleware.allows python origin <;>
      cases middleware.allowAllOrigins && !kwargs.allowCredentials <;>
      simp [varyOrigin, hvary, hcredentials _, hexpose']
  rw [sound_choice_iff hvalue id]
  · constructor
    · intro h hallowed horigin
      exact (h hallowed).2 (.inr horigin)
    · intro h hallowed
      refine ⟨hallowed, ?_⟩
      rintro (hstar | horigin)
      · rw [Bool.and_eq_true, Bool.not_eq_true'] at hstar
        exact hstar.2
      · exact h hallowed horigin
  · intro hallowed hstar
    rw [if_pos hallowed, hstar]
    simp

theorem not_mem_allowHeadersFields {requested : Bytes} {fields : List Field}
    (h : middleware.allowHeadersFields python requested = some (some fields)) (value : Bytes) :
    (allowOrigin, value) ∉ fields := by
  have hname : allowOrigin ≠ ascii "access-control-allow-headers" := by decide
  have hsingle (list : Bytes) :
      (allowOrigin, value) ∉ [(ascii "access-control-allow-headers", list)] := fun hmem =>
    hname (congrArg Prod.fst (mem_singleton.mp hmem))
  simp only [CORSMiddleware.allowHeadersFields] at h
  split at h
  · cases h
    exact hsingle _
  · split at h
    · split at h
      · cases h
      · cases h
        exact hsingle _
    · split at h
      · obtain ⟨list, -, hlist⟩ := Option.map_eq_some_iff.mp h
        cases hlist
        exact hsingle _
      · cases h
        exact not_mem_nil

theorem preflightResponse_eq (origin requestedMethod requestedHeaders : Bytes) :
    CorsOutcome.fields (middleware.preflightResponse python (Text.ofLatin1 origin) requestedMethod
        requestedHeaders) =
      match middleware.allowHeadersFields python requestedHeaders with
      | some (some fields) =>
        middleware.preflightHeaders ++
          (if middleware.allowAllOrigins then [] else [(allowOrigin, origin), varyOrigin]) ++
          fields ++ (if requestedMethod = [] then []
            else [(ascii "access-control-allow-methods", requestedMethod)])
      | _ => [] := by
  have hallow : (if middleware.allowAllOrigins then some [] else
      (Text.ofLatin1 origin).latin1.map fun origin => [(allowOrigin, origin), varyOrigin]) =
      some (if middleware.allowAllOrigins then [] else [(allowOrigin, origin), varyOrigin]) := by
    rw [latin1_ofLatin1]
    cases middleware.allowAllOrigins <;> rfl
  rw [CORSMiddleware.preflightResponse, hallow]
  cases middleware.allowHeadersFields python requestedHeaders with
  | none => rfl
  | some fields => cases fields <;> rfl

theorem call_eq {origin : Bytes} {headers : List Header}
    (horigin : (headers.find? fun header => Http.iequals header.1 "origin").map Prod.snd =
      some origin) :
    middleware.call python (plainText "OPTIONS") headers =
      if middleware.allows python origin then
        middleware.preflightResponse python (Text.ofLatin1 origin)
          (CORSMiddleware.requestedMethod headers) (CORSMiddleware.requestedHeaders headers)
      else some (.app (some (Text.ofLatin1 origin))) := by
  obtain ⟨header, hfind, rfl⟩ := Option.map_eq_some_iff.mp horigin
  have hempty : Text.ofLatin1 header.2 ≠ [] ↔ header.2 ≠ [] := not_congr map_eq_nil_iff
  simp [CORSMiddleware.call, hfind, CORSMiddleware.allows, hempty]

theorem call_sound_iff (h : Initialised python kwargs middleware) {origin : Bytes}
    {headers : List Header}
    (horigin : (headers.find? fun header => Http.iequals header.1 "origin").map Prod.snd =
      some origin) :
    Sound (middleware.allows python origin) kwargs.allowCredentials
        (CorsOutcome.fields (middleware.call python (plainText "OPTIONS") headers)) ↔
      (middleware.allows python origin = true → (∃ fields, middleware.allowHeadersFields python
          (CORSMiddleware.requestedHeaders headers) = some (some fields)) ∧
        (plainText "*" ∈ kwargs.allowOrigins ∨ origin = ascii "*" →
          kwargs.allowCredentials = false)) := by
  obtain ⟨methods, age, hpreflight⟩ := h.preflight
  have hmethods : allowOrigin ≠ ascii "access-control-allow-methods" := by decide
  have hage : allowOrigin ≠ ascii "access-control-max-age" := by decide
  have hvary : allowOrigin ≠ ascii "vary" := by decide
  have hcredentials := not_mem_credentialsFields middleware.allowCredentials
  have hvalue : ∀ other, (allowOrigin, other) ∈
      CorsOutcome.fields (middleware.call python (plainText "OPTIONS") headers) ↔
      (middleware.allows python origin = true ∧ ∃ fields, middleware.allowHeadersFields python
          (CORSMiddleware.requestedHeaders headers) = some (some fields)) ∧
        other = if middleware.allowAllOrigins then ascii "*" else origin := by
    intro other
    rw [call_eq horigin]
    split
    · rename_i hallowed
      rw [preflightResponse_eq]
      cases hfields : middleware.allowHeadersFields python
          (CORSMiddleware.requestedHeaders headers) with
      | none => simp
      | some fields =>
        cases fields with
        | none => simp
        | some fields =>
          have hnot := not_mem_allowHeadersFields hfields other
          rw [hpreflight]
          cases middleware.allowAllOrigins <;>
            simp [hallowed, hnot, hcredentials _, hmethods, hage, hvary, varyOrigin]
    · rename_i hallowed
      simp [CorsOutcome.fields, hallowed]
  rw [sound_choice_iff hvalue And.left]
  · rw [h.allowAll, contains_iff_mem]
    constructor
    · intro h hallowed
      exact ⟨(h hallowed).1.2, (h hallowed).2⟩
    · intro h hallowed
      exact ⟨⟨hallowed, (h hallowed).1⟩, (h hallowed).2⟩
  · rintro ⟨hallowed, fields, hfields⟩ hstar
    rw [call_eq horigin, if_pos hallowed, preflightResponse_eq, hfields, hstar]
    simp

theorem exists_ofLatin1 {text : Text} {bytes : Bytes} (h : text <:+: Text.ofLatin1 bytes) :
    ∃ rest, text = Text.ofLatin1 rest := by
  obtain ⟨left, right, heq⟩ := h
  obtain ⟨front, tail, -, hfront, -⟩ := map_eq_append_iff.mp heq.symm
  obtain ⟨head, middle, -, -, hmiddle⟩ := map_eq_append_iff.mp hfront
  exact ⟨middle, hmiddle.symm⟩

theorem headers_eq (stripped : Bytes) {expose : List Field}
    (hexpose : kwargs.exposeFields = some expose) :
    kwargs.headers (Text.ofLatin1 stripped) =
      some ((if kwargs.allowOrigins.contains (plainText "*") then [(allowOrigin, ascii "*")]
          else [(allowOrigin, stripped), varyOrigin]) ++
        credentialsFields kwargs.allowCredentials ++ expose) := by
  rw [CorsKwargs.headers, CorsKwargs.allowFields, latin1_ofLatin1, hexpose]
  cases kwargs.allowOrigins.contains (plainText "*") <;> rfl

theorem getCorsHeadersForOrigin_cons (b : Byte) (origin : Bytes) :
    getCorsHeadersForOrigin python (some kwargs) (Text.ofLatin1 (b :: origin)) =
      match kwargs.denies python (python.strip (Text.ofLatin1 (b :: origin))) with
      | none => none
      | some true => some []
      | some false => kwargs.headers (python.strip (Text.ofLatin1 (b :: origin))) := rfl

theorem getCorsHeadersForOrigin_eq {origin stripped : Bytes} {expose : List Field}
    (hexpose : kwargs.exposeFields = some expose)
    (hstripped : python.strip (Text.ofLatin1 origin) = Text.ofLatin1 stripped) :
    (getCorsHeadersForOrigin python (some kwargs) (Text.ofLatin1 origin)).getD [] =
      if helperAllows python kwargs origin then
        (if kwargs.allowOrigins.contains (plainText "*") then [(allowOrigin, ascii "*")]
          else [(allowOrigin, stripped), varyOrigin]) ++
          credentialsFields kwargs.allowCredentials ++ expose
      else [] := by
  cases origin with
  | nil => rfl
  | cons b origin =>
    have hheaders := headers_eq stripped hexpose
    rw [← hstripped] at hheaders
    have hallows : helperAllows python kwargs (b :: origin) =
        (kwargs.denies python (python.strip (Text.ofLatin1 (b :: origin))) == some false) := by
      simp [helperAllows]
    rw [hallows, getCorsHeadersForOrigin_cons]
    cases kwargs.denies python (python.strip (Text.ofLatin1 (b :: origin))) with
    | none => rfl
    | some denied =>
      cases denied with
      | true => rfl
      | false =>
        rw [hheaders]
        rfl

theorem helper_sound_iff (hpython : CorsPython python) (h : Initialised python kwargs middleware)
    (origin : Bytes) :
    Sound (helperAllows python kwargs origin) kwargs.allowCredentials
        ((getCorsHeadersForOrigin python (some kwargs) (Text.ofLatin1 origin)).getD []) ↔
      (helperAllows python kwargs origin = true →
        (plainText "*" ∈ kwargs.allowOrigins ∨
            python.strip (Text.ofLatin1 origin) = plainText "*" →
          kwargs.allowCredentials = false)) := by
  obtain ⟨stripped, hstripped⟩ := exists_ofLatin1 (hpython.strips (Text.ofLatin1 _))
  obtain ⟨expose, hexpose, -⟩ := h.exposes
  have hfields := getCorsHeadersForOrigin_eq hexpose hstripped
  have hvary : allowOrigin ≠ ascii "vary" := by decide
  have hcredentials := not_mem_credentialsFields kwargs.allowCredentials
  have hvalue : ∀ other, (allowOrigin, other) ∈
      (getCorsHeadersForOrigin python (some kwargs) (Text.ofLatin1 origin)).getD [] ↔
      helperAllows python kwargs origin = true ∧
        other = if kwargs.allowOrigins.contains (plainText "*") then ascii "*" else stripped := by
    intro other
    have hexpose' := not_mem_exposeFields hexpose other
    rw [hfields]
    cases helperAllows python kwargs origin <;>
      cases kwargs.allowOrigins.contains (plainText "*") <;>
      simp [varyOrigin, hvary, hcredentials _, hexpose']
  have hstar : stripped = ascii "*" ↔ python.strip (Text.ofLatin1 origin) = plainText "*" := by
    rw [hstripped]
    constructor
    · rintro rfl
      rfl
    · intro heq
      have hlatin := congrArg Text.latin1 heq
      rw [latin1_ofLatin1] at hlatin
      exact Option.some.inj (hlatin.trans (by decide))
  rw [sound_choice_iff hvalue id, contains_iff_mem, hstar]
  · exact forall_congr' fun hallowed => and_iff_right hallowed
  · intro hallowed hlist
    rw [hfields, if_pos hallowed, hlist]
    simp

/-- The origin is one that each of the five builders has the right headers for. -/
structure Answerable (python : PythonRuntime F O) (kwargs : CorsKwargs)
    (middleware : CORSMiddleware) (origin requested : Bytes) : Prop where
  line : CrlfFree origin
  credentials : kwargs.allowCredentials = true → plainText "*" ∉ kwargs.allowOrigins ∧
    origin ≠ ascii "*" ∧ python.strip (Text.ofLatin1 origin) ≠ plainText "*"
  listed : origin ≠ ascii "*" →
    kwargs.allowCredentials = true ∨ kwargs.allowOrigins.filterMap asUtf8 ≠ []
  headers : ∃ fields, middleware.allowHeadersFields python requested = some (some fields)

/-- One decision, and the right headers of all five builders, exactly for an origin that
leaves no doubt and, if it is allowed, can be answered by each of them. -/
theorem cors_policy_iff (hpython : CorsPython python) {upper : Text → Text}
    {preflight : PreflightKwargs}
    (hinit : CORSMiddleware.init python upper kwargs preflight = some middleware) {origin : Bytes}
    {headers : List Header}
    (horigin : (headers.find? fun header => Http.iequals header.1 "origin").map Prod.snd =
      some origin) (keepAlive : Bool) (requestHeaders : Bytes) :
    (((configureCors python kwargs preflight).1.originAllowed origin =
            middleware.allows python origin ∧
          middleware.allows python origin = helperAllows python kwargs origin) ∧
        Sound ((configureCors python kwargs preflight).1.originAllowed origin)
          kwargs.allowCredentials (coreFields (configureCors python kwargs preflight).1 origin) ∧
        Sound ((configureCors python kwargs preflight).1.originAllowed origin)
          kwargs.allowCredentials
          (corePreflight (configureCors python kwargs preflight) origin keepAlive requestHeaders) ∧
        Sound (middleware.allows python origin) kwargs.allowCredentials
          ((middleware.sendWrapper python (some (Text.ofLatin1 origin)) []).getD []) ∧
        Sound (middleware.allows python origin) kwargs.allowCredentials
          (CorsOutcome.fields (middleware.call python (plainText "OPTIONS") headers)) ∧
        Sound (helperAllows python kwargs origin) kwargs.allowCredentials
          ((getCorsHeadersForOrigin python (some kwargs) (Text.ofLatin1 origin)).getD [])) ↔
      (origin ≠ [] → Unambiguous python kwargs origin ∧
        (Admits python kwargs (Text.ofLatin1 origin) → Answerable python kwargs middleware origin
            (CORSMiddleware.requestedHeaders headers))) := by
  have hsame := initialised hinit
  have hcore := coreFields_sound_iff (configureCors python kwargs preflight).1 origin
  have hpreflight :=
    corePreflight_sound_iff (configureCors python kwargs preflight) origin keepAlive requestHeaders
  have hwrapper := sendWrapper_sound_iff hsame origin
  have hcall := call_sound_iff hsame horigin
  have hhelper := helper_sound_iff hpython hsame origin
  by_cases hne : origin = []
  · subst hne
    have hdenied : (configureCors python kwargs preflight).1.originAllowed [] = false := rfl
    have hrefused : middleware.allows python [] = false := rfl
    have hunheard : helperAllows python kwargs [] = false := rfl
    exact iff_of_true ⟨⟨rfl, rfl⟩, hcore.mpr nofun, hpreflight.mpr nofun, hwrapper.mpr nofun,
      hcall.mpr nofun, hhelper.mpr nofun⟩ fun hne => absurd rfl hne
  · have hdecisions := decisions_iff hpython hinit hne
    have hallows := allows_iff hpython hinit hne
    apply (and_congr hdecisions (and_congr hcore (and_congr hpreflight (and_congr hwrapper
      (and_congr hcall hhelper))))).trans
    constructor
    · rintro ⟨hclear, hcores, -, -, hcalls, hhelpers⟩ -
      obtain ⟨hmiddle, hend⟩ := hdecisions.mpr hclear
      refine ⟨hclear, ?_⟩
      intro hadmits
      have hallowed := hallows.mpr hadmits
      obtain ⟨hline, -, hlisted⟩ := hcores (hmiddle.trans hallowed)
      obtain ⟨hheaders, hstars⟩ := hcalls hallowed
      refine ⟨hline, ?_, hlisted, hheaders⟩
      intro hcredentials
      have hnot {p : Prop} (h : p → kwargs.allowCredentials = false) : ¬ p := fun hp =>
        Bool.false_ne_true ((h hp).symm.trans hcredentials)
      obtain ⟨hlist, horigin⟩ := not_or.mp (hnot hstars)
      exact ⟨hlist, horigin, (not_or.mp (hnot (hhelpers (hend.symm.trans hallowed)))).2⟩
    · intro h
      obtain ⟨hclear, hanswer⟩ := h hne
      obtain ⟨hmiddle, hend⟩ := hdecisions.mpr hclear
      have hfalse {p : Prop} (hp : p) (hno : kwargs.allowCredentials = true → ¬ p) :
          kwargs.allowCredentials = false :=
        Bool.eq_false_iff.mpr fun hcredentials => hno hcredentials hp
      refine ⟨hclear, ?_, ?_, ?_, ?_, ?_⟩
      · intro hallowed
        have hgood := hanswer (hallows.mp (hmiddle.symm.trans hallowed))
        exact ⟨hgood.line, fun hstar => hfalse hstar fun hc => (hgood.credentials hc).2.1,
          hgood.listed⟩
      · intro hallowed
        have hgood := hanswer (hallows.mp (hmiddle.symm.trans hallowed))
        exact ⟨hgood.line, fun hstar => hfalse hstar fun hc => (hgood.credentials hc).2.1⟩
      · intro hallowed hstar
        have hgood := hanswer (hallows.mp hallowed)
        exact hfalse hstar fun hc => (hgood.credentials hc).2.1
      · intro hallowed
        have hgood := hanswer (hallows.mp hallowed)
        refine ⟨hgood.headers, fun hstar => hfalse hstar fun hc => ?_⟩
        exact not_or.mpr ⟨(hgood.credentials hc).1, (hgood.credentials hc).2.1⟩
      · intro hallowed hstar
        have hgood := hanswer (hallows.mp (hend.trans hallowed))
        refine hfalse hstar fun hc => ?_
        exact not_or.mpr ⟨(hgood.credentials hc).1, (hgood.credentials hc).2.2⟩

end Python

section Configurations

def isSpace (c : CodePoint) : Bool :=
  (9 ≤ c.val && c.val ≤ 13) || (28 ≤ c.val && c.val ≤ 32) || c.val == 133 || c.val == 160

/-- Latin-1 strings, and patterns without special characters. -/
def latinPython : PythonRuntime Unit Empty where
  strip text := (text.dropWhile isSpace).rdropWhile isSpace
  lower := List.map lowerLatin1
  fullmatch regex text := some (decide (text = regex))
  encodeToJsonBytes _ := none

theorem latinPython_cors : CorsPython latinPython where
  strips _ := (List.rdropWhile_prefix _ _).isInfix.trans (dropWhile_suffix _).isInfix
  compiles _ _ _ := rfl
  empty _ := rfl

/-- One origin without credentials. -/
def listedOrigin : CorsKwargs := { allowOrigins := [plainText "http://a"] }

def originHeaders : List Header := [(ascii "Origin", ascii "http://a")]

theorem cors_policy_listed :
    ∃ middleware, CORSMiddleware.init latinPython id listedOrigin {} = some middleware ∧
      (configureCors latinPython listedOrigin {}).1.originAllowed (ascii "http://a") =
        middleware.allows latinPython (ascii "http://a") ∧
      Sound (middleware.allows latinPython (ascii "http://a")) false
        (CorsOutcome.fields (middleware.call latinPython (plainText "OPTIONS") originHeaders)) := by
  have hinit : ∃ middleware, CORSMiddleware.init latinPython id listedOrigin {} = some middleware ∧
      middleware.allowHeadersFields latinPython (CORSMiddleware.requestedHeaders originHeaders) =
        some (some []) := ⟨_, rfl, rfl⟩
  obtain ⟨middleware, hinit, hheaders⟩ := hinit
  have horigin : (originHeaders.find? fun header => Http.iequals header.1 "origin").map Prod.snd =
      some (ascii "http://a") := by decide
  have hspelled : SpelledAs (plainText "http://a") (ascii "http://a") :=
    ⟨ascii "http://a", by decide, .inr rfl⟩
  have hplain : IsPlain (plainText "http://a") := by simp [IsPlain, plainText]
  have hclear : Unambiguous latinPython listedOrigin (ascii "http://a") := by
    refine ⟨fun _ => .inl ⟨_, mem_singleton.mpr rfl, hspelled⟩, ?_, fun hne => absurd ?_ hne⟩
    · intro entry hmem hnot
      rw [mem_singleton.mp hmem] at hnot
      exact absurd hplain hnot
    · decide
  have hgood : Answerable latinPython listedOrigin middleware (ascii "http://a")
      (CORSMiddleware.requestedHeaders originHeaders) :=
    ⟨by decide, by rintro ⟨⟩, fun _ => .inr (by decide), [], hheaders⟩
  have hall := (cors_policy_iff latinPython_cors hinit horigin true []).mpr
    fun _ => ⟨hclear, fun _ => hgood⟩
  exact ⟨middleware, hinit, hall.1.1, hall.2.2.2.2.1⟩

def openWithCredentials : CorsKwargs :=
  { allowOrigins := [plainText "*"], allowCredentials := true }

def patternOnly : CorsKwargs := { allowOriginRegex := some (plainText "http://a") }

/-- The helper sends `*` with credentials, the core echoes an origin without `Vary`, and
the two disagree on an origin in upper case. -/
theorem cors_policy_broken :
    ¬ Sound (helperAllows latinPython openWithCredentials (ascii "http://a")) true
        ((getCorsHeadersForOrigin latinPython (some openWithCredentials)
          (Text.ofLatin1 (ascii "http://a"))).getD []) ∧
      ¬ Sound ((configureCors latinPython patternOnly {}).1.originAllowed (ascii "http://a")) false
        (coreFields (configureCors latinPython patternOnly {}).1 (ascii "http://a")) ∧
      (configureCors latinPython listedOrigin {}).1.originAllowed (ascii "HTTP://A") ≠
        helperAllows latinPython listedOrigin (ascii "HTTP://A") := by
  refine ⟨?_, ?_, by decide⟩
  · intro h
    have hstar : (allowOrigin, ascii "*") ∈
        (getCorsHeadersForOrigin latinPython (some openWithCredentials)
          (Text.ofLatin1 (ascii "http://a"))).getD [] := by decide
    cases h.star hstar
  · intro h
    have hecho : (allowOrigin, ascii "http://a") ∈
        coreFields (configureCors latinPython patternOnly {}).1 (ascii "http://a") := by decide
    have hvary : varyOrigin ∉
        coreFields (configureCors latinPython patternOnly {}).1 (ascii "http://a") := by decide
    exact hvary (h.vary _ hecho (by decide))

end Configurations

end AstraApi.Dispatch
