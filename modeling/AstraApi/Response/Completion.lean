import AstraApi.Response.Splitting

/-!
# Suspended endpoints

An endpoint that returns a dictionary or a list at its first step is answered by
`dispatch_one_request`.  One that suspends is finished by `_handle_async`, which
knows the status code, the keep-alive flag and the origin of the request only.
Neither path runs HTTP middleware or a response model here.
-/

namespace AstraApi.Response

open Option hiding or_assoc or_self
open List
open Message (Field fieldLine crlf writeMessage emptyLine)

/-! ## The Python side -/

/-- What the interpreter does for `_handle_async`; `none` stands for an exception. -/
structure PythonRuntime (F O : Type*) where
  strip : Text → Text
  lower : Text → Text
  fullmatch : Text → Text → Option Bool
  encodeToJsonBytes : PyObj F O → Option Bytes

/-- The arguments of `CORSMiddleware`. -/
structure CorsKwargs where
  allowOrigins : List Text := []
  allowCredentials : Bool := false
  exposeHeaders : List Text := []
  allowOriginRegex : Option Text := none

section Python

variable {F O : Type*} (python : PythonRuntime F O)

/-- Whether the stripped origin is denied; `none` when the pattern is not one. -/
def CorsKwargs.denies (kwargs : CorsKwargs) (origin : Text) : Option Bool :=
  if kwargs.allowOrigins.contains (plainText "*") then some false
  else if (kwargs.allowOrigins.map python.lower).contains (python.lower origin) then some false
  else
    match kwargs.allowOriginRegex with
    | none => some true
    | some [] => some true
    | some regex => (python.fullmatch regex origin).map (!·)

def CorsKwargs.allowFields (kwargs : CorsKwargs) (origin : Text) : Option (List Field) :=
  if kwargs.allowOrigins.contains (plainText "*") then
    some [(ascii "access-control-allow-origin", ascii "*")]
  else
    origin.latin1.map fun origin =>
      [(ascii "access-control-allow-origin", origin), (ascii "vary", ascii "Origin")]

def CorsKwargs.exposeFields (kwargs : CorsKwargs) : Option (List Field) :=
  if kwargs.exposeHeaders = [] then some []
  else
    (Text.latin1 ((plainText ", ").intercalate kwargs.exposeHeaders)).map fun list =>
      [(ascii "access-control-expose-headers", list)]

def CorsKwargs.headers (kwargs : CorsKwargs) (origin : Text) : Option (List Field) :=
  match kwargs.allowFields origin, kwargs.exposeFields with
  | some allow, some expose =>
    some (allow ++
      (if kwargs.allowCredentials then
        [(ascii "access-control-allow-credentials", ascii "true")] else []) ++ expose)
  | _, _ => none

/-- `_get_cors_headers_for_origin`; `middleware` is the first `CORSMiddleware` of the
application, if it has one. -/
def getCorsHeadersForOrigin (middleware : Option CorsKwargs) (origin : Text) :
    Option (List Field) :=
  match middleware, origin with
  | _, [] => some []
  | none, _ => some []
  | some kwargs, origin =>
    match kwargs.denies python (python.strip origin) with
    | none => none
    | some true => some []
    | some false => kwargs.headers (python.strip origin)

variable (runtime : Runtime F O)

/-- What `_handle_async` writes for a dictionary or a list.  An exception goes to
`_dispatch_exception`, whose response, if any, is `exceptionResponse`. -/
def handleAsync (middleware : Option CorsKwargs) (value : PyObj F O) (status : ℤ)
    (keepAlive : Bool) (origin : Text) (exceptionResponse : Option Bytes) : Option Bytes :=
  match getCorsHeadersForOrigin python middleware origin with
  | none => exceptionResponse
  | some [] => serializeJsonAndWriteResponse status keepAlive false none runtime value
  | some cors =>
    match python.encodeToJsonBytes value with
    | none => exceptionResponse
    | some body =>
      let merged := (plainText "content-type", plainText "application/json") ::
        cors.map fun header => (Text.ofLatin1 header.1, Text.ofLatin1 header.2)
      match buildResponseFromParts status merged body keepAlive with
      | none => exceptionResponse
      | some response => some response

/-- A request whose endpoint suspends before it returns.  When the origin has no
UTF-8, the call that hands the coroutine over fails, and nothing is written. -/
def Request.suspended (request : Request F O) (middleware : Option CorsKwargs)
    (value : PyObj F O) (exceptionResponse : Option Bytes) : Option Bytes :=
  match Text.ofUtf8 request.origin with
  | none => none
  | some origin =>
    handleAsync python runtime middleware value request.status request.keepAlive origin
      exceptionResponse

end Python

section Completion

variable {F O : Type*} (python : PythonRuntime F O) (runtime : Runtime F O)
  (config : Option CorsConfig) (middleware : Option CorsKwargs)

/-- Whatever the exception handlers respond, both paths write the same, and nothing
behind the header section of a response to `HEAD`. -/
def CompletionsAgree (caches : Caches) (request : Request F O) (value : PyObj F O) : Prop :=
  ∀ exceptionResponse,
    (dispatchResult runtime config caches request).1.1 =
        request.suspended python runtime middleware value exceptionResponse ∧
      (request.isHead = true → ∀ bytes,
        (dispatchResult runtime config caches request).1.1 = some bytes ∨
          request.suspended python runtime middleware value exceptionResponse = some bytes →
        emptyLine <:+ bytes)

/-- `_handle_async` finds no CORS headers for the request. -/
def Request.Quiet (request : Request F O) : Prop :=
  ∃ origin, Text.ofUtf8 request.origin = some origin ∧
    getCorsHeadersForOrigin python middleware origin = some []

def Caches.Fresh (caches : Caches) (request : Request F O) : Prop :=
  ∀ items key cached, request.result = .json (.dict items) →
    request.dictKey runtime config items = some key →
      cacheLookup caches.dict key = some cached → request.response runtime config = some cached

end Completion

/-! ## The bytes of both paths -/

def PyObj.IsContainer {F O : Type*} : PyObj F O → Prop
  | .dict _ => True
  | .list _ => True
  | _ => False

section Bytes

variable {F O : Type*} (python : PythonRuntime F O) (runtime : Runtime F O)
  {config : Option CorsConfig} {middleware : Option CorsKwargs} {status : ℤ}

theorem ne_nil_of_writeJson {value : PyObj F O} (hvalue : value.IsContainer) {body : Bytes}
    (h : writeJson runtime 0 value = some body) : body ≠ [] := by
  cases value with
  | dict items =>
    simp only [writeJson, Nat.not_lt_zero, if_false, map_eq_some_iff] at h
    obtain ⟨texts, -, rfl⟩ := h
    simp
  | list items =>
    simp only [writeJson, Nat.not_lt_zero, if_false, map_eq_some_iff] at h
    obtain ⟨texts, -, rfl⟩ := h
    have hopen : ascii "[" ≠ [] := by decide
    simp [hopen]
  | _ => exact absurd hvalue id

theorem buildJsonResponseBytes_text (hbody : ¬ (status = 204 ∨ status = 304))
    (keepAlive isHead : Bool) (cors : Option (CorsConfig × Bytes)) (value : PyObj F O) :
    buildJsonResponseBytes status keepAlive isHead cors runtime value =
      (writeJson runtime 0 value).map fun body =>
        statusLine status ++ jsonHeader ++ decimal body.length ++ corsHeaders cors ++
          connectionSuffix keepAlive ++ (if isHead then [] else body) := by
  simp only [buildJsonResponseBytes, if_neg hbody]
  congr 1
  cases cors with
  | some cors => simp [buildHttpResponseBytes, hbody, corsHeaders]
  | none =>
    cases hcached : cachedStatusLine status with
    | some prepared => simp [buildFastJsonResponse, statusLine, hcached, corsHeaders]
    | none => simp [buildHttpResponseBytes, hbody, hcached, corsHeaders]

theorem serializeJson_text (hbody : ¬ (status = 204 ∨ status = 304)) (keepAlive : Bool)
    (value : PyObj F O) :
    serializeJsonAndWriteResponse status keepAlive false none runtime value =
      (writeJson runtime 0 value).map fun body =>
        statusLine status ++ jsonHeader ++ decimal body.length ++
          connectionSuffix keepAlive ++ body := by
  cases hwrite : writeJson runtime 0 value with
  | none => simp [serializeJsonAndWriteResponse, hwrite]
  | some body =>
    simp only [serializeJsonAndWriteResponse, hwrite, if_neg hbody, map_some]
    cases hcached : cachedStatusLine status with
    | some prepared => simp [buildFastJsonResponse, statusLine, hcached]
    | none => simp [buildHttpResponse_plain, buildHttpResponseBytes, hbody, hcached]

theorem buildJsonResponseBytes_bodiless (hbody : status = 204 ∨ status = 304)
    (keepAlive isHead : Bool) (cors : Option (CorsConfig × Bytes)) (value : PyObj F O) :
    buildJsonResponseBytes status keepAlive isHead cors runtime value =
      (writeJson runtime 0 value).map fun _ =>
        statusLine status ++ connectionSuffix keepAlive := by
  have hstatus : statusText status (statusReason status) = statusLine status := by
    rcases hbody with rfl | rfl <;> rfl
  simp [buildJsonResponseBytes, if_pos hbody, hstatus]

theorem serializeJson_bodiless_eq (hbody : status = 204 ∨ status = 304) (keepAlive : Bool)
    (value : PyObj F O) :
    serializeJsonAndWriteResponse status keepAlive false none runtime value =
      (writeJson runtime 0 value).map fun _ =>
        statusLine status ++ connectionSuffix keepAlive := by
  have hstatus : statusText status (statusReason status) = statusLine status := by
    rcases hbody with rfl | rfl <;> rfl
  cases hwrite : writeJson runtime 0 value <;>
    simp [serializeJsonAndWriteResponse, hwrite, hbody, hstatus]

/-- Texts that differ at one place. -/
theorem append_ne_append {left right : Bytes} {n : ℕ} {b c : Byte} (hleft : left[n]? = some b)
    (hright : right[n]? = some c) (hne : b ≠ c) (leftRest rightRest : Bytes) :
    left ++ leftRest ≠ right ++ rightRest := by
  obtain ⟨hleftBound, -⟩ := List.getElem?_eq_some_iff.mp hleft
  obtain ⟨hrightBound, -⟩ := List.getElem?_eq_some_iff.mp hright
  intro hsame
  have hplace := congrArg (fun text => text[n]?) hsame
  simp only [getElem?_append_left hleftBound, getElem?_append_left hrightBound, hleft,
    hright, Option.some.injEq] at hplace
  exact hne hplace

theorem connectionSuffix_front (keepAlive : Bool) : (connectionSuffix keepAlive)[2]? = some 0x63 := by
  cases keepAlive <;> rfl

theorem corsHeaders_front {cors : Option (CorsConfig × Bytes)} (hne : corsHeaders cors ≠ []) :
    (corsHeaders cors)[2]? = some 0x61 := by
  match cors with
  | none => exact absurd rfl hne
  | some (config, origin) =>
    simp only [corsHeaders, buildCorsHeaders] at hne ⊢
    split
    · rename_i hnone
      rw [if_pos hnone] at hne
      exact absurd rfl hne
    · rfl

/-! ## The headers of the suspended path -/

theorem headers_front {kwargs : CorsKwargs} {origin : Text} {first : Field} {others : List Field}
    (h : kwargs.headers origin = some (first :: others)) :
    first.1 = ascii "access-control-allow-origin" := by
  simp only [CorsKwargs.headers] at h
  split at h
  · rename_i allow expose hallow hexpose
    simp only [CorsKwargs.allowFields] at hallow
    split at hallow
    · cases hallow
      cases h
      rfl
    · obtain ⟨value, -, rfl⟩ := map_eq_some_iff.mp hallow
      cases h
      rfl
  · cases h

theorem getCorsHeaders_front {origin : Text} {first : Field} {others : List Field}
    (h : getCorsHeadersForOrigin python middleware origin = some (first :: others)) :
    first.1 = ascii "access-control-allow-origin" := by
  simp only [getCorsHeadersForOrigin] at h
  split at h
  · cases h
  · cases h
  · split at h
    · cases h
    · cases h
    · exact headers_front h

/-- The headers of the suspended path come before the content length. -/
theorem parts_text {header : Field} {others : List (Text × Text)} {body response : Bytes}
    {keepAlive : Bool} (hheader : header.1 = ascii "access-control-allow-origin")
    (h : buildResponseFromParts status ((plainText "content-type", plainText "application/json") ::
      (Text.ofLatin1 header.1, Text.ofLatin1 header.2) :: others) body keepAlive = some response) :
    ∃ rest, response = statusLine status ++ (ascii
      "\r\ncontent-type: application/json\r\naccess-control-allow-origin: " ++ rest) := by
  have htype : encodePair Text.utf8 (plainText "content-type", plainText "application/json") =
      some (ascii "content-type", ascii "application/json") := by rfl
  have hname : Text.utf8 (Text.ofLatin1 (ascii "access-control-allow-origin")) =
      some (ascii "access-control-allow-origin") := by rfl
  rw [buildResponseFromParts_eq, map_eq_some_iff] at h
  obtain ⟨fields, hfields, rfl⟩ := h
  rw [mapM_cons, mapM_cons, htype, encodePair, hheader, hname] at hfields
  cases hvalue : Text.utf8 (Text.ofLatin1 header.2) with
  | none => simp [hvalue] at hfields
  | some value =>
    simp only [hvalue, bind_eq_bind, bind_some, bind_eq_some_iff, Option.pure_def] at hfields
    obtain ⟨_, ⟨rest, -, hrest⟩, hall⟩ := hfields
    cases hrest
    cases hall
    have htext : ascii "\r\ncontent-type: application/json\r\naccess-control-allow-origin: " =
        crlf ++ fieldLine (ascii "content-type", ascii "application/json") ++
          (crlf ++ (ascii "access-control-allow-origin" ++ ascii ": ")) := by decide
    rw [writeMessage_fields, htext]
    simp only [cons_append, fieldText_cons, append_assoc, fieldLine]
    exact ⟨_, rfl⟩

theorem dispatchResult_json {caches : Caches} {request : Request F O} {value : PyObj F O}
    (hresult : request.result = .json value) (hfresh : caches.Fresh runtime config request) :
    (dispatchResult runtime config caches request).1.1 =
      buildJsonResponseBytes request.status request.keepAlive request.isHead (request.cors config)
        runtime value := by
  have hresponse : request.response runtime config =
      buildJsonResponseBytes request.status request.keepAlive request.isHead (request.cors config)
        runtime value := by
    simp [Request.response, hresult]
  simp only [dispatchResult, hresult]
  split
  · rename_i cached hcached
    obtain ⟨key, hkey, hlookup⟩ := bind_eq_some_iff.mp hcached
    rw [← hresponse]
    split at hkey
    · exact (hfresh _ _ _ hresult hkey hlookup).symm
    · cases hkey
  · cases buildJsonResponseBytes request.status request.keepAlive request.isHead
      (request.cors config) runtime value with
    | none => rfl
    | some response =>
      simp only
      split <;> rfl

end Bytes

/-! ## Agreement -/

section Agreement

variable {F O : Type*} (python : PythonRuntime F O) (runtime : Runtime F O)
  (config : Option CorsConfig) (middleware : Option CorsKwargs) {request : Request F O}

theorem exists_suspended_ne {origin : Text} (horigin : Text.ofUtf8 request.origin = some origin)
    (hheaders : getCorsHeadersForOrigin python middleware origin ≠ some []) {value : PyObj F O}
    {inline : Option Bytes} (hinline : inline = buildJsonResponseBytes request.status
      request.keepAlive request.isHead (request.cors config) runtime value) :
    ∃ exceptionResponse,
      inline ≠ request.suspended python runtime middleware value exceptionResponse := by
  have hother : ∃ exceptionResponse, inline ≠ exceptionResponse := by
    cases inline with
    | none => exact ⟨some [], by simp⟩
    | some bytes => exact ⟨none, by simp⟩
  simp only [Request.suspended, horigin, handleAsync]
  split
  · exact hother
  · rename_i hnone
    exact absurd hnone hheaders
  · rename_i cors hne hcors
    split
    · exact hother
    · rename_i body hencoded
      split
      · exact hother
      · rename_i response hresponse
        use none
        rw [hinline]
        intro hsame
        cases cors with
        | nil => exact absurd rfl hne
        | cons first others =>
          obtain ⟨rest, hrest⟩ :=
            parts_text (getCorsHeaders_front _ hcors) hresponse
          by_cases hbody : request.status = 204 ∨ request.status = 304
          · rw [buildJsonResponseBytes_bodiless _ hbody] at hsame
            obtain ⟨text, -, htext⟩ := map_eq_some_iff.mp hsame
            rw [hrest] at htext
            have hsuffix := append_cancel_left htext
            rw [← append_nil (connectionSuffix _)] at hsuffix
            refine append_ne_append (n := 5) (b := 0x6e) (c := 0x74) ?_ rfl (by decide) _ _ hsuffix
            cases request.keepAlive <;> rfl
          · rw [buildJsonResponseBytes_text _ hbody] at hsame
            obtain ⟨text, -, htext⟩ := map_eq_some_iff.mp hsame
            rw [hrest] at htext
            simp only [append_assoc] at htext
            have hsuffix := append_cancel_left htext
            exact append_ne_append (n := 34) (b := 0x63) (c := 0x61) rfl rfl (by decide) _ _ hsuffix

theorem serializeJson_eq_inline_iff {value : PyObj F O} (hvalue : value.IsContainer)
    {body : Bytes} (hwrite : writeJson runtime 0 value = some body) (status : ℤ)
    (keepAlive isHead : Bool) (cors : Option (CorsConfig × Bytes)) :
    buildJsonResponseBytes status keepAlive isHead cors runtime value =
        serializeJsonAndWriteResponse status keepAlive false none runtime value ↔
      status = 204 ∨ status = 304 ∨ isHead = false ∧ corsHeaders cors = [] := by
  by_cases hbody : status = 204 ∨ status = 304
  · rw [buildJsonResponseBytes_bodiless _ hbody, serializeJson_bodiless_eq _ hbody]
    simp only [true_iff]
    rcases hbody with hstatus | hstatus
    · exact .inl hstatus
    · exact .inr (.inl hstatus)
  · have hne := ne_nil_of_writeJson _ hvalue hwrite
    rw [buildJsonResponseBytes_text _ hbody, serializeJson_text _ hbody, hwrite,
      map_some, map_some, Option.some.injEq]
    simp only [append_assoc, append_cancel_left_eq]
    have hcases : (status = 204 ∨ status = 304 ∨ isHead = false ∧ corsHeaders cors = []) ↔
        isHead = false ∧ corsHeaders cors = [] := by
      rw [← or_assoc, or_iff_right hbody]
    rw [hcases]
    by_cases hcors : corsHeaders cors = []
    · cases isHead
      · simp
      · simp [hcors, hne]
    · simp only [hcors, and_false, iff_false]
      exact append_ne_append (corsHeaders_front hcors) (connectionSuffix_front _) (by decide) _ _

theorem emptyLine_connectionSuffix (keepAlive : Bool) :
    emptyLine <:+ connectionSuffix keepAlive := by
  cases keepAlive <;> decide

/-- The two paths agree exactly when `_handle_async` sends no CORS headers and the
response has no content, or the request is not `HEAD` and `dispatch_one_request` sends
none either; a result without JSON must at least find its origin without headers, or
without UTF-8. -/
theorem completions_agree_iff {caches : Caches} {value : PyObj F O}
    (hresult : request.result = .json value) (hvalue : value.IsContainer)
    (hfresh : caches.Fresh runtime config request) :
    CompletionsAgree python runtime config middleware caches request value ↔
      writeJson runtime 0 value = none ∧ Text.ofUtf8 request.origin = none ∨
        request.Quiet python middleware ∧
          (writeJson runtime 0 value = none ∨ request.status = 204 ∨ request.status = 304 ∨
            request.isHead = false ∧ corsHeaders (request.cors config) = []) := by
  have hinline := dispatchResult_json _ hresult hfresh
  simp only [CompletionsAgree, hinline]
  constructor
  · intro hagree
    cases horigin : Text.ofUtf8 request.origin with
    | none =>
      left
      have hsame := (hagree none).1
      simp only [Request.suspended, horigin] at hsame
      refine ⟨?_, rfl⟩
      by_contra hwrite
      obtain ⟨body, hbody⟩ := ne_none_iff_exists'.mp hwrite
      simp [buildJsonResponseBytes, hbody] at hsame
    | some origin =>
      right
      have hquiet : getCorsHeadersForOrigin python middleware origin = some [] := by
        by_contra hheaders
        obtain ⟨exceptionResponse, hne⟩ :=
          exists_suspended_ne _ _ _ _ horigin hheaders rfl
        exact hne (hagree _).1
      refine ⟨⟨origin, horigin, hquiet⟩, ?_⟩
      cases hwrite : writeJson runtime 0 value with
      | none => exact .inl rfl
      | some body =>
        right
        have hsame := (hagree none).1
        simp only [Request.suspended, horigin, handleAsync, hquiet] at hsame
        exact (serializeJson_eq_inline_iff _ hvalue hwrite _ _ _ _).mp hsame
  · intro hcase exceptionResponse
    have hnone (hwrite : writeJson runtime 0 value = none) :
        buildJsonResponseBytes request.status request.keepAlive request.isHead
          (request.cors config) runtime value = none := by
      simp [buildJsonResponseBytes, hwrite]
    rcases hcase with ⟨hwrite, horigin⟩ | ⟨⟨origin, horigin, hquiet⟩, hcase⟩
    · simp [Request.suspended, horigin, hnone hwrite]
    · have hsuspended : request.suspended python runtime middleware value exceptionResponse =
          serializeJsonAndWriteResponse request.status request.keepAlive false none runtime
            value := by
        simp [Request.suspended, horigin, handleAsync, hquiet]
      rw [hsuspended]
      cases hwrite : writeJson runtime 0 value with
      | none => simp [hnone hwrite, serializeJsonAndWriteResponse, hwrite]
      | some body =>
        have hcase := hcase.resolve_left (by simp [hwrite])
        have hsame := (serializeJson_eq_inline_iff _ hvalue hwrite _ request.keepAlive
          _ _).mpr hcase
        refine ⟨hsame, ?_⟩
        intro hhead bytes hbytes
        have hbody : request.status = 204 ∨ request.status = 304 := by
          rcases hcase with hstatus | hstatus | ⟨hnotHead, -⟩
          · exact .inl hstatus
          · exact .inr hstatus
          · rw [hhead] at hnotHead
            cases hnotHead
        rw [hsame, or_self, serializeJson_bodiless_eq _ hbody, hwrite, map_some,
          Option.some.injEq] at hbytes
        rw [← hbytes]
        exact (emptyLine_connectionSuffix _).trans (suffix_append _ _)

end Agreement

/-- Nothing is converted, and no pattern matches. -/
def plainPython : PythonRuntime Empty Empty where
  strip := id
  lower := id
  fullmatch _ _ := some false
  encodeToJsonBytes := writeJson plainRuntime 0

/-- A `GET` without an origin. -/
theorem completions_agree_field :
    CompletionsAgree plainPython plainRuntime none none {} (fieldRequest 7)
      (.dict [(.str (ascii "n"), .int 7)]) :=
  (completions_agree_iff _ _ _ _ rfl
      (show PyObj.IsContainer (.dict [(.str (ascii "n"), .int 7)]) from trivial)
      (by
        intro items key cached _ _ hcached
        simp [cacheLookup] at hcached)).mpr
    (.inr ⟨⟨[], rfl, rfl⟩, .inr (.inr (.inr ⟨rfl, rfl⟩))⟩)

/-- The suspended path writes the body of a response to `HEAD`. -/
theorem completions_differ_head : ¬ ∀ request : Request Empty Empty,
    request.result = .json (.dict [(.str (ascii "n"), .int 7)]) →
    CompletionsAgree plainPython plainRuntime none none {} request
      (.dict [(.str (ascii "n"), .int 7)]) := by
  intro hall
  have hagree := (hall { fieldRequest 7 with isHead := true } rfl none).1
  revert hagree
  decide +kernel

end AstraApi.Response
