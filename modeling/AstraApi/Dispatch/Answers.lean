import AstraApi.Dispatch.Counter
import AstraApi.Response.Completion

/-!
# One response for each request

Which requests that `dispatch_one_request` reports as handled were answered.
Several ways through the dispatcher drop a response that cannot be built, and
report the request as handled all the same.
-/

namespace AstraApi.Dispatch

open Option hiding or_self
open List
open AstraApi.Http (ParsedHttpRequest Llhttp lf)
open AstraApi.Response
open AstraApi.Server (Handler Raw)
open Message (emptyLine)

/-! ## Responses -/

/-- A status line, and a header section that ends. -/
structure IsResponse (data : Bytes) : Prop where
  starts : ascii "HTTP/1.1 " <+: data
  ends : emptyLine <:+: data

/-- Exactly one response is written. -/
def OneResponse (effects : List Effect) : Prop :=
  ∃ response, Effect.writes effects = [response] ∧ IsResponse response

section Builders

theorem IsResponse.append {data : Bytes} (hdata : IsResponse data) (rest : Bytes) :
    IsResponse (data ++ rest) where
  starts := prefix_append_of_prefix hdata.starts
  ends := infix_append_of_infix_left hdata.ends

/-- A status line, anything, and the last header line. -/
theorem isResponse_of {start ending : Bytes} (hstart : ascii "HTTP/1.1 " <+: start)
    (hending : emptyLine <:+: ending) (middle : Bytes) : IsResponse (start ++ (middle ++ ending)) where
  starts := prefix_append_of_prefix hstart
  ends := infix_append_of_infix_right (infix_append_of_infix_right hending)

theorem statusText_starts (status : ℤ) (reason : String) :
    ascii "HTTP/1.1 " <+: statusText status reason := by
  exact prefix_append _ _

theorem statusLine_starts (status : ℤ) : ascii "HTTP/1.1 " <+: statusLine status := by
  rw [statusLine_eq]
  exact statusText_starts _ _

theorem cachedStatusLine_starts {status : ℤ} {prepared : Bytes}
    (hcached : cachedStatusLine status = some prepared) : ascii "HTTP/1.1 " <+: prepared := by
  obtain ⟨reason, -, rfl⟩ := map_eq_some_iff.mp hcached
  exact statusText_starts _ _

theorem connectionSuffix_ends (keepAlive : Bool) : emptyLine <:+: connectionSuffix keepAlive :=
  (emptyLine_connectionSuffix _).isInfix

variable (status : ℤ) (keepAlive headOnly : Bool) (cors : Option (CorsConfig × Bytes))
  (body : Bytes)

theorem isResponse_fast {prepared : Bytes} (hcached : cachedStatusLine status = some prepared) :
    IsResponse (buildFastJsonResponse keepAlive headOnly prepared body) := by
  apply IsResponse.append
  simp only [append_assoc prepared]
  exact isResponse_of (cachedStatusLine_starts hcached) (connectionSuffix_ends _) _

theorem isResponse_http (encoding : Option ContentEncoding) (extraHeaders : Option Bytes) :
    IsResponse (buildHttpResponse status keepAlive headOnly cors encoding extraHeaders body) := by
  simp only [buildHttpResponse]
  split
  · simp only [append_assoc (statusText _ _)]
    exact isResponse_of (statusText_starts _ _) (connectionSuffix_ends _) _
  · split
    · rename_i prepared hcached
      exact isResponse_fast _ _ _ _ hcached
    · apply IsResponse.append
      simp only [append_assoc (statusLine _)]
      exact isResponse_of (statusLine_starts _) (connectionSuffix_ends _) _

theorem isResponse_write (encoding : Option ContentEncoding) :
    IsResponse (buildAndWriteHttpResponse status keepAlive headOnly cors encoding body) := by
  simp only [buildAndWriteHttpResponse]
  split
  · rename_i prepared hcached
    exact isResponse_fast _ _ _ _ hcached
  · exact isResponse_http _ _ _ _ _ _ _

theorem isResponse_error (message : Bytes) (extraHeaders : Option Bytes) :
    IsResponse (buildHttpErrorResponse status message keepAlive cors extraHeaders) :=
  isResponse_http _ _ _ _ _ _ _

theorem isResponse_object (object : ResponseObject) :
    IsResponse (buildObjectResponse object keepAlive headOnly cors) := by
  apply IsResponse.append
  simp only [append_assoc (statusLine _)]
  exact isResponse_of (statusLine_starts _) (connectionSuffix_ends _) _

theorem isResponse_bytes : IsResponse (buildHttpResponseBytes status keepAlive headOnly cors body) := by
  rw [← buildHttpResponse_plain]
  exact isResponse_http _ _ _ _ _ _ _

variable {F P : Type*} (runtime : Runtime F P) (value : PyObj F P)

theorem isResponse_json {response : Bytes}
    (h : buildJsonResponseBytes status keepAlive headOnly cors runtime value = some response) :
    IsResponse response := by
  obtain ⟨body, -, rfl⟩ := map_eq_some_iff.mp h
  split
  · have hresponse := isResponse_of (statusText_starts status (statusReason status))
      (connectionSuffix_ends keepAlive) []
    rwa [nil_append] at hresponse
  · split
    · rename_i prepared hcached
      exact isResponse_fast _ _ _ _ hcached
    · exact isResponse_bytes _ _ _ _ _

theorem isResponse_serialized {response : Bytes}
    (h : serializeJsonAndWriteResponse status keepAlive headOnly cors runtime value =
      some response) : IsResponse response := by
  simp only [serializeJsonAndWriteResponse] at h
  split at h
  · cases h
  · split at h
    · cases h
      have hresponse := isResponse_of (statusText_starts status (statusReason status))
        (connectionSuffix_ends keepAlive) []
      rwa [nil_append] at hresponse
    · split at h
      · rename_i prepared hcached
        cases h
        exact isResponse_fast _ _ _ _ hcached
      · cases h
        exact isResponse_http _ _ _ _ _ _ _

theorem isResponse_preflight {cors : CorsConfig × PreflightConfig}
    {origin requestHeaders response : Bytes}
    (h : buildCorsPreflightResponse cors origin keepAlive requestHeaders = some response) :
    IsResponse response := by
  simp only [buildCorsPreflightResponse] at h
  split at h
  · cases h
  · cases h
    have hstart : ascii "HTTP/1.1 " <+:
        ascii "HTTP/1.1 200 OK\r\naccess-control-allow-origin: " := by decide
    have hkeep :
        ascii "\r\ncontent-length: 2\r\ncontent-type: text/plain\r\nconnection: keep-alive\r\n\r\nOK" =
          ascii "\r\ncontent-length: 2\r\ncontent-type: text/plain\r\nconnection: keep-alive" ++
            emptyLine ++ ascii "OK" := by decide
    have hclose :
        ascii "\r\ncontent-length: 2\r\ncontent-type: text/plain\r\nconnection: close\r\n\r\nOK" =
          ascii "\r\ncontent-length: 2\r\ncontent-type: text/plain\r\nconnection: close" ++
            emptyLine ++ ascii "OK" := by decide
    apply isResponse_of hstart
    rw [hkeep, hclose]
    cases keepAlive
    · exact infix_append _ _ _
    · exact infix_append _ _ _

theorem isResponse_static (contentType text : Bytes) :
    IsResponse (buildStaticResponse contentType text) := by
  have hending : emptyLine <:+: ascii "\r\nconnection: keep-alive\r\n\r\n" := by decide
  apply IsResponse.append
  simp only [append_assoc (statusLine 200)]
  exact isResponse_of (statusLine_starts 200) hending _

theorem isResponse_slashRedirect (request : ParsedHttpRequest) (path : Bytes) :
    IsResponse (slashRedirectResponse request path) := by
  have hstart : ascii "HTTP/1.1 " <+:
      ascii "HTTP/1.1 307 Temporary Redirect\r\nlocation: " := by decide
  have hending : emptyLine <:+: ascii "\r\ncontent-length: 0\r\nconnection: keep-alive\r\n\r\n" := by
    decide
  exact isResponse_of hstart hending _

theorem isResponse_httpsRedirect (request : ParsedHttpRequest) (host : Bytes) :
    IsResponse (httpsRedirectResponse request host) := by
  have hstart : ascii "HTTP/1.1 " <+:
      ascii "HTTP/1.1 307 Temporary Redirect\r\nLocation: https://" := by decide
  have hending : emptyLine <:+: (if request.keepAlive then ascii "Connection: keep-alive\r\n"
      else ascii "Connection: close\r\n") ++ ascii "\r\n" := by
    cases request.keepAlive <;> decide
  have hresponse := isResponse_of hstart hending
    (host ++ withQuery request request.path ++ ascii "\r\nContent-Length: 0\r\n")
  simpa only [httpsRedirectResponse, append_assoc] using hresponse

theorem isResponse_rawError (line : String) :
    ∃ response, Reply.rawError line body = .write response ∧ IsResponse response := by
  refine ⟨_, rfl, ?_⟩
  have hending : emptyLine <:+: ascii "\r\n\r\n" := by decide
  apply IsResponse.append
  exact isResponse_of (prefix_refl _) hending _

end Builders

/-! ## Who is answered -/

/-- A handler returned an object whose body is bytes. -/
def HandlerAnswers (result : Option HandlerResult) : Prop :=
  (result.bind HandlerResult.body).isSome

section Answered

variable {F P O X : Type*} (runtime : Runtime F P) (handlers : ExceptionHandlers F P)
variable (app : CoreApp O X) (route : RouteEntry) (caches : Caches) (request : ParsedHttpRequest)

def Serialises (errors : PyObj F P) : Prop :=
  (writeJson runtime 0 (.dict [(.str (ascii "detail"), errors)])).isSome

def CoreApp.resultRequest (result : Result F P) : Response.Request F P where
  result := result
  status := route.statusCode
  keepAlive := request.keepAlive
  isHead := request.isHead
  origin := (app.noted request).origin

/-- A dictionary of the same content hash was answered before. -/
def CoreApp.Cached (value : PyObj F P) : Prop :=
  ∃ items key, value = .dict items ∧
    (app.resultRequest route request (.json value)).dictKey runtime (app.cors.map Prod.fst) items =
      some key ∧ (cacheLookup caches.dict key).isSome

/-- The result has bytes for its body. -/
def Returned.Answered : Returned F P → Prop
  | .bytes _ | .stream | .file | .object _ => True
  | .str utf8 => utf8.isSome
  | .json value => (writeJson runtime 0 value).isSome ∨ app.Cached runtime route caches request value
  | .model text | .repr text => text.isSome
  | .fields items => (writeJson runtime 0 items).isSome

def HttpException.Answered (exc : Raised F P) (notInteger : ℤ) (http : HttpException) : Prop :=
  match Reply.statusHandler handlers (http.statusCode.value 500 notInteger) with
  | some handler => HandlerAnswers (handler exc)
  | none => True

def Raised.AnsweredAtCall (exc : Raised F P) : Prop :=
  match handlers.ofType.find? fun handler => handler.accepts exc with
  | some handler => HandlerAnswers (handler.call exc)
  | none =>
    match exc.http with
    | some http => http.Answered handlers exc 500
    | none => True

def EndpointCourse.Answered : EndpointCourse F P O X → Prop
  | .raised exc => exc.AnsweredAtCall handlers
  | .threw exc =>
    match exc.http with
    | some http => http.Answered handlers exc (-1)
    | none => True
  | .suspended _ => True
  | .returned value serialized =>
    if route.hasResponseModel then
      match shortcut value.returned, serialized with
      | some body, _ => body ≠ []
      | none, none => True
      | none, some value => value.returned.Answered runtime app route caches request
    else value.returned.Answered runtime app route caches request

def BodyCourse.Answered : BodyCourse F P O X → Prop
  | .missingField _ | .unfinished _ _ => True
  | .invalidModel errors exc =>
    match Reply.namedHandler handlers ["RequestValidationError"] with
    | some handler => HandlerAnswers (exc.bind handler.drive)
    | none => Serialises runtime errors
  | .invalidArgs errors exc =>
    match Reply.namedHandler handlers
        ["RequestValidationError", "ValidationException", "Exception"], exc with
    | some handler, some exc => HandlerAnswers (exc.bind handler.drive)
    | _, _ => Serialises runtime errors
  | .valid course => course.Answered runtime handlers app route caches request

def DependencyCourse.Answered : DependencyCourse F P O X → Prop
  | .solved course => course.Answered runtime handlers app route caches request
  | _ => True

def PayloadCourse.Answered : PayloadCourse F P O X → Prop
  | .notJson => IsUtf8 request.body
  | .parsed course => course.Answered runtime handlers app route caches request
  | _ => True

def Course.Answered : Course F P O X → Prop
  | .invalid errors => Serialises runtime errors
  | .valid payload =>
    0 < app.maxBodySize ∧ app.maxBodySize < request.body.length ∨
      payload.Answered runtime handlers app route caches request

def CoreApp.Answered (circumstances : Circumstances F P O X) : Prop :=
  match app.front request circumstances.limited with
  | .answered _ =>
    app.preflight request = some none →
      app.hostRefused request = true ∨ app.redirectsToHttps request = true
  | .page _ => True
  | .upgrade _ _ => True
  | .matched route _ _ => circumstances.course.Answered runtime handlers app route caches request

end Answered

/-! ## Effects -/

theorem oneResponse_last {data : Bytes} (hdata : IsResponse data) :
    OneResponse [.write data, .finished] := ⟨data, rfl, hdata⟩

theorem oneResponse_first {data : Bytes} (hdata : IsResponse data) :
    OneResponse [.finished, .write data] := ⟨data, rfl, hdata⟩

theorem not_oneResponse_finished : ¬ OneResponse [.finished] := by
  intro ⟨response, hwrites, _⟩
  cases hwrites

theorem oneResponse_option {response : Option Bytes}
    (hresponse : ∀ data, response = some data → IsResponse data) :
    OneResponse ((response.map Effect.write).toList ++ [.finished]) ↔ response.isSome := by
  cases response with
  | none => simpa using not_oneResponse_finished
  | some data =>
    have hone := oneResponse_last (hresponse _ rfl)
    simpa using hone

section Effects

variable {F P O X : Type*} (runtime : Runtime F P) (handlers : ExceptionHandlers F P) (reply : Reply)

theorem oneResponse_serialized (status : ℤ) (value : PyObj F P) :
    OneResponse (reply.serialized runtime status value ++ [.finished]) ↔
      (writeJson runtime 0 value).isSome := by
  simp only [Reply.serialized]
  cases writeJson runtime 0 value with
  | none => simpa using not_oneResponse_finished
  | some body =>
    have hone := oneResponse_last (isResponse_write status reply.keepAlive false reply.cors body none)
    simpa [Reply.content] using hone

theorem oneResponse_handled (absent other : ℤ) (result : Option HandlerResult) :
    OneResponse (reply.handled absent other result ++ [.finished]) ↔ HandlerAnswers result := by
  match result with
  | none => simpa [Reply.handled, HandlerAnswers] using not_oneResponse_finished
  | some ⟨statusCode, none⟩ =>
    simpa [Reply.handled, HandlerAnswers] using not_oneResponse_finished
  | some ⟨statusCode, some body⟩ =>
    have hone := oneResponse_last (isResponse_write (statusCode.value absent other) reply.keepAlive
      false reply.cors body none)
    simpa [Reply.handled, HandlerAnswers, Reply.content] using hone

theorem oneResponse_failure (status : ℤ) (message : String) :
    OneResponse [reply.failure status message, .finished] :=
  oneResponse_last (isResponse_error _ _ _ _ _)

theorem oneResponse_httpException (exc : Raised F P) (http : HttpException)
    (notInteger : ℤ → ℤ) :
    OneResponse ((reply.httpException handlers exc http notInteger).getD [reply.internalError] ++
      [.finished]) ↔ http.Answered handlers exc (notInteger 500) := by
  simp only [Reply.httpException, HttpException.Answered]
  cases Reply.statusHandler handlers (http.statusCode.value 500 (notInteger 500)) with
  | some handler => exact oneResponse_handled _ _ _ _
  | none =>
    simp only [iff_true]
    split
    · exact oneResponse_last (isResponse_error _ _ _ _ _)
    · exact oneResponse_failure _ _ _

theorem oneResponse_callRaised (exc : Raised F P) :
    OneResponse (reply.callRaised handlers exc ++ [.finished]) ↔ exc.AnsweredAtCall handlers := by
  simp only [Reply.callRaised, Raised.AnsweredAtCall]
  cases handlers.ofType.find? fun handler => handler.accepts exc with
  | some handler => exact oneResponse_handled _ _ _ _
  | none =>
    cases exc.http with
    | none =>
      simp only [iff_true]
      exact oneResponse_failure _ _ _
    | some http => exact oneResponse_httpException _ _ _ http _

theorem oneResponse_validationError (errors : Option (PyObj F P)) :
    OneResponse [reply.validationError runtime errors, .finished] := by
  simp only [Reply.validationError]
  split
  · rename_i response hresponse
    exact oneResponse_last (isResponse_serialized _ _ _ _ _ _ hresponse)
  · exact oneResponse_failure _ _ _

theorem oneResponse_driven (status : ℤ) (handler : Option (TypeHandler F P)) (exc : Raised F P)
    {effect : Effect} (hone : OneResponse [effect, .finished]) :
    OneResponse ((reply.driven status handler exc).getD [effect] ++ [.finished]) := by
  simp only [Reply.driven]
  split
  · exact oneResponse_last (isResponse_write _ _ _ _ _ _)
  · exact hone

theorem oneResponse_coroutineRaised (exc : Raised F P) :
    OneResponse (reply.coroutineRaised runtime handlers exc ++ [.finished]) ↔
      match exc.http with
      | some http => http.Answered handlers exc (-1)
      | none => True := by
  simp only [Reply.coroutineRaised]
  cases exc.http with
  | some http => exact oneResponse_httpException _ _ _ http fun _ => -1
  | none =>
    simp only [iff_true]
    split
    · exact oneResponse_driven _ _ _ _ (oneResponse_validationError _ _ _)
    · exact oneResponse_driven _ _ _ _ (oneResponse_failure _ _ _)

end Effects

/-! ## The caches -/

structure HoldsResponses (caches : Caches) : Prop where
  dict : ∀ slot data, (caches.dict slot).response = some data → IsResponse data
  response : ∀ slot data, (caches.response slot).response = some data → IsResponse data

theorem holdsResponses_empty : HoldsResponses {} where
  dict _ _ h := by cases h
  response _ _ h := by cases h

theorem isResponse_lookup {cache : ResponseCache} {key : UInt64} {data : Bytes}
    (hcache : ∀ slot data, (cache slot).response = some data → IsResponse data)
    (h : cacheLookup cache key = some data) : IsResponse data := by
  simp only [cacheLookup] at h
  split at h
  · exact hcache _ _ h
  · cases h

theorem isResponse_store {cache : ResponseCache} {key : UInt64} {response : Bytes}
    (hcache : ∀ slot data, (cache slot).response = some data → IsResponse data)
    (hresponse : IsResponse response) (slot : Fin 8) (data : Bytes)
    (h : (cacheStore cache key response slot).response = some data) : IsResponse data := by
  simp only [cacheStore, Function.update_apply] at h
  split at h
  · cases h
    exact hresponse
  · exact hcache _ _ h

section Caches

variable {F P : Type*} (runtime : Runtime F P) (config : Option CorsConfig) {caches : Caches}

theorem dispatchResult_json_answers (hcaches : HoldsResponses caches)
    (request : Response.Request F P) {value : PyObj F P} (hresult : request.result = .json value) :
    let outcome := dispatchResult runtime config caches request
    (∀ data, outcome.1.1 = some data → IsResponse data) ∧ HoldsResponses outcome.2 ∧
      (outcome.1.1.isSome ↔ (writeJson runtime 0 value).isSome ∨
        ∃ items key, value = .dict items ∧ request.dictKey runtime config items = some key ∧
          (cacheLookup caches.dict key).isSome) := by
  simp only [dispatchResult, hresult]
  split
  · rename_i cached hcached
    obtain ⟨key, hkey, hlookup⟩ := bind_eq_some_iff.mp hcached
    refine ⟨?_, hcaches, ?_⟩
    · intro data hdata
      cases hdata
      exact isResponse_lookup hcaches.dict hlookup
    · split at hkey
      · have hhit : (cacheLookup caches.dict key).isSome := by rw [hlookup, isSome_some]
        simp only [isSome_some, true_iff]
        exact Or.inr ⟨_, key, rfl, hkey, hhit⟩
      · cases hkey
  · rename_i hmissed
    have hnot : ¬ ∃ items key, value = .dict items ∧
        request.dictKey runtime config items = some key ∧ (cacheLookup caches.dict key).isSome := by
      intro ⟨items, key, hvalue, hkey, hhit⟩
      subst hvalue
      simp only [hkey, bind_some] at hmissed
      rw [hmissed] at hhit
      cases hhit
    simp only [hnot, or_false]
    cases hbuild : buildJsonResponseBytes request.status request.keepAlive request.isHead
        (request.cors config) runtime value with
    | none =>
      have hnone := map_eq_none_iff.mp hbuild
      refine ⟨?_, hcaches, ?_⟩
      · intro data hdata
        cases hdata
      · simp [hnone]
    | some response =>
      have hsome : (writeJson runtime 0 value).isSome := by
        rw [← isSome_map, ← buildJsonResponseBytes, hbuild, isSome_some]
      have hresponse := isResponse_json _ _ _ _ _ _ hbuild
      dsimp only
      split
      · refine ⟨?_, hcaches, ?_⟩
        · intro data hdata
          cases hdata
          exact hresponse
        · simp [hsome]
      · refine ⟨?_, ⟨isResponse_store hcaches.dict hresponse, hcaches.response⟩, ?_⟩
        · intro data hdata
          cases hdata
          exact hresponse
        · simp [hsome]

theorem dispatchResult_object_answers (hcaches : HoldsResponses caches)
    (request : Response.Request F P) {object : ResponseObject}
    (hresult : request.result = .object object) :
    let outcome := dispatchResult runtime config caches request
    (∀ data, outcome.1.1 = some data → IsResponse data) ∧ HoldsResponses outcome.2 ∧
      outcome.1.1.isSome := by
  simp only [dispatchResult, hresult]
  split
  · rename_i cached hcached
    refine ⟨?_, hcaches, rfl⟩
    intro data hdata
    cases hdata
    exact isResponse_lookup hcaches.response hcached
  · have hresponse := isResponse_object request.keepAlive request.isHead (request.cors config) object
    refine ⟨?_, ⟨hcaches.dict, ?_⟩, rfl⟩
    · intro data hdata
      cases hdata
      exact hresponse
    · exact isResponse_store hcaches.response hresponse

end Caches

/-! ## The courses -/

/-- A call that is reported as handled has written one response exactly when this holds,
and the caches hold responses after it. -/
structure Served.Answers {O X : Type*} (served : Served O X) (answered : Prop) : Prop where
  one : ∀ consumed, served.ending = .returned (.handled consumed) →
    (OneResponse served.effects ↔ answered)
  caches : HoldsResponses served.caches

section Courses

variable {F P O X : Type*} (runtime : Runtime F P) (handlers : ExceptionHandlers F P)
variable (app : CoreApp O X) (route : RouteEntry) (reply : Reply) (exceptionSet : Bool)
variable {caches : Caches} (hcaches : HoldsResponses caches)

include hcaches

theorem done_answers {effects : List Effect} {answered : Prop}
    (hone : OneResponse effects ↔ answered) :
    (reply.done (O := O) (X := X) caches effects).Answers answered where
  one _ _ := hone
  caches := hcaches

theorem handOver_answers (texts : List Bytes) (handover : Handover O X) (effects : List Effect)
    (answered : Prop) :
    ({ reply.handOver exceptionSet caches texts handover with
      effects := effects } : Served O X).Answers answered where
  one _ hhandled := by cases hhandled
  caches := hcaches

theorem option_answers {response : Option Bytes} {answered : Prop}
    (hresponse : ∀ data, response = some data → IsResponse data)
    (hanswered : response.isSome ↔ answered) :
    (reply.done (O := O) (X := X) caches
      ((response.map Effect.write).toList ++ [.finished])).Answers answered :=
  done_answers _ hcaches ((oneResponse_option hresponse).trans hanswered)

theorem plainResult_answers (request : ParsedHttpRequest) (value : EndpointValue F P O X) :
    (plainResult runtime app route (app.reply request) exceptionSet caches request.path
      value).Answers (value.returned.Answered runtime app route caches request) := by
  have hbytes : ∀ data, (reply : Reply) → OneResponse ([reply.bytes route.statusCode data] ++
      [.finished]) := fun data reply => oneResponse_last (isResponse_http _ _ _ _ _ _ _)
  simp only [plainResult]
  cases hmiddleware : app.hasHttpMiddleware with
  | true =>
    cases value.returned with
    | bytes data =>
      apply done_answers _ hcaches
      simpa only [Returned.Answered, iff_true] using hbytes _ _
    | _ => exact handOver_answers _ _ hcaches _ _ _ _
  | false =>
    cases value.returned with
    | bytes data =>
      apply done_answers _ hcaches
      simpa only [Returned.Answered, iff_true] using hbytes _ _
    | str utf8 =>
      cases utf8 with
      | none =>
        apply done_answers _ hcaches
        simpa [Returned.Answered] using not_oneResponse_finished
      | some utf8 =>
        obtain ⟨hresponse, hheld, hsome⟩ := dispatchResult_json_answers _
          _ hcaches
          (app.resultRequest _ _ (.json (.str utf8))) rfl
        have htext : (writeJson runtime 0 (.str utf8)).isSome := by simp [writeJson]
        have hanswered := hsome.trans (iff_of_true (Or.inl htext) (isSome_some (a := utf8)))
        exact option_answers _ hheld hresponse hanswered
    | json value =>
      obtain ⟨hresponse, hheld, hsome⟩ := dispatchResult_json_answers _
        _ hcaches (app.resultRequest _ _ (.json value)) rfl
      exact option_answers _ hheld hresponse hsome
    | stream | file => exact handOver_answers _ _ hcaches _ _ _ _
    | object response =>
      obtain ⟨hresponse, hheld, hsome⟩ := dispatchResult_object_answers _
        _ hcaches
        (app.resultRequest _ _ (.object response)) rfl
      exact option_answers _ hheld hresponse (iff_of_true hsome trivial)
    | model text =>
      cases text with
      | none =>
        apply done_answers _ hcaches
        simpa [Returned.Answered] using not_oneResponse_finished
      | some body =>
        apply done_answers _ hcaches
        have hone := oneResponse_last (isResponse_write route.statusCode
          (app.reply request).keepAlive (app.reply request).isHead (app.reply request).cors
          body none)
        simpa [Returned.Answered, Reply.content] using hone
    | fields items =>
      exact done_answers _ hcaches (oneResponse_serialized _ _ _ _)
    | repr text =>
      cases text with
      | none =>
        apply done_answers _ hcaches
        simpa [Returned.Answered] using not_oneResponse_finished
      | some body =>
        apply done_answers _ hcaches
        have hone := oneResponse_last (isResponse_write route.statusCode
          (app.reply request).keepAlive false (app.reply request).cors body none)
        simpa [Returned.Answered, Reply.content] using hone

theorem endpointCourse_answers (request : ParsedHttpRequest) (course : EndpointCourse F P O X) :
    (endpointCourse runtime handlers app route (app.reply request) exceptionSet caches request.path
      course).Answers (course.Answered runtime handlers app route caches request) := by
  cases course with
  | raised exc => exact done_answers _ hcaches (oneResponse_callRaised _ _ _)
  | threw exc => exact done_answers _ hcaches (oneResponse_coroutineRaised _ _ _ _)
  | suspended coro => exact handOver_answers _ _ hcaches _ _ _ _
  | returned value serialized =>
    simp only [endpointCourse, EndpointCourse.Answered]
    split
    · cases shortcut value.returned with
      | some body =>
        apply done_answers _ hcaches
        split
        · rename_i hempty
          simpa [hempty] using not_oneResponse_finished
        · rename_i hbody
          have hone := oneResponse_last
            (isResponse_http route.statusCode (app.reply request).keepAlive
              (app.reply request).isHead (app.reply request).cors body none none)
          simpa [hbody, Reply.bytes] using hone
      | none =>
        cases serialized with
        | none =>
          apply done_answers _ hcaches
          simpa using oneResponse_failure _ _ _
        | some value => exact plainResult_answers _ _ _ _ hcaches _ _
    · exact plainResult_answers _ _ _ _ hcaches _ _

theorem bodyCourse_answers (request : ParsedHttpRequest) (course : BodyCourse F P O X) :
    (bodyCourse runtime handlers app route (app.reply request) exceptionSet caches request.path
      course).Answers (course.Answered runtime handlers app route caches request) := by
  have hinvalid : ∀ errors : PyObj F P, ((app.reply request).done (O := O) (X := X) caches
        ((app.reply request).invalid runtime errors ++ [.finished])).Answers
          (Serialises runtime errors) :=
    fun errors => done_answers _ hcaches (oneResponse_serialized _ _ _ _)
  cases course with
  | missingField name =>
    have hserialises : Serialises runtime (missingErrors (F := F) (P := P) name) := by
      simp [Serialises, missingErrors, writeJson, writePairs, writeElements]
    have hanswers := hinvalid (missingErrors name)
    rw [eq_true hserialises] at hanswers
    exact hanswers
  | invalidModel errors exc =>
    simp only [bodyCourse, BodyCourse.Answered]
    cases Reply.namedHandler handlers ["RequestValidationError"] with
    | some handler => exact done_answers _ hcaches (oneResponse_handled _ _ _ _)
    | none => exact hinvalid _
  | invalidArgs errors exc =>
    simp only [bodyCourse, BodyCourse.Answered]
    cases Reply.namedHandler handlers
        ["RequestValidationError", "ValidationException", "Exception"] with
    | none => exact hinvalid _
    | some handler =>
      cases exc with
      | none => exact hinvalid _
      | some exc => exact done_answers _ hcaches (oneResponse_handled _ _ _ _)
  | unfinished validate endpoint => exact handOver_answers _ _ hcaches _ _ _ _
  | valid course => exact endpointCourse_answers _ _ _ _ _ hcaches _ _

theorem dependencyCourse_answers (request : ParsedHttpRequest) (course : DependencyCourse F P O X) :
    (dependencyCourse runtime handlers app route (app.reply request) exceptionSet caches
      request.path course).Answers (course.Answered runtime handlers app route caches request) := by
  cases course with
  | suspended solve endpoint => exact handOver_answers _ _ hcaches _ _ _ _
  | raised exc =>
    apply done_answers _ hcaches
    simp only [DependencyCourse.Answered, iff_true, Reply.solverRaised]
    split
    · exact oneResponse_failure _ _ _
    · exact oneResponse_last (isResponse_error _ _ _ _ _)
  | invalid errors =>
    apply done_answers _ hcaches
    simp only [DependencyCourse.Answered, iff_true]
    split
    · exact oneResponse_first (isResponse_write _ _ _ _ _ _)
    · exact oneResponse_first (isResponse_error _ _ _ _ _)
  | solved course => exact bodyCourse_answers _ _ _ _ _ hcaches _ _

theorem payloadCourse_answers (request : ParsedHttpRequest) (course : PayloadCourse F P O X) :
    (payloadCourse runtime handlers app route (app.reply request) exceptionSet caches request
      course).Answers (course.Answered runtime handlers app route caches request) := by
  cases course with
  | oversizedPart =>
    apply done_answers _ hcaches
    simpa [PayloadCourse.Answered] using oneResponse_failure _ _ _
  | notJson =>
    have hserialises : Serialises runtime (notJsonErrors (F := F) (P := P) request.body) := by
      simp [Serialises, notJsonErrors, writeJson, writePairs, writeElements]
    apply done_answers _ hcaches
    simp only [PayloadCourse.Answered]
    split
    · rename_i hbody
      have hone := (oneResponse_serialized _ (app.reply request) 422 _).mpr hserialises
      simp only [hbody, iff_true]
      exact hone
    · rename_i hbody
      simpa [hbody] using not_oneResponse_finished
  | malformed message =>
    obtain ⟨response, hwrite, hresponse⟩ :=
      isResponse_rawError (jsonInvalid message) "422 Unprocessable Entity"
    apply done_answers _ hcaches
    simp only [PayloadCourse.Answered, iff_true, hwrite]
    exact oneResponse_first hresponse
  | loadsRaised message =>
    obtain ⟨response, hwrite, hresponse⟩ := isResponse_rawError
      ([0x7b] ++ ascii "\"detail\":\"" ++ message ++ ascii "\"" ++ [0x7d]) "400 Bad Request"
    apply done_answers _ hcaches
    simp only [PayloadCourse.Answered, iff_true, hwrite]
    exact oneResponse_first hresponse
  | parsed course => exact dependencyCourse_answers _ _ _ _ _ hcaches _ _

theorem course_answers (request : ParsedHttpRequest) (next : Course F P O X) :
    (course runtime handlers app route (app.reply request) exceptionSet caches request
      next).Answers (next.Answered runtime handlers app route caches request) := by
  cases next with
  | invalid errors => exact done_answers _ hcaches (oneResponse_serialized _ _ _ _)
  | valid payload =>
    simp only [course, Course.Answered]
    split
    · rename_i hlarge
      apply done_answers _ hcaches
      simpa [hlarge] using oneResponse_failure _ _ _
    · rename_i hsmall
      simp only [hsmall, false_or]
      exact payloadCourse_answers _ _ _ _ _ hcaches _ _

end Courses

/-! ## Calls -/

section Calls

variable {F P O X : Type*} (runtime : Runtime F P) (handlers : ExceptionHandlers F P)
variable (app : CoreApp O X) (request : ParsedHttpRequest)

theorem isResponse_missing (status : ℤ) (message : String) :
    IsResponse (app.missingResponse request status message) := by
  simp only [CoreApp.missingResponse]
  split
  · exact isResponse_error _ _ _ _ _
  · exact isResponse_error _ _ _ _ _

theorem routeFront_one {limited : Bool} {found : Routing.MatchParams} {effects : List Effect}
    (h : app.routeFront request limited found = .answered effects) : OneResponse effects := by
  simp only [CoreApp.routeFront] at h
  split at h
  · cases h
    exact oneResponse_first (isResponse_missing _ _ _ _)
  · split at h
    · cases h
      exact oneResponse_first (isResponse_missing _ _ _ _)
    · split at h
      · cases h
        exact oneResponse_first (isResponse_error _ _ _ _ _)
      · split at h
        · cases h
          exact oneResponse_first (isResponse_error _ _ _ _ _)
        · cases h

theorem routing_one {limited : Bool} {effects : List Effect}
    (h : app.routing request limited = .answered effects) : OneResponse effects := by
  simp only [CoreApp.routing] at h
  split at h
  · cases h
  · split at h
    · exact routeFront_one _ _ h
    · split at h
      · cases h
        exact oneResponse_first (isResponse_slashRedirect _ _)
      · cases h
        exact oneResponse_first (isResponse_missing _ _ _ _)

theorem answered_one {limited : Bool} {effects : List Effect}
    (hfront : app.front request limited = .answered effects) :
    OneResponse effects ↔ (app.preflight request = some none →
      app.hostRefused request = true ∨ app.redirectsToHttps request = true) := by
  simp only [CoreApp.front] at hfront
  split at hfront
  · rename_i hrefused
    cases hfront
    have hone := oneResponse_first (isResponse_error 400 request.keepAlive none
      (ascii "Invalid host header") none)
    exact iff_of_true hone fun _ => Or.inl hrefused
  · rename_i hhost
    split at hfront
    · rename_i hredirects
      cases hfront
      exact iff_of_true (oneResponse_last (isResponse_httpsRedirect _ _))
        fun _ => Or.inr hredirects
    · rename_i hhttps
      simp only [hhost, hhttps, or_self]
      split at hfront
      · rename_i response hpreflight
        cases hfront
        cases response with
        | none => simpa [hpreflight] using not_oneResponse_finished
        | some data =>
          have hdata : IsResponse data := by
            simp only [CoreApp.preflight] at hpreflight
            split at hpreflight
            · split at hpreflight
              · exact isResponse_preflight _ (Option.some.inj hpreflight)
              · cases hpreflight
            · cases hpreflight
          simpa [hpreflight] using oneResponse_first hdata
      · rename_i hpreflight
        split at hfront
        · cases hfront
        · simpa [hpreflight] using routing_one _ _ hfront

variable {caches : Caches} (hcaches : HoldsResponses caches)

include hcaches

theorem serve_answers (circumstances : Circumstances F P O X) :
    (serve runtime handlers app caches circumstances request).Answers
      (app.Answered runtime handlers caches request circumstances) := by
  cases hfront : app.front request circumstances.limited with
  | answered effects =>
    simp only [serve, CoreApp.Answered, hfront]
    exact done_answers _ hcaches (answered_one _ _ hfront)
  | page page =>
    simp only [serve, CoreApp.Answered, hfront, servePage]
    split
    · exact handOver_answers _ _ hcaches _ _ _ _
    · exact done_answers _ hcaches (iff_of_true (oneResponse_first (isResponse_static _ _)) trivial)
  | upgrade response endpoint =>
    simp only [serve, CoreApp.Answered, hfront]
    refine ⟨?_, hcaches⟩
    intro consumed hhandled
    split at hhandled <;> cases hhandled
  | matched route info params =>
    simp only [serve, CoreApp.Answered, hfront]
    split
    · refine ⟨?_, hcaches⟩
      intro consumed hhandled
      cases hhandled
    · refine ⟨?_, hcaches⟩
      intro consumed hhandled
      cases hhandled
    · exact course_answers _ _ _ _ _ hcaches _ _

variable (llhttp : Llhttp)

theorem dispatchOneRequest_caches (circumstances : Circumstances F P O X) (data : Bytes) :
    HoldsResponses
      (dispatchOneRequest runtime handlers app llhttp caches circumstances data).caches := by
  simp only [dispatchOneRequest]
  split
  · exact hcaches
  · exact hcaches
  · split
    · exact hcaches
    · exact (serve_answers _ _ _ _ hcaches _).caches

end Calls

/-! ## Runs -/

section Runs

open AstraApi.Server (Handler Raw)

variable {F P O X : Type*}

@[simp]
theorem caches_advance (service : Service O X) (call : ℕ) (closing : Bool)
    (task : Coroutine.Coro (Act O) (Server.Answer O) X Unit) :
    (service.advance call closing task).caches = service.caches := by
  simp only [Service.advance, Service.apply]
  split <;> rfl

variable (runtime : Runtime F P) (handlers : ExceptionHandlers F P) (app : CoreApp O X)
variable (llhttp : Llhttp) (isException : X → Bool) (respond : X → Handler O X (Option Bytes))
variable (middleware : Option (Raw O X → Handler O X (Raw O X)))

theorem caches_turn {service : Service O X} (hcaches : HoldsResponses service.caches)
    (event : ServiceEvent F P O X) :
    HoldsResponses (service.turn runtime handlers app llhttp isException respond middleware
      event).caches := by
  cases event with
  | request data circumstances closing =>
    have hserved := dispatchOneRequest_caches runtime handlers app hcaches llhttp circumstances data
    simp only [Service.turn, Service.receive]
    split
    · exact hserved
    · rw [caches_advance]
      exact hserved
  | resumed index answer closing =>
    simp only [Service.turn]
    split
    · exact hcaches
    · rw [caches_advance]
      exact hcaches

theorem caches_run (events : List (ServiceEvent F P O X)) :
    HoldsResponses (Service.run runtime handlers app llhttp isException respond middleware
      events).caches := by
  have hfold : ∀ (events : List (ServiceEvent F P O X)) (service : Service O X),
      HoldsResponses service.caches → HoldsResponses (events.foldl
        (Service.turn runtime handlers app llhttp isException respond middleware) service).caches := by
    intro events
    induction events with
    | nil => exact fun _ hcaches => hcaches
    | cons event events ih =>
      exact fun service hcaches =>
        ih _ (caches_turn _ _ _ _ _ _ _ hcaches _)
  exact hfold _ {} holdsResponses_empty

/-- `write_async_result` returns `True` in every case. -/
def writeAsyncResult (status : ℤ) (keepAlive : Bool) (value : PyObj F P) : List Effect :=
  ((serializeJsonAndWriteResponse status keepAlive false none runtime value).map Effect.write).toList

theorem oneResponse_writeAsyncResult (status : ℤ) (keepAlive : Bool) (value : PyObj F P) :
    OneResponse (writeAsyncResult runtime status keepAlive value) ↔
      (writeJson runtime 0 value).isSome := by
  have hserialized : (serializeJsonAndWriteResponse status keepAlive false none runtime
      value).isSome = (writeJson runtime 0 value).isSome := by
    simp only [serializeJsonAndWriteResponse]
    cases writeJson runtime 0 value with
    | none => rfl
    | some body =>
      simp only
      split
      · rfl
      · split <;> rfl
  rw [← hserialized, writeAsyncResult]
  cases hresponse : serializeJsonAndWriteResponse status keepAlive false none runtime value with
  | none =>
    simp only [isSome_none, Bool.false_eq_true, iff_false]
    rintro ⟨response, hwrites, _⟩
    cases hwrites
  | some response =>
    exact iff_of_true ⟨response, rfl, isResponse_serialized _ _ _ _ _ _ hresponse⟩ rfl

/-- In every state of the service, a request that is reported as handled was answered
once exactly when its response could be built, and so for `write_async_result`. -/
theorem answered_once_iff (events : List (ServiceEvent F P O X)) :
    let service := Service.run runtime handlers app llhttp isException respond middleware events
    (∀ data circumstances consumed,
      (dispatchOneRequest runtime handlers app llhttp service.caches circumstances data).ending =
          .returned (.handled consumed) →
        ∃ request, app.accepted llhttp data = some request ∧ (OneResponse
              (dispatchOneRequest runtime handlers app llhttp service.caches circumstances
                data).effects ↔
            app.Answered runtime handlers service.caches request circumstances)) ∧
      ∀ status keepAlive value, OneResponse (writeAsyncResult runtime status keepAlive value) ↔
        (writeJson runtime 0 value).isSome := by
  intro service
  have hcaches : HoldsResponses service.caches :=
    caches_run _ _ _ _ _ _ _ _
  refine ⟨?_, oneResponse_writeAsyncResult _⟩
  intro data circumstances consumed hhandled
  cases haccepted : app.accepted llhttp data with
  | none =>
    simp only [dispatchOneRequest] at hhandled
    simp only [CoreApp.accepted] at haccepted
    split at hhandled
    · cases hhandled
    · cases hhandled
    · rename_i request hparse
      simp only [hparse] at haccepted
      split at haccepted
      · rename_i hlarge
        simp only [hlarge, if_true] at hhandled
        cases hhandled
      · cases haccepted
  | some request =>
    have hanswers := serve_answers runtime handlers app request hcaches circumstances
    rw [dispatchOneRequest_accepted _ _ _ _ _ haccepted
      _] at hhandled ⊢
    exact ⟨request, rfl, hanswers.one _ hhandled⟩

end Runs

/-- Python with NaN for its only float. -/
def nanRuntime : Runtime Unit Empty where
  hashStr := fnv1aHashBytes
  hashBytes := fnv1aHashBytes
  hashFloat _ := 0
  floatText _ := none
  otherText _ := Empty.elim
  strOf _ := none

def returningNan : Served Empty Empty :=
  dispatchOneRequest nanRuntime {} (smallApp false) (fun _ => { errno := .ok }) {}
    { course := .valid (.parsed (.solved (.valid (.returned
        { returned := .json (.float ()), raw := { built := .json none } } none)))) }
    (ascii "GET / HTTP/1.1\r\n\r\n")

/-- NaN has no JSON text, so nothing is written, and the request is reported as handled. -/
theorem answered_never_nan :
    returningNan.ending = .returned (.handled 18) ∧ ¬ OneResponse returningNan.effects := by
  refine ⟨rfl, ?_⟩
  intro ⟨response, hwrites, _⟩
  cases hwrites

/-- The documentation page is answered. -/
theorem answered_once_page : OneResponse
    (dispatchOneRequest plainRuntime {} (smallApp false) (fun _ => { errno := .ok }) {} waiting
      (ascii "GET /docs HTTP/1.1\r\n\r\n")).effects := by
  have honce := (answered_once_iff plainRuntime {} (smallApp false) (fun _ => { errno := .ok })
    (fun _ => false) (fun _ => .ret none) none []).1 (ascii "GET /docs HTTP/1.1\r\n\r\n") waiting 22 rfl
  obtain ⟨request, haccepted, hone⟩ := honce
  have hanswered : ((smallApp false).accepted (fun _ => { errno := .ok })
      (ascii "GET /docs HTTP/1.1\r\n\r\n")).map (fun request =>
        (smallApp false).Answered plainRuntime {} {} request waiting) = some True := by rfl
  rw [haccepted, map_some, Option.some.injEq] at hanswered
  exact hone.mpr (hanswered ▸ trivial)

end AstraApi.Dispatch
