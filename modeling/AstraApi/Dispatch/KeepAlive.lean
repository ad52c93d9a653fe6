import AstraApi.Dispatch.Answers
import AstraApi.Server.Pipeline

/-!
# Closing connections

What becomes of a request whose connection should be closed.  The flag is a field of
the parsed request that most builders are given; the loops over the buffer and
`data_received` never see it, and close the transport for other reasons only.
-/

namespace AstraApi.Dispatch

open List Option
open AstraApi.Http (ParsedHttpRequest Llhttp parseStep)
open AstraApi.Response
open AstraApi.Server (Handler Raw transportEnvironment writesOf Pending)

variable {request : ParsedHttpRequest} {effects : List Effect}

/-! ## Responses that say so -/

/-- The header section ends with `connection: close`. -/
def SaysClose (data : Bytes) : Prop :=
  connectionSuffix false <:+: data ∨ ascii "\r\nConnection: close\r\n\r\n" <:+: data

def Closes (effects : List Effect) : Prop := ∀ data, Effect.write data ∈ effects → SaysClose data

section Builders

theorem saysClose_suffix (head body : Bytes) :
    SaysClose (head ++ connectionSuffix false ++ body) :=
  .inl (infix_append _ _ _)

theorem saysClose_last (head : Bytes) : SaysClose (head ++ connectionSuffix false) :=
  .inl (suffix_append _ _).isInfix

variable (status : ℤ) (headOnly : Bool) (cors : Option (CorsConfig × Bytes)) (body : Bytes)

theorem saysClose_http (encoding : Option ContentEncoding) (extraHeaders : Option Bytes) :
    SaysClose (buildHttpResponse status false headOnly cors encoding extraHeaders body) := by
  simp only [buildHttpResponse]
  split
  · exact saysClose_last _
  · split
    · exact saysClose_suffix _ _
    · exact saysClose_suffix _ _

theorem saysClose_write (encoding : Option ContentEncoding) :
    SaysClose (buildAndWriteHttpResponse status false headOnly cors encoding body) := by
  simp only [buildAndWriteHttpResponse]
  split
  · exact saysClose_suffix _ _
  · exact saysClose_http _ _ _ _ _ _

theorem saysClose_object (object : ResponseObject) :
    SaysClose (buildObjectResponse object false headOnly cors) :=
  saysClose_suffix _ _

variable {F P : Type*} (runtime : Runtime F P) (value : PyObj F P)

theorem saysClose_json {response : Bytes}
    (h : buildJsonResponseBytes status false headOnly cors runtime value = some response) :
    SaysClose response := by
  obtain ⟨body, -, rfl⟩ := map_eq_some_iff.mp h
  split
  · exact saysClose_last _
  · split
    · exact saysClose_suffix _ _
    · rw [← buildHttpResponse_plain]
      exact saysClose_http _ _ _ _ _ _

theorem saysClose_serialized {response : Bytes}
    (h : serializeJsonAndWriteResponse status false headOnly cors runtime value = some response) :
    SaysClose response := by
  simp only [serializeJsonAndWriteResponse] at h
  split at h
  · cases h
  · split at h
    · cases h
      exact saysClose_last _
    · split at h
      · cases h
        exact saysClose_suffix _ _
      · cases h
        exact saysClose_http _ _ _ _ _ _

theorem saysClose_preflight {cors : CorsConfig × PreflightConfig}
    {origin requestHeaders response : Bytes}
    (h : buildCorsPreflightResponse cors origin false requestHeaders = some response) :
    SaysClose response := by
  simp only [buildCorsPreflightResponse] at h
  split at h
  · cases h
  · cases h
    have hlast : connectionSuffix false <:+:
        ascii "\r\ncontent-length: 2\r\ncontent-type: text/plain\r\nconnection: close\r\n\r\nOK" := by
      decide
    exact .inl (infix_append_of_infix_right hlast)

theorem saysClose_httpsRedirect (hclose : request.keepAlive = false)
    (host : Bytes) : SaysClose (httpsRedirectResponse request host) := by
  have hlast : ascii "\r\nConnection: close\r\n\r\n" <:+:
      ascii "\r\nContent-Length: 0\r\n" ++ ascii "Connection: close\r\n" ++ ascii "\r\n" := by decide
  have hsays : ascii "\r\nConnection: close\r\n\r\n" <:+:
      (ascii "HTTP/1.1 307 Temporary Redirect\r\nLocation: https://" ++ host ++
        withQuery request request.path) ++
      (ascii "\r\nContent-Length: 0\r\n" ++ ascii "Connection: close\r\n" ++ ascii "\r\n") :=
    infix_append_of_infix_right hlast
  right
  simpa only [httpsRedirectResponse, hclose, Bool.false_eq_true, if_false, append_assoc] using hsays

end Builders

/-! ## Effects -/

theorem mem_writes {data : Bytes} :
    data ∈ Effect.writes effects ↔ .write data ∈ effects := by
  induction effects with
  | nil => simp [Effect.writes]
  | cons effect effects ih => cases effect <;> simp [Effect.writes, ih]

theorem closes_nil : Closes [] := fun _ hmem => by cases hmem

theorem closes_write {data : Bytes} (hdata : SaysClose data) : Closes [.write data] := by
  intro written hmem
  cases mem_singleton.mp hmem
  exact hdata

theorem closes_finished : Closes [.finished] := by
  intro data hmem
  cases mem_singleton.mp hmem

theorem Closes.append {first second : List Effect} (hfirst : Closes first) (hsecond : Closes second) :
    Closes (first ++ second) := by
  intro data hmem
  rcases mem_append.mp hmem with hmem | hmem
  · exact hfirst _ hmem
  · exact hsecond _ hmem

theorem Closes.last (h : Closes effects) : Closes (effects ++ [.finished]) :=
  h.append closes_finished

theorem Closes.first (h : Closes effects) : Closes (.finished :: effects) :=
  closes_finished.append h

theorem closes_option {response : Option Bytes}
    (hresponse : ∀ data, response = some data → SaysClose data) :
    Closes (response.map Effect.write).toList := by
  cases response with
  | none => exact closes_nil
  | some data => exact closes_write (hresponse _ rfl)

section Effects

variable {F P : Type*} (runtime : Runtime F P) (handlers : ExceptionHandlers F P)
variable {reply : Reply} (hclose : reply.keepAlive = false)

include hclose

theorem closes_error (status : ℤ) (message : Bytes) (extraHeaders : Option Bytes) :
    Closes [reply.error status message extraHeaders] := by
  apply closes_write
  rw [buildHttpErrorResponse, hclose]
  exact saysClose_http _ _ _ _ _ _

theorem closes_content (status : ℤ) (headOnly : Bool) (body : Bytes) :
    Closes [reply.content status headOnly body] := by
  apply closes_write
  rw [hclose]
  exact saysClose_write _ _ _ _ _

theorem closes_bytes (status : ℤ) (body : Bytes) : Closes [reply.bytes status body] := by
  apply closes_write
  rw [hclose]
  exact saysClose_http _ _ _ _ _ _

theorem closes_serialized (status : ℤ) (value : PyObj F P) :
    Closes (reply.serialized runtime status value) := by
  simp only [Reply.serialized]
  cases writeJson runtime 0 value with
  | none => exact closes_nil
  | some body => exact closes_content hclose _ _ _

theorem closes_handled (absent other : ℤ) (result : Option HandlerResult) :
    Closes (reply.handled absent other result) := by
  match result with
  | none => exact closes_nil
  | some ⟨_, none⟩ => exact closes_nil
  | some ⟨_, some _⟩ => exact closes_content hclose _ _ _

theorem closes_httpException (exc : Raised F P) (http : HttpException) (notInteger : ℤ → ℤ) :
    Closes ((reply.httpException handlers exc http notInteger).getD [reply.internalError]) := by
  simp only [Reply.httpException]
  split
  · exact closes_handled hclose _ _ _
  · split
    · exact closes_error hclose _ _ _
    · exact closes_error hclose _ _ _

theorem closes_callRaised (exc : Raised F P) : Closes (reply.callRaised handlers exc) := by
  simp only [Reply.callRaised]
  split
  · exact closes_handled hclose _ _ _
  · split
    · exact closes_error hclose _ _ _
    · exact closes_httpException _ hclose _ _ _

theorem closes_solverRaised (exc : Raised F P) : Closes [reply.solverRaised exc] := by
  simp only [Reply.solverRaised]
  split
  · exact closes_error hclose _ _ _
  · exact closes_error hclose _ _ _

theorem closes_driven (status : ℤ) (handler : Option (TypeHandler F P)) (exc : Raised F P)
    {effect : Effect} (heffect : Closes [effect]) :
    Closes ((reply.driven status handler exc).getD [effect]) := by
  simp only [Reply.driven]
  split
  · exact closes_content hclose _ _ _
  · exact heffect

theorem closes_validationError (errors : Option (PyObj F P)) :
    Closes [reply.validationError runtime errors] := by
  simp only [Reply.validationError]
  split
  · rename_i response hresponse
    rw [hclose] at hresponse
    exact closes_write (saysClose_serialized _ _ _ _ _ hresponse)
  · exact closes_error hclose _ _ _

theorem closes_coroutineRaised (exc : Raised F P) :
    Closes (reply.coroutineRaised runtime handlers exc) := by
  simp only [Reply.coroutineRaised]
  split
  · exact closes_httpException _ hclose _ _ _
  · split
    · exact closes_driven hclose _ _ _ (closes_validationError _ hclose _)
    · exact closes_driven hclose _ _ _ (closes_error hclose _ _ _)

end Effects

/-! ## Courses that keep the promise -/

section Courses

variable {F P O X : Type*} (runtime : Runtime F P) (handlers : ExceptionHandlers F P)
variable (isException : X → Bool) (respond : X → Handler O X (Option Bytes))
variable (middleware : Option (Raw O X → Handler O X (Raw O X))) (closing : Bool)
variable (app : CoreApp O X) (route : RouteEntry) (caches : Caches) (request : ParsedHttpRequest)

/-- What a task writes is built with its flag. -/
def Heeds (inner : Server.Inner O X) : Prop :=
  inner.keepAlive = false → ∀ data ∈ writesOf ((inner.handler isException respond middleware).send
    (transportEnvironment O X) closing).2.2, SaysClose data

/-- A task that is handed the flag, ends when it is created and builds what it writes with
the flag. -/
structure InnerCloses (inner : Server.Inner O X) : Prop where
  flag : inner.keepAlive = false
  ends : ∀ next, ((inner.handler isException respond middleware).send
    (transportEnvironment O X) closing).1 ≠ .yielded next
  heeds : Heeds isException respond middleware closing inner

/-- What the caches hold for the result says that the connection is closed; another
response may have the same key. -/
def HitCloses (result : Result F P) : Prop :=
  match result with
  | .json (.dict items) =>
    ∀ key cached, (app.resultRequest route request result).dictKey runtime
        (app.cors.map Prod.fst) items = some key →
      cacheLookup caches.dict key = some cached → SaysClose cached
  | .json _ => True
  | .object object =>
    ∀ cached, cacheLookup caches.response ((app.resultRequest route request result).objectKey
        (app.cors.map Prod.fst) object) = some cached → SaysClose cached

def ValueCloses (value : EndpointValue F P O X) : Prop :=
  match value.returned with
  | .bytes _ => True
  | returned =>
    if app.hasHttpMiddleware then
      InnerCloses isException respond middleware closing (.mw request.keepAlive value.raw)
    else
      match returned with
      | .bytes _ | .str none | .model _ | .fields _ | .repr _ => True
      | .str (some utf8) => HitCloses runtime app route caches request (.json (.str utf8))
      | .json value => HitCloses runtime app route caches request (.json value)
      | .stream | .file =>
        InnerCloses isException respond middleware closing (.stream request.keepAlive value.raw)
      | .object response => HitCloses runtime app route caches request (.object response)

def EndpointCourse.Closes : EndpointCourse F P O X → Prop
  | .raised _ | .threw _ => True
  | .suspended coro =>
    InnerCloses isException respond middleware closing (.async request.keepAlive coro)
  | .returned value serialized =>
    if route.hasResponseModel then
      match shortcut value.returned, serialized with
      | some _, _ | none, none => True
      | none, some value =>
        ValueCloses runtime isException respond middleware closing app route caches request value
    else ValueCloses runtime isException respond middleware closing app route caches request value

/-- An `InlineResult` does not carry the flag. -/
def BodyCourse.Closes : BodyCourse F P O X → Prop
  | .missingField _ | .invalidModel _ _ | .invalidArgs _ _ => True
  | .unfinished _ _ => False
  | .valid course =>
    course.Closes runtime isException respond middleware closing app route caches request

def DependencyCourse.Closes : DependencyCourse F P O X → Prop
  | .suspended solve endpoint =>
    InnerCloses isException respond middleware closing (.asyncDi request.keepAlive solve endpoint)
  | .raised _ | .invalid _ => True
  | .solved course =>
    course.Closes runtime isException respond middleware closing app route caches request

/-- The response to a malformed body has no `connection` header. -/
def PayloadCourse.Closes : PayloadCourse F P O X → Prop
  | .oversizedPart | .notJson => True
  | .malformed _ | .loadsRaised _ => False
  | .parsed course =>
    course.Closes runtime isException respond middleware closing app route caches request

def Course.Closes : Course F P O X → Prop
  | .invalid _ => True
  | .valid payload =>
    0 < app.maxBodySize ∧ app.maxBodySize < request.body.length ∨
      payload.Closes runtime isException respond middleware closing app route caches request

/-- The 404 and 405 that were prepared keep the connection. -/
def CoreApp.MissingCloses : Prop := ¬ (app.cachedRefs = true ∧ app.allowedCors request = none)

def CoreApp.RouteCloses (found : Routing.MatchParams) : Prop :=
  match app.routeAt found with
  | none => app.MissingCloses request
  | some (_, route) =>
    route.methodMask ≠ 0 ∧ route.methodMask &&& methodStrToBit request.method = 0 →
      app.MissingCloses request

/-- Neither a documentation page nor a WebSocket, and no redirect to the path with
another last slash. -/
def CoreApp.RoutingCloses : Prop :=
  app.pageOf request = none ∧
    ¬ (request.upgrade = true ∧ firstHeader request.headers "sec-websocket-key" ≠ []) ∧
    match app.router.at request.path with
    | some found => app.RouteCloses request found
    | none =>
      ((alternative request.path).filter fun path =>
        app.redirectSlashes && (app.router.at path).isSome) = none ∧ app.MissingCloses request

def CoreApp.Closes (circumstances : Circumstances F P O X) : Prop :=
  (app.hostRefused request = true ∨ app.redirectsToHttps request = true ∨
      (app.preflight request).isSome ∨ app.RoutingCloses request) ∧
    ∀ route info params, app.front request circumstances.limited = .matched route info params →
      circumstances.course.Closes runtime isException respond middleware closing app route caches
        request

/-- What a call writes says that the connection is closed, and so does its task; the
call takes the request off the buffer. -/
structure Served.Closes (served : Served O X) : Prop where
  effects : AstraApi.Dispatch.Closes served.effects
  task : ∀ inner, served.task = some inner →
    InnerCloses isException respond middleware closing inner
  ending : served.ending = .returned (.handled request.totalConsumed) ∨
    (∃ inner, served.ending = .returned (.pair request.totalConsumed (.task inner))) ∨
      served.ending = .null ∨ served.ending = .crashed

section Proofs

variable {runtime handlers isException respond middleware closing app route caches request}
variable (exceptionSet : Bool)

namespace Served.Closes

variable {served : Served O X}

theorem answered (h : served.Closes isException respond middleware closing request) :
    served.ending ≠ .returned .incomplete ∧ served.ending ≠ .returned .failed := by
  rcases h.ending with heq | ⟨inner, heq⟩ | heq | heq <;> rw [heq] <;> exact ⟨nofun, nofun⟩

theorem handled (h : served.Closes isException respond middleware closing request) {consumed : ℕ}
    (hending : served.ending = .returned (.handled consumed)) :
    consumed = request.totalConsumed := by
  rcases h.ending with heq | ⟨inner, heq⟩ | heq | heq
  · rw [hending] at heq
    cases heq
    rfl
  all_goals
    rw [hending] at heq
    cases heq

/-- What is handed over is a task. -/
theorem pair (h : served.Closes isException respond middleware closing request) {consumed : ℕ}
    {handover : Handover O X} (hending : served.ending = .returned (.pair consumed handover)) :
    consumed = request.totalConsumed ∧ ∃ inner, handover = .task inner := by
  rcases h.ending with heq | ⟨inner, heq⟩ | heq | heq
  · rw [hending] at heq
    cases heq
  · rw [hending] at heq
    cases heq
    exact ⟨rfl, inner, rfl⟩
  all_goals
    rw [hending] at heq
    cases heq

end Served.Closes

theorem done_closes (heffects : Closes effects) :
    ((app.reply request).done (O := O) (X := X) caches effects).Closes isException respond middleware closing request where
  effects := heffects
  task _ htask := by cases htask
  ending := .inl rfl

theorem handOver_closes (strings : List Bytes) {inner : Server.Inner O X}
    (hinner : InnerCloses isException respond middleware closing inner)
    (heffects : Closes effects) :
    ({ (app.reply request).handOver exceptionSet caches strings (.task inner) with
      effects := effects } : Served O X).Closes isException respond middleware closing request where
  effects := heffects
  task other htask := by
    have hif : (if exceptionSet || !decide (∀ bytes ∈ strings, IsUtf8 bytes) then none
        else some inner) = some other := htask
    split at hif
    · cases hif
    · cases hif
      exact hinner
  ending := .inr (.inl ⟨inner, rfl⟩)

theorem closes_dispatchResult (hclose : request.keepAlive = false) {result : Result F P}
    (hhit : HitCloses runtime app route caches request result) :
    ∀ data, (dispatchResult runtime (app.cors.map Prod.fst) caches
      (app.resultRequest route request result)).1.1 = some data → SaysClose data := by
  intro data hdata
  cases result with
  | json value =>
    simp only [dispatchResult, CoreApp.resultRequest] at hdata
    split at hdata
    · rename_i cached hcached
      cases hdata
      obtain ⟨key, hkey, hlookup⟩ := bind_eq_some_iff.mp hcached
      split at hkey
      · exact hhit _ _ hkey hlookup
      · cases hkey
    · split at hdata
      · cases hdata
      · rename_i response hbuild
        rw [hclose] at hbuild
        split at hdata
        · cases hdata
          exact saysClose_json _ _ _ _ _ hbuild
        · cases hdata
          exact saysClose_json _ _ _ _ _ hbuild
  | object object =>
    simp only [dispatchResult, CoreApp.resultRequest] at hdata
    split at hdata
    · rename_i cached hcached
      cases hdata
      exact hhit _ hcached
    · cases hdata
      rw [hclose]
      exact saysClose_object _ _ _

theorem plainResult_closes (hclose : request.keepAlive = false) {value : EndpointValue F P O X}
    (hvalue : ValueCloses runtime isException respond middleware closing app route caches request
      value) :
    (plainResult runtime app route (app.reply request) exceptionSet caches request.path
      value).Closes isException respond middleware closing request := by
  have hreply : (app.reply request).keepAlive = false := hclose
  have hcached : ∀ {result : Result F P}, HitCloses runtime app route caches request result →
      ∀ {caches' : Caches}, ((app.reply request).done (O := O) (X := X) caches'
        (((dispatchResult runtime (app.cors.map Prod.fst) caches
          (app.resultRequest route request result)).1.1.map Effect.write).toList ++
            [.finished])).Closes isException respond middleware closing request := fun hhit _ =>
    done_closes (closes_option (closes_dispatchResult hclose hhit)).last
  simp only [plainResult]
  simp only [ValueCloses] at hvalue
  cases hmiddleware : app.hasHttpMiddleware with
  | true =>
    simp only [hmiddleware, if_true] at hvalue ⊢
    cases hreturned : value.returned with
    | bytes data => exact done_closes (closes_bytes hreply _ _).last
    | _ =>
      rw [hreturned] at hvalue
      exact handOver_closes _ _ hvalue closes_nil
  | false =>
    simp only [hmiddleware, Bool.false_eq_true, if_false] at hvalue ⊢
    cases hreturned : value.returned with
    | bytes data => exact done_closes (closes_bytes hreply _ _).last
    | str utf8 =>
      rw [hreturned] at hvalue
      cases utf8 with
      | none => exact done_closes closes_finished
      | some utf8 => exact hcached hvalue
    | json value =>
      rw [hreturned] at hvalue
      exact hcached hvalue
    | stream | file =>
      rw [hreturned] at hvalue
      exact handOver_closes _ _ hvalue closes_nil
    | object response =>
      rw [hreturned] at hvalue
      exact hcached hvalue
    | model text =>
      cases text with
      | none => exact done_closes closes_finished
      | some body => exact done_closes (closes_content hreply _ _ _).last
    | fields items => exact done_closes (closes_serialized _ hreply _ _).last
    | repr text =>
      cases text with
      | none => exact done_closes closes_finished
      | some body => exact done_closes (closes_content hreply _ _ _).last

theorem endpointCourse_closes (hclose : request.keepAlive = false)
    {course : EndpointCourse F P O X}
    (hcourse : course.Closes runtime isException respond middleware closing app route caches request) :
    (endpointCourse runtime handlers app route (app.reply request) exceptionSet caches request.path
      course).Closes isException respond middleware closing request := by
  have hreply : (app.reply request).keepAlive = false := hclose
  cases course with
  | raised exc => exact done_closes (closes_callRaised _ hreply _).last
  | threw exc => exact done_closes (closes_coroutineRaised _ _ hreply _).last
  | suspended coro => exact handOver_closes _ _ hcourse closes_nil
  | returned value serialized =>
    simp only [endpointCourse]
    simp only [EndpointCourse.Closes] at hcourse
    split
    · rename_i hmodel
      simp only [hmodel, if_true] at hcourse
      cases hshortcut : shortcut value.returned with
      | some body =>
        apply done_closes
        split
        · exact closes_finished
        · exact (closes_bytes hreply _ _).last
      | none =>
        rw [hshortcut] at hcourse
        cases serialized with
        | none => exact done_closes (closes_error hreply _ _ _).last
        | some value => exact plainResult_closes _ hclose hcourse
    · rename_i hmodel
      simp only [hmodel] at hcourse
      exact plainResult_closes _ hclose hcourse

theorem bodyCourse_closes (hclose : request.keepAlive = false) {course : BodyCourse F P O X}
    (hcourse : course.Closes runtime isException respond middleware closing app route caches request) :
    (bodyCourse runtime handlers app route (app.reply request) exceptionSet caches request.path
      course).Closes isException respond middleware closing request := by
  have hreply : (app.reply request).keepAlive = false := hclose
  cases course with
  | missingField name => exact done_closes (closes_serialized _ hreply _ _).last
  | invalidModel errors exc | invalidArgs errors exc =>
    simp only [bodyCourse]
    split
    · exact done_closes (closes_handled hreply _ _ _).last
    · exact done_closes (closes_serialized _ hreply _ _).last
  | unfinished validate endpoint => exact False.elim hcourse
  | valid course => exact endpointCourse_closes _ hclose hcourse

theorem dependencyCourse_closes (hclose : request.keepAlive = false)
    {course : DependencyCourse F P O X}
    (hcourse : course.Closes runtime isException respond middleware closing app route caches request) :
    (dependencyCourse runtime handlers app route (app.reply request) exceptionSet caches
      request.path course).Closes isException respond middleware closing request := by
  have hreply : (app.reply request).keepAlive = false := hclose
  cases course with
  | suspended solve endpoint => exact handOver_closes _ _ hcourse closes_nil
  | raised exc => exact done_closes (closes_solverRaised hreply _).last
  | invalid errors =>
    apply done_closes
    apply Closes.first
    split
    · exact closes_content hreply _ _ _
    · exact closes_error hreply _ _ _
  | solved course => exact bodyCourse_closes _ hclose hcourse

theorem course_closes (hclose : request.keepAlive = false) {action : Course F P O X}
    (hcourse : action.Closes runtime isException respond middleware closing app route caches request) :
    (course runtime handlers app route (app.reply request) exceptionSet caches request
      action).Closes isException respond middleware closing request := by
  have hreply : (app.reply request).keepAlive = false := hclose
  cases action with
  | invalid errors => exact done_closes (closes_serialized _ hreply _ _).last
  | valid payload =>
    simp only [course]
    split
    · exact done_closes (closes_error hreply _ _ _).last
    · rename_i hsmall
      have hpayload := hcourse.resolve_left hsmall
      cases payload with
      | oversizedPart => exact done_closes (closes_error hreply _ _ _).last
      | notJson =>
        apply done_closes
        apply Closes.last
        split
        · exact closes_serialized _ hreply _ _
        · exact closes_nil
      | malformed message | loadsRaised message => exact hpayload.elim
      | parsed course => exact dependencyCourse_closes _ hclose hpayload

theorem closes_errorResponse (hclose : request.keepAlive = false) (status : ℤ) (message : String) :
    Closes [.write (app.errorResponse request status message)] := by
  apply closes_write
  rw [CoreApp.errorResponse, buildHttpErrorResponse, hclose]
  exact saysClose_http _ _ _ _ _ _

theorem closes_missingResponse (hclose : request.keepAlive = false)
    (hmissing : app.MissingCloses request) (status : ℤ) (message : String) :
    Closes [.write (app.missingResponse request status message)] := by
  rw [CoreApp.missingResponse, if_neg hmissing]
  exact closes_errorResponse hclose _ _

/-- A request is answered with a response that says so, or goes on to its route. -/
def Front.Closes : Front O X → Prop
  | .answered effects => AstraApi.Dispatch.Closes effects
  | .matched _ _ _ => True
  | .page _ => False
  | .upgrade _ _ => False

theorem routeFront_closes (hclose : request.keepAlive = false) (limited : Bool)
    {found : Routing.MatchParams} (hroute : app.RouteCloses request found) :
    (app.routeFront request limited found).Closes := by
  simp only [CoreApp.RouteCloses] at hroute
  simp only [CoreApp.routeFront]
  split
  · rename_i hnone
    rw [hnone] at hroute
    exact (closes_missingResponse hclose hroute _ _).first
  · rename_i index route hsome
    rw [hsome] at hroute
    split
    · rename_i hmask
      exact (closes_missingResponse hclose (hroute hmask) _ _).first
    · split
      · exact (closes_errorResponse hclose _ _).first
      · split
        · exact (closes_errorResponse hclose _ _).first
        · trivial

theorem front_closes (hclose : request.keepAlive = false) (limited : Bool)
    (hcloses : app.hostRefused request = true ∨ app.redirectsToHttps request = true ∨
      (app.preflight request).isSome ∨ app.RoutingCloses request) :
    (app.front request limited).Closes := by
  simp only [CoreApp.front]
  split
  · apply Closes.first
    apply closes_write
    rw [buildHttpErrorResponse, hclose]
    exact saysClose_http _ _ _ _ _ _
  · rename_i hhost
    split
    · exact (closes_write (saysClose_httpsRedirect hclose _)).last
    · rename_i hhttps
      have hrest := (hcloses.resolve_left hhost).resolve_left hhttps
      split
      · rename_i response hpreflight
        apply Closes.first
        apply closes_option
        intro data hdata
        simp only [CoreApp.preflight] at hpreflight
        split at hpreflight
        · split at hpreflight
          · rw [hclose] at hpreflight
            cases hpreflight
            exact saysClose_preflight hdata
          · cases hpreflight
        · cases hpreflight
      · rename_i hpreflight
        have hrouting := hrest.resolve_left (by simp [hpreflight])
        rw [hrouting.1]
        simp only [CoreApp.routing]
        rw [if_neg hrouting.2.1]
        have hroute := hrouting.2.2
        split
        · rename_i found hfound
          rw [hfound] at hroute
          exact routeFront_closes hclose _ hroute
        · rename_i hnone
          rw [hnone] at hroute
          rw [hroute.1]
          exact (closes_missingResponse hclose hroute.2 _ _).first

theorem serve_closes (hclose : request.keepAlive = false) {circumstances : Circumstances F P O X}
    (hcloses : app.Closes runtime isException respond middleware closing caches request circumstances) :
    (serve runtime handlers app caches circumstances request).Closes isException respond
      middleware closing request := by
  have hfront := front_closes hclose circumstances.limited hcloses.1
  have hfault : ∀ ending : Ending (Handover O X), ending = .null ∨ ending = .crashed →
      ({ effects := [], ending := ending, caches := caches } : Served O X).Closes isException
        respond middleware closing request := by
    intro ending hending
    constructor
    · exact closes_nil
    · intro inner htask
      rcases hending with rfl | rfl <;> cases htask
    · exact .inr (.inr hending)
  simp only [serve]
  cases hcase : app.front request circumstances.limited with
  | answered effects =>
    rw [hcase] at hfront
    exact done_closes hfront
  | page page =>
    rw [hcase] at hfront
    exact hfront.elim
  | upgrade response endpoint =>
    rw [hcase] at hfront
    exact hfront.elim
  | matched route info params =>
    simp only
    split
    · exact hfault _ (.inl rfl)
    · exact hfault _ (.inr rfl)
    · exact course_closes _ hclose (hcloses.2 route info params hcase)

end Proofs

end Courses

/-! ## The connection -/

/-- An HTTP connection: the buffer, the requests that were dispatched, and what was
written with the number of the request it answers. -/
structure HttpConnection (O X : Type*) where
  buffer : Bytes := []
  requests : List ParsedHttpRequest := []
  transport : List (ℕ × Bytes) := []
  pending : List (Pending O X) := []
  closing : Bool := false
  paused : Bool := false
  upgraded : Bool := false
  caches : Caches := {}

/-- What follows a round of the loops: more data is awaited, the next round, or
nothing. -/
inductive Verdict where
  | waits
  | goesOn
  | ends
  deriving DecidableEq

def Refused (llhttp : Llhttp) (data : Bytes) : Prop :=
  match parseStep llhttp data with
  | .needMore => False
  | .error => True
  | .request request => request.bodyTooLarge = true

namespace HttpConnection

section Connection

variable {F P O X : Type*} (runtime : Runtime F P) (handlers : ExceptionHandlers F P)
variable (isException : X → Bool) (respond : X → Handler O X (Option Bytes))
variable (middleware : Option (Raw O X → Handler O X (Raw O X)))
variable (app : CoreApp O X) (llhttp : Llhttp)

def record (conn : HttpConnection O X) (number : ℕ) (writes : List Bytes) : HttpConnection O X :=
  { conn with transport := conn.transport ++ writes.map fun data => (number, data) }

/-- Run a task up to its next suspension or its end. -/
def advance (conn : HttpConnection O X) (number : ℕ) (handler : Handler O X Unit) :
    HttpConnection O X :=
  let (step, _, events) := handler.send (transportEnvironment O X) conn.closing
  let conn := conn.record number (writesOf events)
  match step with
  | .yielded next => { conn with pending := conn.pending ++ [⟨number, next⟩] }
  | _ => conn

/-- A call of `dispatch_one_request` and what the loops make of its result; an
exception that leaves `data_received` closes the transport. -/
def dispatchNext (conn : HttpConnection O X) (circumstances : Circumstances F P O X) :
    Option (Verdict × HttpConnection O X) :=
  let served :=
    dispatchOneRequest runtime handlers app llhttp conn.caches circumstances conn.buffer
  let number := conn.requests.length
  let dispatched :=
    { conn.record number (Effect.writes served.effects) with
      requests := conn.requests ++ (app.accepted llhttp conn.buffer).toList
      caches := served.caches }
  match served.ending with
  | .returned .incomplete => some (.waits, conn)
  | .returned .failed => some (.ends, { dispatched with buffer := [], closing := true })
  | .returned (.handled consumed) =>
    some (.goesOn, { dispatched with buffer := conn.buffer.drop consumed })
  | .returned (.pair consumed handover) =>
    let dispatched := { dispatched with buffer := conn.buffer.drop consumed }
    if served.exceptionSet then some (.ends, { dispatched with closing := true })
    else
      match handover with
      | .task inner =>
        some (.goesOn, dispatched.advance number (inner.handler isException respond middleware))
      | .webSocket _ => some (.ends, { dispatched with upgraded := true })
  | .null | .crashed => none

variable (ok : HttpConnection O X → Circumstances F P O X → Prop)

/-- The rounds of one `data_received`; every call meets the condition `ok`. -/
inductive Drains : HttpConnection O X → HttpConnection O X → Prop
  | stop {conn conn' : HttpConnection O X} (circumstances : Circumstances F P O X)
      {verdict : Verdict} (hok : ok conn circumstances)
      (hnext : conn.dispatchNext runtime handlers isException respond middleware app llhttp
        circumstances = some (verdict, conn'))
      (hverdict : verdict ≠ .goesOn) : Drains conn conn'
  | round {conn conn₁ conn₂ : HttpConnection O X} (circumstances : Circumstances F P O X)
      (hok : ok conn circumstances)
      (hnext : conn.dispatchNext runtime handlers isException respond middleware app llhttp
        circumstances = some (.goesOn, conn₁))
      (hrest : Drains conn₁ conn₂) : Drains conn conn₂

/-- The states of a connection; every call meets the condition `ok`. -/
inductive Run : HttpConnection O X → Prop
  | start : Run {}
  | received {conn conn' : HttpConnection O X} (h : Run conn) (chunk : Bytes)
      (hopen : conn.closing = false) (hhttp : conn.upgraded = false)
      (hrunning : conn.paused = false)
      (hdrains : Drains runtime handlers isException respond middleware app llhttp ok
        { conn with buffer := conn.buffer ++ chunk } conn') : Run conn'
  | buffered {conn : HttpConnection O X} (h : Run conn) (chunk : Bytes)
      (hopen : conn.closing = false) (hhttp : conn.upgraded = false) :
      Run { conn with buffer := conn.buffer ++ chunk }
  /-- The buffer cannot take a chunk. -/
  | overflow {conn : HttpConnection O X} (h : Run conn) : Run { conn with closing := true }
  | paused {conn : HttpConnection O X} (h : Run conn) (paused : Bool) :
      Run { conn with paused := paused }
  /-- `_drain_buf` does not ask whether the transport is closing. -/
  | drainBuf {conn conn' : HttpConnection O X} (h : Run conn) (hbuffer : conn.buffer ≠ [])
      (hhttp : conn.upgraded = false)
      (hdrains : Drains runtime handlers isException respond middleware app llhttp ok conn conn') :
      Run conn'
  | resumed {conn : HttpConnection O X} (h : Run conn) {index : ℕ} {task : Pending O X}
      (htask : conn.pending[index]? = some task) (answer : Except X (Server.Answer O)) :
      Run ({ conn with pending := conn.pending.eraseIdx index }.advance task.request
        (task.resume answer))

/-- A request whose connection should be closed was the last one, its response says
so, and the transport is closed behind it. -/
def Honoured (conn : HttpConnection O X) : Prop :=
  ∀ number request, conn.requests[number]? = some request → request.keepAlive = false →
    (∀ data, (number, data) ∈ conn.transport → SaysClose data) ∧
      conn.requests.length = number + 1 ∧ conn.closing = true ∧
        ∀ task ∈ conn.pending, task.request ≠ number

/-- Only a request whose response is built from its flag, and behind which the parser
refuses the buffer, may ask for the connection to be closed. -/
def Meets (conn : HttpConnection O X) (circumstances : Circumstances F P O X) : Prop :=
  ∀ request, app.accepted llhttp conn.buffer = some request → request.keepAlive = false →
    app.Closes runtime isException respond middleware conn.closing conn.caches request
        circumstances ∧
      Refused llhttp (conn.buffer.drop request.totalConsumed)

end Connection

/-! ## What one call does -/

section Rounds

variable {F P O X : Type*} {runtime : Runtime F P} {handlers : ExceptionHandlers F P}
variable {isException : X → Bool} {respond : X → Handler O X (Option Bytes)}
variable {middleware : Option (Raw O X → Handler O X (Raw O X))}
variable {app : CoreApp O X} {llhttp : Llhttp}
variable {conn conn' : HttpConnection O X} {circumstances : Circumstances F P O X}

structure Takes (conn conn' : HttpConnection O X) (request : ParsedHttpRequest)
    (writes : List Bytes) (tasks : List (Pending O X)) : Prop where
  requests : conn'.requests = conn.requests ++ [request]
  transport : conn'.transport =
    conn.transport ++ writes.map fun data => (conn.requests.length, data)
  pending : conn'.pending = conn.pending ++ tasks
  numbers : ∀ task ∈ tasks, task.request = conn.requests.length

theorem refused_of_accepted {data : Bytes}
    (haccepted : app.accepted llhttp data = some request) : ¬ Refused llhttp data := by
  intro hrefused
  simp only [CoreApp.accepted] at haccepted
  simp only [Refused] at hrefused
  split at haccepted
  · rename_i parsed hparse
    rw [hparse] at hrefused
    rw [if_pos hrefused] at haccepted
    cases haccepted
  · cases haccepted

/-- Without a request the bytes are refused, or more of them are awaited. -/
theorem dispatchNext_none (hnone : app.accepted llhttp conn.buffer = none) :
    conn.dispatchNext runtime handlers isException respond middleware app llhttp circumstances =
        some (.waits, conn) ∧ ¬ Refused llhttp conn.buffer ∨
      Refused llhttp conn.buffer ∧ ∃ writes,
        conn.dispatchNext runtime handlers isException respond middleware app llhttp circumstances =
          some (.ends, { conn.record conn.requests.length writes with buffer := [], closing := true }) := by
  simp only [CoreApp.accepted] at hnone
  simp only [dispatchNext, dispatchOneRequest, Refused, CoreApp.accepted]
  cases hparse : parseStep llhttp conn.buffer with
  | needMore => exact .inl ⟨rfl, id⟩
  | error =>
    right
    refine ⟨trivial, ?_⟩
    simp only [toList_none, append_nil]
    exact ⟨_, rfl⟩
  | request request =>
    rw [hparse] at hnone
    simp only at hnone
    split at hnone
    · rename_i hlarge
      right
      refine ⟨hlarge, ?_⟩
      simp only [hlarge, if_true, toList_none, append_nil]
      exact ⟨_, rfl⟩
    · cases hnone

theorem advance_takes (conn : HttpConnection O X) (number : ℕ) (handler : Handler O X Unit) :
    let sent := handler.send (transportEnvironment O X) conn.closing
    ∃ writes tasks, conn.advance number handler =
        { conn.record number writes with pending := conn.pending ++ tasks } ∧
      writes = writesOf sent.2.2 ∧ (∀ task ∈ tasks, task.request = number) ∧
      ((∀ next, sent.1 ≠ .yielded next) → tasks = []) := by
  intro sent
  have hadvance : conn.advance number handler = match sent.1 with
      | .yielded next =>
        { conn.record number (writesOf sent.2.2) with
          pending := conn.pending ++ [⟨number, next⟩] }
      | _ => conn.record number (writesOf sent.2.2) := rfl
  rw [hadvance]
  cases hstep : sent.1 with
  | returned value | raised value => exact ⟨_, [], by simp [record], rfl, by simp, fun _ => rfl⟩
  | yielded next =>
    refine ⟨_, [⟨number, next⟩], rfl, rfl, ?_, fun hnot => absurd rfl (hnot _)⟩
    intro task hmem
    rw [mem_singleton.mp hmem]

theorem writes_started (effects : List Effect) :
    Effect.writes (.started :: effects) = Effect.writes effects := rfl

/-- A request is taken off the buffer, unless its call awaits more. -/
theorem dispatchNext_some {verdict : Verdict}
    (haccepted : app.accepted llhttp conn.buffer = some request)
    (hnext : conn.dispatchNext runtime handlers isException respond middleware app llhttp
      circumstances = some (verdict, conn')) :
    let closes := request.keepAlive = false ∧ app.Closes runtime isException respond middleware
      conn.closing conn.caches request circumstances
    (verdict = .waits ∧ conn' = conn ∧ ¬ closes) ∨
      ∃ writes tasks, Takes conn conn' request writes tasks ∧
        (verdict = .goesOn → conn'.closing = conn.closing) ∧
        (closes → (∀ data ∈ writes, SaysClose data) ∧ tasks = [] ∧
          conn'.buffer = conn.buffer.drop request.totalConsumed ∧
          (verdict = .goesOn ∨ conn'.closing = true)) := by
  intro closes
  have hserved := dispatchOneRequest_accepted runtime handlers _ conn.caches _ haccepted
    circumstances
  have hcloses : closes → (serve runtime handlers app conn.caches circumstances request).Closes
      isException respond middleware conn.closing request := fun h => serve_closes h.1 h.2
  simp only [dispatchNext, hserved, haccepted, toList_some, writes_started] at hnext
  generalize serve runtime handlers app conn.caches circumstances request = served
    at hnext hcloses
  have hwrites : closes → ∀ data ∈ Effect.writes served.effects, SaysClose data :=
    fun h data hmem => (hcloses h).effects data (mem_writes.mp hmem)
  cases hending : served.ending with
  | null | crashed => simp [hending] at hnext
  | returned outcome =>
    simp only [hending] at hnext
    cases outcome with
    | incomplete =>
      cases hnext
      exact .inl ⟨rfl, rfl, fun h => (hcloses h).answered.1 hending⟩
    | failed =>
      cases hnext
      right
      refine ⟨_, [], ⟨rfl, rfl, by simp [record], by simp⟩, by simp, ?_⟩
      intro h
      exact absurd hending (hcloses h).answered.2
    | handled consumed =>
      cases hnext
      right
      refine ⟨_, [], ⟨rfl, rfl, by simp [record], by simp⟩, fun _ => rfl, ?_⟩
      intro h
      refine ⟨hwrites h, rfl, ?_, .inl rfl⟩
      rw [(hcloses h).handled hending]
    | pair consumed handover =>
      have hconsumed := fun h => (hcloses h).pair hending
      right
      simp only at hnext
      split at hnext
      · cases hnext
        refine ⟨_, [], ⟨rfl, rfl, by simp [record], by simp⟩, by simp, ?_⟩
        intro h
        exact ⟨hwrites h, rfl, by rw [(hconsumed h).1], .inr rfl⟩
      · rename_i hset
        cases handover with
        | webSocket path =>
          cases hnext
          refine ⟨_, [], ⟨rfl, rfl, by simp [record], by simp⟩, by simp, ?_⟩
          intro h
          obtain ⟨-, inner, hinner⟩ := hconsumed h
          cases hinner
        | task inner =>
          have htask : served.task = some inner := by
            simp only [Served.task, hending]
            rw [if_neg hset]
          cases hnext
          obtain ⟨written, tasks, hadvance, hwritten, hnumbers, hended⟩ := advance_takes
            { conn.record _ _ with
              requests := conn.requests ++ [request]
              caches := served.caches
              buffer := conn.buffer.drop _ }
            _ _
          rw [hadvance]
          refine ⟨Effect.writes served.effects ++ written, tasks,
            ⟨rfl, ?_, rfl, hnumbers⟩, fun _ => rfl, ?_⟩
          · simp [record]
          · intro h
            have hinner := (hcloses h).task inner htask
            refine ⟨?_, hended hinner.ends, by rw [(hconsumed h).1]; rfl, .inl rfl⟩
            intro data hmem
            rcases mem_append.mp hmem with hmem | hmem
            · exact hwrites h _ hmem
            · rw [hwritten] at hmem
              exact hinner.heeds hinner.flag data hmem

/-! ## Whole runs -/

/-- A request whose connection should be closed is the last one and has nothing left to
write; `behind` says what became of the bytes after it, and `refused` that they were
answered as well. -/
structure Kept (conn : HttpConnection O X) (refused behind : Prop) : Prop where
  entries : (∀ entry ∈ conn.transport, entry.1 < conn.requests.length) ∨ refused
  pending : ∀ task ∈ conn.pending, task.request < conn.requests.length
  promised : ∀ number request, conn.requests[number]? = some request →
    request.keepAlive = false →
      (∀ data, (number, data) ∈ conn.transport → SaysClose data) ∧
        conn.requests.length = number + 1 ∧ (∀ task ∈ conn.pending, task.request ≠ number) ∧ behind

/-- Within the loops. -/
def Draining (llhttp : Llhttp) (conn : HttpConnection O X) : Prop :=
  conn.Kept False (Refused llhttp conn.buffer)

/-- Between two calls of `data_received`. -/
def Settled (llhttp : Llhttp) (conn : HttpConnection O X) : Prop :=
  conn.Kept (conn.closing = true ∧ conn.buffer = [])
    (conn.closing = true ∧ (conn.buffer = [] ∨ Refused llhttp conn.buffer))

theorem Kept.takes {behind after : Prop} {request : ParsedHttpRequest} {writes : List Bytes}
    {tasks : List (Pending O X)} (h : conn.Kept False behind) (hnot : ¬ behind)
    (htakes : conn.Takes conn' request writes tasks)
    (hrequest : request.keepAlive = false →
      (∀ data ∈ writes, SaysClose data) ∧ tasks = [] ∧ after) : conn'.Kept False after := by
  have hentries := h.entries.resolve_right id
  have hlength : conn'.requests.length = conn.requests.length + 1 := by simp [htakes.requests]
  constructor
  · left
    intro entry hmem
    rw [hlength]
    rw [htakes.transport] at hmem
    rcases mem_append.mp hmem with hmem | hmem
    · exact Nat.lt_succ_of_lt (hentries _ hmem)
    · obtain ⟨data, -, rfl⟩ := mem_map.mp hmem
      exact Nat.lt_succ_self _
  · intro task hmem
    rw [hlength]
    rw [htakes.pending] at hmem
    rcases mem_append.mp hmem with hmem | hmem
    · exact Nat.lt_succ_of_lt (h.pending _ hmem)
    · rw [htakes.numbers _ hmem]
      exact Nat.lt_succ_self _
  · intro number other hother hclose
    rw [htakes.requests] at hother
    by_cases hnumber : number < conn.requests.length
    · rw [getElem?_append_left hnumber] at hother
      exact absurd (h.promised _ _ hother hclose).2.2.2 hnot
    · have hlast : number = conn.requests.length := by
        have hbound := (List.getElem?_eq_some_iff.mp hother).1
        simp only [length_append, length_singleton] at hbound
        omega
      subst hlast
      simp only [getElem?_concat_length, Option.some.injEq] at hother
      subst hother
      obtain ⟨hwrites, hnone, hafter⟩ := hrequest hclose
      refine ⟨?_, hlength, ?_, hafter⟩
      · intro data hmem
        rw [htakes.transport] at hmem
        rcases mem_append.mp hmem with hmem | hmem
        · exact absurd (hentries _ hmem) (Nat.lt_irrefl _)
        · obtain ⟨written, hwritten, heq⟩ := mem_map.mp hmem
          cases heq
          exact hwrites _ hwritten
      · intro task hmem
        rw [htakes.pending, hnone, append_nil] at hmem
        exact (h.pending _ hmem).ne

theorem Kept.mono {refused refused' behind behind' : Prop} (h : conn.Kept refused behind)
    (hrefused : refused → refused') (hbehind : behind → behind') : conn.Kept refused' behind' where
  entries := h.entries.imp_right hrefused
  pending := h.pending
  promised _ _ hrequest hclose :=
    have hkept := h.promised _ _ hrequest hclose
    ⟨hkept.1, hkept.2.1, hkept.2.2.1, hbehind hkept.2.2.2⟩

theorem Kept.frame {refused behind : Prop} (h : conn.Kept refused behind) (buffer : Bytes)
    (closing paused : Bool) : ({ conn with
      buffer := buffer, closing := closing, paused := paused } : HttpConnection O X).Kept
        refused behind where
  entries := h.entries
  pending := h.pending
  promised := h.promised

/-- The answer to bytes that are refused stands behind every request. -/
theorem Kept.refuse {behind after : Prop} (h : conn.Kept False behind) (writes : List Bytes)
    (hafter : after) :
    ({ conn.record conn.requests.length writes with buffer := [], closing := true } :
      HttpConnection O X).Kept after after where
  entries := .inr hafter
  pending := h.pending
  promised number request hrequest hclose := by
    have hkept := h.promised _ _ hrequest hclose
    refine ⟨?_, hkept.2.1, hkept.2.2.1, hafter⟩
    intro data hmem
    rcases mem_append.mp hmem with hmem | hmem
    · exact hkept.1 data hmem
    · obtain ⟨written, -, heq⟩ := mem_map.mp hmem
      have hlast : conn.requests.length = number := congrArg Prod.fst heq
      omega

/-- One round. -/
theorem Draining.next {verdict : Verdict} (h : conn.Draining llhttp)
    (hmeets : conn.Meets runtime isException respond middleware app llhttp circumstances)
    (hnext : conn.dispatchNext runtime handlers isException respond middleware app llhttp
      circumstances = some (verdict, conn')) :
    if verdict = .goesOn then conn'.Draining llhttp else conn'.Settled llhttp := by
  cases haccepted : app.accepted llhttp conn.buffer with
  | none =>
    rcases dispatchNext_none haccepted with ⟨heq, hnot⟩ | ⟨hrefused, writes, heq⟩
    · rw [heq] at hnext
      cases hnext
      exact h.mono False.elim fun hrefused => absurd hrefused hnot
    · rw [heq] at hnext
      cases hnext
      have hkept := h.refuse writes True.intro
      exact hkept.mono (fun _ => ⟨rfl, rfl⟩) fun _ => ⟨rfl, .inl rfl⟩
  | some request =>
    have hnot := refused_of_accepted haccepted
    rcases dispatchNext_some haccepted hnext with
      ⟨rfl, rfl, -⟩ | ⟨writes, tasks, htakes, -, hcloses⟩
    · exact h.mono False.elim fun hrefused => absurd hrefused hnot
    · have hafter : conn'.Kept False
          (Refused llhttp conn'.buffer ∧ (verdict = .goesOn ∨ conn'.closing = true)) := by
        apply h.takes hnot htakes
        intro hclose
        have hmet := hmeets _ haccepted hclose
        obtain ⟨hwrites, hnone, hbuffer, hverdict⟩ := hcloses ⟨hclose, hmet.1⟩
        rw [hbuffer]
        exact ⟨hwrites, hnone, hmet.2, hverdict⟩
      split
      · exact hafter.mono id And.left
      · rename_i hverdict
        exact hafter.mono False.elim fun hboth =>
          ⟨hboth.2.resolve_left hverdict, .inr hboth.1⟩

/-- One `data_received`. -/
theorem Draining.drains (h : conn.Draining llhttp)
    (hdrains : Drains runtime handlers isException respond middleware app llhttp
      (Meets runtime isException respond middleware app llhttp) conn conn') :
    conn'.Settled llhttp := by
  induction hdrains with
  | stop circumstances hmeets hnext hverdict =>
    have hsettled := h.next hmeets hnext
    rwa [if_neg hverdict] at hsettled
  | round circumstances hmeets hnext hrest ih => exact ih (h.next hmeets hnext)

/-- While the transport is open no request has asked for the connection to be closed. -/
theorem Settled.opened (h : conn.Settled llhttp) (hopen : conn.closing = false) :
    conn.Kept False False :=
  h.mono (fun hclosed => by simp [hopen] at hclosed) fun hbehind => by simp [hopen] at hbehind

theorem Settled.advance (h : conn.Settled llhttp) {index : ℕ} {task : Pending O X}
    (htask : conn.pending[index]? = some task) (handler : Handler O X Unit) :
    (({ conn with pending := conn.pending.eraseIdx index } : HttpConnection O X).advance
      task.request handler).Settled llhttp := by
  have hbound := h.pending _ (mem_of_getElem? htask)
  obtain ⟨writes, tasks, hadvance, -, hnumbers, -⟩ := advance_takes
    { conn with pending := conn.pending.eraseIdx _ } _ _
  rw [hadvance]
  constructor
  · refine h.entries.imp_left fun hentries entry hmem => ?_
    rcases mem_append.mp hmem with hmem | hmem
    · exact hentries _ hmem
    · obtain ⟨data, -, rfl⟩ := mem_map.mp hmem
      exact hbound
  · intro other hmem
    rcases mem_append.mp hmem with hmem | hmem
    · exact h.pending _ (mem_of_mem_eraseIdx hmem)
    · rw [hnumbers _ hmem]
      exact hbound
  · intro number request hrequest hclose
    have hkept := h.promised _ _ hrequest hclose
    have hnumber := hkept.2.2.1 task (mem_of_getElem? htask)
    refine ⟨?_, hkept.2.1, ?_, hkept.2.2.2⟩
    · intro data hmem
      rcases mem_append.mp hmem with hmem | hmem
      · exact hkept.1 data hmem
      · obtain ⟨written, -, heq⟩ := mem_map.mp hmem
        exact absurd (congrArg Prod.fst heq) hnumber
    · intro other hmem
      rcases mem_append.mp hmem with hmem | hmem
      · exact hkept.2.2.1 other (mem_of_mem_eraseIdx hmem)
      · rw [hnumbers _ hmem]
        exact hnumber

theorem settled_run (hrun : Run runtime handlers isException respond middleware app llhttp
      (Meets runtime isException respond middleware app llhttp) conn) : conn.Settled llhttp := by
  induction hrun with
  | start => exact ⟨.inl (by simp), by simp, by simp⟩
  | @received conn conn' h chunk hopen hhttp hrunning hdrains ih =>
    have hkept := (ih.opened hopen).frame (conn.buffer ++ chunk) conn.closing conn.paused
    have hdraining : Draining llhttp { conn with buffer := conn.buffer ++ chunk } :=
      hkept.mono id False.elim
    exact hdraining.drains hdrains
  | buffered h chunk hopen hhttp ih =>
    exact ((ih.opened hopen).frame _ _ _).mono False.elim False.elim
  | @overflow conn h ih =>
    have hkept := ih.frame conn.buffer true conn.paused
    exact hkept.mono (fun hclosed => ⟨rfl, hclosed.2⟩) fun hbehind => ⟨rfl, hbehind.2⟩
  | paused h paused ih => exact ih.frame _ _ _
  | drainBuf h hbuffer hhttp hdrains ih =>
    have hdraining : Draining llhttp _ := Kept.mono ih (fun hclosed => hbuffer hclosed.2)
      fun hbehind => hbehind.2.resolve_left hbuffer
    exact hdraining.drains hdrains
  | resumed h htask answer ih => exact ih.advance htask _

theorem Settled.honoured (h : conn.Settled llhttp) : conn.Honoured := by
  intro number request hrequest hclose
  have hkept := h.promised _ _ hrequest hclose
  exact ⟨hkept.1, hkept.2.1, hkept.2.2.2.1, hkept.2.2.1⟩

theorem dispatchNext_requests {verdict : Verdict}
    (hnext : conn.dispatchNext runtime handlers isException respond middleware app llhttp
      circumstances = some (verdict, conn')) : conn.requests <+: conn'.requests := by
  cases haccepted : app.accepted llhttp conn.buffer with
  | none =>
    rcases dispatchNext_none haccepted with ⟨heq, -⟩ | ⟨-, writes, heq⟩
    · rw [heq] at hnext
      cases hnext
      exact prefix_rfl
    · rw [heq] at hnext
      cases hnext
      exact prefix_rfl
  | some request =>
    rcases dispatchNext_some haccepted hnext with ⟨-, rfl, -⟩ | ⟨writes, tasks, htakes, -⟩
    · exact prefix_rfl
    · rw [htakes.requests]
      exact prefix_append _ _

theorem Drains.requests {ok : HttpConnection O X → Circumstances F P O X → Prop}
    (hdrains : Drains runtime handlers isException respond middleware app llhttp ok conn conn') :
    conn.requests <+: conn'.requests := by
  induction hdrains with
  | stop circumstances hok hnext hverdict => exact dispatchNext_requests hnext
  | round circumstances hok hnext hrest ih => exact (dispatchNext_requests hnext).trans ih

/-- Behind a request that was the last one and whose transport was closed, the bytes
were refused: nothing else closes it. -/
theorem refused_of_honoured {conn₁ conn₂ : HttpConnection O X}
    {ok : HttpConnection O X → Circumstances F P O X → Prop} (hopen : conn.closing = false)
    (haccepted : app.accepted llhttp conn.buffer = some request)
    (hclose : request.keepAlive = false)
    (hnext : conn.dispatchNext runtime handlers isException respond middleware app llhttp
      circumstances = some (.goesOn, conn₁))
    (hdrains : Drains runtime handlers isException respond middleware app llhttp ok conn₁ conn₂)
    (hhonoured : conn₂.Honoured) : Refused llhttp conn₁.buffer := by
  rcases dispatchNext_some haccepted hnext with ⟨hwaits, -⟩ | ⟨writes, tasks, htakes, hstays, -⟩
  · cases hwaits
  · have hopen₁ : conn₁.closing = false := (hstays rfl).trans hopen
    have hrequest : conn₂.requests[conn.requests.length]? = some request := by
      obtain ⟨later, hlater⟩ := hdrains.requests
      rw [← hlater, htakes.requests, append_assoc, getElem?_append_right le_rfl]
      simp
    obtain ⟨-, hlast, hclosed, -⟩ := hhonoured _ _ hrequest hclose
    cases hdrains with
    | stop circumstances hok hthen hverdict =>
      cases hbehind : app.accepted llhttp conn₁.buffer with
      | none =>
        rcases dispatchNext_none hbehind with ⟨heq, -⟩ | ⟨hrefused, -⟩
        · rw [heq] at hthen
          cases hthen
          rw [hopen₁] at hclosed
          cases hclosed
        · exact hrefused
      | some behind =>
        rcases dispatchNext_some hbehind hthen with ⟨-, rfl, -⟩ | ⟨_, _, htaken, -⟩
        · rw [hopen₁] at hclosed
          cases hclosed
        · simp [htaken.requests, htakes.requests] at hlast
    | round circumstances hok hthen hrest =>
      cases hbehind : app.accepted llhttp conn₁.buffer with
      | none =>
        rcases dispatchNext_none hbehind with ⟨heq, -⟩ | ⟨hrefused, -⟩
        · rw [heq] at hthen
          cases hthen
        · exact hrefused
      | some behind =>
        rcases dispatchNext_some hbehind hthen with ⟨hwaits, -⟩ | ⟨_, _, htaken, -⟩
        · cases hwaits
        · have hlength := hrest.requests.length_le
          simp [htaken.requests, htakes.requests, hlast] at hlength

end Rounds

/-- `Connection: close` is honoured in every run whose responses are built from the flag
and where the parser refuses the bytes behind the request; the loops close the transport
behind a request for no other reason. -/
theorem connection_close_honoured {F P O X : Type*} (runtime : Runtime F P)
    (handlers : ExceptionHandlers F P) (isException : X → Bool)
    (respond : X → Handler O X (Option Bytes))
    (middleware : Option (Raw O X → Handler O X (Raw O X))) (app : CoreApp O X) (llhttp : Llhttp) :
    (∀ conn, Run runtime handlers isException respond middleware app llhttp
        (Meets runtime isException respond middleware app llhttp) conn → conn.Honoured) ∧
      ∀ (ok : HttpConnection O X → Circumstances F P O X → Prop)
        (conn conn₁ conn₂ : HttpConnection O X) (circumstances : Circumstances F P O X)
        (request : ParsedHttpRequest), conn.closing = false → app.accepted llhttp conn.buffer = some request →
          request.keepAlive = false →
            conn.dispatchNext runtime handlers isException respond middleware app llhttp
              circumstances = some (.goesOn, conn₁) →
            Drains runtime handlers isException respond middleware app llhttp ok conn₁ conn₂ →
              conn₂.Honoured → Refused llhttp conn₁.buffer := by
  constructor
  · intro conn hrun
    exact (settled_run hrun).honoured
  · intro ok conn conn₁ conn₂ circumstances request hopen haccepted hclose hnext hdrains hhonoured
    exact refused_of_honoured hopen haccepted hclose hnext hdrains hhonoured

/-- A parser that refuses the byte 0. -/
def refusing : Llhttp := fun data => if data = [0] then { errno := .error } else { errno := .ok }

/-- The endpoint returns at once. -/
def answering : Circumstances Empty Empty Empty Empty where
  course := .valid (.parsed (.solved (.valid
    (.returned { returned := .bytes (ascii "x"), raw := { built := .whole (ascii "x") } } none))))

def smallRound (conn : HttpConnection Empty Empty) : Option (Verdict × HttpConnection Empty Empty) :=
  conn.dispatchNext Response.plainRuntime {} (fun _ => false) (fun _ => .ret none) none
    (smallApp false) refusing answering

def SmallRun (ok : HttpConnection Empty Empty → Circumstances Empty Empty Empty Empty → Prop)
    (conn : HttpConnection Empty Empty) : Prop :=
  Run Response.plainRuntime {} (fun _ => false) (fun _ => .ret none) none (smallApp false) refusing
    ok conn

/-- A request that asks for the connection to be closed, and a byte that is refused. -/
def closingStart : HttpConnection Empty Empty where
  buffer := ascii "GET / HTTP/1.1\r\nConnection: close\r\n\r\n" ++ [0]

/-- The condition, for the small application. -/
def SmallMeets : HttpConnection Empty Empty → Circumstances Empty Empty Empty Empty → Prop :=
  Meets Response.plainRuntime (fun _ => false) (fun _ => .ret none) none (smallApp false) refusing

theorem smallMeets_closingStart : SmallMeets closingStart answering := by
  intro request haccepted hclose
  have hpage : ((smallApp false).accepted refusing closingStart.buffer).map
      (smallApp false).pageOf = some none := rfl
  have hupgrade : ((smallApp false).accepted refusing closingStart.buffer).map
      (fun request => request.upgrade) = some false := rfl
  have hfound : ((smallApp false).accepted refusing closingStart.buffer).map
      (fun request => (smallApp false).router.at request.path) = some (some { routeIndex := 0 }) := rfl
  have hconsumed : ((smallApp false).accepted refusing closingStart.buffer).map
      (fun request => request.totalConsumed) = some 37 := rfl
  have hfront : ((smallApp false).accepted refusing closingStart.buffer).map
      (fun request => (smallApp false).front request false) =
        some (.matched { fastSpec := some { fastSpec := {} } } { fastSpec := {} } []) := rfl
  rw [haccepted, map_some, Option.some.injEq] at hpage hupgrade hfound hconsumed hfront
  refine ⟨⟨.inr (.inr (.inr ⟨hpage, ?_, ?_⟩)), ?_⟩, ?_⟩
  · rw [hupgrade]
    exact fun h => Bool.noConfusion h.1
  · rw [hfound]
    exact fun h => absurd rfl h.1
  · intro route info params hmatched
    cases hfront.symm.trans hmatched
    exact .inr trivial
  · rw [hconsumed]
    exact trivial

/-- The request is answered and the byte behind it refused. -/
theorem connection_close_refused :
    ∃ conn₁ conn₂, SmallRun SmallMeets conn₂ ∧ conn₂.requests.length = 1 ∧ conn₂.Honoured ∧
      smallRound closingStart = some (.goesOn, conn₁) ∧ Refused refusing conn₁.buffer := by
  have hclosed := connection_close_honoured Response.plainRuntime {} (fun _ => false)
    (fun _ => .ret none) none (smallApp false) refusing
  obtain ⟨conn₁, hfirst, hnone⟩ : ∃ conn₁, smallRound closingStart = some (.goesOn, conn₁) ∧
      (smallApp false).accepted refusing conn₁.buffer = none := ⟨_, rfl, rfl⟩
  obtain ⟨conn₂, hsecond, hlast⟩ : ∃ conn₂, smallRound conn₁ = some (.ends, conn₂) ∧
      conn₂.requests.length = 1 := by
    have hrounds : ((smallRound closingStart).bind fun first => smallRound first.2).map
      (fun second => (second.1, second.2.requests.length)) = some (.ends, 1) := rfl
    rw [hfirst, bind_some] at hrounds
    obtain ⟨⟨verdict, conn₂⟩, hsecond, heq⟩ := map_eq_some_iff.mp hrounds
    obtain ⟨rfl, hlast⟩ := Prod.mk.inj heq
    exact ⟨conn₂, hsecond, hlast⟩
  have hmeets : SmallMeets conn₁ answering := by
    intro request haccepted
    rw [hnone] at haccepted
    cases haccepted
  have hstop := Drains.stop _ hmeets hsecond Verdict.noConfusion
  have hrun : SmallRun SmallMeets conn₂ :=
    .received .start closingStart.buffer rfl rfl rfl
      (.round answering smallMeets_closingStart hfirst hstop)
  refine ⟨conn₁, conn₂, hrun, hlast, hclosed.1 conn₂ hrun, hfirst, ?_⟩
  obtain ⟨request, haccepted, hclose⟩ : ∃ request,
      (smallApp false).accepted refusing closingStart.buffer = some request ∧
        request.keepAlive = false := ⟨_, rfl, rfl⟩
  exact hclosed.2 SmallMeets closingStart conn₁ conn₂ answering request rfl haccepted hclose hfirst
    hstop (hclosed.1 conn₂ hrun)

/-- Both requests are answered, and the connection stays open. -/
theorem connection_close_pipelined :
    ∃ conn, SmallRun (fun _ _ => True) conn ∧
      conn.requests.map (fun request => request.keepAlive) = [false, true] ∧ ¬ conn.Honoured := by
  refine ⟨_, .received .start
    (ascii "GET / HTTP/1.1\r\nConnection: close\r\n\r\nGET / HTTP/1.1\r\n\r\n") rfl rfl rfl
    (.round answering trivial rfl (.round answering trivial rfl (.stop answering trivial rfl ?_))),
    rfl, ?_⟩
  · intro heq
    cases heq
  · intro hhonoured
    have hclosed : false = true := (hhonoured 0 _ rfl rfl).2.2.1
    cases hclosed

end HttpConnection

end AstraApi.Dispatch
