import AstraApi.Dispatch.Guards

/-!
# One request

`dispatch_one_request` from the bytes to its result.  Behind the guards the code
of the application runs: what it does is the course of the request, one
constructor for each turn it may take.  A course goes on only where the source
does.
-/

namespace AstraApi.Dispatch

open AstraApi.Http
open AstraApi.Response (CorsConfig PyObj Runtime ResponseObject Caches writeJson
  buildHttpResponse buildAndWriteHttpResponse buildHttpErrorResponse extractHttpExcHeaders
  dispatchResult decimal)
open AstraApi.Server (Handler Raw)
open AstraApi.Deps (Name)

/-! ## Python objects -/

/-- An attribute `status_code`. -/
inductive StatusAttr where
  | missing
  | notInteger
  | integer (value : ℤ)
  deriving DecidableEq

def StatusAttr.value (absent other : ℤ) : StatusAttr → ℤ
  | .missing => absent
  | .notInteger => other
  | .integer value => value

/-- The attributes of an `HTTPException`; the text of its detail may have no UTF-8. -/
structure HttpException where
  statusCode : StatusAttr
  detail : Option (Option Bytes)
  headers : List (Text × Text) := []

/-- An exception, by what the dispatcher asks of it: the class names in its method
resolution order, and the list that `errors()` returns. -/
structure Raised (F P : Type*) where
  http : Option HttpException := none
  isValidation : Bool := false
  mro : Option (List (Option Name)) := none
  errors : Option (PyObj F P) := none

/-- What an exception handler returned: its status code, and its body if that is
bytes. -/
structure HandlerResult where
  statusCode : StatusAttr := .missing
  body : Option Bytes := none

/-- A handler that is registered for a class.  `call` stops at the value of the
call, `drive` takes a coroutine to its first suspension; `none` is an exception. -/
structure TypeHandler (F P : Type*) where
  className : Option Name
  accepts : Raised F P → Bool
  call : Raised F P → Option HandlerResult
  drive : Raised F P → Option HandlerResult

structure ExceptionHandlers (F P : Type*) where
  ofType : List (TypeHandler F P) := []
  ofStatus : ℕ → Option (Raised F P → Option HandlerResult) := fun _ => none

/-- The result of an endpoint, in the order of the tests. -/
inductive Returned (F P : Type*) where
  | bytes (data : Bytes)
  | str (utf8 : Option Bytes)
  | json (value : PyObj F P)
  | stream
  | file
  | object (response : ResponseObject)
  /-- What `model_dump_json` returns, if it is text. -/
  | model (text : Option Bytes)
  /-- A dataclass, or an object with a `__dict__`. -/
  | fields (items : PyObj F P)
  | repr (text : Option Bytes)

/-- A result, as the dispatcher and as the handlers see it. -/
structure EndpointValue (F P O X : Type*) where
  returned : Returned F P
  raw : Raw O X

/-! ## Courses -/

/-- The endpoint is called.  A response model accepts its result and serialises it,
or it does not. -/
inductive EndpointCourse (F P O X : Type*) where
  | raised (exc : Raised F P)
  | returned (value : EndpointValue F P O X) (serialized : Option (EndpointValue F P O X))
  | suspended (coro : Handler O X (Raw O X))
  | threw (exc : Raised F P)

inductive BodyCourse (F P O X : Type*) where
  /-- The body has no member of this name. -/
  | missingField (name : Bytes)
  /-- `model_validate` failed; the second is the exception for a handler. -/
  | invalidModel (errors : PyObj F P) (exc : Option (Raised F P))
  /-- `request_body_to_args` found errors; the class of the exception may be missing. -/
  | invalidArgs (errors : PyObj F P) (exc : Option (Option (Raised F P)))
  /-- `request_body_to_args` did not return at its first step. -/
  | unfinished (validate : Handler O X (Option Bytes)) (endpoint : Handler O X (Raw O X))
  | valid (endpoint : EndpointCourse F P O X)

inductive DependencyCourse (F P O X : Type*) where
  | suspended (solve : Handler O X (Option Bytes × Option (Handler O X Unit)))
      (endpoint : Handler O X (Raw O X))
  | raised (exc : Raised F P)
  | invalid (errors : PyObj F P)
  | solved (body : BodyCourse F P O X)

/-- The body is parsed. -/
inductive PayloadCourse (F P O X : Type*) where
  | oversizedPart
  | notJson
  | malformed (message : Bytes)
  /-- A replacement of `json.loads` raised. -/
  | loadsRaised (message : Bytes)
  | parsed (dependencies : DependencyCourse F P O X)

/-- The parameters are validated. -/
inductive Course (F P O X : Type*) where
  | invalid (errors : PyObj F P)
  | valid (payload : PayloadCourse F P O X)

/-! ## Results -/

inductive Handover (O X : Type*) where
  | task (inner : Server.Inner O X)
  | webSocket (endpoint : Option ℕ)

/-- What a call leaves behind.  When an exception is set, the interpreter raises it
in place of the result. -/
structure Served (O X : Type*) where
  effects : List Effect
  ending : Ending (Handover O X)
  exceptionSet : Bool := false
  caches : Caches := {}

/-- The properties of a request that responses depend on. -/
structure Reply where
  consumed : ℕ
  keepAlive : Bool
  isHead : Bool
  origin : Bytes
  cors : Option (CorsConfig × Bytes)

namespace Reply

section Writing

variable (reply : Reply)

def error (status : ℤ) (message : Bytes) (extraHeaders : Option Bytes) : Effect :=
  .write (buildHttpErrorResponse status message reply.keepAlive reply.cors extraHeaders)

def failure (status : ℤ) (message : String) : Effect :=
  reply.error status (ascii message) none

def content (status : ℤ) (headOnly : Bool) (body : Bytes) : Effect :=
  .write (buildAndWriteHttpResponse status reply.keepAlive headOnly reply.cors none body)

def bytes (status : ℤ) (body : Bytes) : Effect :=
  .write (buildHttpResponse status reply.keepAlive reply.isHead reply.cors none none body)

variable {F P : Type*} (runtime : Runtime F P)

/-- A JSON body that is serialised first; nothing when that fails. -/
def serialized (status : ℤ) (value : PyObj F P) : List Effect :=
  ((writeJson runtime 0 value).map (reply.content status false)).toList

def invalid (errors : PyObj F P) : List Effect :=
  reply.serialized runtime 422 (.dict [(.str (ascii "detail"), errors)])

/-- What an exception handler returned is written when its body is bytes. -/
def handled (absent other : ℤ) : Option HandlerResult → List Effect
  | some ⟨statusCode, some body⟩ => [reply.content (statusCode.value absent other) false body]
  | _ => []

/-- The default response to an `HTTPException`. -/
def httpError (status : ℤ) (http : HttpException) : Effect :=
  reply.error status ((http.detail.getD none).getD (ascii "Error"))
    (extractHttpExcHeaders http.headers)

/-- A response that is written without a `connection` header. -/
def rawError (statusLine : String) (body : Bytes) : Effect :=
  .write (ascii "HTTP/1.1 " ++ ascii statusLine ++
    ascii "\r\ncontent-type: application/json\r\ncontent-length: " ++ decimal body.length ++
    ascii "\r\n\r\n" ++ body)

end Writing

/-! ## Exceptions -/

section Exceptions

variable (reply : Reply) {F P : Type*} (runtime : Runtime F P) (handlers : ExceptionHandlers F P)

def namedHandler (names : List Name) : Option (TypeHandler F P) :=
  handlers.ofType.find? fun handler => handler.className.any names.contains

/-- The handler of the first class in the method resolution order that has one. -/
def mroHandler (exc : Raised F P) : Option (TypeHandler F P) :=
  match exc.mro with
  | some names =>
    names.findSome? fun name =>
      name.bind fun name => namedHandler handlers [name]
  | none => if exc.isValidation then namedHandler handlers ["RequestValidationError"] else none

def statusHandler (status : ℤ) : Option (Raised F P → Option HandlerResult) :=
  handlers.ofStatus (status % 65536).toNat

/-- An `HTTPException`; `none` when it has no attributes to build a response from. -/
def httpException (exc : Raised F P) (http : HttpException) (notInteger : ℤ → ℤ) :
    Option (List Effect) :=
  let status := http.statusCode.value 500 (notInteger 500)
  match statusHandler handlers status with
  | some handler => some (reply.handled status (notInteger status) (handler exc))
  | none =>
    if http.detail.isSome ∧ http.statusCode ≠ .missing then some [reply.httpError status http]
    else none

def internalError : Effect := reply.failure 500 "Internal Server Error"

def callRaised (exc : Raised F P) : List Effect :=
  match handlers.ofType.find? fun handler => handler.accepts exc with
  | some handler => reply.handled 200 200 (handler.call exc)
  | none =>
    match exc.http with
    | none => [reply.internalError]
    | some http => (reply.httpException handlers exc http id).getD [reply.internalError]

def solverRaised (exc : Raised F P) : Effect :=
  match exc.http with
  | none => reply.internalError
  | some http => reply.httpError (http.statusCode.value 500 500) http

/-- The handler of a class is driven; it answers when its result has a body. -/
def driven (status : ℤ) (handler : Option (TypeHandler F P)) (exc : Raised F P) :
    Option (List Effect) :=
  match handler.bind fun handler => handler.drive exc with
  | some ⟨statusCode, some body⟩ =>
    some [reply.content (statusCode.value status status) false body]
  | _ => none

/-- `{"detail": errors}`, without the member when there are no errors, and with a
fixed response when it cannot be serialised. -/
def validationError (errors : Option (PyObj F P)) : Effect :=
  let items := (errors.map fun errors => (PyObj.str (ascii "detail"), errors)).toList
  match Response.serializeJsonAndWriteResponse 422 reply.keepAlive false reply.cors runtime
      (.dict items) with
  | some response => .write response
  | none => reply.failure 422 "Validation Error"

def coroutineRaised (exc : Raised F P) : List Effect :=
  match exc.http with
  | some http => (reply.httpException handlers exc http fun _ => -1).getD [reply.internalError]
  | none =>
    if exc.isValidation then
      (reply.driven 422 (mroHandler handlers exc) exc).getD
        [reply.validationError runtime exc.errors]
    else (reply.driven 500 (mroHandler handlers exc) exc).getD [reply.internalError]

end Exceptions

end Reply

/-! ## The route's own code -/

section Route

variable {F P O X : Type*} (runtime : Runtime F P) (handlers : ExceptionHandlers F P)
variable (app : CoreApp O X) (route : RouteEntry) (reply : Reply) (exceptionSet : Bool)
variable (caches : Caches)

/-- `True` is returned. -/
def Reply.done (effects : List Effect) : Served O X where
  effects := effects
  ending := .returned (.handled reply.consumed)
  caches := caches

/-- A pair is returned.  Its strings are made of bytes of the request; when one has
no UTF-8 an exception is set. -/
def Reply.handOver (strings : List Bytes) (handover : Handover O X) : Served O X where
  effects := []
  ending := .returned (.pair reply.consumed handover)
  exceptionSet := exceptionSet || !decide (∀ bytes ∈ strings, IsUtf8 bytes)
  caches := caches

/-- The end of a request whose result is returned at once. -/
def plainResult (path : Bytes) (value : EndpointValue F P O X) : Served O X :=
  let done := reply.done (O := O) (X := X) caches
  let written := fun effects => done (effects ++ [.finished])
  let cached := fun result =>
    let ((response, _), caches) := dispatchResult runtime (app.cors.map Prod.fst) caches
      { result := result
        status := route.statusCode
        keepAlive := reply.keepAlive
        isHead := reply.isHead
        origin := reply.origin }
    reply.done caches ((response.map Effect.write).toList ++ [.finished])
  match value.returned with
  | .bytes data => written [reply.bytes route.statusCode data]
  | returned =>
    if app.hasHttpMiddleware then
      reply.handOver exceptionSet caches [path] (.task (.mw reply.keepAlive value.raw))
    else
      match returned with
      | .bytes _ | .str none => written []
      | .str (some utf8) => cached (.json (.str utf8))
      | .json value => cached (.json value)
      | .stream | .file =>
        reply.handOver exceptionSet caches [reply.origin] (.task (.stream reply.keepAlive value.raw))
      | .object response => cached (.object response)
      | .model text =>
        written (text.map (reply.content route.statusCode reply.isHead)).toList
      | .fields items => written (reply.serialized runtime route.statusCode items)
      | .repr text => written (text.map (reply.content route.statusCode false)).toList

/-- A text that a route with a response model returns is taken for its JSON. -/
def shortcut : Returned F P → Option Bytes
  | .bytes data => some data
  | .str utf8 => some (utf8.getD [])
  | _ => none

def endpointCourse (path : Bytes) : EndpointCourse F P O X → Served O X
  | .raised exc => reply.done caches (reply.callRaised handlers exc ++ [.finished])
  | .threw exc => reply.done caches (reply.coroutineRaised runtime handlers exc ++ [.finished])
  | .suspended coro =>
    reply.handOver exceptionSet caches [reply.origin] (.task (.async reply.keepAlive coro))
  | .returned value serialized =>
    if route.hasResponseModel then
      match shortcut value.returned with
      | some body =>
        reply.done caches
          ((if body = [] then [] else [reply.bytes route.statusCode body]) ++ [.finished])
      | none =>
        match serialized with
        | none => reply.done caches [reply.failure 422 "Response validation error", .finished]
        | some value => plainResult runtime app route reply exceptionSet caches path value
    else plainResult runtime app route reply exceptionSet caches path value

/-- The error for a body that does not have the member of its parameter. -/
def missingErrors (name : Bytes) : PyObj F P :=
  .list [.dict [
    (.str (ascii "loc"), .tuple [.str (ascii "body"), .str name]),
    (.str (ascii "type"), .str (ascii "missing")),
    (.str (ascii "msg"), .str (ascii "Field required")),
    (.str (ascii "input"), .none)]]

def bodyCourse (path : Bytes) : BodyCourse F P O X → Served O X
  | .missingField name =>
    reply.done caches (reply.invalid runtime (missingErrors name) ++ [.finished])
  | .invalidModel errors exc =>
    match Reply.namedHandler handlers ["RequestValidationError"] with
    | some handler =>
      reply.done caches (reply.handled 422 422 (exc.bind handler.drive) ++ [.finished])
    | none => reply.done caches (reply.invalid runtime errors ++ [.finished])
  | .invalidArgs errors exc =>
    match Reply.namedHandler handlers
        ["RequestValidationError", "ValidationException", "Exception"], exc with
    | some handler, some exc =>
      reply.done caches (reply.handled 422 422 (exc.bind handler.drive) ++ [.finished])
    | _, _ => reply.done caches (reply.invalid runtime errors ++ [.finished])
  | .unfinished validate endpoint =>
    { reply.handOver exceptionSet caches [] (.task (.pydantic validate endpoint)) with
      effects := [.finished] }
  | .valid course => endpointCourse runtime handlers app route reply exceptionSet caches path course

def dependencyCourse (path : Bytes) : DependencyCourse F P O X → Served O X
  | .suspended solve endpoint =>
    reply.handOver exceptionSet caches [reply.origin] (.task (.asyncDi reply.keepAlive solve endpoint))
  | .raised exc => reply.done caches [reply.solverRaised exc, .finished]
  | .invalid errors =>
    let response :=
      match writeJson runtime 0 (.dict [(.str (ascii "detail"), errors)]) with
      | some body => reply.content 422 false body
      | none => reply.failure 422 "Validation Error"
    reply.done caches [.finished, response]
  | .solved course => bodyCourse runtime handlers app route reply exceptionSet caches path course

/-- The body of the response to a malformed JSON body. -/
def jsonInvalid (message : Bytes) : Bytes :=
  [0x7b] ++ ascii "\"detail\":[" ++ [0x7b] ++
    ascii "\"type\":\"json_invalid\",\"loc\":[\"body\",1],\"msg\":\"JSON decode error\",\"input\":" ++
    [0x7b, 0x7d] ++ ascii ",\"ctx\":" ++ [0x7b] ++ ascii "\"error\":\"" ++
    (Response.cString message).flatMap
      (fun b => if b = 0x22 ∨ b = 0x5c then [0x5c, b] else [b]) ++
    ascii "\"" ++ [0x7d, 0x7d] ++ ascii "]" ++ [0x7d]

/-- The error for a body of another type, which becomes a string. -/
def notJsonErrors (body : Bytes) : PyObj F P :=
  .list [.dict [
    (.str (ascii "type"), .str (ascii "model_attributes_type")),
    (.str (ascii "loc"), .tuple [.str (ascii "body")]),
    (.str (ascii "msg"), .str (ascii
      "Input should be a valid dictionary or object to extract fields from")),
    (.str (ascii "input"), .str body)]]

def payloadCourse (request : ParsedHttpRequest) : PayloadCourse F P O X → Served O X
  | .oversizedPart =>
    reply.done caches [reply.failure 413 "Request Entity Too Large", .finished]
  | .notJson =>
    reply.done caches
      ((if IsUtf8 request.body then reply.invalid runtime (notJsonErrors request.body) else []) ++
        [.finished])
  | .malformed message =>
    reply.done caches
      [.finished, Reply.rawError "422 Unprocessable Entity" (jsonInvalid message)]
  | .loadsRaised message =>
    reply.done caches [.finished, Reply.rawError "400 Bad Request"
      ([0x7b] ++ ascii "\"detail\":\"" ++ message ++ ascii "\"" ++ [0x7d])]
  | .parsed course =>
    dependencyCourse runtime handlers app route reply exceptionSet caches request.path course

/-- The code behind the extraction of the parameters. -/
def course (request : ParsedHttpRequest) : Course F P O X → Served O X
  | .invalid errors => reply.done caches (reply.invalid runtime errors ++ [.finished])
  | .valid payload =>
    if 0 < app.maxBodySize ∧ app.maxBodySize < request.body.length then
      reply.done caches [reply.failure 413 "Request Entity Too Large", .finished]
    else payloadCourse runtime handlers app route reply exceptionSet caches request payload

end Route

/-! ## The dispatcher -/

section Dispatch

variable {F P O X : Type*} (runtime : Runtime F P) (handlers : ExceptionHandlers F P)
variable (app : CoreApp O X)

/-- What a call meets apart from the bytes: the verdict of the rate limiter, whether
an exception is left over when it returns, and the course behind the guards. -/
structure Circumstances (F P O X : Type*) where
  limited : Bool := false
  exceptionSet : Bool := false
  course : Course F P O X

def CoreApp.reply (request : ParsedHttpRequest) : Reply where
  consumed := request.totalConsumed
  keepAlive := request.keepAlive
  isHead := request.isHead
  origin := (app.noted request).origin
  cors := app.allowedCors request

/-- A documentation page.  `make_mw_tuple` counts the request as finished. -/
def servePage (request : ParsedHttpRequest) (exceptionSet : Bool) (caches : Caches)
    (page : Page O X) : Served O X :=
  match app.hasHttpMiddleware, page.content with
  | true, some content =>
    { (app.reply request).handOver exceptionSet caches [request.path]
        (.task (.mw request.keepAlive content)) with
      effects := [.finished] }
  | _, _ =>
    (app.reply request).done caches
      [.finished, .write (buildStaticResponse page.contentType page.text)]

def serve (caches : Caches) (circumstances : Circumstances F P O X) (request : ParsedHttpRequest) :
    Served O X :=
  match app.front request circumstances.limited with
  | .answered effects => (app.reply request).done caches effects
  | .page page => servePage app request circumstances.exceptionSet caches page
  | .upgrade response endpoint =>
    { effects := [.write response, .finished]
      ending :=
        -- `PyTuple_Pack` is given the path of an endpoint without a check
        if endpoint.isSome ∧ ¬ IsUtf8 request.path then .crashed
        else .returned (.pair request.totalConsumed (.webSocket endpoint))
      exceptionSet := circumstances.exceptionSet
      caches := caches }
  | .matched route info params =>
    match extractParams info params request with
    | .error .nullResult => { effects := [], ending := .null, caches := caches }
    | .error .nullItem => { effects := [], ending := .crashed, caches := caches }
    | .ok _ =>
      course runtime handlers app route (app.reply request) circumstances.exceptionSet caches
        request circumstances.course

def dispatchOneRequest (llhttp : Llhttp) (caches : Caches) (circumstances : Circumstances F P O X)
    (data : Bytes) : Served O X :=
  match parseStep llhttp data with
  | .needMore => { effects := [], ending := .returned .incomplete, caches := caches }
  | .error =>
    { effects := [.write (buildHttpErrorResponse 400 (ascii "Bad Request") false none none)]
      ending := .returned .failed
      caches := caches }
  | .request request =>
    let request := { request with keepAlive := !app.forceClose && request.keepAlive }
    if request.bodyTooLarge then
      { effects :=
          [.write (buildHttpErrorResponse 413 (ascii "Payload Too Large") false none none)]
        ending := .returned .failed
        caches := caches }
    else
      let served := serve runtime handlers app caches circumstances request
      { served with effects := .started :: served.effects }

end Dispatch

end AstraApi.Dispatch
