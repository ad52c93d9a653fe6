import AstraApi.Dispatch.Parameters
import AstraApi.Response.Splitting
import AstraApi.Server.Handlers

/-!
# Ahead of the route

`dispatch_one_request` answers many requests before any code of the application
runs: an unknown host, a redirect, a preflight request, the documentation pages,
an upgrade, a path or a method without a route.
-/

namespace AstraApi.Dispatch

open AstraApi.Http
open AstraApi.Response (CorsConfig buildHttpErrorResponse statusLine decimal PyObj Runtime)
open AstraApi.Routing (Router MatchParams slash)

/-! ## The configuration -/

structure TrustedHostConfig where
  allowAnyHost : Bool := false
  allowedHosts : List Bytes := []

/-- The CORS settings that only a preflight response uses. -/
structure PreflightConfig where
  allowMethods : List Bytes := []
  allowHeaders : List Bytes := []
  maxAge : ℤ := 600

/-- A documentation page: what is served without middleware, and the string that is
handed to it. -/
structure Page (O X : Type*) where
  url : Bytes
  contentType : Bytes
  text : Bytes
  content : Option (Server.Raw O X) := none

/-- A registered route; one without a specification is not configured. -/
structure RouteEntry where
  methodMask : UInt8 := 0
  fastSpec : Option RouteInfo := none
  statusCode : ℤ := 200
  hasResponseModel : Bool := false

/-- The part of `CoreApp` that is read ahead of the route. -/
structure CoreApp (O X : Type*) where
  forceClose : Bool := false
  trustedHosts : Option TrustedHostConfig := none
  httpsRedirect : Bool := false
  cors : Option (CorsConfig × PreflightConfig) := none
  /-- The schema and the three pages that were built, in the order of the tests. -/
  pages : List (Page O X) := []
  hasHttpMiddleware : Bool := false
  /-- `ws_build_upgrade_response_ext` of the key, the extensions and the protocols. -/
  upgradeResponse : Bytes → Bytes → Bytes → Bytes := fun _ _ _ => []
  router : Router := {}
  routes : List RouteEntry := []
  redirectSlashes : Bool := true
  /-- `py_init_cached_refs` was called. -/
  cachedRefs : Bool := true
  maxBodySize : ℕ := 0

/-! ## What a request leaves behind -/

/-- The effects of a call that others see. -/
inductive Effect where
  | write (data : Bytes)
  /-- `++active_requests` -/
  | started
  /-- `--active_requests` -/
  | finished
  deriving DecidableEq

def Effect.writes : List Effect → List Bytes
  | [] => []
  | .write data :: effects => data :: Effect.writes effects
  | _ :: effects => Effect.writes effects

/-! ## Headers -/

/-- The headers that the loop over the headers picks out. -/
structure Noted where
  host : Bytes := []
  origin : Bytes := []
  contentType : Bytes := []
  authorization : Bytes := []
  acceptEncoding : Bytes := []
  found : ℕ := 0

section Noted

variable (wantOrigin skipBody : Bool)

/-- How many headers are looked for. -/
def needed : ℕ :=
  3 + (if wantOrigin then 1 else 0) + (if skipBody then 0 else 1)

def noteHeader (noted : Noted) (header : Header) : Noted :=
  if needed wantOrigin skipBody ≤ noted.found then noted
  else if noted.host = [] ∧ iequals header.1 "host" then
    { noted with host := header.2, found := noted.found + 1 }
  else if wantOrigin ∧ noted.origin = [] ∧ iequals header.1 "origin" then
    { noted with origin := header.2, found := noted.found + 1 }
  else if !skipBody ∧ noted.contentType = [] ∧ iequals header.1 "content-type" then
    { noted with contentType := header.2, found := noted.found + 1 }
  else if noted.authorization = [] ∧ iequals header.1 "authorization" then
    { noted with authorization := header.2, found := noted.found + 1 }
  else if noted.acceptEncoding = [] ∧ iequals header.1 "accept-encoding" then
    { noted with acceptEncoding := header.2, found := noted.found + 1 }
  else noted

end Noted

def firstHeader (headers : List Header) (name : String) : Bytes :=
  ((headers.find? fun header => iequals header.1 name).map Prod.snd).getD []

def lastHeader (headers : List Header) (name : String) : Bytes :=
  firstHeader headers.reverse name

/-! ## Responses -/

/-- `check_trusted_host_inline`: the port is cut off, and `*.` stands for the domain
and everything below it. -/
def checkTrustedHost (config : TrustedHostConfig) (host : Bytes) : Bool :=
  let name := host.takeWhile (· ≠ Http.colon)
  config.allowAnyHost || config.allowedHosts.contains name ||
    config.allowedHosts.any fun
      | 42 :: 46 :: bare =>
        bare ≠ [] && ((46 :: bare).isSuffixOf name && bare.length + 1 < name.length || name == bare)
      | _ => false

def withQuery (request : ParsedHttpRequest) (path : Bytes) : Bytes :=
  path ++ if request.queryString = [] then [] else question :: request.queryString

def httpsRedirectResponse (request : ParsedHttpRequest) (host : Bytes) : Bytes :=
  ascii "HTTP/1.1 307 Temporary Redirect\r\nLocation: https://" ++ host ++
    withQuery request request.path ++ ascii "\r\nContent-Length: 0\r\n" ++
    (if request.keepAlive then ascii "Connection: keep-alive\r\n" else ascii "Connection: close\r\n") ++
    ascii "\r\n"

/-- By the first `x-forwarded-proto`, which has to be written in lower case. -/
def forwardedHttps (request : ParsedHttpRequest) : Bool :=
  match request.headers.find? fun header => header.1 == ascii "x-forwarded-proto" with
  | none => false
  | some header => (ascii "https").isPrefixOf header.2

/-- `build_cors_preflight_response`; `None` for an origin with a line end. -/
def buildCorsPreflightResponse (cors : CorsConfig × PreflightConfig) (origin : Bytes)
    (keepAlive : Bool) (requestHeaders : Bytes) : Option Bytes :=
  let (config, preflight) := cors
  if Http.cr ∈ origin ∨ lf ∈ origin then none
  else some (
    ascii "HTTP/1.1 200 OK\r\naccess-control-allow-origin: " ++
    (if !config.allowCredentials && config.isWildcard then ascii "*" else origin) ++
    ascii "\r\naccess-control-allow-methods: " ++
    (if preflight.allowMethods = [] then ascii "GET, POST, PUT, DELETE, PATCH, OPTIONS, HEAD"
      else (ascii ", ").intercalate preflight.allowMethods) ++
    (if preflight.allowHeaders = [] then []
      else ascii "\r\naccess-control-allow-headers: " ++
        (if preflight.allowHeaders = [ascii "*"] ∧ requestHeaders ≠ [] then requestHeaders
          else (ascii ", ").intercalate preflight.allowHeaders)) ++
    ascii "\r\naccess-control-max-age: " ++ decimal preflight.maxAge ++
    (if config.allowCredentials then ascii "\r\naccess-control-allow-credentials: true" else []) ++
    ascii "\r\nvary: Origin" ++
    (if keepAlive then
      ascii "\r\ncontent-length: 2\r\ncontent-type: text/plain\r\nconnection: keep-alive\r\n\r\nOK"
    else ascii "\r\ncontent-length: 2\r\ncontent-type: text/plain\r\nconnection: close\r\n\r\nOK"))

def buildStaticResponse (contentType body : Bytes) : Bytes :=
  statusLine 200 ++ ascii "\r\ncontent-type: " ++ contentType ++ ascii "\r\ncontent-length: " ++
    decimal body.length ++ ascii "\r\nconnection: keep-alive\r\n\r\n" ++ body

/-- The path that a redirect tries: with the last slash removed, or with one more. -/
def alternative (path : Bytes) : Option Bytes :=
  if path = [] ∨ 511 ≤ path.length then none
  else if path.getLast? = some slash then some path.dropLast
  else some (path ++ [slash])

def isTestHost (host : Bytes) : Bool :=
  host == ascii "testserver" || host == ascii "localhost" ||
    (ascii "127.0.0.1").isPrefixOf host || (ascii "::1").isPrefixOf host

def slashRedirectResponse (request : ParsedHttpRequest) (path : Bytes) : Bytes :=
  let host := lastHeader request.headers "host"
  let isHttps := startsWithIgnoringCase (lastHeader request.headers "x-forwarded-proto") "https"
  ascii "HTTP/1.1 307 Temporary Redirect\r\nlocation: " ++
    (if host = [] ∨ isTestHost host then []
      else (if isHttps then ascii "https://" else ascii "http://") ++ host) ++
    withQuery request path ++ ascii "\r\ncontent-length: 0\r\nconnection: keep-alive\r\n\r\n"

/-- `s_resp_404` and `s_resp_405`. -/
def cachedErrorResponse (status : ℤ) (message : Bytes) : Bytes :=
  buildHttpErrorResponse status message true none none

def methodStrToBit (method : Bytes) : UInt8 :=
  if method = ascii "GET" then 1
  else if method = ascii "POST" then 2
  else if method = ascii "PUT" then 4
  else if method = ascii "DELETE" then 8
  else if method = ascii "PATCH" then 16
  else if method = ascii "HEAD" then 32
  else if method = ascii "OPTIONS" then 64
  else if method = ascii "TRACE" then 128
  else 0

/-! ## The guards -/

section Guards

variable {O X : Type*} (app : CoreApp O X) (request : ParsedHttpRequest)

def CoreApp.noted : Noted :=
  request.headers.foldl (noteHeader app.cors.isSome request.noBody) {}

/-- The CORS configuration, when the origin of the request is allowed. -/
def CoreApp.allowedCors : Option (CorsConfig × Bytes) :=
  match app.cors with
  | none => none
  | some (config, _) =>
    if config.originAllowed (app.noted request).origin then
      some (config, (app.noted request).origin)
    else none

/-- What becomes of a request ahead of the route's own code. -/
inductive Front (O X : Type*) where
  | answered (effects : List Effect)
  | page (page : Page O X)
  | upgrade (response : Bytes) (endpoint : Option ℕ)
  | matched (route : RouteEntry) (info : RouteInfo) (params : List (Bytes × Bytes))

/-- `check_trusted_host_inline` fails; a request without a host is not tested. -/
def CoreApp.hostRefused : Bool :=
  match app.trustedHosts with
  | none => false
  | some config =>
    (app.noted request).host ≠ [] && !checkTrustedHost config (app.noted request).host

def CoreApp.redirectsToHttps : Bool := app.httpsRedirect && !forwardedHttps request

def CoreApp.errorResponse (status : ℤ) (message : String) : Bytes :=
  buildHttpErrorResponse status (ascii message) request.keepAlive (app.allowedCors request) none

/-- A 404 or 405: prepared, unless CORS headers are needed. -/
def CoreApp.missingResponse (status : ℤ) (message : String) : Bytes :=
  if app.cachedRefs ∧ app.allowedCors request = none then cachedErrorResponse status (ascii message)
  else app.errorResponse request status message

def CoreApp.preflight : Option (Option Bytes) :=
  match app.cors, app.allowedCors request with
  | some cors, some (_, origin) =>
    if request.method = ascii "OPTIONS" then
      some (buildCorsPreflightResponse cors origin request.keepAlive
        (firstHeader request.headers "access-control-request-headers"))
    else none
  | _, _ => none

def CoreApp.pageOf : Option (Page O X) :=
  if 1 < request.path.length then app.pages.find? fun page => page.url == request.path else none

def CoreApp.routeAt (found : MatchParams) : Option (ℕ × RouteEntry) :=
  if found.routeIndex < 0 then none
  else (app.routes[found.routeIndex.toNat]?).map fun route => (found.routeIndex.toNat, route)

/-- The tests on a matched route; `limited` is the verdict of the rate limiter. -/
def CoreApp.routeFront (limited : Bool) (found : MatchParams) : Front O X :=
  match app.routeAt found with
  | none => .answered [.finished, .write (app.missingResponse request 404 "Not Found")]
  | some (_, route) =>
    if route.methodMask ≠ 0 ∧ route.methodMask &&& methodStrToBit request.method = 0 then
      .answered [.finished, .write (app.missingResponse request 405 "Method Not Allowed")]
    else if limited then
      .answered [.finished, .write (app.errorResponse request 429 "Rate limit exceeded")]
    else
      match route.fastSpec with
      | none =>
        .answered [.finished, .write (app.errorResponse request 500 "Route not configured")]
      | some info => .matched route info found.params

/-- The tests behind the documentation pages. -/
def CoreApp.routing (limited : Bool) : Front O X :=
  let key := firstHeader request.headers "sec-websocket-key"
  if request.upgrade ∧ key ≠ [] then
    .upgrade (app.upgradeResponse key (lastHeader request.headers "sec-websocket-extensions")
        (lastHeader request.headers "sec-websocket-protocol"))
      ((app.router.at request.path).bind fun found => (app.routeAt found).map Prod.fst)
  else
    match app.router.at request.path with
    | some found => app.routeFront request limited found
    | none =>
      match (alternative request.path).filter fun path =>
          app.redirectSlashes && (app.router.at path).isSome with
      | some path => .answered [.finished, .write (slashRedirectResponse request path)]
      | none => .answered [.finished, .write (app.missingResponse request 404 "Not Found")]

def CoreApp.front (limited : Bool) : Front O X :=
  if app.hostRefused request then
    .answered [.finished, .write
      (buildHttpErrorResponse 400 (ascii "Invalid host header") request.keepAlive none none)]
  else if app.redirectsToHttps request then
    .answered [.write (httpsRedirectResponse request (app.noted request).host), .finished]
  else
    match app.preflight request with
    | some response => .answered (.finished :: (response.map Effect.write).toList)
    | none =>
      match app.pageOf request with
      | some page => .page page
      | none => app.routing request limited

end Guards

end AstraApi.Dispatch
