import AstraApi.Response.Json

/-!
# Response bytes

Status lines, CORS headers and the two response builders behind the caches:
`build_json_response_bytes` for a JSON result, and the header block of
`dispatch_one_request` for a `Response` object.
-/

namespace AstraApi.Response

def statusReason : ℤ → String
  | 200 => "OK"
  | 201 => "Created"
  | 204 => "No Content"
  | 301 => "Moved Permanently"
  | 302 => "Found"
  | 304 => "Not Modified"
  | 307 => "Temporary Redirect"
  | 308 => "Permanent Redirect"
  | 400 => "Bad Request"
  | 401 => "Unauthorized"
  | 403 => "Forbidden"
  | 404 => "Not Found"
  | 405 => "Method Not Allowed"
  | 422 => "Unprocessable Entity"
  | 500 => "Internal Server Error"
  | _ => "Unknown"

def statusEntries : List (ℤ × String) :=
  [(200, "OK"), (201, "Created"), (204, "No Content"), (301, "Moved Permanently"),
    (302, "Found"), (304, "Not Modified"), (307, "Temporary Redirect"),
    (308, "Permanent Redirect"), (400, "Bad Request"), (401, "Unauthorized"),
    (403, "Forbidden"), (404, "Not Found"), (405, "Method Not Allowed"),
    (413, "Payload Too Large"), (422, "Unprocessable Entity"),
    (500, "Internal Server Error"), (502, "Bad Gateway"), (503, "Service Unavailable")]

def statusText (status : ℤ) (reason : String) : Bytes :=
  ascii "HTTP/1.1 " ++ decimal status ++ ascii " " ++ ascii reason

/-- `s_status_lines`, without the line end. -/
def cachedStatusLine (status : ℤ) : Option Bytes :=
  (statusEntries.lookup status).map (statusText status)

def statusLine (status : ℤ) : Bytes :=
  (cachedStatusLine status).getD (statusText status (statusReason status))

def jsonHeader : Bytes :=
  ascii "\r\ncontent-type: application/json\r\ncontent-length: "

def connectionSuffix (keepAlive : Bool) : Bytes :=
  if keepAlive then ascii "\r\nconnection: keep-alive\r\n\r\n"
  else ascii "\r\nconnection: close\r\n\r\n"

/-! ## CORS -/

structure CorsConfig where
  allowAnyOrigin : Bool
  allowOrigins : List Bytes
  allowOriginRegex : Option (Bytes → Bool) := none
  allowCredentials : Bool := false
  exposeHeaders : List Bytes := []

def CorsConfig.originAllowed (cors : CorsConfig) (origin : Bytes) : Bool :=
  origin ≠ [] && (cors.allowAnyOrigin || cors.allowOrigins.contains origin ||
    match cors.allowOriginRegex with
    | none => false
    | some regex => regex origin)

def CorsConfig.isWildcard (cors : CorsConfig) : Bool :=
  cors.allowOrigins == [ascii "*"]

def buildCorsHeaders (cors : CorsConfig) (origin : Bytes) : Bytes :=
  if origin = [] ∨ 0x0d ∈ origin ∨ 0x0a ∈ origin then []
  else
    ascii "\r\naccess-control-allow-origin: " ++
    (if !cors.allowCredentials && cors.isWildcard then ascii "*" else origin) ++
    (if cors.allowCredentials then ascii "\r\naccess-control-allow-credentials: true" else []) ++
    (if cors.exposeHeaders = [] then []
      else ascii "\r\naccess-control-expose-headers: " ++
        (ascii ", ").intercalate cors.exposeHeaders) ++
    (if cors.allowCredentials || 1 < cors.allowOrigins.length ||
        (cors.allowOrigins.length == 1 && !cors.isWildcard) then ascii "\r\nvary: Origin" else [])

/-! ## JSON results -/

section Json

variable (status : ℤ) (keepAlive isHead : Bool) (cors : Option (CorsConfig × Bytes))

/-- The fast path of the builders: a prepared prefix and no CORS headers. -/
def buildFastJsonResponse (prepared body : Bytes) : Bytes :=
  prepared ++ jsonHeader ++ decimal body.length ++ connectionSuffix keepAlive ++
    (if isHead then [] else body)

def buildHttpResponseBytes (body : Bytes) : Bytes :=
  let corsHeaders :=
    match cors with
    | none => []
    | some (config, origin) => buildCorsHeaders config origin
  if status = 204 ∨ status = 304 then
    statusText status (statusReason status) ++ corsHeaders ++ connectionSuffix keepAlive
  else
    match cors, cachedStatusLine status with
    | none, some prepared => buildFastJsonResponse keepAlive isHead prepared body
    | _, _ =>
      statusLine status ++ jsonHeader ++ decimal body.length ++ corsHeaders ++
        connectionSuffix keepAlive ++ (if isHead then [] else body)

variable {F O : Type*} (runtime : Runtime F O)

/-- `build_json_response_bytes`: a result without a body keeps no CORS
headers. -/
def buildJsonResponseBytes (value : PyObj F O) : Option Bytes :=
  (writeJson runtime 0 value).map fun body =>
    if status = 204 ∨ status = 304 then
      statusText status (statusReason status) ++ connectionSuffix keepAlive
    else
      match cors, cachedStatusLine status with
      | none, some prepared => buildFastJsonResponse keepAlive isHead prepared body
      | _, _ => buildHttpResponseBytes status keepAlive isHead cors body

end Json

/-! ## `Response` objects -/

/-- An item of `raw_headers`, with the address of the tuple; items that are not
pairs of bytes are skipped. -/
structure HeaderItem where
  address : UInt64
  pair : Option (Bytes × Bytes)

structure ResponseObject where
  body : Bytes
  status : ℤ
  rawHeaders : List HeaderItem
  background : Bool := false

def lower (b : Byte) : Byte :=
  if 0x41 ≤ b ∧ b ≤ 0x5a then b + 0x20 else b

def HeaderItem.isContentLength (header : HeaderItem) : Bool :=
  match header.pair with
  | some (name, _) => name.map lower == ascii "content-length"
  | none => false

def HeaderItem.text (header : HeaderItem) : Bytes :=
  match header.pair with
  | some (name, value) => ascii "\r\n" ++ name ++ ascii ": " ++ value
  | none => []

def buildObjectResponse (object : ResponseObject) (keepAlive isHead : Bool)
    (cors : Option (CorsConfig × Bytes)) : Bytes :=
  statusLine object.status ++ object.rawHeaders.flatMap HeaderItem.text ++
    (if object.rawHeaders.any HeaderItem.isContentLength ∨
        object.status = 204 ∨ object.status = 304 then []
      else ascii "\r\ncontent-length: " ++ decimal object.body.length) ++
    (match cors with
      | none => []
      | some (config, origin) => buildCorsHeaders config origin) ++
    connectionSuffix keepAlive ++ (if isHead then [] else object.body)

end AstraApi.Response
