import AstraApi.Lib.Bytes

/-!
# Parsing a request

`dispatch_one_request` first tries a scanner of its own for simple `GET` and
`HEAD` requests and leaves everything else to `parse_http_request`, which drives
llhttp.  Of llhttp the model keeps what its callbacks have recorded when
`llhttp_execute` returns.
-/

namespace AstraApi.Http

/-! ## Bytes with a meaning -/

def cr : Byte := 13
def lf : Byte := 10
def sp : Byte := 32
def htab : Byte := 9
def colon : Byte := 58
def question : Byte := 63
def comma : Byte := 44

/-- ASCII upper case becomes lower case. -/
def lower (b : Byte) : Byte := if 65 ≤ b ∧ b ≤ 90 then b + 32 else b

def iequals (bytes : Bytes) (name : String) : Bool := bytes.map lower == ascii name

def startsWithIgnoringCase (bytes : Bytes) (word : String) : Bool :=
  (bytes.take (ascii word).length).map lower == ascii word

/-! ## Requests -/

def maxHeaders : ℕ := 32
def maxChunkedBody : ℕ := 10 * 1024 * 1024

abbrev Header := Bytes × Bytes

structure ParsedHttpRequest where
  method : Bytes := []
  path : Bytes := []
  queryString : Bytes := []
  headers : List Header := []
  body : Bytes := []
  keepAlive : Bool := false
  upgrade : Bool := false
  chunked : Bool := false
  bodyTooLarge : Bool := false
  noBody : Bool := false
  isHead : Bool := false
  totalConsumed : ℕ := 0
  deriving DecidableEq

inductive ParseResult where
  | needMore
  | error
  | request (parsed : ParsedHttpRequest)
  deriving DecidableEq

/-- The part of a target before its first question mark, and the part after it. -/
def splitTarget (target : Bytes) : Bytes × Bytes :=
  (target.takeWhile (· ≠ question), (target.dropWhile (· ≠ question)).drop 1)

/-! ## llhttp -/

/-- The methods that `on_headers_complete` tells apart. -/
inductive MethodKind where
  | get
  | head
  | options
  | other
  deriving DecidableEq

/-- The state of the parser when `on_headers_complete` is called. -/
structure HeadersComplete where
  kind : MethodKind
  keepAlive : Bool
  upgrade : Bool
  chunked : Bool
  contentLength : UInt64

inductive Errno where
  | ok
  | paused
  | pausedUpgrade
  | error
  deriving DecidableEq

/-- What `llhttp_execute` returns and what the callbacks were given. -/
structure Execution where
  errno : Errno
  /-- `llhttp_get_error_pos`, as an offset. -/
  errorPos : Option ℕ := none
  method : Bytes := []
  url : Bytes := []
  fields : List Header := []
  headersComplete : Option HeadersComplete := none
  /-- The pieces that `on_body` was called with. -/
  pieces : List Bytes := []

abbrev Llhttp := Bytes → Execution

def appendChunked (pieces : List Bytes) : Bytes × Bool :=
  pieces.foldl
    (fun (body, tooLarge) piece =>
      if maxChunkedBody < body.length + piece.length then (body, true)
      else (body ++ piece, tooLarge))
    ([], false)

/-- What the callbacks have written into the request. -/
def record (execution : Execution) : ParsedHttpRequest :=
  let (path, query) := splitTarget execution.url
  let parsed : ParsedHttpRequest :=
    { method := execution.method
      path := path
      queryString := query
      headers := execution.fields.take maxHeaders }
  match execution.headersComplete with
  | none => parsed
  | some complete =>
    let parsed := { parsed with keepAlive := complete.keepAlive, upgrade := complete.upgrade }
    if complete.upgrade then parsed
    else if complete.kind = .other then
      if complete.chunked then
        let (body, tooLarge) := appendChunked execution.pieces
        { parsed with chunked := true, body := body, bodyTooLarge := tooLarge }
      else { parsed with body := execution.pieces.flatten }
    else { parsed with noBody := true, isHead := decide (complete.kind = .head) }

/-- The `Content-Length` that was saved for a method without a body; the largest
value stands for none. -/
def bodySkipLen (execution : Execution) : UInt64 :=
  match execution.headersComplete with
  | none => 0
  | some complete => complete.contentLength

/-- `parse_http_request`; lengths are added as machine words. -/
def parseHttpRequest (llhttp : Llhttp) (data : Bytes) : ParseResult :=
  let execution := llhttp data
  match execution.errno with
  | .ok => .needMore
  | .error => .error
  | .paused | .pausedUpgrade =>
    let headerEnd := execution.errorPos.getD data.length
    let parsed := record execution
    if parsed.noBody then
      let cl := bodySkipLen execution
      if cl ≠ UInt64.ofNat (2 ^ 64 - 1) ∧ 0 < cl then
        let totalNeeded := (headerEnd + cl.toNat) % 2 ^ 64
        if data.length < totalNeeded then .needMore
        else .request { parsed with totalConsumed := totalNeeded }
      else .request { parsed with totalConsumed := headerEnd }
    else .request { parsed with totalConsumed := headerEnd }

/-! ## The fast path -/

def isLineByte (b : Byte) : Bool := b ≠ cr && b ≠ lf

/-- Step over a byte if it comes next. -/
def skipByte (b : Byte) : Bytes → Bytes
  | first :: rest => if first = b then rest else first :: rest
  | [] => []

/-- The loop over header lines: the headers and what follows the empty line. -/
def scanHeaders : ℕ → Bytes → Option (List Header × Bytes)
  | 0, _ => none
  | slots + 1, data =>
    match data with
    | [] => none
    | first :: rest =>
      if first = cr ∧ rest.head? = some lf then some ([], rest.drop 1)
      else if first = lf then some ([], rest)
      else
        let name := data.takeWhile fun b => b ≠ colon && isLineByte b
        match data.dropWhile fun b => b ≠ colon && isLineByte b with
        | [] => none
        | stop :: afterName =>
          if stop ≠ colon then none
          else
            let afterSpace := afterName.dropWhile (· = sp)
            let value := afterSpace.takeWhile isLineByte
            let next := skipByte lf (skipByte cr (afterSpace.dropWhile isLineByte))
            match scanHeaders slots next with
            | none => none
            | some (headers, tail) => some ((name, value) :: headers, tail)

/-- The loop over `Connection` headers: `none` when one starts with `upgrade`,
else whether the connection is kept alive. -/
def scanConnection : List Header → Bool → Option Bool
  | [], keepAlive => some keepAlive
  | (name, value) :: headers, keepAlive =>
    if iequals name "connection" then
      if startsWithIgnoringCase value "upgrade" then none
      else scanConnection headers (keepAlive && !startsWithIgnoringCase value "close")
    else scanConnection headers keepAlive

/-- The bytes after the target are ` HTTP/x.y` and a carriage return. -/
def isVersion (data : Bytes) : Bool :=
  data.take 6 == ascii " HTTP/" && data[7]? == some 46 && data[9]? == some cr

/-- The fast path after the method. -/
def scanRequest (isHead : Bool) (data : Bytes) (target : Bytes) : Option ParsedHttpRequest :=
  let uri := target.takeWhile fun b => b ≠ sp && b ≠ cr
  let rest := target.dropWhile fun b => b ≠ sp && b ≠ cr
  if isVersion rest then
    match scanHeaders maxHeaders (skipByte lf (rest.drop 10)) with
    | none => none
    | some (headers, tail) =>
      match scanConnection headers true with
      | none => none
      | some keepAlive =>
        let (path, query) := splitTarget uri
        some
          { method := if isHead then ascii "HEAD" else ascii "GET"
            path := path
            queryString := query
            headers := headers
            keepAlive := keepAlive
            noBody := true
            isHead := isHead
            totalConsumed := data.length - tail.length }
  else none

/-- The scanner for `GET` and `HEAD` in `dispatch_one_request`. -/
def fastParse (data : Bytes) : Option ParsedHttpRequest :=
  if 16 ≤ data.length ∧ data.take 4 = ascii "GET " then scanRequest false data (data.drop 4)
  else if 17 ≤ data.length ∧ data.take 5 = ascii "HEAD " then scanRequest true data (data.drop 5)
  else none

def parseStep (llhttp : Llhttp) (data : Bytes) : ParseResult :=
  match fastParse data with
  | some parsed => .request parsed
  | none => parseHttpRequest llhttp data

end AstraApi.Http
