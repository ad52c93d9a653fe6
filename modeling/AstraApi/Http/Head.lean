import AstraApi.Http.Progress
import Mathlib.Data.List.DropRight

/-!
# Heads of requests

The head of a `GET` or `HEAD` request as RFC 9112 writes it: a request line and
field lines, each ended by CR LF, and an empty line.  Below is what the callbacks
of `parse_http_request` are told about such a head.  The options of `Connection`,
the last transfer coding, `Content-Length` and the decision about persistence are
those of the llhttp that is part of the repository.
-/

namespace AstraApi.Http

structure Head where
  isHead : Bool
  target : Bytes
  major : Byte
  minor : Byte
  /-- Names, and values with the whitespace around them. -/
  fields : List Header
  deriving DecidableEq

namespace Head

def method (head : Head) : Bytes := if head.isHead then ascii "HEAD" else ascii "GET"

def crlf : Bytes := [cr, lf]

def requestLine (head : Head) : Bytes :=
  head.method ++ sp :: (head.target ++ (ascii " HTTP/" ++ [head.major, 46, head.minor, cr]))

def renderField (field : Header) : Bytes := field.1 ++ colon :: (field.2 ++ crlf)

def renderFields (fields : List Header) : Bytes := fields.flatMap renderField

/-- What follows the carriage return of the request line. -/
def headerSection (fields : List Header) : Bytes := lf :: (renderFields fields ++ crlf)

def render (head : Head) : Bytes := head.requestLine ++ headerSection head.fields

structure FieldWellFormed (field : Header) : Prop where
  name : ∀ b ∈ field.1, b ≠ colon ∧ b ≠ cr ∧ b ≠ lf
  value : ∀ b ∈ field.2, b ≠ cr ∧ b ≠ lf

structure WellFormed (head : Head) : Prop where
  target : ∀ b ∈ head.target, b ≠ sp ∧ b ≠ cr ∧ b ≠ lf
  fields : ∀ field ∈ head.fields, FieldWellFormed field

instance (field : Header) : Decidable (FieldWellFormed field) :=
  decidable_of_iff
    ((field.1.all fun b => decide (b ≠ colon ∧ b ≠ cr ∧ b ≠ lf)) = true ∧
      (field.2.all fun b => decide (b ≠ cr ∧ b ≠ lf)) = true)
    ⟨fun h => ⟨by simpa using h.1, by simpa using h.2⟩,
      fun h => ⟨by simpa using h.name, by simpa using h.value⟩⟩

instance (head : Head) : Decidable head.WellFormed :=
  decidable_of_iff
    ((head.target.all fun b => decide (b ≠ sp ∧ b ≠ cr ∧ b ≠ lf)) = true ∧
      (head.fields.all fun field => decide (FieldWellFormed field)) = true)
    ⟨fun h => ⟨by simpa using h.1, by simpa using h.2⟩,
      fun h => ⟨by simpa using h.target, by simpa using h.fields⟩⟩

/-! ## Meaning -/

def isOws (b : Byte) : Bool := b = sp || b = htab

def fieldValue (raw : Bytes) : Bytes := raw.dropWhile isOws

/-- An element of a list, without whitespace before it and spaces after it. -/
def option (element : Bytes) : Bytes :=
  ((element.dropWhile isOws).rdropWhile fun b => decide (b = sp)).map lower

def elements (value : Bytes) : List Bytes := value.splitOn comma

/-- llhttp reads `Proxy-Connection` like `Connection`. -/
def isConnection (name : Bytes) : Bool :=
  iequals name "connection" || iequals name "proxy-connection"

def hasOption (head : Head) (word : String) : Bool :=
  head.fields.any fun field =>
    isConnection field.1 && ((elements (fieldValue field.2)).map option).contains (ascii word)

def shouldKeepAlive (head : Head) : Bool :=
  if 48 < head.major ∧ 48 < head.minor then !head.hasOption "close"
  else head.hasOption "keep-alive"

def upgrade (head : Head) : Bool :=
  (head.fields.any fun field => iequals field.1 "upgrade" && !(fieldValue field.2).isEmpty) &&
    head.hasOption "upgrade"

/-- The last transfer coding is `chunked`. -/
def chunked (head : Head) : Bool :=
  head.fields.any fun field =>
    iequals field.1 "transfer-encoding" &&
      ((elements (fieldValue field.2)).getLast?.map option == some (ascii "chunked"))

def isDigit (b : Byte) : Bool := 48 ≤ b && b ≤ 57

def decimal (digits : Bytes) : ℕ :=
  digits.foldl (fun value b => value * 10 + (b.toNat - 48)) 0

/-- The value of `content_length`, which is zero without such a field. -/
def contentLength (head : Head) : UInt64 :=
  match head.fields.find? fun field => iequals field.1 "content-length" with
  | none => 0
  | some field => UInt64.ofNat (decimal ((fieldValue field.2).takeWhile isDigit))

/-- A body of chunks is read before the message is complete. -/
def readsChunks (head : Head) : Bool := head.chunked && !head.upgrade

/-- What llhttp reports when it pauses at the end of a request with this head. -/
structure Reported (head : Head) (execution : Execution) : Prop where
  method : execution.method = head.method
  url : execution.url = head.target
  complete : execution.headersComplete = some
    { kind := if head.isHead then .head else .get
      keepAlive := head.shouldKeepAlive
      upgrade := head.upgrade
      chunked := head.chunked
      contentLength := head.contentLength }
  fields : head.readsChunks = false →
    execution.fields = head.fields.map fun field => (field.1, fieldValue field.2)
  /-- A transfer coding and a declared length exclude each other. -/
  undeclared : head.chunked = true → head.contentLength = 0
  ends : head.readsChunks = false → execution.errorPos = some head.render.length
  /-- The chunks, of which there is at least the last one, follow the head. -/
  chunks : head.readsChunks = true →
    ∃ position, execution.errorPos = some position ∧ head.render.length < position

end Head

open Head

/-- llhttp follows the syntax and the message framing of RFC 9112 on the buffers
that begin with a request line of the two methods. -/
structure Conforms (llhttp : Llhttp) : Prop where
  /-- A request line whose target has no LF is followed by an LF, field lines and
  an empty line. -/
  lines : ∀ (head : Head) (rest : Bytes), (∀ b ∈ head.target, b ≠ sp ∧ b ≠ cr ∧ b ≠ lf) →
    Paused llhttp (head.requestLine ++ rest) →
      ∃ fields tail, (∀ field ∈ fields, FieldWellFormed field) ∧ rest = headerSection fields ++ tail
  /-- An LF is no part of a target. -/
  url : ∀ data, Paused llhttp data → lf ∉ (llhttp data).url
  reports : ∀ (head : Head) (tail : Bytes), head.WellFormed →
    Paused llhttp (head.render ++ tail) → head.Reported (llhttp (head.render ++ tail))

end AstraApi.Http
