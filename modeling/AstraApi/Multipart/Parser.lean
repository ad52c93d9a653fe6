import Mathlib.Data.List.DropRight
import AstraApi.Lib.Bytes
import AstraApi.Lib.Occurrence

/-!
# The streaming multipart parser

`StreamingMultipartParser` reads the parts of a form from the chunks of a request
body.  It looks for the first boundary, then reads the headers of a part and its
data in turn.  What the end of a chunk leaves undecided is kept as lookahead and
put in front of the next chunk.
-/

namespace AstraApi.Multipart

open Bytes Occurrence

inductive MultipartState where
  | preamble
  | partHeader
  | partData
  | done
  | err
  deriving DecidableEq

inductive FeedResult where
  | needMore
  | done
  | err
  | sizeExceeded
  deriving DecidableEq

structure MultipartField where
  name : Bytes
  value : Bytes
  deriving DecidableEq

structure MultipartFile where
  name : Bytes
  filename : Bytes
  contentType : Bytes
  dataBuf : Bytes := []
  deriving DecidableEq

def carriageReturn : Byte := 0x0D
def lineFeed : Byte := 0x0A
def dash : Byte := 0x2D
def quotationMark : Byte := 0x22
def crlf : Bytes := [carriageReturn, lineFeed]
def headersEnd : Bytes := crlf ++ crlf

/-! ## The headers of a part -/

structure PartHeaders where
  name : Bytes := []
  filename : Bytes := []
  contentType : Bytes := []
  isFile : Bool := false
  deriving DecidableEq

def isSpace (b : Byte) : Bool := b = 0x20 || b = 0x09 || b = carriageReturn || b = lineFeed

def trim (text : Bytes) : Bytes := (text.dropWhile isSpace).rdropWhile isSpace

def lower (b : Byte) : Byte := if 0x41 ≤ b ∧ b ≤ 0x5A then b + 32 else b

def unquote (value : Bytes) : Bytes :=
  if value.head? = some quotationMark then (value.drop 1).take (value.length - 2) else value

/-- One parameter of the content disposition. -/
def PartHeaders.segment (part : PartHeaders) (seg : Bytes) : PartHeaders :=
  if ascii "name=" <+: seg then { part with name := unquote (trim (seg.drop 5)) }
  else if ascii "filename=" <+: seg then
    { part with filename := unquote (trim (seg.drop 9)), isFile := true }
  else part

/-- The loop over the parameters.  Every turn takes at least one byte. -/
def dispositionLoop : ℕ → Bytes → PartHeaders → PartHeaders
  | 0, _, part => part
  | _ + 1, [], part => part
  | fuel + 1, b :: bytes, part =>
    let hval := b :: bytes
    let sc := (firstOccurrence (ascii ";") hval).getD hval.length
    dispositionLoop fuel (hval.drop (sc + 1)) (part.segment (trim (hval.take sc)))

def PartHeaders.line (part : PartHeaders) (line : Bytes) : PartHeaders :=
  match firstOccurrence (ascii ":") line with
  | none => part
  | some colon =>
    let hname := trim ((line.take colon).map lower)
    let hval := trim (line.drop (colon + 1))
    if hname = ascii "content-disposition" then dispositionLoop hval.length hval part
    else if hname = ascii "content-type" then { part with contentType := hval }
    else part

/-- The loop over the lines, which stops at an empty one. -/
def partHeadersLoop : ℕ → Bytes → PartHeaders → PartHeaders
  | 0, _, part => part
  | _ + 1, [], part => part
  | fuel + 1, b :: bytes, part =>
    let hdr := b :: bytes
    let nl := (firstOccurrence crlf hdr).getD hdr.length
    let line := hdr.take nl
    if line = [] then part else partHeadersLoop fuel (hdr.drop (nl + 2)) (part.line line)

def parsePartHeaders (hdr : Bytes) : PartHeaders :=
  partHeadersLoop hdr.length hdr { contentType := ascii "application/octet-stream" }

/-! ## The parser -/

/-- `boundary` has the two dashes in front.  `curFile` tells whether `cur_file_` points
to the last file. -/
structure StreamingMultipartParser where
  boundary : Bytes
  maxBodySize : ℕ
  state : MultipartState := .preamble
  totalBytes : ℕ := 0
  lookahead : Bytes := []
  curHeaderBuf : Bytes := []
  curFieldData : Bytes := []
  cur : PartHeaders := {}
  curFile : Bool := false
  fields : List MultipartField := []
  files : List MultipartFile := []
  deriving DecidableEq

namespace StreamingMultipartParser

def create (boundary : Bytes) (maxBodySize : ℕ) : StreamingMultipartParser :=
  { boundary := [dash, dash] ++ boundary, maxBodySize := maxBodySize }

def delim (parser : StreamingMultipartParser) : Bytes := crlf ++ parser.boundary

def bmhSearch (parser : StreamingMultipartParser) (data : Bytes) : Option ℕ :=
  if data.length < parser.boundary.length then none
  else
    horspool (skipTable 255 parser.boundary) parser.boundary data data.length
      (parser.boundary.length - 1)

def skipLineEnd (data : Bytes) (after : ℕ) : ℕ :=
  let after := if data[after]? = some carriageReturn then after + 1 else after
  if data[after]? = some lineFeed then after + 1 else after

/-- What follows a boundary that was found: two dashes end the form, anything else is
the next part.  Two bytes have to be there. -/
def afterBoundary (parser : StreamingMultipartParser) (data : Bytes) (pos after : ℕ) :
    FeedResult × ℕ × StreamingMultipartParser :=
  if data.length < after + 2 then
    (.needMore, pos, { parser with lookahead := data.drop pos })
  else if data[after]? = some dash ∧ data[after + 1]? = some dash then
    (.done, after + 2, { parser with state := .done })
  else
    (.needMore, skipLineEnd data after, { parser with state := .partHeader, curHeaderBuf := [] })

def processPreamble (parser : StreamingMultipartParser) (data : Bytes) :
    FeedResult × ℕ × StreamingMultipartParser :=
  match parser.bmhSearch data with
  | none =>
    let keep := min data.length (parser.boundary.length - 1)
    (.needMore, data.length, { parser with lookahead := data.drop (data.length - keep) })
  | some pos => parser.afterBoundary data pos (pos + parser.boundary.length)

def maxHeaderSize : ℕ := 65536

def processHeader (parser : StreamingMultipartParser) (data : Bytes) :
    FeedResult × ℕ × StreamingMultipartParser :=
  match firstOccurrence headersEnd data with
  | none =>
    if maxHeaderSize < parser.curHeaderBuf.length + data.length then (.err, 0, parser)
    else (.needMore, data.length, { parser with curHeaderBuf := parser.curHeaderBuf ++ data })
  | some found =>
    let cur := parsePartHeaders (parser.curHeaderBuf ++ data.take found)
    let parser := { parser with curHeaderBuf := [], cur := cur, state := .partData }
    (.needMore, found + 4,
      if cur.isFile then
        { parser with
          files := parser.files ++ [⟨cur.name, cur.filename, cur.contentType, []⟩]
          curFile := true }
      else { parser with curFieldData := [] })

/-- The data goes to the open file, or to the field. -/
def toFile (parser : StreamingMultipartParser) : Bool := parser.cur.isFile && parser.curFile

def curSize (parser : StreamingMultipartParser) : ℕ :=
  if parser.toFile then ((parser.files.getLast?.map MultipartFile.dataBuf).getD []).length
  else parser.curFieldData.length

def store (parser : StreamingMultipartParser) (data : Bytes) : StreamingMultipartParser :=
  if parser.toFile then
    { parser with
      files :=
        match parser.files.getLast? with
        | none => []
        | some file => parser.files.dropLast ++ [{ file with dataBuf := file.dataBuf ++ data }] }
  else { parser with curFieldData := parser.curFieldData ++ data }

def closePart (parser : StreamingMultipartParser) : StreamingMultipartParser :=
  if parser.toFile then { parser with curFile := false }
  else { parser with fields := parser.fields ++ [⟨parser.cur.name, parser.curFieldData⟩] }

/-- The last bytes, which may be the start of a delimiter, are not stored yet. -/
def processData (parser : StreamingMultipartParser) (data : Bytes) :
    FeedResult × ℕ × StreamingMultipartParser :=
  match firstOccurrence parser.delim data with
  | none =>
    let safe := data.length - (parser.delim.length - 1)
    if 0 < safe ∧ parser.maxBodySize < parser.curSize + safe then (.err, 0, parser)
    else
      (.needMore, data.length,
        { parser.store (data.take safe) with lookahead := data.drop safe })
  | some pos =>
    (parser.store (data.take pos)).closePart.afterBoundary data pos (pos + parser.delim.length)

def process (parser : StreamingMultipartParser) (data : Bytes) :
    FeedResult × ℕ × StreamingMultipartParser :=
  match parser.state with
  | .preamble => parser.processPreamble data
  | .partHeader => parser.processHeader data
  | .partData => parser.processData data
  | .done | .err => (.done, 0, parser)

/-- The loop of `feed` over the bytes that are left.  Every turn takes at least one
byte, so fuel above their number is never used up. -/
def feedLoop : ℕ → StreamingMultipartParser → Bytes → FeedResult × StreamingMultipartParser
  | 0, parser, _ => (.needMore, parser)
  | _ + 1, parser, [] => (if parser.state = .done then .done else .needMore, parser)
  | fuel + 1, parser, b :: bytes =>
    let data := b :: bytes
    let (result, consumed, parser) := parser.process data
    if result = .needMore then
      if consumed = 0 then (.needMore, { parser with lookahead := data })
      else feedLoop fuel parser (data.drop consumed)
    else (result, parser)

def feed (parser : StreamingMultipartParser) (chunk : Bytes) :
    FeedResult × StreamingMultipartParser :=
  if parser.state = .done then (.done, parser)
  else if parser.state = .err then (.err, parser)
  else
    let parser :=
      if 0 < parser.maxBodySize then
        { parser with totalBytes := parser.totalBytes + chunk.length }
      else parser
    if 0 < parser.maxBodySize ∧ parser.maxBodySize < parser.totalBytes then
      (.sizeExceeded, parser)
    else
      let data := parser.lookahead ++ chunk
      feedLoop (data.length + 1) { parser with lookahead := [] } data

/-- The chunks one after another, up to the first result other than `NEED_MORE`. -/
def feedAll : StreamingMultipartParser → List Bytes → FeedResult × StreamingMultipartParser
  | parser, [] => (.needMore, parser)
  | parser, chunk :: chunks =>
    match parser.feed chunk with
    | (.needMore, parser) => parser.feedAll chunks
    | (result, parser) => (result, parser)

end StreamingMultipartParser

open StreamingMultipartParser

def multipartOutcome (boundary : Bytes) (maxBodySize : ℕ) (chunks : List Bytes) :
    FeedResult × List MultipartField × List MultipartFile :=
  let (result, parser) := (create boundary maxBodySize).feedAll chunks
  (result, parser.fields, parser.files)

end AstraApi.Multipart
