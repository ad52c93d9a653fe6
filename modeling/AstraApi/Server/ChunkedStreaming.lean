import AstraApi.Server.Pipeline
import AstraApi.Response.Builders
import AstraApi.Lib.Chunked
import AstraApi.Lib.Text

/-!
# Streaming responses

`_write_chunked_streaming` writes the header of a response as it was given, with
`transfer-encoding: chunked` in front, then a chunk for each piece of the body.  An
exception of the body is caught, and the last chunk is written all the same.
-/

namespace AstraApi.Server

open List Option
open Coroutine
open Response (statusText)
open Message (Field IsToken CrlfFree isFraming HasContent ChunkedResponse readChunked trimmed
  fieldLine chunkFrame lastChunk crlf transferEncoding)

variable {fields : List Field} {status : ℤ}

/-! ## The header -/

inductive Octets where
  | bytes (data : Bytes)
  | str (text : Text)

def Octets.latin1 : Octets → Option Bytes
  | .bytes data => some data
  | .str text => text.latin1

def Octets.utf8 : Octets → Option Bytes
  | .bytes data => some data
  | .str text => text.utf8

abbrev HeaderPair := Octets × Octets

def statusPhrases : List (ℤ × String) :=
  [(200, "OK"), (201, "Created"), (202, "Accepted"), (203, "Non-Authoritative Information"),
    (204, "No Content"), (205, "Reset Content"), (206, "Partial Content"), (207, "Multi-Status"),
    (208, "Already Reported"), (301, "Moved Permanently"), (302, "Found"), (303, "See Other"),
    (304, "Not Modified"), (307, "Temporary Redirect"), (308, "Permanent Redirect"),
    (400, "Bad Request"), (401, "Unauthorized"), (403, "Forbidden"), (404, "Not Found"),
    (405, "Method Not Allowed"), (406, "Not Acceptable"), (408, "Request Timeout"),
    (409, "Conflict"), (410, "Gone"), (413, "Payload Too Large"), (415, "Unsupported Media Type"),
    (422, "Unprocessable Entity"), (429, "Too Many Requests"), (500, "Internal Server Error"),
    (501, "Not Implemented"), (502, "Bad Gateway"), (503, "Service Unavailable"),
    (504, "Gateway Timeout")]

def streamingStatusLine (status : ℤ) : Bytes :=
  match statusPhrases.lookup status with
  | some phrase => statusText status phrase ++ ascii "\r\ntransfer-encoding: chunked\r\n"
  | none => statusText status "" ++ ascii "\r\ntransfer-encoding: chunked\r\n"

/-- A pair as it is written; `none` is a `UnicodeEncodeError`. -/
def headerPart (pair : HeaderPair) : Option Bytes := do
  let name ← pair.1.latin1
  let value ← pair.2.latin1
  return name ++ ascii ": " ++ value ++ ascii "\r\n"

def streamingHeader (status : ℤ) (headersList corsHeaders : List HeaderPair) : Option Bytes := do
  let parts ← headersList.mapM headerPart
  let corsParts ← corsHeaders.mapM headerPart
  return streamingStatusLine status ++ parts.flatten ++ corsParts.flatten ++ ascii "\r\n"

/-! ## The body -/

/-- Exceptions of the encoder, and those of other code. -/
inductive StreamExc (X : Type*) where
  | unicodeEncodeError
  | raised (exc : X)

inductive StreamBody (O X : Type*) where
  | stop
  | raise (exc : StreamExc X)
  | chunk (chunk : Octets) (next : StreamBody O X)
  | wait (awaitable : Option O) (next : Except (StreamExc X) (Answer O) → StreamBody O X)

section Streaming

variable {σ O X : Type*}

def StreamBody.toBody : StreamBody O X → Body O (StreamExc X)
  | .stop => .stop
  | .raise exc => .raise exc
  | .chunk piece next =>
    match piece.utf8 with
    | none => .raise .unicodeEncodeError
    | some data => .chunk data next.toBody
  | .wait awaitable next => .wait awaitable fun answer => (next answer).toBody

def StreamExc.caught (isException : X → Bool) : StreamExc X → Bool
  | .unicodeEncodeError => true
  | .raised exc => isException exc

variable (isException : X → Bool)

def writeStreamingResponse (status : ℤ) (headersList corsHeaders : List HeaderPair)
    (body : StreamBody O X) : Handler O (StreamExc X) Unit :=
  match streamingHeader status headersList corsHeaders with
  | none => .throw .unicodeEncodeError
  | some header => writeChunkedStreaming (StreamExc.caught isException) header body.toBody

variable (env : Environment σ (Op O) (Answer O) (StreamExc X))

/-- What is taken from the iterator, and the exception it raises.  Nothing more is taken
after a chunk that has no encoding. -/
def StreamBody.iterate : StreamBody O X → σ → List Octets × Option (StreamExc X)
  | .stop, _ => ([], none)
  | .raise exc, _ => ([], some exc)
  | .chunk piece next, s =>
    match piece.utf8 with
    | none => ([piece], none)
    | some [] => (piece :: (next.iterate s).1, (next.iterate s).2)
    | some data =>
      let s := (env.perform s (.write (buildChunkedFrame data))).2
      (piece :: (next.iterate s).1, (next.iterate s).2)
  | .wait awaitable next, s =>
    (next (env.resume s (.wait awaitable)).1).iterate (env.resume s (.wait awaitable)).2

/-- The same for the body of a response whose header has been written. -/
def iterationOf (status : ℤ) (headersList corsHeaders : List HeaderPair) (body : StreamBody O X)
    (s : σ) : List Octets × Option (StreamExc X) :=
  match streamingHeader status headersList corsHeaders with
  | none => body.iterate env s
  | some header => body.iterate env (env.perform s (.write header)).2

def sentBy (handler : Handler O (StreamExc X) Unit) (s : σ) : Bytes :=
  (writesOf (handler.run env s).2.2).flatten

end Streaming

/-! ## What a client reads -/

def encodePair (pair : HeaderPair) : Option Field := do
  let name ← pair.1.latin1
  let value ← pair.2.latin1
  return (name, value)

def chunkedField : Field := (transferEncoding, ascii "chunked")

structure HeadAs (response : ChunkedResponse) (status : ℤ) (fields : List Field) : Prop where
  status_eq : (response.status : ℤ) = status
  fields_eq : response.fields = chunkedField :: fields.map trimmed
  framing : response.fields.filter isFraming = [chunkedField]

/-- A client reads the concatenation of the chunks.  When the iterator has raised an
exception, it is still waiting for the rest of the message. -/
def Faithful {X : Type*} (status : ℤ) (headers : List HeaderPair)
    (iteration : List Octets × Option (StreamExc X)) (sent : Bytes) : Prop :=
  ∃ fields, headers.mapM encodePair = some fields ∧
    match iteration.2 with
    | none => ∃ chunks response, iteration.1.mapM Octets.utf8 = some chunks ∧
        readChunked sent = some response ∧ HeadAs response status fields ∧
          response.chunks.flatten = chunks.flatten
    | some _ => readChunked sent = none ∧ ∃ more response,
        readChunked (sent ++ more) = some response ∧ HeadAs response status fields

/-- The status has content, the pairs are fields of one line that do not tell a length, every
chunk has an encoding, and what the iterator raises is not caught. -/
structure Streamable {X : Type*} (isException : X → Bool) (status : ℤ) (headers : List HeaderPair)
    (iteration : List Octets × Option (StreamExc X)) : Prop where
  status : ∃ code : ℕ, status = code ∧ HasContent code
  headers : ∃ fields, headers.mapM encodePair = some fields ∧
    ∀ field ∈ fields, IsToken field.1 ∧ CrlfFree field.2 ∧ isFraming field = false
  chunks : ∀ chunk ∈ iteration.1, chunk.utf8 ≠ none
  failure : ∀ exc ∈ iteration.2, exc.caught isException = false

/-! ## What is written -/

section Run

variable {σ O X : Type*} (env : Environment σ (Op O) (Answer O) (StreamExc X))
variable (isException : X → Bool)

def endingOf (iteration : List Octets × Option (StreamExc X)) : Except (StreamExc X) Unit :=
  if iteration.1.all fun chunk => chunk.utf8.isSome then
    match iteration.2 with
    | none => .ok ()
    | some exc => .error exc
  else .error .unicodeEncodeError

def nonEmpty (chunks : List Octets) : List Bytes := (chunks.filterMap Octets.utf8).filter (· ≠ [])

def framesOf (chunks : List Octets) : Bytes := (nonEmpty chunks).flatMap chunkFrame

theorem buildChunkedFrame_eq (chunk : Bytes) : buildChunkedFrame chunk = chunkFrame chunk := rfl

theorem endingOf_cons {chunk : Octets} {data : Bytes} (h : chunk.utf8 = some data)
    (iteration : List Octets × Option (StreamExc X)) :
    endingOf (chunk :: iteration.1, iteration.2) = endingOf iteration := by
  simp [endingOf, h]

theorem run_writeBody (body : StreamBody O X) (s : σ) :
    ∃ s' events, (writeBody body.toBody).run env s = (endingOf (body.iterate env s), s', events) ∧
      (writesOf events).flatten = framesOf (body.iterate env s).1 := by
  induction body generalizing s with
  | stop => exact ⟨s, [], rfl, rfl⟩
  | raise exc => exact ⟨s, [], rfl, rfl⟩
  | wait awaitable next ih =>
    obtain ⟨s', events, hrun, hwrites⟩ :=
      ih _ _
    refine ⟨s', .awaited (.wait awaitable) :: events, ?_, hwrites⟩
    simp [StreamBody.toBody, writeBody, Coro.run, hrun, StreamBody.iterate]
  | chunk piece next ih =>
    cases hutf8 : piece.utf8 with
    | none =>
      refine ⟨s, [], ?_, ?_⟩
      · simp [StreamBody.toBody, StreamBody.iterate, hutf8, writeBody, Coro.run, endingOf]
      · simp [StreamBody.iterate, hutf8, framesOf, nonEmpty, writesOf]
    | some data =>
      cases data with
      | nil =>
        obtain ⟨s', events, hrun, hwrites⟩ := ih s
        refine ⟨s', events, ?_, ?_⟩
        · simp [StreamBody.toBody, StreamBody.iterate, hutf8, writeBody, hrun, endingOf_cons hutf8 _]
        · simp only [StreamBody.iterate, hutf8, hwrites, framesOf, nonEmpty, filterMap_cons]
          simp
      | cons b data =>
        obtain ⟨s', events, hrun, hwrites⟩ :=
          ih (env.perform s (.write (buildChunkedFrame (b :: data)))).2
        refine ⟨s', .performed (.write (buildChunkedFrame (b :: data))) :: events, ?_, ?_⟩
        · simp [StreamBody.toBody, StreamBody.iterate, hutf8, writeBody, Coro.run, hrun, endingOf_cons hutf8 _]
        · simp only [StreamBody.iterate, hutf8, writesOf, flatten_cons, hwrites, framesOf,
            nonEmpty, filterMap_cons, buildChunkedFrame_eq]
          simp

/-- The last chunk follows an iteration that returns and one whose exception is caught. -/
def terminator : Except (StreamExc X) Unit → Bytes
  | .ok _ => lastChunk
  | .error exc => if exc.caught isException then lastChunk else []

theorem sentBy_writeChunkedStreaming (header : Bytes) (body : StreamBody O X) (s : σ) :
    sentBy env (writeChunkedStreaming (StreamExc.caught isException) header body.toBody) s =
      header ++ framesOf (body.iterate env (env.perform s (.write header)).2).1 ++
        terminator isException (endingOf (body.iterate env (env.perform s (.write header)).2)) := by
  obtain ⟨s', events, hrun, hwrites⟩ := run_writeBody _ _ _
  have hheader : (write header : Handler O (StreamExc X) Unit).run env s =
      (.ok (), (env.perform s (.write header)).2, [.performed (.write header)]) := rfl
  rw [sentBy, writeChunkedStreaming, Coro.run_bind hheader, exceptException, Coro.run_tryCatch]
  cases hending : endingOf (body.iterate env (env.perform s (.write header)).2) with
  | ok value =>
    rw [hending] at hrun
    rw [Coro.run_bind hrun]
    simp only [write, Coro.run, preceded, terminator, writesOf_append, flatten_append,
      hwrites, append_assoc]
    simp [writesOf, lastChunk]
  | error exc =>
    rw [hending] at hrun
    rw [Coro.run_bind_error hrun]
    cases hcaught : exc.caught isException with
    | true =>
      simp only [hcaught, if_true, getD_some, write, Coro.run, preceded, terminator,
        writesOf_append, flatten_append, hwrites, append_assoc]
      simp [writesOf, lastChunk]
    | false =>
      simp only [hcaught, if_neg Bool.false_ne_true, getD_none, Coro.run, preceded,
        terminator, writesOf_append, flatten_append, hwrites, append_assoc]
      simp [writesOf]

end Run

/-! ## The head of the message -/

def phraseOf (status : ℤ) : String := (statusPhrases.lookup status).getD ""

def startLine (status : ℤ) : Bytes := statusText status (phraseOf status)

def messageOf (status : ℤ) (fields : List Field) (content : Bytes) : Bytes :=
  Message.writeMessage (startLine status) ((chunkedField :: fields).map fieldLine) content

theorem messageOf_append (status : ℤ) (fields : List Field) (content more : Bytes) :
    messageOf status fields (content ++ more) = messageOf status fields content ++ more := by
  simp [messageOf, Message.writeMessage]

theorem streamingStatusLine_eq (status : ℤ) :
    streamingStatusLine status = startLine status ++ crlf ++ (fieldLine chunkedField ++ crlf) := by
  have hfield : ascii "\r\ntransfer-encoding: chunked\r\n" =
      crlf ++ (fieldLine chunkedField ++ crlf) := by decide
  rw [append_assoc, ← hfield, streamingStatusLine, startLine, phraseOf]
  cases statusPhrases.lookup status <;> rfl

theorem mapM_headerPart (pairs : List HeaderPair) :
    pairs.mapM headerPart =
      (pairs.mapM encodePair).map fun fields => fields.map fun field => fieldLine field ++ crlf := by
  have hpart (pair : HeaderPair) :
      headerPart pair = (encodePair pair).map fun field => fieldLine field ++ crlf := by
    rw [headerPart, encodePair]
    cases pair.1.latin1 <;> cases pair.2.latin1 <;> rfl
  induction pairs with
  | nil => rfl
  | cons pair pairs ih =>
    rw [mapM_cons, mapM_cons, ih, hpart]
    cases encodePair pair <;> cases pairs.mapM encodePair <;> rfl

theorem streamingHeader_eq (status : ℤ) (headersList corsHeaders : List HeaderPair) :
    streamingHeader status headersList corsHeaders =
      ((headersList ++ corsHeaders).mapM encodePair).map fun fields =>
        messageOf status fields [] := by
  rw [streamingHeader, mapM_headerPart, mapM_headerPart, List.mapM_append, streamingStatusLine_eq]
  cases headersList.mapM encodePair with
  | none => rfl
  | some first =>
    cases corsHeaders.mapM encodePair with
    | none => rfl
    | some second =>
      refine congrArg some ?_
      change _ = messageOf status (first ++ second) []
      rw [messageOf, Message.writeMessage_eq, map_cons, Message.writeFields_cons,
        Message.writeFields]
      have hcrlf : ascii "\r\n" = crlf := by decide
      simp [flatMap_def, hcrlf, Function.comp_def]

structure ReadableHead (status : ℤ) (fields : List Field) : Prop where
  status : ∃ code : ℕ, status = code ∧ HasContent code
  fields : ∀ field ∈ fields, IsToken field.1 ∧ CrlfFree field.2 ∧ isFraming field = false

theorem crlfFree_startLine (code : ℕ) : CrlfFree (startLine code) := by
  refine Response.crlfFree_statusText _ ?_
  rw [phraseOf]
  cases hlookup : statusPhrases.lookup (code : ℤ) with
  | none => decide
  | some phrase =>
    have hall : ∀ entry ∈ statusPhrases, CrlfFree (ascii entry.2) := by decide
    obtain ⟨before, after, hsplit, -⟩ := lookup_eq_some_iff.mp hlookup
    exact hall (↑code, phrase) (by rw [hsplit]; simp)

/-! ## Reading it -/

theorem isFraming_trimmed (field : Field) : isFraming (trimmed field) = isFraming field := rfl

theorem transferCodings_message (h : ∀ field ∈ fields, isFraming field = false) :
    Message.transferCodings ((chunkedField :: fields).map trimmed) = [ascii "chunked"] := by
  have hnone : (fields.map trimmed).filter
      (fun field => field.1.map Message.lowerCase = transferEncoding) = [] := by
    refine filter_eq_nil_iff.mpr (forall_mem_map.mpr fun field hfield htrue => ?_)
    have hframing := h _ hfield
    rw [← isFraming_trimmed, isFraming, Bool.or_eq_false_iff] at hframing
    rw [hframing.1] at htrue
    cases htrue
  have hfirst : Message.transferCodings [trimmed chunkedField] = [ascii "chunked"] := by decide
  rw [map_cons, ← hfirst, Message.transferCodings, filter_cons, hnone]
  rfl

theorem ReadableHead.readChunked_messageOf (h : ReadableHead status fields) (content : Bytes) :
    ∃ code : ℕ, status = code ∧ readChunked (messageOf status fields content) =
      match Message.readChunks (content.length + 1) content with
      | some (chunks, []) => some ⟨code, (chunkedField :: fields).map trimmed, chunks⟩
      | _ => none := by
  obtain ⟨code, rfl, hcontent⟩ := h.status
  have hchunked : IsToken chunkedField.1 ∧ CrlfFree chunkedField.2 := by decide
  have hfields : ∀ field ∈ chunkedField :: fields, IsToken field.1 ∧ CrlfFree field.2 :=
    forall_mem_cons.mpr ⟨hchunked, fun field hfield =>
      ⟨(h.fields _ hfield).1, (h.fields _ hfield).2.1⟩⟩
  have hcodings := transferCodings_message fun field hfield => (h.fields _ hfield).2.2
  exact ⟨code, rfl, Message.readChunked_write (crlfFree_startLine _)
    (Response.readStatus_statusText _ _) hcontent hfields hcodings⟩

theorem ReadableHead.headAs {code : ℕ} (h : ReadableHead code fields)
    (chunks : List Bytes) :
    HeadAs ⟨code, (chunkedField :: fields).map trimmed, chunks⟩ code fields where
  status_eq := rfl
  fields_eq := by
    have htrim : trimmed chunkedField = chunkedField := by decide
    rw [map_cons, htrim]
  framing := by
    have hnone : (fields.map trimmed).filter isFraming = [] := by
      refine filter_eq_nil_iff.mpr (forall_mem_map.mpr fun field hfield htrue => ?_)
      rw [isFraming_trimmed, (h.fields _ hfield).2.2] at htrue
      cases htrue
    have hfirst : [trimmed chunkedField].filter isFraming = [chunkedField] := by decide
    rw [map_cons, ← hfirst, filter_cons, hnone]
    rfl

/-- A client that reads the given fields has a head that can be read. -/
theorem HeadAs.readableHead {response : ChunkedResponse}
    (h : HeadAs response status fields) {data : Bytes} (hread : readChunked data = some response) :
    ReadableHead status fields := by
  obtain ⟨hcontent, hfields⟩ := Message.readChunked_eq_some hread
  refine ⟨⟨response.status, h.status_eq.symm, hcontent⟩, fun field hfield => ?_⟩
  have hmem : trimmed field ∈ response.fields := by
    rw [h.fields_eq]
    exact mem_cons_of_mem _ (mem_map_of_mem hfield)
  have hframing : isFraming field = false := by
    have hrest : (fields.map trimmed).filter isFraming = [] := by
      have hall := h.framing
      have hself : isFraming chunkedField = true := by decide
      rw [h.fields_eq, filter_cons, if_pos hself] at hall
      exact (List.cons.inj hall).2
    have hnot := filter_eq_nil_iff.mp hrest _ (mem_map_of_mem hfield)
    rwa [isFraming_trimmed, Bool.not_eq_true] at hnot
  exact ⟨(hfields _ hmem).1, Message.crlfFree_trim.mp (hfields _ hmem).2, hframing⟩

theorem flatten_nonEmpty (chunks : List Octets) :
    (nonEmpty chunks).flatten = (chunks.filterMap Octets.utf8).flatten := by
  exact flatten_filter_ne_nil

theorem ne_nil_of_mem_nonEmpty (chunks : List Octets) : ∀ data ∈ nonEmpty chunks, data ≠ [] :=
  fun _ hdata => of_decide_eq_true (mem_filter.mp hdata).2

/-- Once the last chunk is written, a client has read a response. -/
theorem ReadableHead.complete (h : ReadableHead status fields)
    (chunks : List Octets) :
    ∃ response, readChunked (messageOf status fields (framesOf chunks ++ lastChunk)) = some response ∧
      HeadAs response status fields ∧ response.chunks = nonEmpty chunks := by
  obtain ⟨code, rfl, hread⟩ := h.readChunked_messageOf (framesOf chunks ++ lastChunk)
  have hfuel : (nonEmpty chunks).length < (framesOf chunks ++ lastChunk).length + 1 := by
    have hlength := Message.length_le_flatMap_chunkFrame (nonEmpty chunks)
    rw [length_append, framesOf]
    omega
  rw [framesOf] at hfuel hread
  rw [Message.readChunks_write (ne_nil_of_mem_nonEmpty _) hfuel] at hread
  exact ⟨_, hread, h.headAs _, rfl⟩

/-- Before that it waits. -/
theorem ReadableHead.incomplete (h : ReadableHead status fields)
    (chunks : List Octets) : readChunked (messageOf status fields (framesOf chunks)) = none := by
  obtain ⟨code, rfl, hread⟩ := h.readChunked_messageOf (framesOf chunks)
  rw [framesOf, Message.readChunks_open (ne_nil_of_mem_nonEmpty _)] at hread
  exact hread

theorem mapM_utf8 {chunks : List Octets} (h : ∀ chunk ∈ chunks, chunk.utf8 ≠ none) :
    chunks.mapM Octets.utf8 = some (chunks.filterMap Octets.utf8) := by
  induction chunks with
  | nil => rfl
  | cons chunk chunks ih =>
    obtain ⟨hchunk, hrest⟩ := forall_mem_cons.mp h
    obtain ⟨data, hdata⟩ := ne_none_iff_exists'.mp hchunk
    rw [mapM_cons, filterMap_cons, hdata, ih hrest]
    rfl

theorem ne_none_of_mapM {chunks : List Octets} {datas : List Bytes}
    (h : chunks.mapM Octets.utf8 = some datas) : ∀ chunk ∈ chunks, chunk.utf8 ≠ none := by
  induction chunks generalizing datas with
  | nil => simp
  | cons chunk chunks ih =>
    rw [mapM_cons] at h
    obtain ⟨data, hdata, h⟩ := bind_eq_some_iff.mp h
    obtain ⟨rest, hrest, -⟩ := bind_eq_some_iff.mp h
    exact forall_mem_cons.mpr ⟨by simp [hdata], ih hrest⟩

section Responses

variable {σ O X : Type*} (env : Environment σ (Op O) (Answer O) (StreamExc X))
variable (isException : X → Bool)

theorem endingOf_of_utf8 {iteration : List Octets × Option (StreamExc X)}
    (h : ∀ chunk ∈ iteration.1, chunk.utf8 ≠ none) :
    endingOf iteration = match iteration.2 with
      | none => .ok ()
      | some exc => .error exc := by
  have hall : (iteration.1.all fun chunk => chunk.utf8.isSome) = true :=
    all_eq_true.mpr fun chunk hchunk => isSome_iff_ne_none.mpr (h _ hchunk)
  rw [endingOf, if_pos hall]

theorem endingOf_of_not_utf8 {iteration : List Octets × Option (StreamExc X)}
    (h : ¬ ∀ chunk ∈ iteration.1, chunk.utf8 ≠ none) :
    endingOf iteration = .error .unicodeEncodeError := by
  rw [endingOf, if_neg]
  intro hall
  exact h fun chunk hchunk =>
    isSome_iff_ne_none.mp (all_eq_true.mp hall _ hchunk)

theorem sentBy_writeStreamingResponse {headersList corsHeaders : List HeaderPair}
    (h : (headersList ++ corsHeaders).mapM encodePair = some fields)
    (body : StreamBody O X) (s : σ) :
    sentBy env (writeStreamingResponse isException status headersList corsHeaders body) s =
      messageOf status fields (framesOf (iterationOf env status headersList corsHeaders body s).1 ++
          terminator isException
            (endingOf (iterationOf env status headersList corsHeaders body s))) := by
  have hheader : streamingHeader status headersList corsHeaders = some (messageOf status fields []) := by
    rw [streamingHeader_eq, h, map_some]
  simp only [writeStreamingResponse, iterationOf, hheader, sentBy_writeChunkedStreaming]
  rw [append_assoc, ← messageOf_append, nil_append]

theorem faithful_messageOf_iff {headers : List HeaderPair}
    (hfields : headers.mapM encodePair = some fields) (chunks : List Octets)
    (failure : Option (StreamExc X)) :
    Faithful status headers (chunks, failure) (messageOf status fields
          (framesOf chunks ++ terminator isException (endingOf (chunks, failure)))) ↔
      Streamable isException status headers (chunks, failure) := by
  constructor
  · rintro ⟨other, hother, hread⟩
    rw [hfields] at hother
    cases hother
    cases failure with
    | none =>
      obtain ⟨datas, response, hdatas, hresponse, hhead, -⟩ := hread
      have hreadable := hhead.readableHead hresponse
      exact ⟨hreadable.status, ⟨fields, hfields, hreadable.fields⟩, ne_none_of_mapM hdatas,
        by simp⟩
    | some exc =>
      obtain ⟨hwaiting, more, response, hresponse, hhead⟩ := hread
      have hreadable := hhead.readableHead hresponse
      -- The last chunk would have ended the message.
      have hopen : terminator isException (endingOf (chunks, some exc)) ≠ lastChunk := by
        intro hlast
        obtain ⟨response, hcomplete, -⟩ := hreadable.complete _
        rw [hlast, hcomplete] at hwaiting
        cases hwaiting
      have hchunks : ∀ chunk ∈ chunks, chunk.utf8 ≠ none := by
        by_contra hbad
        rw [endingOf_of_not_utf8 hbad] at hopen
        exact hopen rfl
      refine ⟨hreadable.status, ⟨fields, hfields, hreadable.fields⟩, hchunks, fun other hother => ?_⟩
      cases hother
      rw [endingOf_of_utf8 hchunks] at hopen
      by_contra hcaught
      exact hopen (by simp [terminator, hcaught])
  · rintro ⟨hstatus, ⟨other, hother, hpairs⟩, hchunks, hfailure⟩
    rw [hfields] at hother
    cases hother
    have hreadable : ReadableHead status fields := ⟨hstatus, hpairs⟩
    obtain ⟨response, hcomplete, hhead, hresponse⟩ := hreadable.complete _
    refine ⟨fields, hfields, ?_⟩
    rw [endingOf_of_utf8 hchunks]
    cases failure with
    | none =>
      refine ⟨_, response, mapM_utf8 hchunks, hcomplete, hhead, ?_⟩
      rw [hresponse, flatten_nonEmpty]
    | some exc =>
      have hopen : terminator isException (.error exc) = [] := by
        simp [terminator, hfailure _ _]
      simp only [hopen, append_nil]
      refine ⟨hreadable.incomplete _, lastChunk, response, ?_, hhead⟩
      rwa [← messageOf_append]

/-- Whatever the iterator does, a client can rely on what is written exactly when the head is
readable, every chunk has an encoding, and the iterator does not raise what is caught. -/
theorem chunkedStreaming_faithful_iff (status : ℤ) (headersList corsHeaders : List HeaderPair)
    (body : StreamBody O X) (s : σ) :
    Faithful status (headersList ++ corsHeaders)
        (iterationOf env status headersList corsHeaders body s)
        (sentBy env (writeStreamingResponse isException status headersList corsHeaders body) s) ↔
      Streamable isException status (headersList ++ corsHeaders)
        (iterationOf env status headersList corsHeaders body s) := by
  cases hfields : (headersList ++ corsHeaders).mapM encodePair with
  | none =>
    constructor
    · rintro ⟨fields, hsome, -⟩
      rw [hfields] at hsome
      cases hsome
    · rintro ⟨-, ⟨fields, hsome, -⟩, -, -⟩
      rw [hfields] at hsome
      cases hsome
  | some fields =>
    rw [sentBy_writeStreamingResponse _ _ hfields]
    exact faithful_messageOf_iff _ hfields _ _

end Responses

def failingBody : StreamBody Empty Unit :=
  .chunk (.bytes (ascii "ab")) (.raise (.raised ()))

/-- The message is complete although the body has failed. -/
theorem chunkedStreaming_failure :
    sentBy (transportEnvironment Empty (StreamExc Unit))
        (writeStreamingResponse (fun _ => true) 200 [] [] failingBody) false =
      ascii "HTTP/1.1 200 OK\r\ntransfer-encoding: chunked\r\n\r\n2\r\nab\r\n0\r\n\r\n" ∧
    ¬ Faithful 200 [] ([.bytes (ascii "ab")], some (.raised ()))
      (sentBy (transportEnvironment Empty (StreamExc Unit))
        (writeStreamingResponse (fun _ => true) 200 [] [] failingBody) false) := by
  have hsent : sentBy (transportEnvironment Empty (StreamExc Unit))
      (writeStreamingResponse (fun _ => true) 200 [] [] failingBody) false =
        ascii "HTTP/1.1 200 OK\r\ntransfer-encoding: chunked\r\n\r\n2\r\nab\r\n0\r\n\r\n" := by
    decide +kernel
  refine ⟨hsent, ?_⟩
  rw [hsent]
  rintro ⟨fields, -, hwaiting, -⟩
  have hread : (readChunked (ascii
      "HTTP/1.1 200 OK\r\ntransfer-encoding: chunked\r\n\r\n2\r\nab\r\n0\r\n\r\n")).isSome = true := by
    decide +kernel
  rw [hwaiting] at hread
  cases hread

end AstraApi.Server
