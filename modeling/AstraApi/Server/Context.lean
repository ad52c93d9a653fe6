import AstraApi.Http.Segmentation
import AstraApi.Lib.Supplied
import AstraApi.Lib.Text

/-!
# The context of a request

Before `data_received` hands a chunk to C++ it reads the chunk itself and sets the
context variables of the request: method, path, query string, headers and body.  It
sees only the newest chunk, while C++ dispatches what has gathered in the buffer.
-/

namespace AstraApi.Server

open List
open Http Message Incremental Occurrence

/-! ## Reading a chunk -/

structure RequestContext where
  method : Text := plainText "GET"
  path : Text := plainText "/"
  queryString : Bytes := []
  rawHeaders : Option (List Header) := none
  body : Bytes := []

def validHttpMethods : List Bytes :=
  ["GET", "POST", "PUT", "DELETE", "PATCH", "HEAD", "OPTIONS", "TRACE", "CONNECT"].map ascii

def isSpace (b : Byte) : Bool := b == 32 || (9 ≤ b && b ≤ 13)

def strip (bytes : Bytes) : Bytes := (bytes.dropWhile isSpace).rdropWhile isSpace

def contextHeader (header : Header) : Header := ((strip header.1).map lower, strip header.2)

/-- The lines of a header block; the first argument bounds the number of rounds. -/
def blockLines : ℕ → Bytes → List Bytes
  | 0, _ => []
  | fuel + 1, block =>
    if block = [] then []
    else
      match firstOccurrence Message.crlf block with
      | none => [block]
      | some eol => block.take eol :: blockLines fuel (block.drop (eol + 2))

def blockHeader (line : Bytes) : Option Header :=
  let name := line.takeWhile (· ≠ Message.colon)
  if name ≠ [] ∧ Message.colon ∈ line then
    some (contextHeader (name, (line.dropWhile (· ≠ Message.colon)).drop 1))
  else none

/-- The line of a chunk that counts as a new request, and the method in it. -/
def requestLine (data : Bytes) : Option (Bytes × Bytes) :=
  match firstOccurrence Message.crlf (data.take 4096) with
  | none => none
  | some newline =>
    let line := data.take newline
    let method := line.takeWhile (· ≠ sp)
    if sp ∈ line ∧ method ∈ validHttpMethods then some (line, method) else none

def lineTarget (line method : Bytes) : Bytes :=
  (line.drop (method.length + 1)).takeWhile (· ≠ sp)

def readBlock (data line : Bytes) : List Header × Bytes :=
  match firstOccurrence emptyLine (data.drop line.length) with
  | none => ([], [])
  | some length =>
    let block := ((data.drop line.length).take length).drop 2
    ((blockLines block.length block).filterMap blockHeader,
      data.drop (line.length + length + 4))

def readContext (context : RequestContext) (data : Bytes) : RequestContext :=
  match requestLine data with
  | none => { context with body := context.body ++ data }
  | some (line, method) =>
    let (path, query) := splitTarget (lineTarget line method)
    let (headers, body) := readBlock data line
    { method := Text.ofLatin1 method
      path := Text.ofLatin1 path
      queryString := query
      rawHeaders := some headers
      body }

/-! ## Dispatching the buffer -/

inductive Arrival where
  | read (chunk : Bytes)
  /-- A chunk that came while writing was paused. -/
  | buffered (chunk : Bytes)
  /-- What the requests before it have left of the chunks. -/
  | leftover (data : Bytes)

def Arrival.bytes : Arrival → Bytes
  | .read chunk | .buffered chunk | .leftover chunk => chunk

/-- A request with its bytes, as C++ finds it in the buffer. -/
structure Found where
  request : ParsedHttpRequest
  raw : Bytes

/-- The next request in the buffer. -/
def findRequest (llhttp : Llhttp) (data : Bytes) : Step Found :=
  match parseStep llhttp data with
  | .needMore => .needMore
  | .error => .fail
  | .request parsed =>
    if parsed.bodyTooLarge then .fail
    else .item ⟨parsed, data.take parsed.totalConsumed⟩ parsed.totalConsumed

/-- A dispatched request, with the context its handlers see and the arrivals in
the buffer when C++ was called. -/
structure ContextDispatch where
  found : Found
  context : RequestContext
  arrivals : List Arrival

/-- An HTTP connection; the buffer is kept as the arrivals that filled it. -/
structure ContextConnection where
  arrivals : List Arrival := []
  context : RequestContext := {}
  paused : Bool := false
  closed : Bool := false
  dispatched : List ContextDispatch := []

namespace ContextConnection

def buffer (conn : ContextConnection) : Bytes := conn.arrivals.flatMap Arrival.bytes

/-- The call of C++: the requests it found, and what is left in the buffer.  After
an error the connection is closed. -/
def dispatch (conn : ContextConnection) (items : List Found) (left : Bytes) (outcome : Outcome) :
    ContextConnection :=
  { conn with
    arrivals :=
      if outcome = .failed ∨ left = [] then [] else if items = [] then conn.arrivals
      else [.leftover left]
    closed := conn.closed || outcome == .failed
    dispatched := conn.dispatched ++
      items.map fun found => ⟨found, conn.context, conn.arrivals⟩ }

def receive (conn : ContextConnection) (chunk : Bytes) : ContextConnection :=
  { conn with
    context := readContext conn.context chunk
    arrivals := conn.arrivals ++ [.read chunk] }

end ContextConnection

inductive ConnectionInput where
  | data (chunk : Bytes)
  | pauseWriting
  | resumeWriting
  /-- `_drain_buf`, which `resume_writing` schedules. -/
  | drainBuf

inductive ContextRun (llhttp : Llhttp) : List ConnectionInput → ContextConnection → Prop
  | start : ContextRun llhttp [] {}
  | ignored {inputs : List ConnectionInput} {conn : ContextConnection} (input : ConnectionInput)
      (run : ContextRun llhttp inputs conn) (hclosed : conn.closed = true) :
      ContextRun llhttp (inputs ++ [input]) conn
  | data {inputs : List ConnectionInput} {conn : ContextConnection} {chunk left : Bytes}
      {items : List Found} {outcome : Outcome}
      (run : ContextRun llhttp inputs conn) (hopen : conn.closed = false)
      (hrunning : conn.paused = false)
      (hdrains : Drains (findRequest llhttp) (conn.receive chunk).buffer items left outcome) :
      ContextRun llhttp (inputs ++ [.data chunk])
        ((conn.receive chunk).dispatch items left outcome)
  | buffered {inputs : List ConnectionInput} {conn : ContextConnection} {chunk : Bytes}
      (run : ContextRun llhttp inputs conn) (hopen : conn.closed = false)
      (hpaused : conn.paused = true) :
      ContextRun llhttp (inputs ++ [.data chunk])
        { conn with arrivals := conn.arrivals ++ [.buffered chunk] }
  /-- A chunk beyond a limit of the body or of the buffer closes the connection. -/
  | refused {inputs : List ConnectionInput} {conn : ContextConnection} {chunk : Bytes}
      (run : ContextRun llhttp inputs conn) (hopen : conn.closed = false) :
      ContextRun llhttp (inputs ++ [.data chunk]) { conn with closed := true }
  | pauseWriting {inputs : List ConnectionInput} {conn : ContextConnection}
      (run : ContextRun llhttp inputs conn) (hopen : conn.closed = false) :
      ContextRun llhttp (inputs ++ [.pauseWriting]) { conn with paused := true }
  | resumeWriting {inputs : List ConnectionInput} {conn : ContextConnection}
      (run : ContextRun llhttp inputs conn) (hopen : conn.closed = false) :
      ContextRun llhttp (inputs ++ [.resumeWriting]) { conn with paused := false }
  | drainNothing {inputs : List ConnectionInput} {conn : ContextConnection}
      (run : ContextRun llhttp inputs conn) (hopen : conn.closed = false)
      (hnothing : conn.paused = true ∨ conn.buffer = []) :
      ContextRun llhttp (inputs ++ [.drainBuf]) conn
  | drain {inputs : List ConnectionInput} {conn : ContextConnection} {left : Bytes}
      {items : List Found} {outcome : Outcome}
      (run : ContextRun llhttp inputs conn) (hopen : conn.closed = false)
      (hrunning : conn.paused = false) (hbuffer : conn.buffer ≠ [])
      (hdrains : Drains (findRequest llhttp) conn.buffer items left outcome) :
      ContextRun llhttp (inputs ++ [.drainBuf]) (conn.dispatch items left outcome)

/-! ## Requests as they are written -/

/-- A request line and field lines; a value may have whitespace around it. -/
structure RequestHead where
  method : Bytes
  target : Bytes
  version : Bytes
  fields : List Header

namespace RequestHead

def startLine (head : RequestHead) : Bytes :=
  head.method ++ sp :: (head.target ++ sp :: head.version)

def fieldText (field : Header) : Bytes := field.1 ++ Message.colon :: field.2

def message (head : RequestHead) (content : Bytes) : Bytes :=
  writeMessage head.startLine (head.fields.map fieldText) content

structure FieldWritten (field : Header) : Prop where
  name : CrlfFree field.1
  value : CrlfFree field.2
  named : field.1 ≠ []
  colonFree : Message.colon ∉ field.1

structure Written (head : RequestHead) : Prop where
  method : head.method ∈ validHttpMethods
  target : CrlfFree head.target
  oneTarget : sp ∉ head.target
  version : CrlfFree head.version
  short : head.startLine.length + 2 ≤ 4096
  fields : ∀ field ∈ head.fields, FieldWritten field

/-- The parser of C++ reads what is written. -/
structure ReadAs (head : RequestHead) (request : ParsedHttpRequest) : Prop where
  method : request.method = head.method
  path : request.path = (splitTarget head.target).1
  queryString : request.queryString = (splitTarget head.target).2
  headers : request.headers.map contextHeader = head.fields.map contextHeader

end RequestHead

def bodyBytes (raw : Bytes) : Bytes :=
  match firstOccurrence emptyLine raw with
  | none => []
  | some length => raw.drop (length + 4)

structure RequestContext.Describes (context : RequestContext) (found : Found) : Prop where
  method : context.method = Text.ofLatin1 found.request.method
  path : context.path = Text.ofLatin1 found.request.path
  queryString : context.queryString = found.request.queryString
  rawHeaders : context.rawHeaders = some (found.request.headers.map contextHeader)
  body : context.body = bodyBytes found.raw

/-- The request came in chunks of its own, none of them while writing was paused:
the first begins with the whole head, and no later one begins like a request. -/
def ContextDispatch.Delivered (dispatch : ContextDispatch) : Prop :=
  ∃ (head : RequestHead) (first : Bytes) (chunks : List Bytes),
    head.Written ∧ head.ReadAs dispatch.found.request ∧
      dispatch.arrivals = .read (head.message first) :: chunks.map .read ∧
        (∀ chunk ∈ chunks, requestLine chunk = none) ∧
          dispatch.found.raw = head.message (first ++ chunks.flatten)

/-! ## Reading what is written -/

theorem firstOccurrence_lineEnd {line : Bytes} (h : CrlfFree line) (rest : Bytes) :
    firstOccurrence Message.crlf (line ++ (Message.crlf ++ rest)) = some line.length := by
  have hskip : firstOccurrence Message.crlf (line ++ (Message.crlf ++ rest)) =
      (firstOccurrence Message.crlf (Message.crlf ++ rest)).map fun i => line.length + i := by
    apply firstOccurrence_skip (by decide)
    intro j hj hoccurs
    have hfirst := hoccurs.getElem? (by decide : 0 < Message.crlf.length)
    rw [Nat.add_zero, getElem?_append_left hj] at hfirst
    exact h.1 (mem_of_getElem? hfirst)
  rw [hskip]
  simp [firstOccurrence, Message.crlf]

theorem firstOccurrence_lineEnd_none {line : Bytes} (h : CrlfFree line) :
    firstOccurrence Message.crlf line = none := by
  apply (firstOccurrence_eq_none_iff (by decide)).mpr
  intro i hoccurs
  have hfirst := hoccurs.getElem? (by decide : 0 < Message.crlf.length)
  exact h.1 (mem_of_getElem? hfirst)

theorem takeWhile_ne_append {b : Byte} {front : Bytes} (h : b ∉ front) (rest : Bytes) :
    (front ++ b :: rest).takeWhile (· ≠ b) = front := by
  rw [takeWhile_append_of_pos]
  · simp
  · intro other hother
    have hne : other ≠ b := fun heq => h (heq ▸ hother)
    simpa using hne

theorem dropWhile_ne_append {b : Byte} {front : Bytes} (h : b ∉ front) (rest : Bytes) :
    (front ++ b :: rest).dropWhile (· ≠ b) = b :: rest := by
  rw [dropWhile_append_of_pos]
  · simp
  · intro other hother
    have hne : other ≠ b := fun heq => h (heq ▸ hother)
    simpa using hne

namespace RequestHead

variable {head : RequestHead} (hwritten : head.Written)

include hwritten

theorem Written.methodText : sp ∉ head.method ∧ CrlfFree head.method := by
  have hall : ∀ method ∈ validHttpMethods, sp ∉ method ∧ CrlfFree method := by decide
  exact hall head.method hwritten.method

theorem Written.startLine : CrlfFree head.startLine := by
  have hspace : CrlfFree [sp] := by decide
  have hline : head.startLine = head.method ++ ([sp] ++ (head.target ++ ([sp] ++ head.version))) :=
    rfl
  rw [hline]
  simp only [crlfFree_append]
  exact ⟨hwritten.methodText.2, hspace, hwritten.target, hspace, hwritten.version⟩

theorem Written.lines : ∀ line ∈ head.fields.map fieldText, CrlfFree line ∧ line ≠ [] := by
  intro line hline
  obtain ⟨field, hfield, rfl⟩ := mem_map.mp hline
  have hcolon : CrlfFree [Message.colon] := by decide
  have htext : fieldText field = field.1 ++ ([Message.colon] ++ field.2) := rfl
  have hfield := hwritten.fields _ hfield
  constructor
  · rw [htext]
    simp only [crlfFree_append]
    exact ⟨hfield.name, hcolon, hfield.value⟩
  · simp [htext]

theorem requestLine_message (content : Bytes) :
    requestLine (head.message content) = some (head.startLine, head.method) := by
  have hmessage : head.message content = head.startLine ++ (Message.crlf ++
      writeFields (head.fields.map fieldText) content) := by
    rw [message, writeMessage_eq, append_assoc]
  have htake : (head.message content).take 4096 = head.startLine ++ (Message.crlf ++
      (writeFields (head.fields.map fieldText) content).take
        (4096 - head.startLine.length - 2)) := by
    have hshort := hwritten.short
    rw [hmessage, take_append, take_of_length_le (by omega), take_append,
      take_of_length_le (l := Message.crlf) (by simp [Message.crlf]; omega)]
    rfl
  have hline : (head.message content).take head.startLine.length = head.startLine := by
    rw [hmessage, take_left]
  have hmethod : head.startLine.takeWhile (· ≠ sp) = head.method :=
    takeWhile_ne_append hwritten.methodText.1 _
  have hspace : sp ∈ head.startLine := by simp [RequestHead.startLine]
  rw [requestLine, htake, firstOccurrence_lineEnd hwritten.startLine]
  simp only [hline, hmethod]
  rw [if_pos ⟨hspace, hwritten.method⟩]

theorem lineTarget_startLine : lineTarget head.startLine head.method = head.target := by
  have hdrop : head.startLine.drop (head.method.length + 1) = head.target ++ sp :: head.version := by
    simp [RequestHead.startLine]
  rw [lineTarget, hdrop, takeWhile_ne_append hwritten.oneTarget]

end RequestHead

theorem blockLines_written {lines : List Bytes} (h : ∀ line ∈ lines, CrlfFree line ∧ line ≠ [])
    {fuel : ℕ} (hfuel : lines.length ≤ fuel) :
    blockLines fuel ((lines.flatMap fun line => Message.crlf ++ line).drop 2) = lines := by
  induction lines generalizing fuel with
  | nil => cases fuel <;> simp [blockLines]
  | cons line lines ih =>
    obtain ⟨hline, hne⟩ := h _ mem_cons_self
    have hlines : ∀ other ∈ lines, CrlfFree other ∧ other ≠ [] :=
      fun other hother => h _ (mem_cons_of_mem _ hother)
    cases fuel with
    | zero => simp at hfuel
    | succ fuel =>
      have hblock : ((line :: lines).flatMap fun line => Message.crlf ++ line).drop 2 =
          line ++ lines.flatMap fun line => Message.crlf ++ line := by
        simp [Message.crlf]
      rw [hblock, blockLines, if_neg (by simp [hne])]
      cases lines with
      | nil => simp [firstOccurrence_lineEnd_none hline]
      | cons next lines =>
        have hnext : ((next :: lines).flatMap fun line => Message.crlf ++ line) =
            Message.crlf ++ (next ++ lines.flatMap fun line => Message.crlf ++ line) := by
          simp
        have hdrop : (line ++ (next :: lines).flatMap fun line => Message.crlf ++ line).drop
            (line.length + 2) =
            ((next :: lines).flatMap fun line => Message.crlf ++ line).drop 2 := by
          rw [drop_length_add_append]
        rw [hnext, firstOccurrence_lineEnd hline, ← hnext]
        simp only [take_left, hdrop]
        rw [ih hlines (Nat.le_of_succ_le_succ hfuel)]

theorem length_le_block {lines : List Bytes} (h : ∀ line ∈ lines, CrlfFree line ∧ line ≠ []) :
    lines.length ≤ ((lines.flatMap fun line => Message.crlf ++ line).drop 2).length := by
  have hlong : 3 * lines.length ≤ (lines.flatMap fun line => Message.crlf ++ line).length := by
    induction lines with
    | nil => simp
    | cons line lines ih =>
      have hrest := ih fun other hother => h _ (mem_cons_of_mem _ hother)
      have hline := length_pos_iff.mpr (h _ mem_cons_self).2
      have hcrlf : Message.crlf.length = 2 := rfl
      simp only [flatMap_cons, length_append, length_cons, hcrlf]
      omega
  rw [length_drop]
  omega

theorem blockHeader_fieldText {field : Header} (h : RequestHead.FieldWritten field) :
    blockHeader (RequestHead.fieldText field) = some (contextHeader field) := by
  have hname : (RequestHead.fieldText field).takeWhile (· ≠ Message.colon) = field.1 :=
    takeWhile_ne_append h.colonFree _
  have hvalue : (RequestHead.fieldText field).dropWhile (· ≠ Message.colon) =
      Message.colon :: field.2 := dropWhile_ne_append h.colonFree _
  have hcolon : Message.colon ∈ RequestHead.fieldText field := by simp [RequestHead.fieldText]
  simp only [blockHeader, hname, hvalue]
  rw [if_pos ⟨h.named, hcolon⟩]
  rfl

namespace RequestHead

variable {head : RequestHead} (hwritten : head.Written)

include hwritten

theorem readBlock_message (content : Bytes) :
    readBlock (head.message content) head.startLine = (head.fields.map contextHeader, content) := by
  have hlines := hwritten.lines
  have hbehind : (head.message content).drop head.startLine.length =
      writeMessage [] (head.fields.map fieldText) content := by
    rw [message, writeMessage, writeMessage, nil_append]
    simp only [append_assoc]
    rw [drop_left]
  have hend := firstOccurrence_emptyLine (by decide : CrlfFree []) hlines content
  rw [nil_append] at hend
  have hblock : (writeMessage [] (head.fields.map fieldText) content).take
      ((head.fields.map fieldText).flatMap fun line => Message.crlf ++ line).length =
      (head.fields.map fieldText).flatMap fun line => Message.crlf ++ line := by
    rw [writeMessage, nil_append]
    simp only [append_assoc]
    rw [take_left]
  have hbody : (head.message content).drop (head.startLine.length +
      ((head.fields.map fieldText).flatMap fun line => Message.crlf ++ line).length + 4) =
      content := by
    rw [message, writeMessage, append_assoc _ _ Message.crlf, ← length_append]
    have hcrlf : (Message.crlf ++ Message.crlf).length = 4 := rfl
    rw [← hcrlf, ← length_append, drop_left]
  have hheaders : (head.fields.map fieldText).filterMap blockHeader =
      head.fields.map contextHeader := by
    rw [filterMap_map, ← filterMap_eq_map]
    apply filterMap_congr
    intro field hfield
    exact blockHeader_fieldText (hwritten.fields _ hfield)
  simp only [readBlock, hbehind, hend, hblock, hbody]
  rw [blockLines_written hlines (length_le_block hlines), hheaders]

theorem bodyBytes_message (content : Bytes) : bodyBytes (head.message content) = content := by
  have hend := firstOccurrence_emptyLine hwritten.startLine hwritten.lines content
  have hcrlf : (Message.crlf ++ Message.crlf).length = 4 := rfl
  rw [bodyBytes, message, hend]
  simp only
  rw [writeMessage, append_assoc _ _ Message.crlf, ← hcrlf, ← length_append, drop_left]

theorem readContext_message (context : RequestContext) (content : Bytes) :
    readContext context (head.message content) =
      { method := Text.ofLatin1 head.method
        path := Text.ofLatin1 (splitTarget head.target).1
        queryString := (splitTarget head.target).2
        rawHeaders := some (head.fields.map contextHeader)
        body := content } := by
  simp [readContext, requestLine_message hwritten, lineTarget_startLine hwritten, readBlock_message hwritten]

end RequestHead

/-! ## Contexts in a run -/

def readChunks (arrivals : List Arrival) : List Bytes :=
  arrivals.filterMap fun arrival =>
    match arrival with
    | .read chunk => some chunk
    | .buffered _ | .leftover _ => none

/-- The context is what the chunks in the buffer have made of an earlier one. -/
def Gathered (arrivals : List Arrival) (context : RequestContext) : Prop :=
  ∃ before, context = (readChunks arrivals).foldl readContext before

structure ContextConnection.Keeps (conn : ContextConnection) : Prop where
  context : Gathered conn.arrivals conn.context
  dispatched : ∀ dispatch ∈ conn.dispatched, Gathered dispatch.arrivals dispatch.context

theorem gathered_of_readChunks {arrivals : List Arrival} (h : readChunks arrivals = [])
    (context : RequestContext) : Gathered arrivals context :=
  ⟨context, by rw [h]; rfl⟩

theorem Gathered.read {arrivals : List Arrival} {context : RequestContext}
    (h : Gathered arrivals context) (chunk : Bytes) :
    Gathered (arrivals ++ [.read chunk]) (readContext context chunk) := by
  obtain ⟨before, rfl⟩ := h
  exact ⟨before, by simp [readChunks]⟩

theorem Gathered.buffered {arrivals : List Arrival} {context : RequestContext}
    (h : Gathered arrivals context) (chunk : Bytes) :
    Gathered (arrivals ++ [.buffered chunk]) context := by
  obtain ⟨before, rfl⟩ := h
  exact ⟨before, by simp [readChunks]⟩

namespace ContextConnection

theorem Keeps.receive {conn : ContextConnection} (h : conn.Keeps) (chunk : Bytes) :
    (conn.receive chunk).Keeps where
  context := h.context.read _
  dispatched := h.dispatched

theorem Keeps.dispatch {conn : ContextConnection} (h : conn.Keeps) (items : List Found)
    (left : Bytes) (outcome : Outcome) : (conn.dispatch items left outcome).Keeps where
  context := by
    simp only [ContextConnection.dispatch]
    split
    · exact gathered_of_readChunks rfl _
    · split
      · exact h.context
      · exact gathered_of_readChunks rfl _
  dispatched := by
    intro dispatch hdispatch
    rcases mem_append.mp hdispatch with hearlier | hnew
    · exact h.dispatched _ hearlier
    · obtain ⟨found, -, rfl⟩ := mem_map.mp hnew
      exact h.context

end ContextConnection

theorem ContextRun.keeps {llhttp : Llhttp} {inputs : List ConnectionInput}
    {conn : ContextConnection} (run : ContextRun llhttp inputs conn) : conn.Keeps := by
  induction run with
  | start => exact ⟨gathered_of_readChunks rfl _, by simp⟩
  | ignored input run hclosed ih => exact ih
  | data run hopen hrunning hdrains ih => exact (ih.receive _).dispatch _ _ _
  | buffered run hopen hpaused ih => exact ⟨ih.context.buffered _, ih.dispatched⟩
  | refused run hopen ih | pauseWriting run hopen ih => exact ⟨ih.context, ih.dispatched⟩
  | resumeWriting run hopen ih => exact ⟨ih.context, ih.dispatched⟩
  | drainNothing run hopen hnothing ih => exact ih
  | drain run hopen hrunning hbuffer hdrains ih => exact ih.dispatch _ _ _

/-- Chunks that do not begin like a request are gathered in the body. -/
theorem foldl_readContext {chunks : List Bytes} (h : ∀ chunk ∈ chunks, requestLine chunk = none)
    (context : RequestContext) :
    chunks.foldl readContext context = { context with body := context.body ++ chunks.flatten } := by
  induction chunks generalizing context with
  | nil => simp
  | cons chunk chunks ih =>
    have hchunk := h _ mem_cons_self
    rw [foldl_cons, ih fun other hother => h _ (mem_cons_of_mem _ hother)]
    simp [readContext, hchunk]

/-- A request that comes in chunks of its own is dispatched with its own context. -/
theorem describes_of_delivered {dispatch : ContextDispatch}
    (hgathered : Gathered dispatch.arrivals dispatch.context) (hdelivered : dispatch.Delivered) :
    dispatch.context.Describes dispatch.found := by
  obtain ⟨before, hcontext⟩ := hgathered
  obtain ⟨head, first, chunks, hwritten, hread, harrivals, hchunks, hraw⟩ := hdelivered
  have hreads : readChunks dispatch.arrivals = head.message first :: chunks := by
    rw [harrivals]
    simp [readChunks]
  rw [hreads, foldl_cons, RequestHead.readContext_message hwritten,
    foldl_readContext hchunks] at hcontext
  constructor
  · rw [hcontext, hread.method]
  · rw [hcontext, hread.path]
  · rw [hcontext, hread.queryString]
  · rw [hcontext, hread.headers]
  · rw [hcontext, hraw, RequestHead.bodyBytes_message hwritten]

/-- In every run, the context of a request that was delivered in chunks of its own
is exactly its own. -/
theorem context_describes {llhttp : Llhttp} {inputs : List ConnectionInput}
    {conn : ContextConnection} (run : ContextRun llhttp inputs conn) :
    ∀ dispatch ∈ conn.dispatched, dispatch.Delivered →
      dispatch.context.Describes dispatch.found := by
  intro dispatch hdispatch hdelivered
  exact describes_of_delivered (run.keeps.dispatched _ hdispatch) hdelivered

/-- A parser that always asks for more. -/
def hungry : Llhttp := fun _ => { errno := .ok }

def plainGet : RequestHead where
  method := ascii "GET"
  target := ascii "/"
  version := ascii "HTTP/1.1"
  fields := []

def plainFound : Found where
  request :=
    { method := ascii "GET", path := ascii "/", keepAlive := true, noBody := true
      totalConsumed := 18 }
  raw := plainGet.message []

theorem findRequest_plainGet (rest : Bytes) (hrest : rest = [] ∨ rest = plainGet.message []) :
    findRequest hungry (plainGet.message [] ++ rest) = .item plainFound 18 := by
  rcases hrest with rfl | rfl <;> rfl

theorem drains_plainGet :
    Drains (findRequest hungry) (plainGet.message []) [plainFound] [] .waiting :=
  .item (by simpa using findRequest_plainGet [] (Or.inl rfl)) (.waiting rfl)

def plainDispatch : ContextDispatch where
  found := plainFound
  context := readContext {} (plainGet.message [])
  arrivals := [.read (plainGet.message [])]

theorem context_describes_plain : plainDispatch.context.Describes plainFound := by
  have hdelivered : plainDispatch.Delivered :=
    ⟨plainGet, [], [], ⟨by decide, by decide, by decide, by decide, by decide, by simp [plainGet]⟩,
      ⟨rfl, rfl, rfl, rfl⟩, rfl, by simp, rfl⟩
  have hrun : ContextRun hungry ([] ++ [.data (plainGet.message [])]) _ :=
    .data .start rfl rfl drains_plainGet
  exact context_describes hrun _ (mem_singleton.mpr rfl) hdelivered

/-- Two requests in one chunk: the first sees the second as its body. -/
theorem context_differs_pipelined :
    ∃ conn, ContextRun hungry [.data (plainGet.message [] ++ plainGet.message [])] conn ∧
      ∃ dispatch ∈ conn.dispatched, ¬ dispatch.context.Describes dispatch.found := by
  have hdrains : Drains (findRequest hungry) (plainGet.message [] ++ plainGet.message [])
      [plainFound, plainFound] [] .waiting :=
    .item (findRequest_plainGet _ (Or.inr rfl)) drains_plainGet
  have hrun : ContextRun hungry
      ([] ++ [.data (plainGet.message [] ++ plainGet.message [])]) _ := .data .start rfl rfl hdrains
  refine ⟨_, hrun, _, mem_cons_self, ?_⟩
  intro hdescribes
  have hbody := hdescribes.body
  revert hbody
  decide

end AstraApi.Server
