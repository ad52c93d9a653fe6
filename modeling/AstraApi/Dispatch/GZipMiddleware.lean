import AstraApi.Http.Request
import AstraApi.Lib.Simulation

/-!
# GZipMiddleware

The middleware hands the application a `send` of its own, which holds the start message
back until it knows whether the body is compressed.  After the application has returned it
sends what it thinks is still held back.
-/

namespace AstraApi.Dispatch.GZip

open List
open AstraApi.Http (lower)

abbrev Headers := List (Bytes × Bytes)

inductive Message where
  | start (status : ℕ) (headers : Headers)
  | body (body : Bytes) (moreBody : Bool)
  deriving DecidableEq

/-- What the middleware calls of `zlib` and `gzip`, and a reader. -/
structure Zlib where
  Stream : Type
  compressobj : ℤ → Stream
  compress : Stream → Bytes → Bytes × Stream
  flush : Stream → Bytes
  gzipCompress : ℤ → Bytes → Bytes
  gunzip : Bytes → Option Bytes

namespace Zlib

variable (zlib : Zlib)

/-- Everything a stream writes for some chunks and the flush after them. -/
def written (stream : zlib.Stream) : List Bytes → Bytes
  | [] => zlib.flush stream
  | chunk :: chunks =>
    (zlib.compress stream chunk).1 ++ written (zlib.compress stream chunk).2 chunks

/-- What was compressed can be read. -/
structure RoundTrips : Prop where
  gzip : ∀ level body, zlib.gunzip (zlib.gzipCompress level body) = some body
  stream : ∀ level chunks, zlib.gunzip (zlib.written (zlib.compressobj level) chunks) =
    some chunks.flatten

end Zlib

/-- `GZipMiddleware.__init__` -/
structure Middleware where
  minimumSize : ℤ := 500
  compresslevel : ℤ := 9

/-- The parts of a scope that `__call__` reads. -/
structure Scope where
  type : Bytes := ascii "http"
  headers : Headers := []

def acceptsGzip (scope : Scope) : Bool :=
  match scope.headers.find? fun header => header.1 == ascii "accept-encoding" with
  | none => false
  | some header => decide (ascii "gzip" <:+: header.2)

/-- The cells that the send wrapper shares with `__call__`. -/
structure Cells (zlib : Zlib) where
  initialBody : Bytes := []
  started : Bool := false
  respHeaders : Headers := []
  status : ℕ := 200
  compressor : Option zlib.Stream := none
  moreBodySeen : Bool := false

/-- The headers that describe no length and no encoding. -/
def keptHeaders (headers : Headers) : Headers :=
  headers.filter fun header =>
    header.1.map lower != ascii "content-length" && header.1.map lower != ascii "content-encoding"

def encodingGzip : Bytes × Bytes := (ascii "content-encoding", ascii "gzip")
def varyEncoding : Bytes × Bytes := (ascii "vary", ascii "Accept-Encoding")

def contentLength (compressed : Bytes) : Bytes × Bytes :=
  (ascii "content-length", ascii (toString compressed.length))

variable {zlib : Zlib} (mw : Middleware)

/-- A chunk while the compressor runs. -/
def sendStreaming (cells : Cells zlib) (stream : zlib.Stream) (chunk : Bytes) (moreBody : Bool) :
    List Message × Cells zlib :=
  let step := zlib.compress stream chunk
  let compressed := if moreBody then step.1 else step.1 ++ zlib.flush step.2
  let cells := { cells with compressor := some step.2 }
  if compressed ≠ [] then ([.body compressed moreBody], cells)
  else if moreBody then ([], cells)
  else ([.body [] false], cells)

/-- A chunk with more to come while nothing is decided. -/
def sendChunk (cells : Cells zlib) (chunk : Bytes) : List Message × Cells zlib :=
  let cells := { cells with
    initialBody := cells.initialBody ++ chunk
    moreBodySeen := true }
  if mw.minimumSize ≤ cells.initialBody.length then
    let step := zlib.compress (zlib.compressobj mw.compresslevel) cells.initialBody
    (.start cells.status (keptHeaders cells.respHeaders ++ [encodingGzip, varyEncoding]) ::
        (if step.1 ≠ [] then [.body step.1 true] else []),
      { cells with compressor := some step.2 })
  else ([], cells)

def sendLast (cells : Cells zlib) (chunk : Bytes) : List Message :=
  let full := cells.initialBody ++ chunk
  if mw.minimumSize ≤ full.length then
    let compressed := zlib.gzipCompress mw.compresslevel full
    [.start cells.status
        (keptHeaders cells.respHeaders ++ [encodingGzip, contentLength compressed, varyEncoding]),
      .body compressed false]
  else if cells.moreBodySeen then [.body full false]
  else [.start cells.status cells.respHeaders, .body full false]

def sendWrapper (cells : Cells zlib) : Message → List Message × Cells zlib
  | .start status headers =>
    ([], { cells with status := status, respHeaders := headers, started := true })
  | .body chunk moreBody =>
    match cells.compressor with
    | some stream => sendStreaming cells stream chunk moreBody
    | none =>
      if moreBody then sendChunk mw cells chunk
      else (sendLast mw cells chunk, cells)

/-- What `__call__` sends after the application has returned. -/
def sendDeferred (cells : Cells zlib) : List Message :=
  if cells.started && cells.compressor.isNone && cells.moreBodySeen &&
      !cells.initialBody.isEmpty then
    if mw.minimumSize ≤ cells.initialBody.length then
      let compressed := zlib.gzipCompress mw.compresslevel cells.initialBody
      [.start cells.status
          (keptHeaders cells.respHeaders ++ [encodingGzip, contentLength compressed]),
        .body compressed false]
    else [.start cells.status cells.respHeaders, .body cells.initialBody false]
  else []

def sendAll (cells : Cells zlib) (messages : List Message) : List Message :=
  (Simulation.run (sendWrapper mw) cells messages).1.flatten ++
    sendDeferred mw (Simulation.run (sendWrapper mw) cells messages).2

def call (zlib : Zlib) (scope : Scope) (messages : List Message) : List Message :=
  if scope.type ≠ ascii "http" then messages
  else if !acceptsGzip scope then messages
  else sendAll mw ({} : Cells zlib) messages

/-! ## What the client gets -/

def saysGzip (headers : Headers) : Bool :=
  headers.any fun header =>
    header.1.map lower == ascii "content-encoding" && header.2 == ascii "gzip"

def bodyMessages (chunks : List Bytes) (last : Bytes) : List Message :=
  chunks.map (Message.body · true) ++ [.body last false]

def Delivers (zlib : Zlib) (content : Bytes) (messages : List Message) : Prop :=
  ∃ status headers chunks last, messages = .start status headers :: bodyMessages chunks last ∧
    if saysGzip headers then zlib.gunzip (chunks.flatten ++ last) = some content
    else chunks.flatten ++ last = content

theorem saysGzip_appended (headers rest : Headers) :
    saysGzip (headers ++ encodingGzip :: rest) = true := by
  rw [saysGzip, any_append, any_cons]
  have hself : (encodingGzip.1.map lower == ascii "content-encoding" &&
      encodingGzip.2 == ascii "gzip") = true := by
    decide
  rw [hself, Bool.true_or, Bool.or_true]

section Sending

variable {mw} {cells : Cells zlib}

theorem bodyMessages_cons (chunk : Bytes) (chunks : List Bytes) (last : Bytes) :
    bodyMessages (chunk :: chunks) last = .body chunk true :: bodyMessages chunks last := rfl

theorem sendAll_cons (mw : Middleware) (cells : Cells zlib) (message : Message)
    (messages : List Message) :
    sendAll mw cells (message :: messages) = (sendWrapper mw cells message).1 ++
      sendAll mw (sendWrapper mw cells message).2 messages := by
  rw [sendAll, Simulation.run_cons, flatten_cons, append_assoc]
  rfl

theorem sendWrapper_streaming {stream : zlib.Stream} (h : cells.compressor = some stream)
    (chunk : Bytes) (moreBody : Bool) :
    sendWrapper mw cells (.body chunk moreBody) = sendStreaming cells stream chunk moreBody := by
  rw [sendWrapper, h]

theorem sendWrapper_more (h : cells.compressor = none) (chunk : Bytes) :
    sendWrapper mw cells (.body chunk true) = sendChunk mw cells chunk := by
  rw [sendWrapper, h]
  rfl

theorem sendWrapper_last (h : cells.compressor = none) (chunk : Bytes) :
    sendWrapper mw cells (.body chunk false) = (sendLast mw cells chunk, cells) := by
  rw [sendWrapper, h]
  rfl

theorem sendAll_nil (mw : Middleware) (cells : Cells zlib) :
    sendAll mw cells [] = sendDeferred mw cells := rfl

/-- Nothing is held back once the compressor runs. -/
theorem sendDeferred_streaming {stream : zlib.Stream} (h : cells.compressor = some stream) :
    sendDeferred mw cells = [] := by
  rw [sendDeferred, h, Option.isNone_some, Bool.and_false, Bool.false_and, Bool.false_and,
    if_neg Bool.false_ne_true]

theorem sendStreaming_last (cells : Cells zlib) (stream : zlib.Stream) (chunk : Bytes) :
    sendStreaming cells stream chunk false =
      ([.body ((zlib.compress stream chunk).1 ++ zlib.flush (zlib.compress stream chunk).2) false],
        { cells with compressor := some (zlib.compress stream chunk).2 }) := by
  rw [sendStreaming, if_neg Bool.false_ne_true]
  split
  · rfl
  · rename_i hempty
    rw [not_not.mp hempty, if_neg Bool.false_ne_true]

theorem sendStreaming_more (cells : Cells zlib) (stream : zlib.Stream) (chunk : Bytes) :
    sendStreaming cells stream chunk true =
      (if (zlib.compress stream chunk).1 ≠ [] then [.body (zlib.compress stream chunk).1 true]
        else [],
        { cells with compressor := some (zlib.compress stream chunk).2 }) := by
  rw [sendStreaming, if_pos rfl, if_pos rfl]
  split <;> rfl

/-- An empty piece need not be sent. -/
theorem bodyMessages_prepend (piece : Bytes) (outs : List Bytes) (last : Bytes) :
    ∃ outs', (if piece ≠ [] then [Message.body piece true] else []) ++ bodyMessages outs last =
        bodyMessages outs' last ∧ outs'.flatten = piece ++ outs.flatten := by
  by_cases hpiece : piece = []
  · exact ⟨outs, by rw [if_neg (not_not.mpr hpiece)]; rfl, by rw [hpiece]; rfl⟩
  · exact ⟨piece :: outs, by rw [if_pos hpiece]; rfl, rfl⟩

/-- While the compressor runs, what it writes is sent on. -/
theorem sendAll_streaming (mw : Middleware) (chunks : List Bytes) (final : Bytes)
    (cells : Cells zlib) {stream : zlib.Stream} (h : cells.compressor = some stream) :
    ∃ outs last, sendAll mw cells (bodyMessages chunks final) = bodyMessages outs last ∧
      outs.flatten ++ last = zlib.written stream (chunks ++ [final]) := by
  induction chunks generalizing cells stream with
  | nil =>
    refine ⟨[], (zlib.compress _ _).1 ++ zlib.flush _, ?_, rfl⟩
    rw [bodyMessages, map_nil, nil_append, sendAll_cons, sendAll_nil,
      sendWrapper_streaming h, sendStreaming_last, sendDeferred_streaming rfl]
    rfl
  | cons chunk chunks ih =>
    obtain ⟨outs, last, hsent, hwritten⟩ :=
      ih { cells with compressor := some _ } rfl
    obtain ⟨outs', hsent', hflatten⟩ :=
      bodyMessages_prepend _ _ _
    refine ⟨outs', last, ?_, ?_⟩
    · rw [bodyMessages_cons, sendAll_cons, sendWrapper_streaming h, sendStreaming_more, hsent,
        hsent']
    · rw [hflatten, append_assoc, hwritten]
      rfl

/-- A chunk that reaches the minimum size starts the response, any other is kept. -/
theorem sendChunk_of_le {chunk : Bytes}
    (hsize : mw.minimumSize ≤ (cells.initialBody ++ chunk).length) :
    sendChunk mw cells chunk =
      (.start cells.status (keptHeaders cells.respHeaders ++ [encodingGzip, varyEncoding]) ::
        (if (zlib.compress (zlib.compressobj mw.compresslevel) (cells.initialBody ++ chunk)).1 ≠ []
          then [.body (zlib.compress (zlib.compressobj mw.compresslevel)
            (cells.initialBody ++ chunk)).1 true]
          else []),
        { cells with
          initialBody := cells.initialBody ++ chunk
          moreBodySeen := true
          compressor := some (zlib.compress (zlib.compressobj mw.compresslevel)
            (cells.initialBody ++ chunk)).2 }) := by
  exact if_pos hsize

theorem sendChunk_of_lt {chunk : Bytes}
    (hsize : ¬ mw.minimumSize ≤ (cells.initialBody ++ chunk).length) :
    sendChunk mw cells chunk =
      ([], { cells with initialBody := cells.initialBody ++ chunk, moreBodySeen := true }) := by
  exact if_neg hsize

/-- From the chunk on that reaches the minimum size, the body is compressed as a stream. -/
theorem sendAll_starting (mw : Middleware) (hzlib : zlib.RoundTrips) (chunks : List Bytes)
    (final : Bytes) (cells : Cells zlib) (h : cells.compressor = none) (hne : chunks ≠ [])
    (hreach : mw.minimumSize ≤ (cells.initialBody ++ chunks.flatten).length) :
    ∃ rest outs last, sendAll mw cells (bodyMessages chunks final) =
        .start cells.status (keptHeaders cells.respHeaders ++ encodingGzip :: rest) ::
          bodyMessages outs last ∧
      zlib.gunzip (outs.flatten ++ last) = some (cells.initialBody ++ chunks.flatten ++ final) := by
  induction chunks generalizing cells with
  | nil => exact absurd rfl hne
  | cons chunk chunks ih =>
    rw [bodyMessages_cons, sendAll_cons, sendWrapper_more h]
    by_cases hsize : mw.minimumSize ≤ (cells.initialBody ++ chunk).length
    · rw [sendChunk_of_le hsize]
      obtain ⟨outs, last, hsent, hwritten⟩ := sendAll_streaming _ _ _
        { cells with
          initialBody := cells.initialBody ++ chunk
          moreBodySeen := true
          compressor := some _ } rfl
      obtain ⟨outs', hsent', hflatten⟩ := bodyMessages_prepend
        _ _
        _
      refine ⟨[varyEncoding], outs', last, ?_, ?_⟩
      · rw [hsent, cons_append, hsent']
      · rw [hflatten, append_assoc, hwritten]
        have hread := hzlib.stream mw.compresslevel
          ((cells.initialBody ++ chunk) :: (chunks ++ [final]))
        rw [Zlib.written] at hread
        rw [hread, flatten_cons, flatten_append, flatten_cons, flatten_cons,
          flatten_nil, append_nil, append_assoc, append_assoc,
          append_assoc]
    · rw [sendChunk_of_lt hsize]
      have hnonempty : chunks ≠ [] := by
        rintro rfl
        rw [flatten_cons, flatten_nil, append_nil] at hreach
        exact hsize hreach
      obtain ⟨rest, outs, last, hsent, hread⟩ := ih
        { cells with initialBody := cells.initialBody ++ chunk, moreBodySeen := true } h hnonempty
        (by rw [append_assoc]; exact hreach)
      refine ⟨rest, outs, last, hsent, ?_⟩
      rw [hread, flatten_cons]
      rw [append_assoc cells.initialBody]

/-- The chunks before the minimum size are all kept, and nothing is sent. -/
theorem sendAll_kept (mw : Middleware) (chunks : List Bytes) (final : Bytes) (cells : Cells zlib)
    (h : cells.compressor = none)
    (hshort : chunks = [] ∨ ¬ mw.minimumSize ≤ (cells.initialBody ++ chunks.flatten).length) :
    sendAll mw cells (bodyMessages chunks final) = sendAll mw { cells with
      initialBody := cells.initialBody ++ chunks.flatten
      moreBodySeen := cells.moreBodySeen || !chunks.isEmpty } [.body final false] := by
  induction chunks generalizing cells with
  | nil =>
    rw [flatten_nil, append_nil, isEmpty_nil, Bool.not_true, Bool.or_false]
    rfl
  | cons chunk chunks ih =>
    have htotal : ¬ mw.minimumSize ≤ (cells.initialBody ++ chunk ++ chunks.flatten).length := by
      rw [append_assoc]
      exact hshort.resolve_left (cons_ne_nil _ _)
    have hsize : ¬ mw.minimumSize ≤ (cells.initialBody ++ chunk).length := by
      intro hle
      rw [length_append, Nat.cast_add] at htotal
      exact htotal (le_add_of_le_of_nonneg hle (Int.natCast_nonneg _))
    rw [bodyMessages_cons, sendAll_cons, sendWrapper_more h, sendChunk_of_lt hsize,
      ih { cells with initialBody := cells.initialBody ++ chunk, moreBodySeen := true } h
        (Or.inr htotal)]
    rw [nil_append, flatten_cons, append_assoc, Bool.true_or,
      isEmpty_cons, Bool.not_false, Bool.or_true]

theorem sendAll_last (mw : Middleware) (cells : Cells zlib) (final : Bytes)
    (h : cells.compressor = none) :
    sendAll mw cells [.body final false] = sendLast mw cells final ++ sendDeferred mw cells := by
  rw [sendAll_cons, sendWrapper_last h, sendAll_nil]

/-- Only what was kept from chunks with more to come is sent after the application. -/
theorem sendDeferred_of_not (h : (cells.moreBodySeen && !cells.initialBody.isEmpty) = false) :
    sendDeferred mw cells = [] := by
  rw [sendDeferred, Bool.and_assoc, h, Bool.and_false, if_neg Bool.false_ne_true]

theorem sendDeferred_start (mw : Middleware) (hstarted : cells.started = true)
    (h : cells.compressor = none) (hseen : cells.moreBodySeen = true)
    (hkept : cells.initialBody ≠ []) :
    ∃ status headers rest, sendDeferred mw cells = .start status headers :: rest := by
  rw [sendDeferred, hstarted, h, hseen, isEmpty_eq_false_iff.mpr hkept]
  by_cases hsize : mw.minimumSize ≤ cells.initialBody.length
  · exact ⟨_, _, _, (if_pos rfl).trans (if_pos hsize)⟩
  · exact ⟨_, _, _, (if_pos rfl).trans (if_neg hsize)⟩

end Sending

/-! ## When the body arrives -/

theorem start_notMem_bodyMessages (status : ℕ) (headers : Headers) (chunks : List Bytes)
    (last : Bytes) : Message.start status headers ∉ bodyMessages chunks last := by
  intro hmem
  rcases mem_append.mp hmem with hchunk | hlast
  · have ⟨chunk, _, heq⟩ := mem_map.mp hchunk
    exact Message.noConfusion heq
  · exact Message.noConfusion (mem_singleton.mp hlast)

theorem not_delivers_body (zlib : Zlib) (content body : Bytes) (moreBody : Bool)
    (rest : List Message) : ¬ Delivers zlib content (.body body moreBody :: rest) := by
  rintro ⟨status, headers, chunks, last, heq, -⟩
  exact Message.noConfusion (List.cons.inj heq).1

theorem not_delivers_twice (zlib : Zlib) (content : Bytes) (first second : Message)
    (status : ℕ) (headers : Headers) (rest : List Message) :
    ¬ Delivers zlib content (first :: second :: .start status headers :: rest) := by
  rintro ⟨status', headers', chunks, last, heq, -⟩
  apply start_notMem_bodyMessages _ _ _ _
  rw [← (List.cons.inj heq).2]
  exact mem_cons_of_mem _ mem_cons_self

theorem delivers_compressed (hzlib : zlib.RoundTrips) (level : ℤ) (content : Bytes) (status : ℕ)
    (headers rest : Headers) :
    Delivers zlib content [.start status (headers ++ encodingGzip :: rest),
      .body (zlib.gzipCompress level content) false] := by
  refine ⟨status, headers ++ encodingGzip :: rest, [], zlib.gzipCompress _ _, rfl, ?_⟩
  rw [saysGzip_appended, if_pos rfl]
  exact hzlib.gzip _ _

theorem delivers_plain (zlib : Zlib) (status : ℕ) (headers : Headers) (content : Bytes) :
    Delivers zlib content [.start status headers, .body content false] ↔
      (saysGzip headers = true → zlib.gunzip content = some content) := by
  constructor
  · rintro ⟨status', headers', chunks, last, heq, hread⟩ hgzip
    cases chunks with
    | nil =>
      cases heq
      rwa [if_pos hgzip] at hread
    | cons chunk chunks => cases heq
  · intro hread
    refine ⟨status, headers, [], content, rfl, ?_⟩
    split
    · rename_i hgzip
      exact hread hgzip
    · rfl

/-- A body in one message is not held back. -/
theorem delivers_single (mw : Middleware) (hzlib : zlib.RoundTrips) (cells : Cells zlib)
    (h : cells.compressor = none) (hseen : cells.moreBodySeen = false)
    (hkept : cells.initialBody = []) (final : Bytes) :
    Delivers zlib final (sendAll mw cells [.body final false]) ↔
      (¬ mw.minimumSize ≤ final.length → saysGzip cells.respHeaders = true →
        zlib.gunzip final = some final) := by
  rw [sendAll_last _ _ _ h, sendDeferred_of_not (by rw [hseen, Bool.false_and]),
    append_nil, sendLast, hkept, nil_append, hseen]
  by_cases hsize : mw.minimumSize ≤ final.length
  · simp only [if_pos hsize]
    exact iff_of_true (delivers_compressed hzlib _ _ _ _ _) fun hlt => absurd hsize hlt
  · simp only [if_neg hsize]
    exact (delivers_plain _ _ _ _).trans ⟨fun hread _ => hread, fun hread => hread hsize⟩

/-- What was held back in several messages arrives only if it was empty all along. -/
theorem delivers_kept (mw : Middleware) (hzlib : zlib.RoundTrips) (cells : Cells zlib)
    (h : cells.compressor = none) (hstarted : cells.started = true)
    (hseen : cells.moreBodySeen = true) (final : Bytes) :
    Delivers zlib (cells.initialBody ++ final) (sendAll mw cells [.body final false]) ↔
      cells.initialBody = [] ∧ mw.minimumSize ≤ final.length := by
  rw [sendAll_last _ _ _ h, sendLast]
  by_cases hsize : mw.minimumSize ≤ (cells.initialBody ++ final).length
  · simp only [if_pos hsize]
    by_cases hkept : cells.initialBody = []
    · rw [sendDeferred_of_not (by rw [hkept, isEmpty_nil, Bool.not_true, Bool.and_false]),
        append_nil]
      rw [hkept, nil_append] at hsize
      exact iff_of_true (delivers_compressed hzlib _ _ _ _ _) ⟨hkept, hsize⟩
    · have ⟨status, headers, rest, hdeferred⟩ := sendDeferred_start mw hstarted h hseen hkept
      rw [hdeferred]
      exact iff_of_false (not_delivers_twice _ _ _ _ _ _ _) fun hempty => hkept hempty.1
  · simp only [if_neg hsize, if_pos hseen]
    refine iff_of_false (not_delivers_body _ _ _ _ _) ?_
    rintro ⟨hkept, hle⟩
    rw [hkept, nil_append] at hsize
    exact hsize hle

/-- The response arrives if the body comes in one message, if the chunks before the last one
reach the minimum size, or if these are empty and the last one reaches it. -/
theorem body_preserved_iff (mw : Middleware) (hzlib : zlib.RoundTrips) (scope : Scope)
    (htype : scope.type = ascii "http") (haccepts : acceptsGzip scope = true) (status : ℕ)
    (headers : Headers) (chunks : List Bytes) (final : Bytes) :
    Delivers zlib (chunks.flatten ++ final)
        (call mw zlib scope (.start status headers :: bodyMessages chunks final)) ↔
      (chunks = [] ∧ (¬ mw.minimumSize ≤ final.length → saysGzip headers = true →
        zlib.gunzip final = some final)) ∨
      (chunks ≠ [] ∧ (mw.minimumSize ≤ chunks.flatten.length ∨
        chunks.flatten = [] ∧ mw.minimumSize ≤ final.length)) := by
  rw [call, if_neg (not_not.mpr htype), haccepts, Bool.not_true, if_neg Bool.false_ne_true,
    sendAll_cons, sendWrapper, nil_append]
  by_cases hsingle : chunks = []
  · rw [hsingle]
    refine (delivers_single _ hzlib _ rfl rfl rfl _).trans ?_
    exact ⟨fun hread => Or.inl ⟨rfl, hread⟩, fun hor => (hor.resolve_right fun hne => hne.1 rfl).2⟩
  · by_cases hreach : mw.minimumSize ≤ chunks.flatten.length
    · have ⟨rest, outs, last, hsent, hread⟩ := sendAll_starting _ hzlib _ final
        { ({} : Cells _) with
          status := status
          respHeaders := headers
          started := true } rfl hsingle hreach
      refine iff_of_true ⟨status, _, outs, last, hsent, ?_⟩ (Or.inr ⟨hsingle, Or.inl hreach⟩)
      rw [saysGzip_appended, if_pos rfl]
      exact hread
    · have hkept := sendAll_kept _ _ final
        { ({} : Cells zlib) with
          status := status
          respHeaders := headers
          started := true } rfl (Or.inr hreach)
      rw [hkept, isEmpty_eq_false_iff.mpr hsingle]
      refine (delivers_kept _ hzlib _ rfl rfl rfl _).trans ?_
      constructor
      · exact fun hempty => Or.inr ⟨hsingle, Or.inr hempty⟩
      · exact fun hor => ((hor.resolve_left fun heq => hsingle heq.1).2).resolve_left hreach

/-- The magic number of gzip and the code of the method. -/
def magic : Bytes := [0x1f, 0x8b, 8]

/-- A format that keeps the content as it is behind the magic number; a stream knows whether
that has been written. -/
def stored : Zlib where
  Stream := Bool
  compressobj := fun _ => false
  compress := fun written chunk => (if written then chunk else magic ++ chunk, true)
  flush := fun written => if written then [] else magic
  gzipCompress := fun _ body => magic ++ body
  gunzip := fun content => if magic.isPrefixOf content then some (content.drop 3) else none

theorem stored_gunzip (body : Bytes) : stored.gunzip (magic ++ body) = some body := by
  have hmagic : magic.isPrefixOf (magic ++ body) = true :=
    isPrefixOf_iff_prefix.mpr (prefix_append _ _)
  change (if magic.isPrefixOf (magic ++ body) then some ((magic ++ body).drop 3) else none) = _
  rfl

theorem stored_written (chunks : List Bytes) :
    stored.written (true : Bool) chunks = chunks.flatten := by
  induction chunks with
  | nil => rfl
  | cons chunk chunks ih => exact congrArg _ ih

theorem stored_roundTrips : stored.RoundTrips where
  gzip := fun _ => stored_gunzip
  stream := by
    intro level chunks
    cases chunks with
    | nil => exact stored_gunzip []
    | cons chunk chunks =>
      have hwritten : stored.written (stored.compressobj level) (chunk :: chunks) =
          magic ++ (chunk :: chunks).flatten := by
        rw [flatten_cons, ← stored_written, ← append_assoc]
        rfl
      rw [hwritten, stored_gunzip]

def gzipClient : Scope where
  headers := [(ascii "accept-encoding", ascii "gzip, br")]

/-- Chunks that reach the minimum size with the second one. -/
theorem body_preserved_iff_chunks :
    Delivers stored (ascii "abcde")
      (call { minimumSize := 4 } stored gzipClient
        (.start 200 [] :: bodyMessages [ascii "ab", ascii "cd"] (ascii "e"))) :=
  (body_preserved_iff _ stored_roundTrips _ rfl (by decide) 200 [] [ascii "ab", ascii "cd"] _).mpr
    (Or.inr ⟨by decide, Or.inl (by decide)⟩)

/-- Two chunks below the minimum size: a body without a start, and the first chunk again. -/
theorem body_before_start :
    ¬ ∀ (zlib : Zlib) (mw : Middleware) (scope : Scope) (status : ℕ) (headers : Headers)
        (chunks : List Bytes) (final : Bytes), zlib.RoundTrips → scope.type = ascii "http" →
      acceptsGzip scope = true → Delivers zlib (chunks.flatten ++ final)
        (call mw zlib scope (.start status headers :: bodyMessages chunks final)) := by
  intro hall
  have hsent : call {} stored gzipClient (.start 200 [] :: bodyMessages [ascii "ab"] (ascii "c")) =
      [.body (ascii "abc") false, .start 200 [], .body (ascii "ab") false] := by
    decide
  have hdelivers := hall _ {} gzipClient 200 [] [ascii "ab"] (ascii "c") stored_roundTrips rfl
    (by decide)
  exact not_delivers_body _ _ _ _ _ hdelivers

end AstraApi.Dispatch.GZip
