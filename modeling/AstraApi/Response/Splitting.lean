import AstraApi.Lib.Supplied
import AstraApi.Lib.Text
import AstraApi.Response.Framing

/-!
# Supplied headers in responses

`build_response_from_parts`, `build_http_error_response` with the headers of an
exception, and `_inject_headers_into_response` write header strings of the
application.  Nothing looks for line ends in them.
-/

namespace AstraApi.Response

open List
open Message (Field CrlfFree Clean Unsplit fieldLine trimmed crlf writeMessage)
open Occurrence (firstOccurrence OccursAt)

/-! ## The routines -/

/-- A name and a value, encoded. -/
def encodePair (encode : Text → Option Bytes) (header : Text × Text) : Option Field :=
  match encode header.1, encode header.2 with
  | some name, some value => some (name, value)
  | _, _ => none

def isContentLength (field : Field) : Bool :=
  field.1.map Message.lowerCase == ascii "content-length"

/-- `build_response_from_parts`; `none` when a string has no UTF-8. -/
def buildResponseFromParts (status : ℤ) (headers : List (Text × Text)) (body : Bytes)
    (keepAlive : Bool) : Option Bytes :=
  (headers.mapM (encodePair Text.utf8)).map fun fields =>
    statusLine status ++ ascii "\r\n" ++
      fields.flatMap (fun field => field.1 ++ ascii ": " ++ field.2 ++ ascii "\r\n") ++
      (if fields.any isContentLength ∨ status = 204 ∨ status = 304 then []
        else ascii "content-length: " ++ decimal body.length ++ ascii "\r\n") ++
      (if keepAlive then ascii "connection: keep-alive\r\n" else ascii "connection: close\r\n") ++
      ascii "\r\n" ++ body

def jsonEscapeByte (c : Byte) : Bytes :=
  if c = 0x22 then ascii "\\\""
  else if c = 0x5c then ascii "\\\\"
  else if c = 0x0a then ascii "\\n"
  else if c = 0x0d then ascii "\\r"
  else if c = 0x09 then ascii "\\t"
  else if c < 0x20 then ascii "\\u00" ++ [hexDigit (c.toNat / 16), hexDigit (c.toNat % 16)]
  else [c]

def cString (bytes : Bytes) : Bytes := bytes.takeWhile (· ≠ 0)

def errorBody (message : Bytes) : Bytes :=
  [0x7b] ++ ascii "\"detail\":\"" ++ (cString message).flatMap jsonEscapeByte ++ ascii "\"" ++
    [0x7d]

def buildHttpErrorResponse (status : ℤ) (message : Bytes) (keepAlive : Bool)
    (cors : Option (CorsConfig × Bytes)) (extraHeaders : Option Bytes) : Bytes :=
  buildHttpResponse status keepAlive false cors none extraHeaders (errorBody message)

/-- The headers of an exception that have UTF-8; the others are left out. -/
def encodedHeaders (headers : List (Text × Text)) : List Field :=
  headers.filterMap (encodePair Text.utf8)

def cut (field : Field) : Field := (cString field.1, cString field.2)

/-- `extract_http_exc_headers`; callers pass a null pointer for no header. -/
def extractHttpExcHeaders (headers : List (Text × Text)) : Option Bytes :=
  extraText ((encodedHeaders headers).map cut)

/-- A name or a value is a string or bytes. -/
inductive HeaderPart where
  | str (text : Text)
  | bytes (data : Bytes)

def HeaderPart.encode : HeaderPart → Option Bytes
  | .str text => text.latin1
  | .bytes data => some data

def encodeParts (header : HeaderPart × HeaderPart) : Option Field :=
  match header.1.encode, header.2.encode with
  | some name, some value => some (name, value)
  | _, _ => none

/-- `_inject_headers_into_response`; `none` when a string has no Latin-1. -/
def injectHeadersIntoResponse (response : Bytes) (extraHeaders : List (HeaderPart × HeaderPart)) :
    Option Bytes :=
  match firstOccurrence (ascii "\r\n\r\n") response with
  | none => some response
  | some index =>
    (extraHeaders.mapM encodeParts).map fun fields =>
      let parts := (fields.filter fun field => !isContentLength field).flatMap fun field =>
        ascii "\r\n" ++ field.1 ++ ascii ": " ++ field.2
      if parts = [] then response else response.take index ++ parts ++ response.drop index

/-! ## What they write -/

theorem crlf_eq : ascii "\r\n" = crlf := by decide

theorem crlfFree_statusLine (status : ℤ) : CrlfFree (statusLine status) := by
  have hversion : CrlfFree (ascii "HTTP/1.1 ") := by decide
  have hspace : CrlfFree (ascii " ") := by decide
  rw [statusLine_eq]
  simp only [statusText, Message.crlfFree_append]
  exact ⟨⟨⟨hversion, crlfFree_decimal_int _⟩, hspace⟩, crlfFree_reasonOf _⟩

/-- The headers that `build_response_from_parts` adds. -/
def partsFields (status : ℤ) (fields : List Field) (length : ℕ) (keepAlive : Bool) : List Field :=
  (if fields.any isContentLength ∨ status = 204 ∨ status = 304 then []
    else [(ascii "content-length", decimal length)]) ++ [connectionField keepAlive]

theorem buildResponseFromParts_eq (status : ℤ) (headers : List (Text × Text)) (body : Bytes)
    (keepAlive : Bool) :
    buildResponseFromParts status headers body keepAlive =
      (headers.mapM (encodePair Text.utf8)).map fun fields =>
        writeMessage (statusLine status)
          ((fields ++ partsFields status fields body.length keepAlive).map fieldLine) body := by
  simp only [buildResponseFromParts]
  congr 1
  funext fields
  have hconnection : (if keepAlive then ascii "connection: keep-alive\r\n"
      else ascii "connection: close\r\n") = fieldLine (connectionField keepAlive) ++ crlf := by
    cases keepAlive <;> decide
  have hlength : ascii "content-length: " = ascii "content-length" ++ ascii ": " := by decide
  rw [Message.writeMessage_eq, Message.writeFields, hconnection, crlf_eq, hlength, partsFields]
  split <;> simp [fieldLine, flatMap_map]

theorem clean_partsFields (status : ℤ) (fields : List Field) (length : ℕ) (keepAlive : Bool) :
    ∀ field ∈ partsFields status fields length keepAlive, Clean field := by
  intro field hfield
  simp only [partsFields, mem_append, mem_singleton] at hfield
  rcases hfield with hfield | rfl
  · split at hfield
    · cases hfield
    · cases mem_singleton.mp hfield
      exact .of_name (by decide) (crlfFree_decimal _)
  · exact clean_connectionField _

/-- A response with an unscreened origin has no CORS headers. -/
def screened (cors : Option (CorsConfig × Bytes)) : Option (CorsConfig × Bytes) :=
  cors.filter fun cors => decide (CrlfFree cors.2)

theorem crlfFree_screened (cors : Option (CorsConfig × Bytes)) :
    ∀ config origin, screened cors = some (config, origin) → CrlfFree origin := by
  intro config origin h
  simpa using (Option.filter_eq_some_iff.mp h).2

theorem corsHeaders_screened (cors : Option (CorsConfig × Bytes)) :
    corsHeaders cors = corsHeaders (screened cors) := by
  match cors with
  | none => rfl
  | some (config, origin) =>
    by_cases hfree : CrlfFree origin
    · simp [screened, Option.filter, hfree]
    · have hguard : 0x0d ∈ origin ∨ 0x0a ∈ origin := by
        by_contra h
        exact hfree (not_or.mp h)
      simp [screened, Option.filter, hfree, corsHeaders, buildCorsHeaders, hguard]

theorem buildHttpResponse_screened (status : ℕ) (keepAlive headOnly : Bool)
    (cors : Option (CorsConfig × Bytes)) (encoding : Option ContentEncoding)
    (extraHeaders : Option Bytes) (body : Bytes) :
    buildHttpResponse status keepAlive headOnly cors encoding extraHeaders body =
      buildHttpResponse status keepAlive headOnly (screened cors) encoding extraHeaders body := by
  by_cases hbody : Bodiless status
  · rw [buildHttpResponse_bodiless_text _ headOnly _ hbody,
      buildHttpResponse_bodiless_text _ headOnly _ hbody, ← corsHeaders_screened]
  · rw [buildHttpResponse_text _ _ _ _ _ hbody, buildHttpResponse_text _ _ _ _ _ hbody,
      ← corsHeaders_screened]

/-! ## Responses from parts -/

section Parts

variable (status : ℤ) (headers : List (Text × Text)) (body : Bytes) (keepAlive : Bool)

/-- The routine refuses the headers or writes an unsplit message. -/
def PartsUnsplit : Prop :=
  ∀ fields, headers.mapM (encodePair Text.utf8) = some fields →
    ∃ bytes, buildResponseFromParts status headers body keepAlive = some bytes ∧
      Unsplit bytes (statusLine status) [] fields
        (partsFields status fields body.length keepAlive) body

theorem partsUnsplit_iff :
    PartsUnsplit status headers body keepAlive ↔
      ∀ fields, headers.mapM (encodePair Text.utf8) = some fields →
        ∀ field ∈ fields, Clean field := by
  apply forall_congr'
  intro fields
  apply imp_congr_right
  intro hencoded
  have hbytes := buildResponseFromParts_eq status headers body keepAlive
  rw [hencoded, Option.map_some] at hbytes
  have hunsplit : Unsplit (writeMessage (statusLine status)
      (([] ++ fields ++ partsFields status fields body.length keepAlive).map fieldLine) body)
      (statusLine status) [] fields (partsFields status fields body.length keepAlive) body ↔
      ∀ field ∈ fields, Clean field :=
    Message.unsplit_write_self_iff (crlfFree_statusLine _) (forall_mem_nil _)
      (clean_partsFields _ _ _ _)
  rw [nil_append] at hunsplit
  rw [hbytes]
  simp only [Option.some.injEq, exists_eq_left', hunsplit]

end Parts

/-! ## Error responses -/

theorem cString_isInitial (bytes : Bytes) : cString bytes <+: bytes := takeWhile_prefix _

theorem cString_eq_self_iff (bytes : Bytes) : cString bytes = bytes ↔ 0 ∉ bytes := by
  simp only [cString, takeWhile_eq_self_iff, ne_eq, decide_not, Bool.not_eq_true',
    decide_eq_false_iff_not]
  constructor
  · intro h hzero
    exact h 0 hzero rfl
  · rintro h b hb rfl
    exact h hb

theorem zero_notMem_cString (bytes : Bytes) : 0 ∉ cString bytes := by
  intro h
  simpa using mem_takeWhile_imp h

theorem zero_notMem_fieldLine_cut (field : Field) : 0 ∉ fieldLine (cut field) := by
  have hcolon : 0 ∉ ascii ": " := by decide
  simp [fieldLine, cut, zero_notMem_cString, hcolon]

theorem cut_eq_self {field : Field} (hname : 0 ∉ field.1) (hvalue : 0 ∉ field.2) :
    cut field = field := by
  rw [cut, (cString_eq_self_iff _).mpr hname, (cString_eq_self_iff _).mpr hvalue]

theorem zero_mem_neutralised {bytes : Bytes} (h : 0 ∈ bytes) : 0 ∈ Message.neutralised bytes :=
  mem_map.mpr ⟨0, h, by decide⟩

/-- A header that is written up to its null bytes is read as it may be exactly when
it is clean and has no null byte. -/
theorem treated_cut_iff (field : Field) :
    (CrlfFree (fieldLine (cut field)) ∧ ∃ read, Message.readField (fieldLine (cut field)) =
        some read ∧ Message.Treated field [read]) ↔
      Clean field ∧ 0 ∉ field.1 ∧ 0 ∉ field.2 := by
  constructor
  · rintro ⟨hfree, read, hread, htreated⟩
    obtain ⟨hname, hvalue⟩ := Message.subset_of_readField hread
    have hzeroName : 0 ∉ read.1 := fun h => zero_notMem_fieldLine_cut _ (hname h)
    have hzeroValue : 0 ∉ read.2 := fun h => zero_notMem_fieldLine_cut _ (hvalue h)
    have hows : Message.isOws 0 = false := by decide
    have hparts : CrlfFree field.1 ∧ CrlfFree field.2 ∧ 0 ∉ field.1 ∧ 0 ∉ field.2 := by
      rw [Message.Treated] at htreated
      split at htreated
      · rename_i hclean
        rw [singleton_inj] at htreated
        rw [htreated] at hzeroName hzeroValue
        exact ⟨hclean.1, hclean.2, hzeroName, (Message.mem_trim hows).not.mp hzeroValue⟩
      · rename_i hunclean
        have hneutral := singleton_inj.mp (htreated.resolve_left (cons_ne_nil _ _))
        rw [hneutral] at hzeroName hzeroValue
        have hnameZero : 0 ∉ field.1 := fun h => hzeroName (zero_mem_neutralised h)
        have hvalueZero : 0 ∉ field.2 := fun h =>
          hzeroValue ((Message.mem_trim hows).mpr (zero_mem_neutralised h))
        rw [cut_eq_self hnameZero hvalueZero] at hfree
        exact absurd (Message.crlfFree_fieldLine.mp hfree) hunclean
    obtain ⟨hcleanName, hcleanValue, hnoName, hnoValue⟩ := hparts
    rw [Message.Treated, if_pos ⟨hcleanName, hcleanValue⟩, singleton_inj] at htreated
    rw [cut_eq_self hnoName hnoValue, htreated] at hread
    exact ⟨⟨hcleanName, hcleanValue, (Message.readField_fieldLine_iff _).mp hread⟩, hnoName,
      hnoValue⟩
  · rintro ⟨hclean, hname, hvalue⟩
    have hparts : CrlfFree field.1 ∧ CrlfFree field.2 := ⟨hclean.name, hclean.value⟩
    rw [cut_eq_self hname hvalue]
    refine ⟨Message.crlfFree_fieldLine.mpr hparts, trimmed _,
      (Message.readField_fieldLine_iff _).mpr hclean.colonFree, ?_⟩
    rw [Message.Treated, if_pos hparts]

section Error

variable (status : ℕ) (message : Bytes) (keepAlive : Bool) (cors : Option (CorsConfig × Bytes))
  (headers : List (Text × Text))

/-- The builder's headers before those of the exception. -/
def errorBefore : List Field :=
  if Bodiless status then corsFields (screened cors) else contentFields (errorBody message).length

/-- The builder's headers after those of the exception. -/
def errorAfter : List Field :=
  (if Bodiless status then [] else corsFields (screened cors)) ++ [connectionField keepAlive]

def ErrorUnsplit : Prop :=
  Unsplit
    (buildHttpErrorResponse status message keepAlive cors (extractHttpExcHeaders headers))
    (statusLine status) (errorBefore status message cors) (encodedHeaders headers)
    (errorAfter status keepAlive cors) (if Bodiless status then [] else errorBody message)

theorem statusLine_bodiless {status : ℕ} (hbody : Bodiless status) :
    statusLine status = statusText status (statusReason status) := by
  rcases hbody with rfl | rfl <;> rfl

theorem buildHttpErrorResponse_eq (hbody : ¬ Bodiless status) :
    buildHttpErrorResponse status message keepAlive cors (extractHttpExcHeaders headers) =
      writeMessage (statusLine status)
        ((errorBefore status message cors ++ (encodedHeaders headers).map cut ++
          errorAfter status keepAlive cors).map fieldLine) (errorBody message) := by
  rw [buildHttpErrorResponse, extractHttpExcHeaders, buildHttpResponse_screened,
    buildHttpResponse_eq_write _ _ _ _ _ _ hbody (crlfFree_screened _)]
  simp [responseFields, errorBefore, errorAfter, hbody, encodingFields]

theorem exposesLines_of_corsFields {cors : Option (CorsConfig × Bytes)}
    (h : ∀ field ∈ corsFields cors, CrlfFree field.2) : ExposesLines cors := by
  rintro config origin rfl hne
  by_cases hlist : config.exposeHeaders = []
  · simp only [CorsConfig.exposeText, hlist, List.intercalate]
    decide
  · exact h (ascii "access-control-expose-headers", config.exposeText)
      (by simp [corsFields, hne, CorsConfig.fields, hlist])

theorem exposesLines_of_errorUnsplit
    (h : ErrorUnsplit status message keepAlive cors headers) : ExposesLines (screened cors) := by
  obtain ⟨hbefore, hafter⟩ := Message.crlfFree_of_unsplit h
  apply exposesLines_of_corsFields
  intro field hfield
  by_cases hbody : Bodiless status
  · exact hbefore _ (by simpa [errorBefore, hbody] using hfield)
  · exact hafter _ (by simp [errorAfter, hbody, hfield])

variable {status cors} in
theorem clean_errorBefore (hexpose : ExposesLines (screened cors)) :
    ∀ field ∈ errorBefore status message cors, Clean field := by
  intro field hfield
  simp only [errorBefore] at hfield
  split at hfield
  · exact clean_corsFields (crlfFree_screened cors) hexpose field hfield
  · exact clean_contentFields _ field hfield

variable {status cors} in
theorem clean_errorAfter (hexpose : ExposesLines (screened cors)) :
    ∀ field ∈ errorAfter status keepAlive cors, Clean field := by
  intro field hfield
  simp only [errorAfter, mem_append, mem_singleton] at hfield
  rcases hfield with hfield | rfl
  · split at hfield
    · cases hfield
    · exact clean_corsFields (crlfFree_screened cors) hexpose field hfield
  · exact clean_connectionField keepAlive

theorem extraText_cons (field : Field) (fields : List Field) :
    (extraText (field :: fields)).getD [] = fieldLine field ++ fieldText fields := by
  have hjoined := crlf_intercalate ((field :: fields).map fieldLine) (by simp)
  rw [flatMap_map, flatMap_cons, append_assoc] at hjoined
  exact append_cancel_left hjoined

theorem length_le_fieldText_lineFeeds (fields : List Field) :
    fields.length ≤ (fieldText fields).count Message.lf := by
  have hcrlf : crlf.count Message.lf = 1 := by decide
  induction fields with
  | nil => simp
  | cons field fields ih =>
    simp only [fieldText_cons, count_append, hcrlf, length_cons]
    omega

/-- Without content the first header of the exception has no line of its own. -/
theorem not_errorUnsplit_bodiless {status : ℕ} {cors : Option (CorsConfig × Bytes)}
    (hbody : Bodiless status) (hexpose : ExposesLines (screened cors))
    (hheaders : encodedHeaders headers ≠ []) :
    ¬ ErrorUnsplit status message keepAlive cors headers := by
  obtain ⟨first, others, hencoded⟩ := exists_cons_of_ne_nil hheaders
  have hbefore := clean_corsFields (crlfFree_screened _) hexpose
  have hcount : others.length + 3 ≤
      (fieldText (others.map cut) ++ connectionSuffix keepAlive).count Message.lf := by
    have hothers := length_le_fieldText_lineFeeds (others.map cut)
    rw [count_append, connectionSuffix_lineFeeds]
    simp only [length_map] at hothers
    omega
  have hglued : ¬ Unsplit (statusLine status ++ ((corsFields (screened cors)).map fieldLine).flatMap
      (fun line => crlf ++ line) ++ (fieldLine (cut first) ++
        (fieldText (others.map cut) ++ connectionSuffix keepAlive))) (statusLine status)
      (corsFields (screened cors)) ((first :: others).map id) [connectionField keepAlive] [] :=
    Message.not_unsplit_glued (crlfFree_statusLine _) hbefore (cString_isInitial first.1) hcount
  have htext : buildHttpErrorResponse status message keepAlive cors
      (extractHttpExcHeaders headers) = statusLine status ++
        ((corsFields (screened cors)).map fieldLine).flatMap (fun line => crlf ++ line) ++
        (fieldLine (cut first) ++ (fieldText (others.map cut) ++ connectionSuffix keepAlive)) := by
    rw [buildHttpErrorResponse, buildHttpResponse_screened,
      buildHttpResponse_bodiless_text _ _ _ hbody, corsHeaders_eq (crlfFree_screened _),
      extractHttpExcHeaders, hencoded, map_cons, extraText_cons, statusLine_bodiless hbody]
    simp [fieldText, flatMap_map]
  rw [ErrorUnsplit, htext, errorBefore, errorAfter, hencoded, if_pos hbody, if_pos hbody,
    if_pos hbody]
  simpa only [map_id, nil_append] using hglued

theorem errorUnsplit_iff :
    ErrorUnsplit status message keepAlive cors headers ↔
      ExposesLines (screened cors) ∧ (Bodiless status → encodedHeaders headers = []) ∧
        ∀ field ∈ encodedHeaders headers, Clean field ∧ 0 ∉ field.1 ∧ 0 ∉ field.2 := by
  by_cases hbody : Bodiless status
  · constructor
    · intro h
      have hexpose := exposesLines_of_errorUnsplit _ _ _ _ _ h
      have hnone : encodedHeaders headers = [] := by
        by_contra hheaders
        exact not_errorUnsplit_bodiless _ _ _ hbody hexpose hheaders h
      exact ⟨hexpose, fun _ => hnone, by simp [hnone]⟩
    · rintro ⟨hexpose, hnone, -⟩
      have hunsplit : Unsplit (writeMessage (statusLine status)
          ((corsFields (screened cors) ++ [] ++ [connectionField keepAlive]).map fieldLine) [])
          (statusLine status) (corsFields (screened cors)) [] [connectionField keepAlive] [] ↔ _ :=
        Message.unsplit_write_self_iff (crlfFree_statusLine _)
          (clean_corsFields (crlfFree_screened _) hexpose)
          (by simpa using clean_connectionField _)
      have htext : buildHttpErrorResponse status message keepAlive cors
          (extractHttpExcHeaders headers) = writeMessage (statusLine status)
            ((corsFields (screened cors) ++ [] ++ [connectionField keepAlive]).map fieldLine) [] := by
        rw [buildHttpErrorResponse, buildHttpResponse_screened,
          buildHttpResponse_bodiless_text _ _ _ hbody, corsHeaders_eq (crlfFree_screened _),
          extractHttpExcHeaders, hnone hbody, connectionSuffix_eq, writeMessage_fields,
          statusLine_bodiless hbody]
        simp [extraText]
      rw [ErrorUnsplit, htext, errorBefore, errorAfter, hnone hbody, if_pos hbody, if_pos hbody,
        if_pos hbody]
      exact hunsplit.mpr (forall_mem_nil _)
  · have hiff (hexpose : ExposesLines (screened cors)) :
        ErrorUnsplit status message keepAlive cors headers ↔
          ∀ field ∈ encodedHeaders headers, Clean field ∧ 0 ∉ field.1 ∧ 0 ∉ field.2 := by
      have hunsplit : Unsplit (writeMessage (statusLine status)
          ((errorBefore status message cors ++ (encodedHeaders headers).map cut ++
            errorAfter status keepAlive cors).map fieldLine) (errorBody message))
          (statusLine status) (errorBefore status message cors) ((encodedHeaders headers).map id)
          (errorAfter status keepAlive cors) (errorBody message) ↔ _ :=
        Message.unsplit_write_iff (crlfFree_statusLine _) (clean_errorBefore _ hexpose)
          (clean_errorAfter _ hexpose)
      rw [ErrorUnsplit, buildHttpErrorResponse_eq _ _ _ _ _ hbody, if_neg hbody]
      rw [map_id] at hunsplit
      rw [hunsplit]
      apply forall₂_congr
      intro field hfield
      exact treated_cut_iff _
    constructor
    · intro h
      have hexpose := exposesLines_of_errorUnsplit _ _ _ _ _ h
      exact ⟨hexpose, fun h => absurd h hbody, (hiff hexpose).mp h⟩
    · rintro ⟨hexpose, -, hclean⟩
      exact (hiff hexpose).mpr hclean

end Error

/-! ## Injected headers -/

section Inject

variable (start : Bytes) (base : List Field) (content : Bytes)
  (extraHeaders : List (HeaderPart × HeaderPart))

/-- The response has a content length of its own; the other headers come behind its
fields. -/
def InjectUnsplit : Prop :=
  ∀ fields, extraHeaders.mapM encodeParts = some fields →
    ∃ bytes, injectHeadersIntoResponse (writeMessage start (base.map fieldLine) content)
        extraHeaders = some bytes ∧
      Unsplit bytes start base (fields.filter fun field => !isContentLength field) [] content

variable {start base}

theorem injectHeadersIntoResponse_eq (hstart : CrlfFree start)
    (hbase : ∀ field ∈ base, Clean field) :
    injectHeadersIntoResponse (writeMessage start (base.map fieldLine) content) extraHeaders =
      (extraHeaders.mapM encodeParts).map fun fields =>
        writeMessage start
          ((base ++ fields.filter fun field => !isContentLength field).map fieldLine) content := by
  have hlines : ∀ line ∈ base.map fieldLine, CrlfFree line ∧ line ≠ [] := by
    intro line hline
    obtain ⟨field, hfield, rfl⟩ := mem_map.mp hline
    have hclean := hbase _ hfield
    exact ⟨Message.crlfFree_fieldLine.mpr ⟨hclean.name, hclean.value⟩, Message.fieldLine_ne_nil _⟩
  have hsep : ascii "\r\n\r\n" = Message.emptyLine := by decide
  simp only [injectHeadersIntoResponse, hsep, Message.firstOccurrence_emptyLine hstart hlines _]
  congr 1
  funext fields
  have hparts : ((fields.filter fun field => !isContentLength field).flatMap fun field =>
      ascii "\r\n" ++ field.1 ++ ascii ": " ++ field.2) =
      ((fields.filter fun field => !isContentLength field).map fieldLine).flatMap
        fun line => crlf ++ line := by
    simp [flatMap_map, fieldLine, crlf_eq]
  have hinserted := Message.insert_writeMessage start (base.map fieldLine)
    ((fields.filter fun field => !isContentLength field).map fieldLine) content
  rw [map_append, ← hinserted, hparts]
  split
  · rename_i hempty
    rw [hempty, append_nil, take_append_drop]
  · rfl

theorem injectUnsplit_iff (hstart : CrlfFree start) (hbase : ∀ field ∈ base, Clean field) :
    InjectUnsplit start base content extraHeaders ↔
      ∀ fields, extraHeaders.mapM encodeParts = some fields →
        ∀ field ∈ fields, isContentLength field = false → Clean field := by
  apply forall_congr'
  intro fields
  apply imp_congr_right
  intro hencoded
  have hbytes := injectHeadersIntoResponse_eq content extraHeaders hstart hbase
  rw [hencoded, Option.map_some] at hbytes
  have hunsplit : Unsplit (writeMessage start
      ((base ++ (fields.filter fun field => !isContentLength field) ++ []).map fieldLine) content)
      start base (fields.filter fun field => !isContentLength field) [] content ↔ _ :=
    Message.unsplit_write_self_iff hstart hbase (forall_mem_nil _)
  rw [append_nil] at hunsplit
  rw [hbytes]
  simp only [Option.some.injEq, exists_eq_left', hunsplit, mem_filter, Bool.not_eq_true', and_imp]

end Inject

/-! ## The three routines -/

/-- The headers of the application are written without splitting the response
exactly when they are clean: no line end, and no colon in a name. -/
theorem responses_unsplit_iff (status : ℕ) (keepAlive : Bool) (body : Bytes)
    (headers : List (Text × Text)) (message : Bytes) (cors : Option (CorsConfig × Bytes))
    {start : Bytes} {base : List Field} (extraHeaders : List (HeaderPart × HeaderPart))
    (hstart : CrlfFree start) (hbase : ∀ field ∈ base, Clean field) :
    (PartsUnsplit status headers body keepAlive ↔
      ∀ fields, headers.mapM (encodePair Text.utf8) = some fields → ∀ field ∈ fields, Clean field) ∧
    (ErrorUnsplit status message keepAlive cors headers ↔
      ExposesLines (screened cors) ∧ (Bodiless status → encodedHeaders headers = []) ∧
        ∀ field ∈ encodedHeaders headers, Clean field ∧ 0 ∉ field.1 ∧ 0 ∉ field.2) ∧
    (InjectUnsplit start base body extraHeaders ↔
      ∀ fields, extraHeaders.mapM encodeParts = some fields →
        ∀ field ∈ fields, isContentLength field = false → Clean field) :=
  ⟨partsUnsplit_iff _ _ _ _, errorUnsplit_iff _ _ _ _ _, injectUnsplit_iff _ _ hstart hbase⟩

/-- Headers around a redirect. -/
theorem responses_unsplit_location :
    PartsUnsplit (307 : ℕ) [(plainText "location", plainText "/a")] [] true ∧
    ErrorUnsplit 401 (ascii "No token") true none [(plainText "www-authenticate",
      plainText "Bearer")] ∧
    InjectUnsplit (ascii "HTTP/1.1 200 OK") [(ascii "content-length", ascii "0")] []
      [(.str (plainText "x-trace"), .bytes (ascii "7"))] := by
  have hbase : ∀ field ∈ [(ascii "content-length", ascii "0")], Clean field := by
    intro field hfield
    cases mem_singleton.mp hfield
    exact .of_name (by decide) (by decide)
  have hlocation := responses_unsplit_iff 307 true [] [(plainText "location", plainText "/a")]
    (ascii "No token") none [(.str (plainText "x-trace"), .bytes (ascii "7"))]
    (by decide : CrlfFree (ascii "HTTP/1.1 200 OK")) hbase
  have herror := responses_unsplit_iff 401 true []
    [(plainText "www-authenticate", plainText "Bearer")]
    (ascii "No token") none [] (by decide : CrlfFree (ascii "HTTP/1.1 200 OK")) hbase
  refine ⟨hlocation.1.mpr ?_, herror.2.1.mpr ⟨?_, ?_, ?_⟩, hlocation.2.2.mpr ?_⟩
  · intro fields hfields field hfield
    have hencoded : fields = [(ascii "location", ascii "/a")] :=
      (Option.some.inj hfields).symm
    rw [hencoded, mem_singleton] at hfield
    rw [hfield]
    exact .of_name (by decide) (by decide)
  · simp [ExposesLines, screened]
  · intro hbody
    exact absurd hbody (by decide)
  · intro field hfield
    have hencoded : encodedHeaders [(plainText "www-authenticate", plainText "Bearer")] =
        [(ascii "www-authenticate", ascii "Bearer")] := rfl
    rw [hencoded, mem_singleton] at hfield
    rw [hfield]
    exact ⟨.of_name (by decide) (by decide), by decide, by decide⟩
  · intro fields hfields field hfield _
    have hencoded : fields = [(ascii "x-trace", ascii "7")] := (Option.some.inj hfields).symm
    rw [hencoded, mem_singleton] at hfield
    rw [hfield]
    exact .of_name (by decide) (by decide)

/-- A value with a line end adds a header in each routine. -/
theorem responses_split_lineEnd : ¬ ∀ (headers : List (Text × Text)) (body : Bytes),
    PartsUnsplit 200 headers body true ∧
    ErrorUnsplit 404 (ascii "Not Found") true none headers ∧
    InjectUnsplit (ascii "HTTP/1.1 200 OK") [] body
      (headers.map fun header => (.str header.1, .str header.2)) := by
  intro hall
  have hparts := (hall [(plainText "x-trace", plainText "7\r\nset-cookie: a=b")] []).1
  have hclean := (partsUnsplit_iff 200 _ [] _).mp hparts _ rfl
    (ascii "x-trace", ascii "7\r\nset-cookie: a=b") (by decide)
  exact absurd hclean.value (by decide)

end AstraApi.Response
