import AstraApi.Response.Builders
import AstraApi.Response.Cache

/-!
# What a recipient reads

The header fields of a response, and for each builder the arguments with which a
recipient reads exactly these fields and this body from its bytes.
-/

namespace AstraApi.Response

open List
open Message (Field CrlfFree fieldLine trimmed trim crlf writeMessage readMessage readResponse)

/-! ## Fields -/

/-- The value of `access-control-expose-headers`. -/
def CorsConfig.exposeText (config : CorsConfig) : Bytes :=
  (ascii ", ").intercalate config.exposeHeaders

def CorsConfig.fields (config : CorsConfig) (origin : Bytes) : List Field :=
  [(ascii "access-control-allow-origin",
      if !config.allowCredentials && config.isWildcard then ascii "*" else origin)] ++
  (if config.allowCredentials then [(ascii "access-control-allow-credentials", ascii "true")]
    else []) ++
  (if config.exposeHeaders = [] then []
    else [(ascii "access-control-expose-headers", config.exposeText)]) ++
  (if config.allowCredentials || 1 < config.allowOrigins.length ||
      (config.allowOrigins.length == 1 && !config.isWildcard) then
    [(ascii "vary", ascii "Origin")] else [])

/-- The CORS fields of a response whose origin has no line end. -/
def corsFields (cors : Option (CorsConfig × Bytes)) : List Field :=
  match cors with
  | none => []
  | some (config, origin) => if origin = [] then [] else config.fields origin

def contentFields (length : ℕ) : List Field :=
  [(ascii "content-type", ascii "application/json"), (ascii "content-length", decimal length)]

def encodingFields (encoding : Option ContentEncoding) : List Field :=
  match encoding with
  | none => []
  | some encoding =>
    [(ascii "content-encoding", encoding.name), (ascii "vary", ascii "Accept-Encoding")]

def connectionField (keepAlive : Bool) : Field :=
  (ascii "connection", if keepAlive then ascii "keep-alive" else ascii "close")

/-- Lines that are joined by line ends; no line is a null pointer. -/
def extraText (extra : List Field) : Option Bytes :=
  if extra = [] then none else some (crlf.intercalate (extra.map fieldLine))

def fieldText (fields : List Field) : Bytes := fields.flatMap fun field => crlf ++ fieldLine field

@[simp]
theorem fieldText_nil : fieldText [] = [] := rfl

@[simp]
theorem fieldText_append (left right : List Field) :
    fieldText (left ++ right) = fieldText left ++ fieldText right := by
  simp [fieldText]

@[simp]
theorem fieldText_cons (field : Field) (fields : List Field) :
    fieldText (field :: fields) = crlf ++ fieldLine field ++ fieldText fields := by
  simp [fieldText]

theorem fieldText_ite (p : Prop) [Decidable p] (yes no : List Field) :
    fieldText (if p then yes else no) = if p then fieldText yes else fieldText no :=
  apply_ite _ p _ _

theorem writeMessage_fields (start : Bytes) (fields : List Field) (content : Bytes) :
    writeMessage start (fields.map fieldLine) content =
      start ++ fieldText fields ++ crlf ++ crlf ++ content := by
  simp [writeMessage, fieldText, flatMap_map]

theorem corsHeaders_eq {cors : Option (CorsConfig × Bytes)}
    (horigin : ∀ config origin, cors = some (config, origin) → CrlfFree origin) :
    corsHeaders cors = fieldText (corsFields cors) := by
  match cors with
  | none => rfl
  | some (config, origin) =>
    have hfree := horigin _ _ rfl
    have hguard : (origin = [] ∨ 0x0d ∈ origin ∨ 0x0a ∈ origin) ↔ origin = [] := by
      constructor
      · rintro (hempty | hcr | hlf)
        · exact hempty
        · exact absurd hcr hfree.1
        · exact absurd hlf hfree.2
      · exact Or.inl
    simp only [corsHeaders, buildCorsHeaders, hguard, corsFields]
    by_cases hempty : origin = []
    · simp [hempty]
    · have hallow : ascii "\r\naccess-control-allow-origin: " =
          crlf ++ (ascii "access-control-allow-origin" ++ ascii ": ") := by decide
      have hcredentials : ascii "\r\naccess-control-allow-credentials: true" =
          crlf ++ fieldLine (ascii "access-control-allow-credentials", ascii "true") := by decide
      have hexpose : ascii "\r\naccess-control-expose-headers: " =
          crlf ++ (ascii "access-control-expose-headers" ++ ascii ": ") := by decide
      have hvary : ascii "\r\nvary: Origin" =
          crlf ++ fieldLine (ascii "vary", ascii "Origin") := by decide
      simp [CorsConfig.fields, fieldText_ite, hallow, hcredentials, hexpose, hvary, fieldLine, CorsConfig.exposeText]

theorem connectionSuffix_eq (keepAlive : Bool) :
    connectionSuffix keepAlive = fieldText [connectionField keepAlive] ++ crlf ++ crlf := by
  cases keepAlive <;> decide

theorem jsonHeader_eq (length : ℕ) :
    jsonHeader ++ decimal length = fieldText (contentFields length) := by
  have htext : jsonHeader = crlf ++ fieldLine (ascii "content-type", ascii "application/json") ++
      (crlf ++ (ascii "content-length" ++ ascii ": ")) := by decide
  simp [htext, contentFields, fieldLine]

theorem encodingHeaders_eq (encoding : Option ContentEncoding) :
    encodingHeaders encoding = fieldText (encodingFields encoding) := by
  match encoding with
  | none => rfl
  | some .br => decide
  | some .gzip => decide

theorem crlf_intercalate (lines : List Bytes) (hne : lines ≠ []) :
    crlf ++ crlf.intercalate lines = lines.flatMap fun line => crlf ++ line := by
  induction lines with
  | nil => exact absurd rfl hne
  | cons line lines ih =>
    cases lines with
    | nil => simp
    | cons next lines =>
      have hrest := ih (by simp)
      simp only [List.intercalate, intersperse_cons_cons, flatten_cons, flatMap_cons] at hrest ⊢
      rw [← hrest]
      simp

theorem extraText_eq (extra : List Field) :
    (if (extraText extra).getD [] = [] then [] else ascii "\r\n" ++ (extraText extra).getD []) =
      fieldText extra := by
  cases extra with
  | nil => rfl
  | cons field extra =>
    have hlines : (field :: extra).map fieldLine ≠ [] := by simp
    have hjoined := crlf_intercalate _ hlines
    have hne : crlf.intercalate ((field :: extra).map fieldLine) ≠ [] := by
      intro hempty
      rw [hempty] at hjoined
      have hlength := congrArg List.length hjoined
      have hline := length_pos_iff.mpr (Message.fieldLine_ne_nil field)
      simp only [append_nil, map_cons, flatMap_cons, length_append]
        at hlength
      omega
    simp only [extraText, reduceCtorEq, if_false, Option.getD_some, hne]
    rw [fieldText, ← flatMap_map]
    exact hjoined

section Framing

variable (status : ℕ) (keepAlive headOnly : Bool) (cors : Option (CorsConfig × Bytes))
  (encoding : Option ContentEncoding) (extra : List Field)

/-- A response with this code never has content. -/
def Bodiless (status : ℕ) : Prop := status = 204 ∨ status = 304

instance : Decidable (Bodiless status) := inferInstanceAs (Decidable (_ ∨ _))

def responseFields (length : ℕ) : List Field :=
  if Bodiless status then corsFields cors ++ extra ++ [connectionField keepAlive]
  else contentFields length ++ encodingFields encoding ++ extra ++ corsFields cors ++
    [connectionField keepAlive]

/-- What a recipient is to read from the response. -/
def intended (body : Bytes) : Message.Response where
  status := status
  fields := (responseFields status keepAlive cors encoding extra body.length).map trimmed
  content := if headOnly ∨ Bodiless status then [] else body

theorem buildHttpResponse_text (hbody : ¬ Bodiless status) (extraHeaders : Option Bytes)
    (body : Bytes) :
    buildHttpResponse status keepAlive headOnly cors encoding extraHeaders body =
      statusLine status ++ jsonHeader ++ decimal body.length ++ encodingHeaders encoding ++
        (if extraHeaders.getD [] = [] then [] else ascii "\r\n" ++ extraHeaders.getD []) ++
        corsHeaders cors ++ connectionSuffix keepAlive ++ (if headOnly then [] else body) := by
  have hstatus : ¬ ((status : ℤ) = 204 ∨ (status : ℤ) = 304) := by
    simp only [Bodiless] at hbody
    omega
  simp only [buildHttpResponse, if_neg hstatus]
  cases cors with
  | some cors => rfl
  | none =>
    cases encoding with
    | some encoding => rfl
    | none =>
      cases extraHeaders with
      | some text => rfl
      | none =>
        cases hcached : cachedStatusLine status with
        | none => rfl
        | some prepared =>
          simp [buildFastJsonResponse, statusLine, hcached, encodingHeaders, corsHeaders]

theorem buildHttpResponse_eq_write (hbody : ¬ Bodiless status)
    (horigin : ∀ config origin, cors = some (config, origin) → CrlfFree origin) (body : Bytes) :
    buildHttpResponse status keepAlive headOnly cors encoding (extraText extra) body =
      writeMessage (statusLine status)
        ((responseFields status keepAlive cors encoding extra body.length).map fieldLine)
        (if headOnly then [] else body) := by
  rw [buildHttpResponse_text _ _ _ _ _ hbody, writeMessage_fields, responseFields, if_neg hbody,
    extraText_eq, corsHeaders_eq horigin, encodingHeaders_eq, connectionSuffix_eq]
  simp [← jsonHeader_eq]

/-! ## Clean fields -/

/-- The CORS configuration puts no line end into the header that lists the exposed
headers. -/
def ExposesLines (cors : Option (CorsConfig × Bytes)) : Prop :=
  ∀ config origin, cors = some (config, origin) → origin ≠ [] → CrlfFree config.exposeText

theorem clean_corsFields {cors : Option (CorsConfig × Bytes)}
    (horigin : ∀ config origin, cors = some (config, origin) → CrlfFree origin)
    (hexpose : ExposesLines cors) : ∀ field ∈ corsFields cors, Message.Clean field := by
  intro field hfield
  match cors with
  | none => cases hfield
  | some (config, origin) =>
    simp only [corsFields] at hfield
    split at hfield
    · cases hfield
    · rename_i hne
      have hallow : CrlfFree (if !config.allowCredentials && config.isWildcard then ascii "*"
          else origin) := by
        split
        · decide
        · exact horigin _ _ rfl
      have htext := hexpose _ _ rfl hne
      simp only [CorsConfig.fields, mem_append, mem_singleton] at hfield
      rcases hfield with ((rfl | hcredentials) | hlist) | hvary
      · exact .of_name (by decide) hallow
      · split at hcredentials
        · cases mem_singleton.mp hcredentials
          exact .of_name (by decide) (by decide)
        · cases hcredentials
      · split at hlist
        · cases hlist
        · cases mem_singleton.mp hlist
          exact .of_name (by decide) htext
      · split at hvary
        · cases mem_singleton.mp hvary
          exact .of_name (by decide) (by decide)
        · cases hvary

theorem clean_connectionField (keepAlive : Bool) : Message.Clean (connectionField keepAlive) := by
  cases keepAlive
  · exact .of_name (by decide) (by decide)
  · exact .of_name (by decide) (by decide)

theorem clean_contentFields (length : ℕ) : ∀ field ∈ contentFields length, Message.Clean field := by
  intro field hfield
  simp only [contentFields, mem_cons, not_mem_nil, or_false] at hfield
  rcases hfield with rfl | rfl
  · exact .of_name (by decide) (by decide)
  · exact .of_name (by decide) (crlfFree_decimal _)

theorem clean_encodingFields (encoding : Option ContentEncoding) :
    ∀ field ∈ encodingFields encoding, Message.Clean field := by
  have hvary : Message.Clean (ascii "vary", ascii "Accept-Encoding") :=
    .of_name (by decide) (by decide)
  intro field hfield
  match encoding with
  | none => cases hfield
  | some encoding =>
    simp only [encodingFields, mem_cons, not_mem_nil, or_false] at hfield
    rcases hfield with rfl | rfl
    · cases encoding
      · exact .of_name (by decide) (by decide)
      · exact .of_name (by decide) (by decide)
    · exact hvary

variable {status cors extra}

theorem clean_responseFields
    (horigin : ∀ config origin, cors = some (config, origin) → CrlfFree origin)
    (hexpose : ExposesLines cors) (hextra : ∀ field ∈ extra, Message.Clean field) (length : ℕ) :
    ∀ field ∈ responseFields status keepAlive cors encoding extra length, Message.Clean field := by
  intro field hfield
  have hcors := clean_corsFields horigin hexpose
  have hconnection := clean_connectionField keepAlive
  simp only [responseFields] at hfield
  split at hfield
  · simp only [mem_append, mem_singleton] at hfield
    rcases hfield with (hfield | hfield) | rfl
    · exact hcors _ hfield
    · exact hextra _ hfield
    · exact hconnection
  · simp only [mem_append, mem_singleton] at hfield
    rcases hfield with (((hfield | hfield) | hfield) | hfield) | rfl
    · exact clean_contentFields _ _ hfield
    · exact clean_encodingFields _ _ hfield
    · exact hextra _ hfield
    · exact hcors _ hfield
    · exact hconnection

theorem contentLength_responseFields (hbody : ¬ Bodiless status) (length : ℕ) :
    Message.contentLength
        ((responseFields status keepAlive cors encoding extra length).map trimmed) =
      some length := by
  have htype : (ascii "content-type").map Message.lowerCase ≠ ascii "content-length" := by decide
  have hlength : (ascii "content-length").map Message.lowerCase = ascii "content-length" := by
    decide
  simp [responseFields, if_neg hbody, contentFields, trimmed, Message.contentLength, htype, hlength, trim_decimal, readDecimal_decimal]

/-- Outside the codes without content, a recipient reads what is intended. -/
theorem readResponse_build (hbody : ¬ Bodiless status)
    (horigin : ∀ config origin, cors = some (config, origin) → CrlfFree origin)
    (hexpose : ExposesLines cors) (hextra : ∀ field ∈ extra, Message.Clean field) (body : Bytes) :
    readResponse headOnly
        (buildHttpResponse status keepAlive headOnly cors encoding (extraText extra) body) =
      some (intended status keepAlive headOnly cors encoding extra body) := by
  have hstart : CrlfFree (statusLine status) := by
    rw [statusLine_eq]
    exact crlfFree_statusText _ (crlfFree_reasonOf _)
  have hstatus : Message.readStatus (statusLine status) = some status := by
    rw [statusLine_eq, readStatus_statusText]
  have hclean : ∀ field ∈ responseFields status keepAlive cors encoding extra body.length,
      Message.Clean field :=
    clean_responseFields _ _ horigin hexpose hextra _
  have hlength : Message.contentLength
      ((responseFields status keepAlive cors encoding extra body.length).map trimmed) =
      some body.length :=
    contentLength_responseFields _ _ hbody _
  have hplain : ¬ (status = 204 ∨ status = 304) := hbody
  rw [buildHttpResponse_eq_write _ _ _ _ _ _ hbody horigin,
    Message.readResponse_write hstart hstatus hclean]
  cases headOnly
  · simp [hplain, hlength, intended, hbody]
  · simp [intended]

/-! ## Codes without content -/

theorem fieldText_lineFeeds {fields : List Field} (h : ∀ field ∈ fields, Message.Clean field) :
    (fieldText fields).count Message.lf = fields.length := by
  have hcrlf : crlf.count Message.lf = 1 := by decide
  induction fields with
  | nil => rfl
  | cons field fields ih =>
    have hclean := h _ mem_cons_self
    have hline : CrlfFree (fieldLine field) :=
      Message.crlfFree_fieldLine.mpr ⟨hclean.name, hclean.value⟩
    have hrest := ih fun other hmem => h _ (mem_cons_of_mem _ hmem)
    rw [fieldText_cons, count_append, count_append, hcrlf, hrest,
      count_eq_zero_of_not_mem hline.2, length_cons]
    omega

theorem extraText_lineFeeds (hextra : ∀ field ∈ extra, Message.Clean field) :
    ((extraText extra).getD []).count Message.lf = extra.length - 1 := by
  have hcrlf : (ascii "\r\n").count Message.lf = 1 := by decide
  have hcount := congrArg (List.count Message.lf) (extraText_eq extra)
  rw [fieldText_lineFeeds hextra] at hcount
  split at hcount
  · rename_i hempty
    have hnone : extra.length = 0 := by simpa using hcount.symm
    rw [hempty, hnone]
    rfl
  · rw [count_append, hcrlf] at hcount
    omega

theorem connectionSuffix_lineFeeds (keepAlive : Bool) :
    (connectionSuffix keepAlive).count Message.lf = 3 := by
  cases keepAlive <;> decide

theorem buildHttpResponse_bodiless_text (hbody : Bodiless status) (extraHeaders : Option Bytes)
    (body : Bytes) :
    buildHttpResponse status keepAlive headOnly cors encoding extraHeaders body =
      statusText status (statusReason status) ++ corsHeaders cors ++ extraHeaders.getD [] ++
        connectionSuffix keepAlive := by
  have hstatus : (status : ℤ) = 204 ∨ (status : ℤ) = 304 := by
    simp only [Bodiless] at hbody
    omega
  simp only [buildHttpResponse, if_pos hstatus]

theorem buildHttpResponse_bodiless (hbody : Bodiless status)
    (horigin : ∀ config origin, cors = some (config, origin) → CrlfFree origin) (body : Bytes) :
    buildHttpResponse status keepAlive headOnly cors encoding (extraText extra) body =
      statusText status (statusReason status) ++ fieldText (corsFields cors) ++
        (extraText extra).getD [] ++ connectionSuffix keepAlive := by
  rw [buildHttpResponse_bodiless_text _ headOnly _ hbody, corsHeaders_eq horigin]

theorem exposesLines_of_read {data body : Bytes}
    (h : readResponse headOnly data =
      some (intended status keepAlive headOnly cors encoding extra body)) : ExposesLines cors := by
  intro config origin hcors hne
  by_cases hlist : config.exposeHeaders = []
  · simp only [CorsConfig.exposeText, hlist, List.intercalate]
    decide
  · have hfield : (ascii "access-control-expose-headers", config.exposeText) ∈
        corsFields cors := by
      simp [hcors, corsFields, hne, CorsConfig.fields, hlist]
    have hmem : (ascii "access-control-expose-headers", config.exposeText) ∈
        responseFields status keepAlive cors encoding extra body.length := by
      simp only [responseFields]
      split <;> simp [hfield]
    have hread := Message.readResponse_crlfFree h
      _
      (mem_map_of_mem hmem)
    exact Message.crlfFree_trim.mp hread

/-- Behind a status line the first extra header has no line of its own. -/
theorem extra_eq_nil_of_read (hbody : Bodiless status)
    (horigin : ∀ config origin, cors = some (config, origin) → CrlfFree origin)
    (hextra : ∀ field ∈ extra, Message.Clean field) {body : Bytes}
    (h : readResponse headOnly
        (buildHttpResponse status keepAlive headOnly cors encoding (extraText extra) body) =
      some (intended status keepAlive headOnly cors encoding extra body)) : extra = [] := by
  have hexpose := exposesLines_of_read _ headOnly _ h
  have hcors := fieldText_lineFeeds (clean_corsFields horigin hexpose)
  have hcount := Message.readResponse_lineFeeds h
  have hstart := crlfFree_statusText status (crlfFree_statusReason status)
  rw [buildHttpResponse_bodiless _ headOnly _ hbody horigin] at hcount
  simp only [count_append, hcors, extraText_lineFeeds hextra,
    count_eq_zero_of_not_mem hstart.2, connectionSuffix_lineFeeds, intended, responseFields,
    if_pos hbody, length_map, length_append, length_singleton] at hcount
  apply eq_nil_of_length_eq_zero
  omega

theorem readResponse_build_bodiless (hbody : Bodiless status)
    (horigin : ∀ config origin, cors = some (config, origin) → CrlfFree origin)
    (hexpose : ExposesLines cors) (body : Bytes) :
    readResponse headOnly
        (buildHttpResponse status keepAlive headOnly cors encoding (extraText []) body) =
      some (intended status keepAlive headOnly cors encoding [] body) := by
  have hstart : CrlfFree (statusText status (statusReason status)) :=
    crlfFree_statusText _ (crlfFree_statusReason _)
  have hclean : ∀ field ∈ responseFields status keepAlive cors encoding [] body.length,
      Message.Clean field :=
    clean_responseFields _ _ horigin hexpose (by simp) _
  have htext : buildHttpResponse status keepAlive headOnly cors encoding (extraText []) body =
      writeMessage (statusText status (statusReason status))
        ((responseFields status keepAlive cors encoding [] body.length).map fieldLine) [] := by
    rw [buildHttpResponse_bodiless _ headOnly _ hbody horigin, writeMessage_fields,
      responseFields, if_pos hbody, connectionSuffix_eq]
    simp [extraText]
  have hplain : status = 204 ∨ status = 304 := hbody
  rw [htext, Message.readResponse_write hstart (readStatus_statusText _ _) hclean]
  simp [hplain, intended, hbody]

end Framing

/-! ## The builders together -/

section Agreement

variable (status : ℕ) (keepAlive headOnly : Bool) (cors : Option (CorsConfig × Bytes))

/-- The other builders emit the bytes of `build_http_response_bytes`. -/
def BuildersAgree {F O : Type*} (runtime : Runtime F O) : Prop :=
  (∀ body, buildAndWriteHttpResponse status keepAlive headOnly cors none body =
    buildHttpResponse status keepAlive headOnly cors none none body) ∧
  ∀ value body, writeJson runtime 0 value = some body →
    serializeJsonAndWriteResponse status keepAlive headOnly cors runtime value =
        some (buildHttpResponse status keepAlive headOnly cors none none body) ∧
      buildJsonResponseBytes status keepAlive headOnly cors runtime value =
        some (buildHttpResponse status keepAlive headOnly cors none none body)

variable {status cors} {F O : Type*} (runtime : Runtime F O)

theorem buildersAgree_of_body (hbody : ¬ Bodiless status) :
    BuildersAgree status keepAlive headOnly cors runtime := by
  have hstatus : ¬ ((status : ℤ) = 204 ∨ (status : ℤ) = 304) := by
    simp only [Bodiless] at hbody
    omega
  constructor
  · intro body
    cases cors <;> cases hcached : cachedStatusLine status <;>
      simp [buildAndWriteHttpResponse, buildHttpResponse, hcached, hstatus]
  · intro value body hwrite
    cases cors <;> cases hcached : cachedStatusLine status <;>
      simp [serializeJsonAndWriteResponse, buildJsonResponseBytes, hwrite, hstatus, hcached,
        ← buildHttpResponse_plain, buildHttpResponse]

theorem buildHttpResponse_noContent (hbody : Bodiless status) (body : Bytes) :
    buildHttpResponse status keepAlive headOnly cors none none body =
      statusText status (statusReason status) ++ corsHeaders cors ++ connectionSuffix keepAlive := by
  rw [buildHttpResponse_bodiless_text _ headOnly _ hbody]
  simp

theorem buildAndWrite_ne (hbody : Bodiless status) (body : Bytes) :
    buildAndWriteHttpResponse status keepAlive headOnly none none body ≠
      buildHttpResponse status keepAlive headOnly none none none body := by
  obtain ⟨prepared, hcached, htext⟩ : ∃ prepared, cachedStatusLine status = some prepared ∧
      prepared = statusText status (statusReason status) := by
    rcases hbody with rfl | rfl
    · exact ⟨_, rfl, rfl⟩
    · exact ⟨_, rfl, rfl⟩
  intro hsame
  rw [buildHttpResponse_noContent _ headOnly hbody] at hsame
  simp only [buildAndWriteHttpResponse, hcached, buildFastJsonResponse, htext, corsHeaders] at hsame
  have hlength := congrArg List.length hsame
  have hheader : 0 < jsonHeader.length := by decide
  simp only [length_append, length_nil] at hlength
  omega

theorem serializeJson_bodiless (hbody : Bodiless status) {value : PyObj F O} {body : Bytes}
    (hwrite : writeJson runtime 0 value = some body) :
    serializeJsonAndWriteResponse status keepAlive headOnly cors runtime value =
        some (statusText status (statusReason status) ++ connectionSuffix keepAlive) ∧
      buildJsonResponseBytes status keepAlive headOnly cors runtime value =
        some (statusText status (statusReason status) ++ connectionSuffix keepAlive) := by
  have hstatus : (status : ℤ) = 204 ∨ (status : ℤ) = 304 := by
    simp only [Bodiless] at hbody
    omega
  simp [serializeJsonAndWriteResponse, buildJsonResponseBytes, hwrite, hstatus]

theorem corsHeaders_eq_nil_iff {config : CorsConfig} {origin : Bytes} (hfree : CrlfFree origin) :
    corsHeaders (some (config, origin)) = [] ↔ origin = [] := by
  have hguard : ¬ (0x0d ∈ origin ∨ 0x0a ∈ origin) := not_or.mpr hfree
  have hallow : ascii "\r\naccess-control-allow-origin: " ≠ [] := by decide
  by_cases hempty : origin = []
  · simp [corsHeaders, buildCorsHeaders, hempty]
  · simp [corsHeaders, buildCorsHeaders, hguard, hallow]

theorem buildersAgree_bodiless_iff (hbody : Bodiless status)
    (horigin : ∀ config origin, cors = some (config, origin) → CrlfFree origin) :
    BuildersAgree status keepAlive headOnly cors runtime ↔ ∃ config, cors = some (config, []) := by
  match cors with
  | none =>
    constructor
    · intro hagree
      exact absurd (hagree.1 []) (buildAndWrite_ne _ headOnly hbody [])
    · rintro ⟨config, hcors⟩
      cases hcors
  | some (config, origin) =>
    have hfree := horigin _ _ rfl
    have hnull : writeJson runtime 0 (.none : PyObj F O) = some (ascii "null") := by
      simp [writeJson]
    constructor
    · intro hagree
      have hserialized := (hagree.2 .none (ascii "null") hnull).1
      rw [(serializeJson_bodiless _ headOnly _ hbody hnull).1,
        buildHttpResponse_noContent _ headOnly hbody] at hserialized
      have hcors : corsHeaders (some (config, origin)) = [] := by
        have hlength := congrArg List.length (Option.some.inj hserialized)
        simp only [length_append] at hlength
        apply eq_nil_of_length_eq_zero
        omega
      exact ⟨config, by rw [(corsHeaders_eq_nil_iff hfree).mp hcors]⟩
    · rintro ⟨config', hcors⟩
      cases hcors
      have hnone : corsHeaders (some (config, [])) = [] := (corsHeaders_eq_nil_iff hfree).mpr rfl
      constructor
      · intro body
        rfl
      · intro value body hwrite
        rw [(serializeJson_bodiless _ headOnly _ hbody hwrite).1,
          (serializeJson_bodiless _ headOnly _ hbody hwrite).2,
          buildHttpResponse_noContent _ headOnly hbody, hnone]
        simp

variable (encoding : Option ContentEncoding) {extra : List Field}

/-- A recipient reads from the bytes of `build_http_response_bytes` what is
intended, and the other builders emit the same bytes, exactly when the code is not
one without content and the exposed headers have no line end; a response without
content must have no extra headers, and CORS with an empty origin. -/
theorem builders_framed_iff
    (horigin : ∀ config origin, cors = some (config, origin) → CrlfFree origin)
    (hextra : ∀ field ∈ extra, Message.Clean field) :
    ((∀ body, readResponse headOnly
          (buildHttpResponse status keepAlive headOnly cors encoding (extraText extra) body) =
        some (intended status keepAlive headOnly cors encoding extra body)) ∧
      BuildersAgree status keepAlive headOnly cors runtime) ↔
    (¬ Bodiless status ∨ extra = [] ∧ ∃ config, cors = some (config, [])) ∧ ExposesLines cors := by
  constructor
  · rintro ⟨hread, hagree⟩
    refine ⟨?_, exposesLines_of_read _ headOnly _ (hread [])⟩
    by_cases hbody : Bodiless status
    · right
      exact ⟨extra_eq_nil_of_read _ headOnly _ hbody horigin hextra (hread []),
        (buildersAgree_bodiless_iff _ headOnly _ hbody horigin).mp hagree⟩
    · exact Or.inl hbody
  · rintro ⟨hcase, hexpose⟩
    by_cases hbody : Bodiless status
    · obtain ⟨rfl, hcors⟩ := hcase.resolve_left (not_not.mpr hbody)
      exact ⟨readResponse_build_bodiless _ headOnly _ hbody horigin hexpose,
        (buildersAgree_bodiless_iff _ headOnly _ hbody horigin).mpr hcors⟩
    · exact ⟨readResponse_build _ headOnly _ hbody horigin hexpose hextra,
        buildersAgree_of_body _ headOnly _ hbody⟩

/-- A `200` response with one extra header is read as intended. -/
theorem builders_framed_traced :
    (∀ body, readResponse false (buildHttpResponse (200 : ℕ) true false none none
          (extraText [(ascii "x-trace", ascii "7")]) body) =
      some (intended 200 true false none none [(ascii "x-trace", ascii "7")] body)) ∧
    BuildersAgree 200 true false none plainRuntime :=
  (builders_framed_iff _ _ _ _ (by simp) (by
        intro field hfield
        cases mem_singleton.mp hfield
        exact .of_name (by decide) (by decide))).mpr
    ⟨Or.inl (by decide), by simp [ExposesLines]⟩

/-- A `204` response is written with a content length. -/
theorem builders_disagree_noContent : ¬ ∀ (status : ℕ) (keepAlive headOnly : Bool)
    (cors : Option (CorsConfig × Bytes)) (encoding : Option ContentEncoding) (extra : List Field),
    100 ≤ status → status ≤ 599 →
    (∀ config origin, cors = some (config, origin) → CrlfFree origin) →
    (∀ field ∈ extra, Message.Clean field) →
    (∀ body, readResponse headOnly
          (buildHttpResponse status keepAlive headOnly cors encoding (extraText extra) body) =
        some (intended status keepAlive headOnly cors encoding extra body)) ∧
      BuildersAgree status keepAlive headOnly cors plainRuntime := by
  intro hall
  have hagree := (hall 204 true false none none [] (by decide) (by decide) (by simp) (by simp)).2
  exact absurd (hagree.1 []) (by decide)

end Agreement

end AstraApi.Response
