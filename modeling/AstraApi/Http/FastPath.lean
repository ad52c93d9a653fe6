import AstraApi.Http.Head

/-!
# The fast path and llhttp

The scanner for `GET` and `HEAD` requests and `parse_http_request` read the same
heads.  They differ in the whitespace before a value, in what they take for the
end of a connection and in whether a body follows the head.
-/

namespace AstraApi.Http

open List
open Head

variable {data : Bytes} {fast : ParsedHttpRequest} {head : Head} {llhttp : Llhttp}

/-! ## The scanner on a head -/

theorem skipByte_cons (b : Byte) (data : Bytes) : skipByte b (b :: data) = data := if_pos rfl

/-- The value that the scanner reads. -/
def scannedValue (raw : Bytes) : Bytes := raw.dropWhile fun b => decide (b = sp)

theorem isLineByte_of_scannedValue {raw : Bytes} (h : ∀ b ∈ raw, b ≠ cr ∧ b ≠ lf) :
    ∀ b ∈ scannedValue raw, isLineByte b = true := by
  intro b hb
  have hline := h b ((dropWhile_suffix _).subset hb)
  simp [isLineByte, hline]

theorem dropWhile_append_cr (raw rest : Bytes) :
    (raw ++ cr :: rest).dropWhile (fun b => decide (b = sp)) = scannedValue raw ++ cr :: rest := by
  rw [dropWhile_append]
  split
  · rename_i hempty
    have hnil : scannedValue raw = [] := List.isEmpty_iff.mp hempty
    rw [hnil]
    rfl
  · rfl

theorem scanHeaders_name {name : Bytes} (h : ∀ b ∈ name, b ≠ colon ∧ b ≠ cr ∧ b ≠ lf)
    (slots : ℕ) (afterName : Bytes) :
    scanHeaders (slots + 1) (name ++ colon :: afterName) =
      (scanHeaders slots (nextLine afterName)).map fun (headers, tail) =>
        ((name, (afterName.dropWhile fun b => decide (b = sp)).takeWhile isLineByte) :: headers,
          tail) := by
  have hname : ∀ b ∈ name, (decide (b ≠ colon) && isLineByte b) = true := by
    intro b hb
    simp [isLineByte, h b hb]
  obtain ⟨first, more, hdata⟩ : ∃ first more, name ++ colon :: afterName = first :: more :=
    exists_cons_of_ne_nil (by simp)
  have hfirst : first ≠ cr ∧ first ≠ lf := by
    cases name with
    | nil =>
      cases hdata
      decide
    | cons b name =>
      cases hdata
      exact (h _ mem_cons_self).2
  have htake : (first :: more).takeWhile (fun b => decide (b ≠ colon) && isLineByte b) = name := by
    rw [← hdata, takeWhile_append_of_pos hname, takeWhile_cons_of_neg (by simp), append_nil]
  have hdrop : (first :: more).dropWhile (fun b => decide (b ≠ colon) && isLineByte b) =
      colon :: afterName := by
    rw [← hdata, dropWhile_append_of_pos hname, dropWhile_cons_of_neg (by simp)]
  rw [hdata, scanHeaders]
  simp only [hfirst.1, hfirst.2, false_and, if_false, htake, hdrop, ne_eq, not_true_eq_false]
  rw [← nextLine]
  cases scanHeaders slots (nextLine afterName) with
  | none => rfl
  | some scanned => rfl

theorem renderField_append (field : Header) (rest : Bytes) :
    renderField field ++ rest = field.1 ++ colon :: (field.2 ++ cr :: lf :: rest) := by
  simp [renderField, crlf]

theorem scanHeaders_field {field : Header} (h : FieldWellFormed field) (slots : ℕ)
    (rest : Bytes) :
    scanHeaders (slots + 1) (renderField field ++ rest) =
      (scanHeaders slots rest).map fun (headers, tail) =>
        ((field.1, scannedValue field.2) :: headers, tail) := by
  have hvalue := isLineByte_of_scannedValue h.value
  rw [renderField_append, scanHeaders_name h.name]
  simp only [nextLine, dropWhile_append_cr]
  rw [dropWhile_append_of_pos hvalue, takeWhile_append_of_pos hvalue,
    dropWhile_cons_of_neg (by decide), takeWhile_cons_of_neg (by decide),
    skipByte_cons, skipByte_cons, append_nil]

theorem renderFields_cons (field : Header) (fields : List Header) (tail : Bytes) :
    renderFields (field :: fields) ++ crlf ++ tail =
      renderField field ++ (renderFields fields ++ crlf ++ tail) := by
  simp [renderFields]

/-- The scanner reads the field lines of a head if it has a slot more than these. -/
theorem scanHeaders_render {fields : List Header}
    (h : ∀ field ∈ fields, FieldWellFormed field) (slots : ℕ) (tail : Bytes) :
    scanHeaders slots (renderFields fields ++ crlf ++ tail) =
      if fields.length < slots then
        some (fields.map fun field => (field.1, scannedValue field.2), tail)
      else none := by
  induction fields generalizing slots with
  | nil =>
    cases slots with
    | zero => rfl
    | succ slots => simp [renderFields, crlf, scanHeaders]
  | cons field fields ih =>
    cases slots with
    | zero => rfl
    | succ slots =>
      have hfield := h _ mem_cons_self
      have hrest := ih (fun other hmem => h _ (mem_cons_of_mem _ hmem)) slots
      rw [renderFields_cons, scanHeaders_field hfield, hrest]
      by_cases hslots : fields.length < slots
      · simp
      · simp

theorem scanConnection_eq {headers : List Header} {keepAlive result : Bool}
    (h : scanConnection headers keepAlive = some result) :
    result = (keepAlive && !headers.any fun header =>
      iequals header.1 "connection" && startsWithIgnoringCase header.2 "close") := by
  induction headers generalizing keepAlive with
  | nil =>
    cases h
    simp
  | cons header headers ih =>
    rw [scanConnection] at h
    split at h
    · rename_i hconnection
      split at h
      · cases h
      · rw [ih h]
        simp [hconnection, Bool.and_assoc]
    · rename_i hother
      rw [ih h]
      simp [hother]

/-! ## The scanner on a request line -/

/-- A target as the scanner cuts it. -/
def Delimited (target : Bytes) : Prop := ∀ b ∈ target, b ≠ sp ∧ b ≠ cr

theorem scanRequest_requestLine {isHead : Bool} {target rest : Bytes} {major minor : Byte}
    (h : Delimited target) :
    scanRequest isHead data (target ++ (ascii " HTTP/" ++ [major, 46, minor, cr]) ++ rest) =
      (scanHeaders maxHeaders (skipByte lf rest)).bind fun (headers, tail) =>
        (scanConnection headers true).map fun keepAlive =>
          { method := if isHead then ascii "HEAD" else ascii "GET"
            path := (splitTarget target).1
            queryString := (splitTarget target).2
            headers := headers
            keepAlive := keepAlive
            noBody := true
            isHead := isHead
            totalConsumed := data.length - tail.length } := by
  have htarget : ∀ b ∈ target, (decide (b ≠ sp) && decide (b ≠ cr)) = true := by
    intro b hb
    simp [h b hb]
  have hversion : ascii " HTTP/" = [sp, 72, 84, 84, 80, 47] := by decide
  rw [append_assoc, scanRequest, dropWhile_append_of_pos htarget,
    takeWhile_append_of_pos htarget, hversion]
  simp
  cases scanHeaders maxHeaders (skipByte lf rest) with
  | none => rfl
  | some scanned =>
    simp
    cases scanConnection scanned.1 true with
    | none => rfl
    | some keepAlive => rfl

def methodWord (isHead : Bool) : Bytes := if isHead then ascii "HEAD " else ascii "GET "

theorem scanRequest_of_fastParse (h : fastParse data = some fast) :
    ∃ isHead target, data = methodWord isHead ++ target ∧
      scanRequest isHead data target = some fast := by
  rw [fastParse] at h
  split at h
  · rename_i hget
    refine ⟨false, data.drop 4, ?_, h⟩
    calc
      data = data.take 4 ++ data.drop 4 := (take_append_drop 4 data).symm
      _ = methodWord false ++ data.drop 4 := by rw [hget.2]; rfl
  · split at h
    · rename_i hhead
      refine ⟨true, data.drop 5, ?_, h⟩
      calc
        data = data.take 5 ++ data.drop 5 := (take_append_drop 5 data).symm
        _ = methodWord true ++ data.drop 5 := by rw [hhead.2]; rfl
    · cases h

theorem requestLine_eq (head : Head) (rest : Bytes) :
    head.requestLine ++ rest = methodWord head.isHead ++
      (head.target ++ (ascii " HTTP/" ++ [head.major, 46, head.minor, cr]) ++ rest) := by
  have hword : head.method ++ [sp] = methodWord head.isHead := by
    cases hmethod : head.isHead with
    | false | true =>
      rw [method, hmethod]
      decide
  rw [← hword]
  simp [requestLine]

theorem methodWord_append_inj {left right : Bool} {leftRest rightRest : Bytes}
    (h : methodWord left ++ leftRest = methodWord right ++ rightRest) :
    left = right ∧ leftRest = rightRest := by
  have hfirst := congrArg List.head? h
  cases left with
  | false =>
    cases right with
    | false => exact ⟨rfl, append_cancel_left h⟩
    | true => simp [methodWord, ascii] at hfirst
  | true =>
    cases right with
    | false => simp [methodWord, ascii] at hfirst
    | true => exact ⟨rfl, append_cancel_left h⟩

theorem fastParse_requestLine {rest : Bytes}
    (hdelimited : Delimited head.target) (h : fastParse (head.requestLine ++ rest) = some fast) :
    ∃ headers tail keepAlive, scanHeaders maxHeaders (skipByte lf rest) = some (headers, tail) ∧
      scanConnection headers true = some keepAlive ∧
      fast =
        { method := head.method
          path := (splitTarget head.target).1
          queryString := (splitTarget head.target).2
          headers := headers
          keepAlive := keepAlive
          noBody := true
          isHead := head.isHead
          totalConsumed := (head.requestLine ++ rest).length - tail.length } := by
  obtain ⟨isHead, target, hdata, hscan⟩ := scanRequest_of_fastParse h
  obtain ⟨rfl, rfl⟩ := methodWord_append_inj ((requestLine_eq _ _).symm.trans hdata)
  rw [scanRequest_requestLine hdelimited] at hscan
  obtain ⟨⟨headers, tail⟩, hheaders, hscan⟩ := Option.bind_eq_some_iff.mp hscan
  obtain ⟨keepAlive, hconnection, hfast⟩ := Option.map_eq_some_iff.mp hscan
  exact ⟨headers, tail, keepAlive, hheaders, hconnection, hfast.symm⟩

theorem exists_version (h : isVersion data = true) :
    ∃ major minor rest, data = ascii " HTTP/" ++ [major, 46, minor, cr] ++ rest := by
  simp only [isVersion, Bool.and_eq_true, beq_iff_eq] at h
  obtain ⟨⟨hhttp, hdot⟩, hcr⟩ := h
  obtain ⟨hseven, hdot⟩ := List.getElem?_eq_some_iff.mp hdot
  obtain ⟨hnine, hcr⟩ := List.getElem?_eq_some_iff.mp hcr
  refine ⟨data[6], data[8], data.drop 10, ?_⟩
  calc
    data = data.take 6 ++ data.drop 6 := (take_append_drop 6 data).symm
    _ = ascii " HTTP/" ++ (data[6] :: data[7] :: data[8] :: data[9] :: data.drop 10) := by
      rw [hhttp, drop_eq_getElem_cons, drop_eq_getElem_cons,
        drop_eq_getElem_cons, drop_eq_getElem_cons]
    _ = ascii " HTTP/" ++ [data[6], 46, data[8], cr] ++ data.drop 10 := by
      rw [hdot, hcr]
      simp

/-- The fast path accepts no buffer that does not begin with a request line. -/
theorem exists_requestLine (h : fastParse data = some fast) :
    ∃ (head : Head) (rest : Bytes), Delimited head.target ∧ data = head.requestLine ++ rest := by
  obtain ⟨isHead, target, hdata, hscan⟩ := scanRequest_of_fastParse h
  simp only [scanRequest] at hscan
  split at hscan
  · rename_i hversion
    obtain ⟨major, minor, rest, hrest⟩ := exists_version hversion
    refine ⟨⟨isHead, target.takeWhile fun b => decide (b ≠ sp) && decide (b ≠ cr), major, minor,
      []⟩, rest, ?_, ?_⟩
    · intro b hb
      simpa using mem_takeWhile_imp hb
    · calc
        data = methodWord isHead ++ target := hdata
        _ = _ := by
          rw [requestLine_eq]
          conv_lhs => rw [← takeWhile_append_dropWhile (l := target)
            (p := fun b => decide (b ≠ sp) && decide (b ≠ cr)), hrest]
          simp
  · cases hscan

/-! ## Agreement -/

/-- The two parsers have read the same request. -/
structure Agree (fast parsed : ParsedHttpRequest) : Prop where
  method : fast.method = parsed.method
  path : fast.path = parsed.path
  queryString : fast.queryString = parsed.queryString
  headers : fast.headers = parsed.headers
  keepAlive : fast.keepAlive = parsed.keepAlive
  totalConsumed : fast.totalConsumed = parsed.totalConsumed

def closes (field : Header) : Bool :=
  iequals field.1 "connection" && startsWithIgnoringCase (scannedValue field.2) "close"

/-- The heads that the two parsers read alike. -/
structure Plain (head : Head) : Prop where
  /-- No value has a tab among the whitespace before it. -/
  values : ∀ field ∈ head.fields, (scannedValue field.2).head? ≠ some htab
  /-- The first word of a `Connection` field decides about persistence. -/
  persistence : head.fields.any closes = !head.shouldKeepAlive
  /-- No body follows that is part of the request. -/
  framing : head.upgrade = true ∨ head.chunked = false ∧
    (head.contentLength = 0 ∨ head.contentLength = UInt64.ofNat (2 ^ 64 - 1))

theorem scannedValue_eq_iff (raw : Bytes) :
    scannedValue raw = fieldValue raw ↔ (scannedValue raw).head? ≠ some htab := by
  induction raw with
  | nil => simp [scannedValue, fieldValue]
  | cons b raw ih =>
    by_cases hsp : b = sp
    · have hscanned : scannedValue (b :: raw) = scannedValue raw := by
        simp [scannedValue, hsp]
      have hfield : fieldValue (b :: raw) = fieldValue raw := by
        simp [fieldValue, isOws, hsp]
      rw [hscanned, hfield, ih]
    · have hscanned : scannedValue (b :: raw) = b :: raw := by
        simp [scannedValue, hsp]
      rw [hscanned]
      by_cases htabbed : b = htab
      · have hfield : fieldValue (b :: raw) = fieldValue raw := by
          simp [fieldValue, isOws, htabbed]
        have hshorter : (fieldValue raw).length ≤ raw.length :=
          (dropWhile_suffix _).length_le
        rw [hfield]
        apply iff_of_false
        · intro heq
          rw [← heq, length_cons] at hshorter
          omega
        · simp [htabbed]
      · have hfield : fieldValue (b :: raw) = b :: raw := by
          simp [fieldValue, isOws, hsp, htabbed]
        simp [hfield, htabbed]

theorem map_fields_eq_iff (fields : List Header) :
    (fields.map fun field => (field.1, scannedValue field.2)) =
        (fields.map fun field => (field.1, fieldValue field.2)) ↔
      ∀ field ∈ fields, (scannedValue field.2).head? ≠ some htab := by
  rw [map_inj_left]
  apply forall₂_congr
  intro field hmem
  rw [Prod.mk.injEq, ← scannedValue_eq_iff]
  simp

theorem fastParse_render (h : head.WellFormed) {tail : Bytes}
    (hfast : fastParse (head.render ++ tail) = some fast) :
    head.fields.length < maxHeaders ∧ fast.method = head.method ∧
      fast.path = (splitTarget head.target).1 ∧ fast.queryString = (splitTarget head.target).2 ∧
      fast.headers = (head.fields.map fun field => (field.1, scannedValue field.2)) ∧
      fast.keepAlive = !head.fields.any closes ∧ fast.totalConsumed = head.render.length := by
  have hdelimited : Delimited head.target := fun b hb => ⟨(h.target b hb).1, (h.target b hb).2.1⟩
  rw [render, append_assoc] at hfast
  obtain ⟨headers, rest, keepAlive, hheaders, hconnection, rfl⟩ :=
    fastParse_requestLine hdelimited hfast
  rw [headerSection, cons_append, skipByte_cons, scanHeaders_render h.fields] at hheaders
  split at hheaders
  · rename_i hslots
    cases hheaders
    refine ⟨hslots, rfl, rfl, rfl, rfl, ?_, ?_⟩
    · rw [scanConnection_eq hconnection, any_map, Bool.true_and]
      rfl
    · simp only [render, length_append]
      omega
  · cases hheaders

theorem record_of_reported {execution : Execution} (h : head.Reported execution) :
    (record execution).method = head.method ∧
      (record execution).path = (splitTarget head.target).1 ∧
      (record execution).queryString = (splitTarget head.target).2 ∧
      (record execution).headers = execution.fields.take maxHeaders ∧
      (record execution).keepAlive = head.shouldKeepAlive ∧
      (record execution).noBody = !head.upgrade := by
  have hkind : (if head.isHead then MethodKind.head else MethodKind.get) ≠ .other := by
    split <;> decide
  unfold record
  rw [h.complete, h.url, h.method]
  cases hupgrade : head.upgrade with
  | false => simp [hkind]
  | true => simp

theorem headerEnd_of_reported (h : head.Reported (llhttp data)) :
    head.render.length ≤ headerEnd llhttp data ∧
      (headerEnd llhttp data = head.render.length ↔ head.readsChunks = false) := by
  cases hchunks : head.readsChunks with
  | false => simp [headerEnd, h.ends hchunks]
  | true =>
    obtain ⟨position, hposition, hlt⟩ := h.chunks hchunks
    simp only [headerEnd, hposition, Option.getD_some]
    exact ⟨hlt.le, iff_of_false hlt.ne' (by simp)⟩

/-- The parsed request ends where its head ends if it has no body. -/
theorem totalConsumed_eq_iff {parsed : ParsedHttpRequest} (hreported : head.Reported (llhttp data))
    (hparsed : parseHttpRequest llhttp data = .request parsed) :
    parsed.totalConsumed = head.render.length ↔ (head.upgrade = true ∨ head.chunked = false ∧
        (head.contentLength = 0 ∨ head.contentLength = UInt64.ofNat (2 ^ 64 - 1))) := by
  have hend := headerEnd_of_reported hreported
  have hlength : bodySkipLen (llhttp data) = head.contentLength := by
    rw [bodySkipLen, hreported.complete]
  have hnoBody := (record_of_reported hreported).2.2.2.2.2
  rw [parseHttpRequest_of_paused (paused_of_request hparsed), hnoBody, hlength] at hparsed
  split at hparsed
  · rename_i hskip
    obtain ⟨hupgrade, hdeclared, hpositive⟩ := hskip
    have hchunked : head.chunked = false := by
      by_contra hchunked
      rw [hreported.undeclared (Bool.eq_true_of_not_eq_false hchunked)] at hpositive
      exact absurd hpositive (by decide)
    have hends := hend.2.mpr (by simp [readsChunks, hchunked])
    dsimp only at hparsed
    split at hparsed
    · cases hparsed
    · cases hparsed
      have hword := head.contentLength.toNat_lt
      have hnat : 0 < head.contentLength.toNat := UInt64.lt_iff_toNat_lt.mp hpositive
      apply iff_of_false
      · simp only [hends]
        omega
      · rintro (hother | ⟨-, hzero | hlargest⟩)
        · simp [hother] at hupgrade
        · exact UInt64.pos_iff_ne_zero.mp hpositive hzero
        · exact hdeclared hlargest
  · rename_i hskip
    cases hparsed
    rw [hend.2]
    cases hupgrade : head.upgrade with
    | true => simp [readsChunks, hupgrade]
    | false =>
      have hundeclared : head.contentLength = 0 ∨
          head.contentLength = UInt64.ofNat (2 ^ 64 - 1) := by
        by_contra hdeclared
        rw [not_or] at hdeclared
        exact hskip ⟨by simp [hupgrade], hdeclared.2, UInt64.pos_iff_ne_zero.mpr hdeclared.1⟩
      rw [readsChunks, hupgrade, Bool.not_false, Bool.and_true]
      simp only [Bool.false_eq_true, false_or, hundeclared, and_true]

theorem fields_of_request {parsed : ParsedHttpRequest}
    (h : parseHttpRequest llhttp data = .request parsed) :
    parsed.method = (record (llhttp data)).method ∧ parsed.path = (record (llhttp data)).path ∧
      parsed.queryString = (record (llhttp data)).queryString ∧
      parsed.headers = (record (llhttp data)).headers ∧
      parsed.keepAlive = (record (llhttp data)).keepAlive := by
  rw [parseHttpRequest_of_paused (paused_of_request h)] at h
  split at h
  · dsimp only at h
    split at h
    · cases h
    · cases h
      exact ⟨rfl, rfl, rfl, rfl, rfl⟩
  · cases h
    exact ⟨rfl, rfl, rfl, rfl, rfl⟩

theorem agree_iff_plain (hhead : head.WellFormed) {tail : Bytes}
    {parsed : ParsedHttpRequest} (hreported : head.Reported (llhttp (head.render ++ tail)))
    (hfast : fastParse (head.render ++ tail) = some fast)
    (hparsed : parseHttpRequest llhttp (head.render ++ tail) = .request parsed) :
    Agree fast parsed ↔ Plain head := by
  obtain ⟨hslots, hmethod, hpath, hquery, hheaders, hkeepAlive, hconsumed⟩ :=
    fastParse_render hhead hfast
  obtain ⟨hmethod', hpath', hquery', hheaders', hkeepAlive', -⟩ := record_of_reported hreported
  have hrecord := fields_of_request hparsed
  have hconsumed' := totalConsumed_eq_iff hreported hparsed
  have hfields (hframing : parsed.totalConsumed = head.render.length) :
      parsed.headers = head.fields.map fun field => (field.1, fieldValue field.2) := by
    have hchunks : head.readsChunks = false := by
      rcases hconsumed'.mp hframing with hupgrade | ⟨hchunked, -⟩
      · simp [readsChunks, hupgrade]
      · simp [readsChunks, hchunked]
    rw [hrecord.2.2.2.1, hheaders', hreported.fields hchunks, take_of_length_le]
    rw [length_map]
    exact hslots.le
  constructor
  · intro hagree
    have hframing : parsed.totalConsumed = head.render.length :=
      hagree.totalConsumed.symm.trans hconsumed
    refine ⟨?_, ?_, hconsumed'.mp hframing⟩
    · rw [← map_fields_eq_iff, ← hheaders, ← hfields hframing]
      exact hagree.headers
    · rw [← hkeepAlive', ← hrecord.2.2.2.2, ← hagree.keepAlive, hkeepAlive, Bool.not_not]
  · intro hplain
    have hframing := hconsumed'.mpr hplain.framing
    exact
      { method := by rw [hmethod, hrecord.1, hmethod']
        path := by rw [hpath, hrecord.2.1, hpath']
        queryString := by rw [hquery, hrecord.2.2.1, hquery']
        headers := by rw [hheaders, hfields hframing, map_fields_eq_iff]; exact hplain.values
        keepAlive := by
          rw [hkeepAlive, hrecord.2.2.2.2, hkeepAlive', hplain.persistence, Bool.not_not]
        totalConsumed := hconsumed.trans hframing.symm }

theorem record_target (execution : Execution) :
    (record execution).path = (splitTarget execution.url).1 ∧
      (record execution).queryString = (splitTarget execution.url).2 := by
  unfold record
  cases execution.headersComplete with
  | none => exact ⟨rfl, rfl⟩
  | some complete =>
    dsimp only
    split
    · exact ⟨rfl, rfl⟩
    · split
      · split <;> exact ⟨rfl, rfl⟩
      · exact ⟨rfl, rfl⟩

theorem splitTarget_ne {target url : Bytes} (htarget : lf ∈ target) (hurl : lf ∉ url) :
    splitTarget target ≠ splitTarget url := by
  intro heq
  have hmem (bytes : Bytes) : lf ∈ bytes ↔
      lf ∈ (splitTarget bytes).1 ∨ lf ∈ (splitTarget bytes).2 := by
    have hparts := takeWhile_append_dropWhile (l := bytes) (p := fun b => decide (b ≠ question))
    calc
      lf ∈ bytes ↔ lf ∈ (splitTarget bytes).1 ∨
          lf ∈ bytes.dropWhile fun b => decide (b ≠ question) := by
        rw [splitTarget, ← mem_append, hparts]
      _ ↔ _ := by
        apply or_congr_right
        rw [splitTarget]
        cases hquery : bytes.dropWhile fun b => decide (b ≠ question) with
        | nil => simp
        | cons first query =>
          have hfirst := head?_dropWhile_not (fun b => decide (b ≠ question)) bytes
          rw [hquery] at hfirst
          have hquestion : first = question := by simpa using hfirst
          subst hquestion
          simp [show lf ≠ question by decide]
  rw [hmem, heq, ← hmem] at htarget
  exact hurl htarget

/-- Where both parsers find a request they agree exactly if the buffer begins
with a plain head. -/
theorem fastParse_agree_iff {llhttp : Llhttp} (hconforms : Conforms llhttp) {data : Bytes}
    {fast parsed : ParsedHttpRequest} (hfast : fastParse data = some fast)
    (hparsed : parseHttpRequest llhttp data = .request parsed) :
    Agree fast parsed ↔
      ∃ (head : Head) (tail : Bytes), head.WellFormed ∧ Plain head ∧ data = head.render ++ tail := by
  have hpaused := paused_of_request hparsed
  have hreported (head : Head) (tail : Bytes) (hhead : head.WellFormed)
      (hdata : data = head.render ++ tail) : Agree fast parsed ↔ Plain head := by
    subst hdata
    exact agree_iff_plain hhead (hconforms.reports _ _ hhead hpaused) hfast hparsed
  constructor
  · intro hagree
    obtain ⟨head, rest, hdelimited, hdata⟩ := exists_requestLine hfast
    by_cases hlf : lf ∈ head.target
    · obtain ⟨headers, tail, keepAlive, -, -, rfl⟩ :=
        fastParse_requestLine hdelimited (hdata ▸ hfast)
      have hrecord := fields_of_request hparsed
      have htarget := record_target (llhttp data)
      apply absurd _ (splitTarget_ne hlf (hconforms.url _ hpaused))
      exact Prod.ext (hagree.path.trans (hrecord.2.1.trans htarget.1))
        (hagree.queryString.trans (hrecord.2.2.1.trans htarget.2))
    · have htarget : ∀ b ∈ head.target, b ≠ sp ∧ b ≠ cr ∧ b ≠ lf := by
        intro b hb
        refine ⟨(hdelimited b hb).1, (hdelimited b hb).2, ?_⟩
        intro heq
        exact hlf (heq ▸ hb)
      obtain ⟨fields, tail, hfields, hrest⟩ := hconforms.lines _ _ htarget (hdata ▸ hpaused)
      have hhead : WellFormed { head with fields := fields } := ⟨htarget, hfields⟩
      have hrender : data = render { head with fields := fields } ++ tail := by
        rw [hdata, hrest, render, append_assoc]
        rfl
      exact ⟨_, tail, hhead, (hreported _ _ hhead hrender).mp hagree, hrender⟩
  · rintro ⟨head, tail, hhead, hplain, hdata⟩
    exact (hreported _ _ hhead hdata).mpr hplain

/-! ## A parser that conforms -/

theorem renderField_ne_crlf {field : Header} (h : FieldWellFormed field) (rest tail : Bytes) :
    renderField field ++ rest ≠ crlf ++ tail := by
  intro heq
  rw [renderField_append] at heq
  have hfirst := congrArg List.head? heq
  cases hname : field.1 with
  | nil =>
    rw [hname] at hfirst
    exact absurd (by simpa [crlf] using hfirst) (show colon ≠ cr by decide)
  | cons b name =>
    rw [hname] at hfirst
    have hb : b = cr := by simpa [crlf] using hfirst
    exact (h.name b (hname ▸ mem_cons_self)).2.1 hb

theorem renderField_inj {left right : Header} (hleft : FieldWellFormed left)
    (hright : FieldWellFormed right) {leftRest rightRest : Bytes}
    (h : renderField left ++ leftRest = renderField right ++ rightRest) :
    left = right ∧ leftRest = rightRest := by
  rw [renderField_append, renderField_append] at h
  obtain ⟨hname, hrest⟩ := append_delimiter_inj (fun hmem => (hleft.name _ hmem).1 rfl)
    (fun hmem => (hright.name _ hmem).1 rfl) h
  obtain ⟨hvalue, hrest⟩ := append_delimiter_inj (fun hmem => (hleft.value _ hmem).1 rfl)
    (fun hmem => (hright.value _ hmem).1 rfl) hrest
  exact ⟨Prod.ext hname hvalue, (List.cons.inj hrest).2⟩

theorem renderFields_inj {left right : List Header}
    (hleft : ∀ field ∈ left, FieldWellFormed field)
    (hright : ∀ field ∈ right, FieldWellFormed field) {leftTail rightTail : Bytes}
    (h : renderFields left ++ crlf ++ leftTail = renderFields right ++ crlf ++ rightTail) :
    left = right ∧ leftTail = rightTail := by
  induction left generalizing right with
  | nil =>
    cases right with
    | nil => exact ⟨rfl, append_cancel_left h⟩
    | cons field right =>
      rw [renderFields_cons] at h
      exact absurd h.symm (renderField_ne_crlf (hright _ mem_cons_self) _ _)
  | cons field left ih =>
    have hfield := hleft _ mem_cons_self
    cases right with
    | nil =>
      rw [renderFields_cons] at h
      exact absurd h (renderField_ne_crlf hfield _ _)
    | cons other right =>
      rw [renderFields_cons, renderFields_cons] at h
      obtain ⟨rfl, hrest⟩ := renderField_inj hfield (hright _ mem_cons_self) h
      obtain ⟨rfl, htail⟩ := ih (fun f hmem => hleft f (mem_cons_of_mem _ hmem))
        (fun f hmem => hright f (mem_cons_of_mem _ hmem)) hrest
      exact ⟨rfl, htail⟩

theorem requestLine_inj {left right : Head} (hleft : sp ∉ left.target) (hright : sp ∉ right.target)
    {leftRest rightRest : Bytes}
    (h : left.requestLine ++ leftRest = right.requestLine ++ rightRest) :
    left.isHead = right.isHead ∧ left.target = right.target ∧ left.major = right.major ∧
      left.minor = right.minor ∧ leftRest = rightRest := by
  rw [requestLine_eq, requestLine_eq] at h
  obtain ⟨hmethod, hline⟩ := methodWord_append_inj h
  have hversion : ascii " HTTP/" = sp :: [72, 84, 84, 80, 47] := by decide
  rw [hversion] at hline
  simp only [append_assoc, cons_append] at hline
  obtain ⟨htarget, hversions⟩ := append_delimiter_inj hleft hright hline
  simp only [nil_append, List.cons.injEq, true_and] at hversions
  exact ⟨hmethod, htarget, hversions.1, hversions.2.1, hversions.2.2⟩

/-- A buffer begins with at most one head. -/
theorem render_inj {left right : Head} (hleft : left.WellFormed) (hright : right.WellFormed)
    {leftTail rightTail : Bytes}
    (h : left.render ++ leftTail = right.render ++ rightTail) :
    left = right ∧ leftTail = rightTail := by
  rw [render, render, append_assoc, append_assoc] at h
  obtain ⟨hmethod, htarget, hmajor, hminor, hsection⟩ :=
    requestLine_inj (fun hmem => (hleft.target _ hmem).1 rfl)
      (fun hmem => (hright.target _ hmem).1 rfl) h
  obtain ⟨hfields, htail⟩ := renderFields_inj hleft.fields hright.fields (List.cons.inj hsection).2
  refine ⟨?_, htail⟩
  cases left
  cases right
  simp_all

def knowing (head : Head) (body : Bytes) : Llhttp := fun data =>
  if data = head.render ++ body then
    { errno := .paused
      errorPos := some head.render.length
      method := head.method
      url := head.target
      fields := head.fields.map fun field => (field.1, fieldValue field.2)
      headersComplete := some
        { kind := if head.isHead then .head else .get
          keepAlive := head.shouldKeepAlive
          upgrade := head.upgrade
          chunked := head.chunked
          contentLength := head.contentLength } }
  else { errno := .ok }

theorem paused_knowing {body : Bytes} (h : Paused (knowing head body) data) :
    data = head.render ++ body := by
  by_contra hne
  simp [Paused, knowing, hne] at h

theorem knowing_conforms (hhead : head.WellFormed) (hchunked : head.chunked = false)
    (body : Bytes) : Conforms (knowing head body) where
  lines other rest htarget hpaused := by
    have hdata := paused_knowing hpaused
    rw [render, append_assoc] at hdata
    have hrest := (requestLine_inj (fun hmem => (htarget _ hmem).1 rfl)
      (fun hmem => (hhead.target _ hmem).1 rfl) hdata).2.2.2.2
    exact ⟨head.fields, body, hhead.fields, hrest⟩
  url data hpaused := by
    have hdata := paused_knowing hpaused
    simp only [knowing, hdata, if_true]
    intro hmem
    exact (hhead.target _ hmem).2.2 rfl
  reports other tail hother hpaused := by
    have hdata := paused_knowing hpaused
    obtain ⟨rfl, rfl⟩ := render_inj hother hhead hdata
    have hchunks : other.readsChunks = false := by simp [readsChunks, hchunked]
    simp only [knowing, if_true]
    exact
      { method := rfl
        url := rfl
        complete := rfl
        fields := fun _ => rfl
        undeclared := fun h => by simp [hchunked] at h
        ends := fun _ => rfl
        chunks := fun h => by simp [hchunks] at h }

def plainHead : Head where
  isHead := false
  target := ascii "/a?b"
  major := 49
  minor := 49
  fields := [(ascii "Host", ascii " x")]

theorem fastParse_agree_plainHead :
    ∃ fast parsed, fastParse (plainHead.render ++ []) = some fast ∧
      parseHttpRequest (knowing plainHead []) (plainHead.render ++ []) = .request parsed ∧
      Agree fast parsed := by
  have hhead : plainHead.WellFormed := by decide
  have hplain : Plain plainHead := ⟨by decide, by decide, .inr (by decide)⟩
  have hfast : (fastParse (plainHead.render ++ [])).isSome := by decide
  have hpaused : Paused (knowing plainHead []) (plainHead.render ++ []) := .inl (by decide)
  obtain ⟨fast, hfast⟩ := Option.isSome_iff_exists.mp hfast
  have hparsed := parseHttpRequest_of_paused hpaused
  refine ⟨fast, _, hfast, hparsed, ?_⟩
  rw [fastParse_agree_iff (knowing_conforms hhead (by decide) []) hfast hparsed]
  exact ⟨plainHead, [], hhead, hplain, rfl⟩

/-- A `GET` request that declares a body of five bytes. -/
def lengthHead : Head where
  isHead := false
  target := ascii "/"
  major := 49
  minor := 49
  fields := [(ascii "Content-Length", ascii " 5")]

/-- The fast path takes the body for the beginning of the next request. -/
theorem fastParse_disagree_lengthHead :
    Conforms (knowing lengthHead (ascii "hello")) ∧
      ∃ fast parsed, fastParse (lengthHead.render ++ ascii "hello") = some fast ∧
        parseHttpRequest (knowing lengthHead (ascii "hello"))
          (lengthHead.render ++ ascii "hello") = .request parsed ∧
        fast.totalConsumed + 5 = parsed.totalConsumed ∧ ¬ Agree fast parsed := by
  have hhead : lengthHead.WellFormed := by decide
  have hfast : (fastParse (lengthHead.render ++ ascii "hello")).isSome := by decide
  have hpaused : Paused (knowing lengthHead (ascii "hello"))
      (lengthHead.render ++ ascii "hello") := .inl (by decide)
  obtain ⟨fast, hfast⟩ := Option.isSome_iff_exists.mp hfast
  have hconsumed := (fastParse_render hhead hfast).2.2.2.2.2.2
  have hparsed := parseHttpRequest_of_paused hpaused
  rw [if_pos (by decide)] at hparsed
  have hdiffer : fast.totalConsumed + 5 =
      (headerEnd (knowing lengthHead (ascii "hello")) (lengthHead.render ++ ascii "hello") +
        (bodySkipLen (knowing lengthHead (ascii "hello")
          (lengthHead.render ++ ascii "hello"))).toNat) % 2 ^ 64 := by
    rw [hconsumed]
    decide
  refine ⟨knowing_conforms hhead (by decide) _, fast, _, hfast, hparsed, hdiffer, ?_⟩
  intro hagree
  have hsame := hagree.totalConsumed
  simp only at hsame
  omega

end AstraApi.Http
