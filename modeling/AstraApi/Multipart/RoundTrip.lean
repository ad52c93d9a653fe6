import AstraApi.Multipart.Disposition

/-!
# Rendering parts and parsing them

A form is rendered with one content disposition for each part.  The parser gives the
parts back unless it takes a name or a filename apart at a semicolon, trims a content
type, or finds a delimiter too early.
-/

namespace AstraApi.Multipart

open List Option
open Bytes Occurrence StreamingMultipartParser

/-- A part of a form that can be rendered. -/
structure Part where
  name : Bytes
  filename : Option Bytes
  contentType : Option Bytes
  data : Bytes
  name_quotable : IsQuotable name
  filename_quotable : ∀ text ∈ filename, IsQuotable text
  contentType_line : ∀ text ∈ contentType, carriageReturn ∉ text ∧ lineFeed ∉ text

namespace Part

def params (part : Part) : List Bytes :=
  parameter "name=" part.name :: (part.filename.map (parameter "filename=")).toList

def block (part : Part) : Block where
  line := headerLine (ascii "Content-Disposition") (dispositionValue part.params)
  lines := (part.contentType.map (headerLine (ascii "Content-Type"))).toList
  data := part.data

/-- What the parser should record. -/
def record (part : Part) : PartHeaders × Bytes :=
  ({ name := part.name
     filename := part.filename.getD []
     contentType := part.contentType.getD (ascii "application/octet-stream")
     isFile := part.filename.isSome }, part.data)

/-- Nothing in the part is read differently. -/
structure Plain (boundary : Bytes) (part : Part) : Prop where
  name : semicolon ∉ part.name
  filename : ∀ text ∈ part.filename, semicolon ∉ text
  contentType : part.filename.isSome → ∀ text ∈ part.contentType, IsTrimmed text
  data : EndsData (delimiter boundary) part.data

end Part

/-! ## The header of a part -/

theorem notMem_parameter {b : Byte} {key : String} {value : Bytes}
    (hkey : b ∉ 0x20 :: quotationMark :: ascii key) (hvalue : b ∉ value) :
    b ∉ parameter key value := by
  simp only [parameter, quoted, mem_cons, mem_append, not_mem_nil, or_false, not_or] at hkey ⊢
  exact ⟨hkey.1, hkey.2.2, hkey.2.1, hvalue, hkey.2.1⟩

theorem notMem_joinSegments {b : Byte} {seg : Bytes} {segs : List Bytes} (hne : b ≠ semicolon)
    (h : ∀ other ∈ seg :: segs, b ∉ other) : b ∉ joinSegments seg segs := by
  induction segs generalizing seg with
  | nil => exact h _ mem_cons_self
  | cons next segs ih =>
    rw [forall_mem_cons] at h
    exact not_mem_append h.1 (not_mem_cons_of_ne_of_not_mem hne (ih h.2))

theorem isLine_colonLine {key text : Bytes} (hkey : carriageReturn ∉ key ∧ lineFeed ∉ key)
    (htext : carriageReturn ∉ text ∧ lineFeed ∉ text) : IsLine (colonLine key text) := by
  refine ⟨append_ne_nil_of_right_ne_nil _ (cons_ne_nil _ _), ?_, ?_⟩
  · exact not_mem_append hkey.1 (not_mem_cons_of_ne_of_not_mem (by decide) htext.1)
  · exact not_mem_append hkey.2 (not_mem_cons_of_ne_of_not_mem (by decide) htext.2)

theorem isLine_headerLine {key value : Bytes} (hkey : carriageReturn ∉ key ∧ lineFeed ∉ key)
    (hvalue : carriageReturn ∉ value ∧ lineFeed ∉ value) : IsLine (headerLine key value) := by
  apply isLine_colonLine hkey
  exact ⟨not_mem_cons_of_ne_of_not_mem (by decide) hvalue.1,
    not_mem_cons_of_ne_of_not_mem (by decide) hvalue.2⟩

/-- A parameter has no byte that neither its key nor its value has. -/
theorem Part.notMem_params {b : Byte} {part : Part}
    (hname : b ∉ 0x20 :: quotationMark :: ascii "name=")
    (hfilename : b ∉ 0x20 :: quotationMark :: ascii "filename=") (hpart : b ∉ part.name)
    (hfile : ∀ text ∈ part.filename, b ∉ text) : ∀ param ∈ part.params, b ∉ param := by
  rw [Part.params, forall_mem_cons]
  refine ⟨notMem_parameter hname hpart, ?_⟩
  intro param hparam
  rw [mem_toList, map_eq_some_iff] at hparam
  have ⟨text, htext, heq⟩ := hparam
  rw [← heq]
  exact notMem_parameter hfilename (hfile _ htext)

theorem Part.notMem_disposition {b : Byte} {part : Part}
    (hname : b ∉ 0x20 :: quotationMark :: ascii "name=")
    (hfilename : b ∉ 0x20 :: quotationMark :: ascii "filename=")
    (hdisposition : b ∉ semicolon :: ascii "form-data") (hpart : b ∉ part.name)
    (hfile : ∀ text ∈ part.filename, b ∉ text) : b ∉ dispositionValue part.params := by
  rw [mem_cons, not_or] at hdisposition
  apply notMem_joinSegments hdisposition.1
  exact forall_mem_cons.mpr ⟨hdisposition.2, Part.notMem_params hname hfilename hpart hfile⟩

theorem Part.isLine (part : Part) : ∀ line ∈ part.block.allLines, IsLine line := by
  have hname := part.name_quotable
  have hfile := part.filename_quotable
  rw [Block.allLines, Part.block, forall_mem_cons]
  constructor
  · apply isLine_headerLine (by decide)
    constructor
    · exact Part.notMem_disposition (by decide) (by decide) (by decide) hname.2.1
        fun text htext => (hfile _ htext).2.1
    · exact Part.notMem_disposition (by decide) (by decide) (by decide) hname.2.2
        fun text htext => (hfile _ htext).2.2
  · intro line hline
    rw [mem_toList, map_eq_some_iff] at hline
    have ⟨text, htext, heq⟩ := hline
    rw [← heq]
    exact isLine_headerLine (by decide) (part.contentType_line _ htext)

theorem parameter_quote (key : String) (value : Bytes) :
    parameter key value = 0x20 :: (ascii key ++ quotationMark :: value) ++ [quotationMark] := by
  rw [parameter, quoted, cons_append, append_assoc]
  rfl

theorem Part.endsQuoted_params (part : Part) : EndsQuoted part.params := by
  rw [Part.params]
  cases part.filename with
  | none => exact ⟨[], _, congrArg (fun last => [last]) (parameter_quote _ _)⟩
  | some text =>
    exact ⟨[parameter "name=" part.name], _,
      congrArg (fun last => [parameter "name=" part.name, last]) (parameter_quote _ _)⟩

/-- Without semicolons in the parameters, the header is read as it was meant. -/
theorem Part.block_headers (part : Part) (hname : semicolon ∉ part.name)
    (hfilename : ∀ text ∈ part.filename, semicolon ∉ text) :
    (parsePartHeaders part.block.headerText) =
      { name := part.name
        filename := part.filename.getD []
        contentType := (part.contentType.map trim).getD (ascii "application/octet-stream")
        isFile := part.filename.isSome } := by
  have hparams := Part.notMem_params (b := semicolon) (by decide) (by decide) hname hfilename
  have hlines := parsePartHeaders_lines part.isLine
  have hcontentType : ∀ text cur, PartHeaders.line cur (headerLine (ascii "Content-Type") text) =
      { cur with contentType := trim text } :=
    fun text cur => line_contentType (by decide) (by decide) _ _
  refine hlines.trans ?_
  rw [Part.block, foldl_cons, line_dispositionValue (by decide) (by decide) hparams
    part.endsQuoted_params, Part.params, foldl_cons, trim_parameter rfl rfl, segment_name]
  cases part.filename with
  | none =>
    cases part.contentType with
    | none => rfl
    | some text => exact hcontentType _ _
  | some filename =>
    rw [map_some, toList_some, foldl_cons, trim_parameter rfl rfl, segment_filename, foldl_nil]
    cases part.contentType with
    | none => rfl
    | some text => exact hcontentType _ _

/-! ## What a header can give -/

/-- The parser takes names apart at semicolons and trims content types. -/
structure Sane (cur : PartHeaders) : Prop where
  name : semicolon ∉ cur.name
  filename : semicolon ∉ cur.filename
  contentType : IsTrimmed cur.contentType

theorem notMem_unquote_trim {b : Byte} {seg : Bytes} (h : b ∉ seg) (count : ℕ) :
    b ∉ unquote (trim (seg.drop count)) := by
  have hdrop : b ∉ trim (seg.drop count) :=
    fun hmem => h (mem_of_mem_drop (trim_subset _ hmem))
  rw [unquote]
  split
  · exact fun hmem => hdrop (mem_of_mem_drop (mem_of_mem_take hmem))
  · exact hdrop

theorem Sane.segment {cur : PartHeaders} (h : Sane cur) {seg : Bytes} (hseg : semicolon ∉ seg) :
    Sane (cur.segment seg) := by
  unfold PartHeaders.segment
  split
  · exact ⟨notMem_unquote_trim hseg 5, h.filename, h.contentType⟩
  · split
    · exact ⟨h.name, notMem_unquote_trim hseg 9, h.contentType⟩
    · exact h

theorem notMem_take_semicolon (hval : Bytes) :
    semicolon ∉ hval.take ((firstOccurrence (ascii ";") hval).getD hval.length) := by
  by_cases hmem : semicolon ∈ hval
  · have ⟨before, behind, heq, hbefore⟩ := eq_append_cons_of_mem hmem
    rw [heq, firstOccurrence_semicolon hbefore, getD_some, take_left]
    exact hbefore
  · exact fun htake => hmem (mem_of_mem_take htake)

theorem Sane.dispositionLoop {cur : PartHeaders} (h : Sane cur) (fuel : ℕ) (hval : Bytes) :
    Sane (dispositionLoop fuel hval cur) := by
  induction fuel generalizing hval cur with
  | zero => exact h
  | succ fuel ih =>
    cases hval with
    | nil => exact h
    | cons b bytes =>
      apply ih
      apply h.segment
      exact fun hmem => notMem_take_semicolon _ (trim_subset _ hmem)

theorem Sane.line {cur : PartHeaders} (h : Sane cur) (line : Bytes) : Sane (cur.line line) := by
  unfold PartHeaders.line
  split
  · exact h
  · dsimp only
    split
    · exact h.dispositionLoop _ _
    · split
      · exact ⟨h.name, h.filename, isTrimmed_trim _⟩
      · exact h

theorem Sane.partHeadersLoop {cur : PartHeaders} (h : Sane cur) (fuel : ℕ) (hdr : Bytes) :
    Sane (partHeadersLoop fuel hdr cur) := by
  induction fuel generalizing hdr cur with
  | zero => exact h
  | succ fuel ih =>
    cases hdr with
    | nil => exact h
    | cons b bytes =>
      unfold AstraApi.Multipart.partHeadersLoop
      dsimp only
      split
      · exact h
      · exact ih (h.line _) _

theorem sane_parsePartHeaders (hdr : Bytes) : Sane (parsePartHeaders hdr) := by
  apply Sane.partHeadersLoop
  refine ⟨not_mem_nil, not_mem_nil, ?_⟩
  rw [IsTrimmed]
  decide

/-- All that a parser has recorded comes from such headers. -/
structure SaneParser (parser : StreamingMultipartParser) : Prop where
  cur : Sane parser.cur
  fields : ∀ field ∈ parser.fields, semicolon ∉ field.name
  files : ∀ file ∈ parser.files, Sane ⟨file.name, file.filename, file.contentType, true⟩

section SaneParser

variable {parser : StreamingMultipartParser}

theorem SaneParser.store (h : SaneParser parser) (data : Bytes) :
    SaneParser (parser.store data) := by
  unfold StreamingMultipartParser.store
  split
  · refine ⟨h.cur, h.fields, ?_⟩
    cases hlast : parser.files.getLast? with
    | none => exact fun file hfile => absurd hfile not_mem_nil
    | some last =>
      intro file hfile
      rcases mem_append.mp hfile with hinit | hnew
      · exact h.files _ (dropLast_subset _ hinit)
      · rw [mem_singleton.mp hnew]
        exact h.files last (mem_of_getLast? hlast)
  · exact ⟨h.cur, h.fields, h.files⟩

theorem SaneParser.closePart (h : SaneParser parser) : SaneParser parser.closePart := by
  unfold StreamingMultipartParser.closePart
  split
  · exact ⟨h.cur, h.fields, h.files⟩
  · refine ⟨h.cur, ?_, h.files⟩
    intro field hfield
    rcases mem_append.mp hfield with hold | hnew
    · exact h.fields _ hold
    · rw [mem_singleton.mp hnew]
      exact h.cur.name

theorem SaneParser.afterBoundary (h : SaneParser parser) (data : Bytes) (pos after : ℕ) :
    SaneParser (parser.afterBoundary data pos after).2.2 := by
  unfold StreamingMultipartParser.afterBoundary
  split
  · exact ⟨h.cur, h.fields, h.files⟩
  · split
    · exact ⟨h.cur, h.fields, h.files⟩
    · exact ⟨h.cur, h.fields, h.files⟩

theorem SaneParser.process (h : SaneParser parser) (data : Bytes) :
    SaneParser (parser.process data).2.2 := by
  unfold StreamingMultipartParser.process
  split
  · unfold processPreamble
    split
    · exact ⟨h.cur, h.fields, h.files⟩
    · exact h.afterBoundary _ _ _
  · unfold processHeader
    split
    · split
      · exact h
      · exact ⟨h.cur, h.fields, h.files⟩
    · rename_i found hfound
      have hcur := sane_parsePartHeaders (parser.curHeaderBuf ++ data.take found)
      dsimp only
      split
      · refine ⟨hcur, h.fields, ?_⟩
        intro file hfile
        rcases mem_append.mp hfile with hold | hnew
        · exact h.files _ hold
        · rw [mem_singleton.mp hnew]
          exact ⟨hcur.name, hcur.filename, hcur.contentType⟩
      · exact ⟨hcur, h.fields, h.files⟩
  · unfold processData
    split
    · dsimp only
      split
      · exact h
      · exact ⟨(h.store _).cur, (h.store _).fields, (h.store _).files⟩
    · exact (h.store _).closePart.afterBoundary _ _ _
  · exact h
  · exact h

theorem SaneParser.feedLoop (h : SaneParser parser) (fuel : ℕ) (data : Bytes) :
    SaneParser (feedLoop fuel parser data).2 := by
  induction fuel generalizing parser data with
  | zero => exact h
  | succ fuel ih =>
    cases data with
    | nil => exact h
    | cons b bytes =>
      have hprocess := h.process (b :: bytes)
      generalize hresult : parser.process (b :: bytes) = result at hprocess
      simp only [StreamingMultipartParser.feedLoop, hresult]
      split
      · split
        · exact ⟨hprocess.cur, hprocess.fields, hprocess.files⟩
        · exact ih hprocess _
      · exact hprocess

end SaneParser

/-! ## The round trip -/

/-- What a rendered form should give. -/
def renderedOutcome (parts : List Part) :
    FeedResult × List MultipartField × List MultipartFile :=
  (.done, fieldsOf (parts.map Part.record), filesOf (parts.map Part.record))

/-- A header that gives back what was rendered has no semicolon in its parameters and no space
around the content type of a file. -/
theorem plain_of_outcome {boundary body : Bytes} {maxBodySize : ℕ} {parts : List Part}
    (hsize : body.length ≤ maxBodySize)
    (houtcome : multipartOutcome boundary maxBodySize [body] = renderedOutcome parts) :
    ∀ part ∈ parts, semicolon ∉ part.name ∧ (∀ text ∈ part.filename, semicolon ∉ text) ∧
      (part.filename.isSome → ∀ text ∈ part.contentType, IsTrimmed text) := by
  obtain ⟨total, hloop⟩ := multipartOutcome_feedLoop boundary (Or.inr hsize)
  have hsane : SaneParser (StreamingMultipartParser.feedLoop (body.length + 1)
      { create boundary maxBodySize with totalBytes := total } body).2 := by
    apply SaneParser.feedLoop
    exact ⟨⟨not_mem_nil, not_mem_nil, rfl⟩, fun _ h => absurd h not_mem_nil,
      fun _ h => absurd h not_mem_nil⟩
  rw [hloop] at houtcome
  have hfields : _ = fieldsOf (parts.map Part.record) := congrArg (fun outcome => outcome.2.1) houtcome
  have hfiles : _ = filesOf (parts.map Part.record) := congrArg (fun outcome => outcome.2.2) houtcome
  intro part hpart
  cases hfilename : part.filename with
  | none =>
    have hmem : (⟨part.name, part.data⟩ : MultipartField) ∈ fieldsOf (parts.map Part.record) := by
      apply mem_filterMap.mpr
      exact ⟨part.record, mem_map_of_mem hpart, by simp [asField, Part.record, hfilename]⟩
    rw [← hfields] at hmem
    exact ⟨hsane.fields _ hmem, by simp, by simp⟩
  | some filename =>
    have hmem : (⟨part.name, filename, part.record.1.contentType, part.data⟩ : MultipartFile) ∈
        filesOf (parts.map Part.record) := by
      apply mem_filterMap.mpr
      exact ⟨part.record, mem_map_of_mem hpart, by simp [asFile, Part.record, hfilename]⟩
    rw [← hfiles] at hmem
    have hfile := hsane.files _ hmem
    refine ⟨hfile.name, ?_, ?_⟩
    · intro text htext
      rw [← Option.some.inj htext]
      exact hfile.filename
    · intro _ text htext
      have htrimmed := hfile.contentType
      rw [Part.record, mem_def.mp htext] at htrimmed
      exact htrimmed

theorem Part.recorded {part : Part} (hname : semicolon ∉ part.name)
    (hfilename : ∀ text ∈ part.filename, semicolon ∉ text)
    (hcontentType : part.filename.isSome → ∀ text ∈ part.contentType, IsTrimmed text) :
    fieldsOf [part.block.record] = fieldsOf [part.record] ∧
      filesOf [part.block.record] = filesOf [part.record] := by
  rw [Block.record, part.block_headers hname hfilename, Part.record]
  cases hfile : part.filename with
  | none => exact ⟨rfl, rfl⟩
  | some filename =>
    refine ⟨rfl, ?_⟩
    cases htype : part.contentType with
    | none => rfl
    | some text =>
      have htrimmed : trim text = text := hcontentType (hfile ▸ rfl) _ htype
      simp only [filesOf, asFile, isSome_some, if_true, map_some, getD_some,
        filterMap_cons, htrimmed]
      rfl

theorem recorded_parts {parts : List Part}
    (hplain : ∀ part ∈ parts, semicolon ∉ part.name ∧ (∀ text ∈ part.filename, semicolon ∉ text) ∧
      (part.filename.isSome → ∀ text ∈ part.contentType, IsTrimmed text)) :
    fieldsOf ((parts.map Part.block).map Block.record) = fieldsOf (parts.map Part.record) ∧
      filesOf ((parts.map Part.block).map Block.record) = filesOf (parts.map Part.record) := by
  induction parts with
  | nil => exact ⟨rfl, rfl⟩
  | cons part parts ih =>
    rw [forall_mem_cons] at hplain
    have hpart := Part.recorded hplain.1.1 hplain.1.2.1 hplain.1.2.2
    have hparts := ih hplain.2
    have hcons : ∀ (record : PartHeaders × Bytes) (records : List (PartHeaders × Bytes)),
        fieldsOf (record :: records) = fieldsOf [record] ++ fieldsOf records ∧
        filesOf (record :: records) = filesOf [record] ++ filesOf records :=
      fun record records => ⟨fieldsOf_append [record] _, filesOf_append [record] _⟩
    rw [map_cons, map_cons, map_cons, (hcons _ _).1, (hcons _ _).2,
      (hcons part.record _).1, (hcons part.record _).2, hpart.1, hpart.2, hparts.1, hparts.2]
    exact ⟨rfl, rfl⟩

/-- The parser gives a rendered form back if and only if no name, filename or content type is
taken apart or trimmed and no delimiter is found too early. -/
theorem multipartOutcome_render_iff (boundary : Bytes) {maxBodySize : ℕ} (parts : List Part)
    (epilogue : Bytes)
    (hsize : (render boundary (parts.map Part.block) epilogue).length ≤ maxBodySize) :
    multipartOutcome boundary maxBodySize [render boundary (parts.map Part.block) epilogue] =
        renderedOutcome parts ↔
      ∀ part ∈ parts, part.Plain boundary := by
  have hpreamble : firstOccurrence (marker boundary)
      ([] ++ render boundary (parts.map Part.block) epilogue) = some ([] : Bytes).length :=
    firstOccurrence_self_append (marker_ne_nil _) _
  have hlines : ∀ block ∈ parts.map Part.block, ∀ line ∈ block.allLines, IsLine line := by
    intro block hblock
    have ⟨part, _, heq⟩ := mem_map.mp hblock
    rw [← heq]
    exact part.isLine
  constructor
  · intro houtcome
    have hplain := plain_of_outcome hsize houtcome
    have hrecorded := recorded_parts hplain
    rw [renderedOutcome, ← hrecorded.1, ← hrecorded.2] at houtcome
    have hends := endsData_of_outcome _ _ _ (Or.inr hsize) hpreamble hlines houtcome
    intro part hpart
    exact ⟨(hplain _ hpart).1, (hplain _ hpart).2.1, (hplain _ hpart).2.2,
      hends _ (mem_map_of_mem hpart)⟩
  · intro hplain
    have hrecorded := recorded_parts fun part hpart =>
      ⟨(hplain _ hpart).name, (hplain _ hpart).filename, (hplain _ hpart).contentType⟩
    have hreadable : ∀ block ∈ parts.map Part.block, block.Readable boundary := by
      intro block hblock
      have ⟨part, hpart, heq⟩ := mem_map.mp hblock
      rw [← heq]
      exact ⟨part.isLine, (hplain _ hpart).data⟩
    rw [renderedOutcome, ← hrecorded.1, ← hrecorded.2]
    exact multipartOutcome_blocks _ _ _ (Or.inr hsize) hpreamble hreadable

/-- A text field of one letter. -/
def letterPart (name : Bytes) (h : IsQuotable name) : Part where
  name := name
  filename := none
  contentType := none
  data := ascii "1"
  name_quotable := h
  filename_quotable := nofun
  contentType_line := nofun

theorem isQuotable_letters : IsQuotable (ascii "a") ∧ IsQuotable (ascii "a;b") :=
  ⟨⟨by decide, by decide, by decide⟩, ⟨by decide, by decide, by decide⟩⟩

/-- A text file whose data has the boundary inside a line. -/
def filePart : Part where
  name := ascii "f"
  filename := some (ascii "b.txt")
  contentType := some (ascii "text/plain")
  data := ascii "2--x"
  name_quotable := ⟨by decide, by decide, by decide⟩
  filename_quotable text htext := by
    rw [← Option.some.inj htext]
    exact ⟨by decide, by decide, by decide⟩
  contentType_line text htext := by
    rw [← Option.some.inj htext]
    exact ⟨by decide, by decide⟩

theorem filePart_plain : filePart.Plain (ascii "x") := by
  refine ⟨by decide, ?_, ?_, by rw [EndsData]; decide⟩
  · intro text htext
    rw [← Option.some.inj htext]
    decide
  · intro _ text htext
    rw [← Option.some.inj htext, IsTrimmed]
    decide

theorem multipartOutcome_render_letter :
    multipartOutcome (ascii "x") 200
        [render (ascii "x")
          ([letterPart (ascii "a") isQuotable_letters.1, filePart].map Part.block) []] =
      renderedOutcome [letterPart (ascii "a") isQuotable_letters.1, filePart] :=
  (multipartOutcome_render_iff _ [letterPart _ _, filePart] [] (by decide +kernel)).mpr <| by
    rw [forall_mem_cons, forall_mem_singleton]
    refine ⟨⟨by decide, nofun, nofun, ?_⟩, filePart_plain⟩
    rw [EndsData]
    decide

/-- The name of a field is taken apart at its semicolon. -/
theorem multipartOutcome_semicolon :
    ¬ ∀ (boundary : Bytes) (maxBodySize : ℕ) (parts : List Part) (epilogue : Bytes),
      (render boundary (parts.map Part.block) epilogue).length ≤ maxBodySize →
      (∀ part ∈ parts, ¬ delimiter boundary <:+: part.data) →
      multipartOutcome boundary maxBodySize [render boundary (parts.map Part.block) epilogue] =
        renderedOutcome parts := by
  intro hall
  have houtcome := hall (ascii "x") 100 [letterPart _ isQuotable_letters.2] []
    (by decide) (by decide)
  exact absurd houtcome (by decide)

end AstraApi.Multipart
