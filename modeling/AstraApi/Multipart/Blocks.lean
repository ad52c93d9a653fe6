import AstraApi.Multipart.Chunking

/-!
# Bodies made of blocks

A form body is a sequence of blocks between delimiters, each one some header lines and
data.  Fed in one call, the streaming parser reads the blocks in turn and records one
part for each of them.
-/

namespace AstraApi.Multipart

open List Option
open Bytes Occurrence StreamingMultipartParser

variable {line data : Bytes} {fuel : ℕ} {block : Block}

/-- The lines of a header and the data behind it; there is at least one line. -/
structure Block where
  line : Bytes
  lines : List Bytes
  data : Bytes

def joinLines : Bytes → List Bytes → Bytes
  | line, [] => line
  | line, next :: lines => line ++ crlf ++ joinLines next lines

def Block.headerText (block : Block) : Bytes := joinLines block.line block.lines

def Block.allLines (block : Block) : List Bytes := block.line :: block.lines

def Block.text (boundary : Bytes) (block : Block) (rest : Bytes) : Bytes :=
  block.headerText ++ (headersEnd ++ (block.data ++ (delimiter boundary ++ rest)))

/-- What follows a boundary: the blocks, or the two dashes that end the form. -/
def blocksText (boundary : Bytes) : List Block → Bytes → Bytes
  | [], epilogue => [dash, dash] ++ epilogue
  | block :: blocks, epilogue => crlf ++ block.text boundary (blocksText boundary blocks epilogue)

def Block.record (block : Block) : PartHeaders × Bytes :=
  (parsePartHeaders block.headerText, block.data)

/-- A body without a preamble. -/
def render (boundary : Bytes) (blocks : List Block) (epilogue : Bytes) : Bytes :=
  marker boundary ++ blocksText boundary blocks epilogue

def IsLine (line : Bytes) : Prop := line ≠ [] ∧ carriageReturn ∉ line ∧ lineFeed ∉ line

def EndsData (delimiter data : Bytes) : Prop :=
  firstOccurrence delimiter (data ++ delimiter) = some data.length

/-- The streaming parser finds the ends of the header and of the data. -/
structure Block.Readable (boundary : Bytes) (block : Block) : Prop where
  lines : ∀ line ∈ block.allLines, IsLine line
  data : EndsData (delimiter boundary) block.data

/-! ## Header lines -/

theorem firstOccurrence_crlf_line (h : IsLine line) (rest : Bytes) :
    firstOccurrence crlf (line ++ (crlf ++ rest)) = some line.length := by
  rw [crlf, firstOccurrence_behind h.2.1, ← crlf, firstOccurrence_self_append crlf_ne_nil]
  rfl

theorem firstOccurrence_crlf_none (h : IsLine line) :
    firstOccurrence crlf line = none := by
  have hnone : firstOccurrence crlf (line ++ []) = _ := firstOccurrence_behind h.2.1 []
  rwa [append_nil] at hnone

theorem firstOccurrence_headersEnd_next (h : IsLine line) (rest : Bytes) :
    firstOccurrence headersEnd (crlf ++ (line ++ rest)) =
      (firstOccurrence headersEnd (line ++ rest)).map fun i => 2 + i := by
  apply firstOccurrence_skip headersEnd_ne_nil
  intro j hj hoccurs
  obtain ⟨b, bytes, rfl⟩ := exists_cons_of_ne_nil h.1
  have hb : b ≠ carriageReturn := fun heq => h.2.1 (heq ▸ mem_cons_self)
  have hreturn := hoccurs.getElem? (j := 0) (by decide)
  have hagain := hoccurs.getElem? (j := 2) (by decide)
  cases j with
  | zero => exact hb (Option.some.inj hagain)
  | succ j =>
    cases j with
    | zero => cases hreturn
    | succ j => exact absurd hj (by simp [crlf])

theorem firstOccurrence_headersEnd_lines {lines : List Bytes}
    (h : ∀ other ∈ line :: lines, IsLine other) (rest : Bytes) :
    firstOccurrence headersEnd (joinLines line lines ++ (headersEnd ++ rest)) =
      some (joinLines line lines).length := by
  have hskip : ∀ (line rest : Bytes), IsLine line → firstOccurrence headersEnd (line ++ rest) =
        (firstOccurrence headersEnd rest).map fun i => line.length + i :=
    fun line rest hline => firstOccurrence_behind hline.2.1 _
  induction lines generalizing line with
  | nil =>
    rw [joinLines, hskip _ _ (h _ mem_cons_self), firstOccurrence_self_append headersEnd_ne_nil]
    rfl
  | cons next lines ih =>
    have htail : ∀ other ∈ next :: lines, IsLine other :=
      fun other hmem => h _ (mem_cons_of_mem _ hmem)
    have hnext : ∃ more, joinLines next lines ++ (headersEnd ++ rest) = next ++ more := by
      cases lines with
      | nil => exact ⟨headersEnd ++ rest, rfl⟩
      | cons other lines => exact ⟨_, by rw [joinLines, append_assoc, append_assoc]⟩
    have ⟨more, hmore⟩ := hnext
    rw [joinLines, append_assoc, append_assoc, hskip _ _ (h _ mem_cons_self),
      hmore, firstOccurrence_headersEnd_next (htail _ mem_cons_self), ← hmore, ih htail]
    rw [map_some, map_some, length_append, length_append, Nat.add_assoc]
    rfl

theorem partHeadersLoop_lines {lines : List Bytes}
    (h : ∀ other ∈ line :: lines, IsLine other) (hfuel : (joinLines line lines).length ≤ fuel)
    (part : PartHeaders) :
    partHeadersLoop fuel (joinLines line lines) part =
      (line :: lines).foldl PartHeaders.line part := by
  induction lines generalizing fuel line part with
  | nil =>
    have hline := h _ mem_cons_self
    obtain ⟨b, bytes, hcons⟩ := exists_cons_of_ne_nil hline.1
    rw [joinLines] at hfuel ⊢
    have hnone := firstOccurrence_crlf_none hline
    rw [hcons] at hfuel hnone ⊢
    obtain ⟨fuel, rfl⟩ := Nat.exists_eq_add_one_of_ne_zero (Nat.ne_zero_of_lt hfuel)
    simp only [partHeadersLoop, hnone, getD_none, take_length]
    rw [if_neg (cons_ne_nil _ _), drop_of_length_le (Nat.le_add_right _ _), partHeadersLoop_nil]
    rfl
  | cons next lines ih =>
    have hline := h _ mem_cons_self
    have htail : ∀ other ∈ next :: lines, IsLine other :=
      fun other hmem => h _ (mem_cons_of_mem _ hmem)
    have hfirst := firstOccurrence_crlf_line hline (joinLines next lines)
    obtain ⟨b, bytes, hcons⟩ := exists_cons_of_ne_nil hline.1
    rw [joinLines, append_assoc] at hfuel ⊢
    rw [hcons, cons_append] at hfirst hfuel ⊢
    obtain ⟨fuel, rfl⟩ := Nat.exists_eq_add_one_of_ne_zero (Nat.ne_zero_of_lt hfuel)
    have hcrlf : crlf.length = 2 := rfl
    have htake : (b :: (bytes ++ (crlf ++ joinLines next lines))).take (b :: bytes).length =
        b :: bytes := by
      exact take_left
    have hdrop : (b :: (bytes ++ (crlf ++ joinLines next lines))).drop
        ((b :: bytes).length + 2) = joinLines next lines := by
      rw [← cons_append, ← append_assoc]
      exact drop_left' (by rw [length_append, hcrlf])
    simp only [partHeadersLoop, hfirst, getD_some, htake, hdrop]
    rw [if_neg (cons_ne_nil _ _), ih htail]
    · rfl
    · simp only [length_cons, length_append] at hfuel
      omega

theorem parsePartHeaders_lines {lines : List Bytes}
    (h : ∀ other ∈ line :: lines, IsLine other) :
    parsePartHeaders (joinLines line lines) = (line :: lines).foldl PartHeaders.line
        { contentType := ascii "application/octet-stream" } :=
  partHeadersLoop_lines h le_rfl _

/-! ## The parser on blocks -/

namespace StreamingMultipartParser

def asField (record : PartHeaders × Bytes) : Option MultipartField :=
  if record.1.isFile then none else some ⟨record.1.name, record.2⟩

def asFile (record : PartHeaders × Bytes) : Option MultipartFile :=
  if record.1.isFile then
    some ⟨record.1.name, record.1.filename, record.1.contentType, record.2⟩
  else none

def fieldsOf (records : List (PartHeaders × Bytes)) : List MultipartField :=
  records.filterMap asField

def filesOf (records : List (PartHeaders × Bytes)) : List MultipartFile :=
  records.filterMap asFile

structure Reading (boundary : Bytes) (records : List (PartHeaders × Bytes))
    (parser : StreamingMultipartParser) : Prop where
  state : parser.state = .partHeader
  boundary_eq : parser.boundary = marker boundary
  curHeaderBuf : parser.curHeaderBuf = []
  curFile : parser.curFile = false
  fields : parser.fields = fieldsOf records
  files : parser.files = filesOf records

variable {boundary : Bytes} {records : List (PartHeaders × Bytes)}
  {parser : StreamingMultipartParser}

theorem fieldsOf_append (left right : List (PartHeaders × Bytes)) :
    fieldsOf (left ++ right) = fieldsOf left ++ fieldsOf right := filterMap_append

theorem filesOf_append (left right : List (PartHeaders × Bytes)) :
    filesOf (left ++ right) = filesOf left ++ filesOf right := filterMap_append

structure Closed (boundary : Bytes) (records : List (PartHeaders × Bytes))
    (parser : StreamingMultipartParser) : Prop where
  boundary_eq : parser.boundary = marker boundary
  curFile : parser.curFile = false
  fields : parser.fields = fieldsOf records
  files : parser.files = filesOf records

theorem process_header_file (hstate : parser.state = .partHeader) {found : ℕ}
    (hfound : firstOccurrence headersEnd data = some found)
    (hfile : (parsePartHeaders (parser.curHeaderBuf ++ data.take found)).isFile = true) :
    (parser.process data).2.2 =
      let cur := parsePartHeaders (parser.curHeaderBuf ++ data.take found)
      { parser with
        curHeaderBuf := []
        cur := cur
        state := .partData
        files := parser.files ++ [⟨cur.name, cur.filename, cur.contentType, []⟩]
        curFile := true } := by
  rw [process_header_some hstate hfound]
  simp [hfile]

theorem store_file (htoFile : parser.toFile = true) {files : List MultipartFile}
    {file : MultipartFile} (hfiles : parser.files = files ++ [file]) (data : Bytes) :
    parser.store data =
      { parser with files := files ++ [{ file with dataBuf := file.dataBuf ++ data }] } := by
  rw [store, if_pos htoFile, hfiles, getLast?_concat, dropLast_concat]

theorem store_field (htoFile : parser.toFile = false) (data : Bytes) :
    parser.store data = { parser with curFieldData := parser.curFieldData ++ data } := by
  rw [store, htoFile, if_neg Bool.false_ne_true]

theorem closePart_file (htoFile : parser.toFile = true) :
    parser.closePart = { parser with curFile := false } := by
  rw [closePart, if_pos htoFile]

theorem closePart_field (htoFile : parser.toFile = false) :
    parser.closePart =
      { parser with fields := parser.fields ++ [⟨parser.cur.name, parser.curFieldData⟩] } := by
  rw [closePart, htoFile, if_neg Bool.false_ne_true]

/-- A header and the data behind it are recorded as one part. -/
theorem Reading.closed (h : Reading boundary records parser) {found : ℕ}
    (hfound : firstOccurrence headersEnd data = some found) (content : Bytes) :
    (parser.process data).2.2.state = .partData ∧
    (parser.process data).2.2.boundary = marker boundary ∧
    Closed boundary (records ++ [(parsePartHeaders (data.take found), content)])
      ((parser.process data).2.2.store content).closePart := by
  cases hfile : (parsePartHeaders (data.take found)).isFile with
  | true =>
    have hcur : (parsePartHeaders (parser.curHeaderBuf ++ data.take found)).isFile = true := by
      rw [h.curHeaderBuf]
      exact hfile
    rw [process_header_file h.state hfound hcur, h.curHeaderBuf, nil_append]
    refine ⟨rfl, h.boundary_eq, ?_⟩
    rw [store_file (by rw [toFile, hfile]; rfl) rfl, closePart_file (by rw [toFile, hfile]; rfl)]
    constructor
    · exact h.boundary_eq
    · rfl
    · rw [fieldsOf_append, ← h.fields]
      simp [fieldsOf, asField, hfile]
    · rw [filesOf_append, ← h.files]
      simp [filesOf, asFile, hfile]
  | false =>
    have hcur : (parsePartHeaders (parser.curHeaderBuf ++ data.take found)).isFile = false := by
      rw [h.curHeaderBuf]
      exact hfile
    rw [process_header_field h.state hfound hcur, h.curHeaderBuf, nil_append]
    refine ⟨rfl, h.boundary_eq, ?_⟩
    rw [store_field (by rw [toFile, hfile]; rfl), closePart_field (by rw [toFile, hfile]; rfl)]
    constructor
    · exact h.boundary_eq
    · exact h.curFile
    · rw [fieldsOf_append, ← h.fields]
      simp [fieldsOf, asField, hfile]
    · rw [filesOf_append, ← h.files]
      simp [filesOf, asFile, hfile]

theorem Closed.delim_eq (h : Closed boundary records parser) :
    parser.delim = delimiter boundary := by
  rw [delim, h.boundary_eq]
  rfl

/-- The turns for a header and for the data behind it. -/
theorem Reading.feedLoop_part (h : Reading boundary records parser)
    (hlines : ∀ line ∈ block.allLines, IsLine line) {content : Bytes} {pos : ℕ}
    (hpos : firstOccurrence (delimiter boundary) content = some pos)
    (hfuel : (block.headerText ++ (headersEnd ++ content)).length < fuel) :
    ∃ fuel' parser' closed, content.length < fuel' ∧
      feedLoop fuel parser (block.headerText ++ (headersEnd ++ content)) =
        feedLoop fuel' parser' content ∧
      parser'.process content =
        closed.afterBoundary content pos (pos + (delimiter boundary).length) ∧
      Closed boundary (records ++ [(parsePartHeaders block.headerText, content.take pos)])
        closed := by
  have hfound : firstOccurrence headersEnd (block.headerText ++ (headersEnd ++ content)) =
      some block.headerText.length := firstOccurrence_headersEnd_lines hlines _
  have hheader : (block.headerText ++ (headersEnd ++ content)).take block.headerText.length =
      block.headerText := take_left
  have hcontent : (block.headerText ++ (headersEnd ++ content)).drop
      (block.headerText.length + 4) = content := by
    rw [← append_assoc]
    exact drop_left' (by rw [length_append]; rfl)
  have ⟨fuel', hfuel', hloop⟩ := feedLoop_header_some h.state hfound hfuel
  have ⟨hstate, hboundary, hclosed⟩ := h.closed hfound (content.take pos)
  rw [hcontent] at hfuel' hloop
  rw [hheader] at hclosed
  refine ⟨fuel', _, _, hfuel', hloop, ?_, hclosed⟩
  have hdelim : ((parser.process (block.headerText ++ (headersEnd ++ content))).2.2).delim =
      delimiter boundary := by
    rw [delim, hboundary]
    rfl
  rw [process, hstate]
  simp [processData, hdelim, hpos]

/-- Two dashes behind a delimiter end the form. -/
theorem afterBoundary_final {front : Bytes} {pos after : ℕ} (epilogue : Bytes)
    (hdata : data = front ++ ([dash, dash] ++ epilogue)) (hafter : front.length = after) :
    parser.afterBoundary data pos after = (.done, after + 2, { parser with state := .done }) := by
  have hroom : ¬ data.length < after + 2 := by
    rw [hdata, length_append, length_append, hafter]
    exact Nat.not_lt.mpr (Nat.add_le_add_left (Nat.le_add_right 2 _) _)
  have hdashes : data[after]? = some dash ∧ data[after + 1]? = some dash := by
    rw [hdata, ← hafter, getElem?_append_right le_rfl,
      getElem?_append_right (Nat.le_add_right _ _), Nat.sub_self, Nat.add_sub_cancel_left]
    exact ⟨rfl, rfl⟩
  rw [afterBoundary, if_neg hroom, if_pos hdashes]

/-- A line end behind a delimiter starts the next part. -/
theorem afterBoundary_line {front : Bytes} {pos after : ℕ} (rest : Bytes)
    (hdata : data = front ++ (crlf ++ rest)) (hafter : front.length = after) :
    parser.afterBoundary data pos after =
      (.needMore, after + 2, { parser with state := .partHeader, curHeaderBuf := [] }) := by
  have hroom : ¬ data.length < after + 2 := by
    rw [hdata, length_append, length_append, hafter]
    exact Nat.not_lt.mpr (Nat.add_le_add_left (Nat.le_add_right 2 _) _)
  have hline : data[after]? = some carriageReturn ∧ data[after + 1]? = some lineFeed := by
    rw [hdata, ← hafter, getElem?_append_right le_rfl,
      getElem?_append_right (Nat.le_add_right _ _), Nat.sub_self, Nat.add_sub_cancel_left]
    exact ⟨rfl, rfl⟩
  rw [afterBoundary, if_neg hroom, skipLineEnd, if_pos hline.1, if_pos hline.2, hline.1, hline.2]
  exact if_neg (by decide)

/-- The parser behind a line end is ready for the next header. -/
theorem Closed.reading (h : Closed boundary records parser) :
    Reading boundary records { parser with state := .partHeader, curHeaderBuf := [] } :=
  ⟨rfl, h.boundary_eq, rfl, h.curFile, h.fields, h.files⟩

theorem Reading.feedLoop_block (h : Reading boundary records parser)
    (hblock : block.Readable boundary) (rest : Bytes)
    (hfuel : (block.text boundary rest).length < fuel) :
    ∃ fuel' parser' closed content, content ≠ [] ∧ content.length < fuel' + 1 ∧
      feedLoop fuel parser (block.text boundary rest) = feedLoop (fuel' + 1) parser' content ∧
      content = block.data ++ delimiter boundary ++ rest ∧
      parser'.process content = closed.afterBoundary content block.data.length
        (block.data ++ delimiter boundary).length ∧
      Closed boundary (records ++ [block.record]) closed := by
  have hpos : firstOccurrence (delimiter boundary)
      (block.data ++ (delimiter boundary ++ rest)) = some block.data.length := by
    rw [← append_assoc]
    exact firstOccurrence_append (delimiter_ne_nil _) hblock.data _
  have ⟨fuel', parser', closed, hfuel', hloop, hprocess, hclosed⟩ :=
    h.feedLoop_part hblock.lines hpos hfuel
  obtain ⟨fuel', rfl⟩ := Nat.exists_eq_add_one_of_ne_zero (Nat.ne_zero_of_lt hfuel')
  rw [take_left] at hclosed
  rw [← length_append] at hprocess
  refine ⟨fuel', parser', closed, _, ?_, hfuel', hloop, (append_assoc _ _ _).symm, hprocess,
    hclosed⟩
  exact append_ne_nil_of_right_ne_nil _ (append_ne_nil_of_left_ne_nil (delimiter_ne_nil _) _)

/-- A block with another one behind it. -/
theorem Reading.feedLoop_next (h : Reading boundary records parser)
    (hblock : block.Readable boundary) (text : Bytes)
    (hfuel : (block.text boundary (crlf ++ text)).length < fuel) :
    ∃ fuel' parser', Reading boundary (records ++ [block.record]) parser' ∧ text.length < fuel' ∧
      feedLoop fuel parser (block.text boundary (crlf ++ text)) = feedLoop fuel' parser' text := by
  have ⟨fuel', parser', closed, content, hne, hfuel', hloop, hcontent, hprocess, hclosed⟩ :=
    h.feedLoop_block hblock _ hfuel
  rw [afterBoundary_line _ hcontent rfl] at hprocess
  have hdrop : content.drop ((block.data ++ delimiter boundary).length + 2) = text := by
    rw [hcontent, ← append_assoc]
    exact drop_left' length_append
  have hstep : feedLoop (fuel' + 1) parser' content = _ := feedLoop_step hne hprocess (Nat.succ_ne_zero _)
  rw [hdrop] at hstep
  refine ⟨fuel', _, hclosed.reading, ?_, hloop.trans hstep⟩
  rw [← hdrop, length_drop]
  have hpos := length_pos_of_ne_nil hne
  omega

theorem Reading.feedLoop_blocks (h : Reading boundary records parser) (block : Block)
    (blocks : List Block) (hreadable : ∀ other ∈ block :: blocks, other.Readable boundary)
    (epilogue : Bytes)
    (hfuel : (block.text boundary (blocksText boundary blocks epilogue)).length < fuel) :
    ∃ last, feedLoop fuel parser (block.text boundary (blocksText boundary blocks epilogue)) =
        (.done, last) ∧
      last.fields = fieldsOf (records ++ (block :: blocks).map Block.record) ∧
      last.files = filesOf (records ++ (block :: blocks).map Block.record) := by
  have hfirst := hreadable _ mem_cons_self
  induction blocks generalizing block records parser fuel with
  | nil =>
    have ⟨fuel', parser', closed, content, hne, _, hloop, hcontent, hprocess, hclosed⟩ :=
      h.feedLoop_block hfirst _ hfuel
    rw [afterBoundary_final _ hcontent rfl] at hprocess
    rw [hloop, feedLoop_stop hne hprocess (by decide)]
    exact ⟨_, rfl, hclosed.fields, hclosed.files⟩
  | cons next blocks ih =>
    have ⟨fuel', parser', hreading, hfuel', hloop⟩ := h.feedLoop_next hfirst _ hfuel
    have hmore : ∀ other ∈ next :: blocks, other.Readable boundary :=
      fun other hmem => hreadable _ (mem_cons_of_mem _ hmem)
    have hrest := ih hreading _ hmore hfuel' (hmore _ mem_cons_self)
    rw [append_assoc] at hrest
    rw [blocksText, hloop]
    exact hrest

/-! ## Parts stay as they are -/

def settledFiles (parser : StreamingMultipartParser) : List MultipartFile :=
  if parser.curFile then parser.files.dropLast else parser.files

structure Extends (first second : StreamingMultipartParser) : Prop where
  fields : first.fields <+: second.fields
  files : first.settledFiles <+: second.settledFiles

theorem Extends.refl (parser : StreamingMultipartParser) : Extends parser parser :=
  ⟨prefix_rfl, prefix_rfl⟩

theorem Extends.trans {first second third : StreamingMultipartParser} (h : Extends first second)
    (h' : Extends second third) : Extends first third :=
  ⟨h.fields.trans h'.fields, h.files.trans h'.files⟩

theorem extends_store (data : Bytes) : Extends parser (parser.store data) := by
  unfold store
  split
  · rename_i htoFile
    have hcurFile : parser.curFile = true := (Bool.and_eq_true_iff.mp htoFile).2
    refine ⟨prefix_rfl, ?_⟩
    rw [settledFiles, settledFiles, hcurFile, if_pos rfl, if_pos rfl]
    cases hlast : parser.files.getLast? with
    | none =>
      rw [getLast?_eq_none_iff.mp hlast]
    | some file =>
      rw [dropLast_concat]
  · exact ⟨prefix_rfl, prefix_rfl⟩

theorem extends_closePart : Extends parser parser.closePart := by
  unfold closePart
  split
  · refine ⟨prefix_rfl, ?_⟩
    rw [settledFiles]
    split
    · exact dropLast_prefix _
    · exact prefix_rfl
  · exact ⟨prefix_append _ _, prefix_rfl⟩

theorem extends_afterBoundary (data : Bytes) (pos after : ℕ) :
    Extends parser (parser.afterBoundary data pos after).2.2 := by
  unfold afterBoundary
  split
  · exact ⟨prefix_rfl, prefix_rfl⟩
  · split
    · exact ⟨prefix_rfl, prefix_rfl⟩
    · exact ⟨prefix_rfl, prefix_rfl⟩

theorem extends_process (parser : StreamingMultipartParser) (data : Bytes) :
    Extends parser (parser.process data).2.2 := by
  unfold process
  split
  · unfold processPreamble
    split
    · exact ⟨prefix_rfl, prefix_rfl⟩
    · exact extends_afterBoundary _ _ _
  · unfold processHeader
    split
    · split
      · exact Extends.refl _
      · exact ⟨prefix_rfl, prefix_rfl⟩
    · dsimp only
      split
      · refine ⟨prefix_rfl, ?_⟩
        rw [settledFiles, settledFiles, if_pos rfl, dropLast_concat]
        split
        · exact dropLast_prefix _
        · exact prefix_rfl
      · exact ⟨prefix_rfl, prefix_rfl⟩
  · unfold processData
    split
    · dsimp only
      split
      · exact Extends.refl _
      · exact ⟨(extends_store _).fields, (extends_store _).files⟩
    · exact (extends_store _).trans (extends_closePart.trans (extends_afterBoundary _ _ _))
  · exact Extends.refl _
  · exact Extends.refl _

theorem extends_feedLoop (fuel : ℕ) (parser : StreamingMultipartParser) (data : Bytes) :
    Extends parser (feedLoop fuel parser data).2 ∧
      (data ≠ [] → fuel ≠ 0 → Extends (parser.process data).2.2 (feedLoop fuel parser data).2) := by
  induction fuel generalizing parser data with
  | zero => exact ⟨Extends.refl _, fun _ hfuel => absurd rfl hfuel⟩
  | succ fuel ih =>
    cases data with
    | nil => exact ⟨Extends.refl _, fun hdata => absurd rfl hdata⟩
    | cons b bytes =>
      have hprocess := extends_process parser (b :: bytes)
      have hloop : Extends (parser.process (b :: bytes)).2.2
          (feedLoop (fuel + 1) parser (b :: bytes)).2 := by
        generalize hresult : parser.process (b :: bytes) = result
        obtain ⟨result, consumed, parser'⟩ := result
        simp only [feedLoop, hresult]
        split
        · split
          · exact ⟨prefix_rfl, prefix_rfl⟩
          · exact (ih _ _).1
        · exact Extends.refl _
      exact ⟨hprocess.trans hloop, fun _ _ => hloop⟩

/-- Parts that are complete are there at the end. -/
theorem Closed.prefix_fields (h : Closed boundary records parser)
    {last : StreamingMultipartParser} (hextends : Extends parser last) :
    fieldsOf records <+: last.fields ∧ filesOf records <+: last.files := by
  have hfiles := hextends.files
  rw [settledFiles, h.curFile, if_neg Bool.false_ne_true, h.files] at hfiles
  refine ⟨h.fields ▸ hextends.fields, hfiles.trans ?_⟩
  rw [settledFiles]
  split
  · exact dropLast_prefix _
  · exact prefix_rfl

/-- A delimiter found too early shows in what is recorded. -/
theorem Reading.endsData_first (h : Reading boundary records parser)
    (hlines : ∀ line ∈ block.allLines, IsLine line) (rest : Bytes)
    (hfuel : (block.text boundary rest).length < fuel) {more : List (PartHeaders × Bytes)}
    (hfields : (feedLoop fuel parser (block.text boundary rest)).2.fields =
      fieldsOf (records ++ block.record :: more))
    (hfiles : (feedLoop fuel parser (block.text boundary rest)).2.files =
      filesOf (records ++ block.record :: more)) : EndsData (delimiter boundary) block.data := by
  have hsome : ∃ pos, firstOccurrence (delimiter boundary) (block.data ++ delimiter boundary) =
      some pos := by
    rw [← ne_none_iff_exists']
    intro hnone
    apply (firstOccurrence_eq_none_iff (delimiter_ne_nil _)).mp hnone block.data.length
    rw [OccursAt, drop_left]
  obtain ⟨pos, hpos⟩ := hsome
  have hfits := ((firstOccurrence_eq_some_iff (delimiter_ne_nil _)).mp
    hpos).1.add_length_le (delimiter_ne_nil _)
  rw [length_append, Nat.add_le_add_iff_right] at hfits
  have hfirst := firstOccurrence_append (delimiter_ne_nil _) hpos rest
  rw [append_assoc] at hfirst
  obtain ⟨fuel', parser', closed, hfuel', hloop, hprocess, hclosed⟩ :=
    h.feedLoop_part hlines hfirst hfuel
  have hne : block.data ++ (delimiter boundary ++ rest) ≠ [] :=
    append_ne_nil_of_right_ne_nil _ (append_ne_nil_of_left_ne_nil (delimiter_ne_nil _) _)
  have hextends := (extends_feedLoop _ parser'
    _).2 hne (Nat.ne_zero_of_lt hfuel')
  rw [hprocess] at hextends
  have hprefix := hclosed.prefix_fields ((extends_afterBoundary _ _ _).trans hextends)
  have htext : block.text boundary rest =
      block.headerText ++ (headersEnd ++ (block.data ++ (delimiter boundary ++ rest))) := rfl
  rw [← hloop, ← htext, hfields, hfiles, fieldsOf_append, fieldsOf_append, filesOf_append,
    filesOf_append, prefix_append_right_inj, prefix_append_right_inj] at hprefix
  have hdata : (block.data ++ (delimiter boundary ++ rest)).take pos = block.data := by
    cases hfile : (parsePartHeaders block.headerText).isFile with
    | true =>
      have hfirst := hprefix.2
      simp only [filesOf, asFile, Block.record, filterMap_cons, hfile, if_true,
        cons_prefix_cons] at hfirst
      exact congrArg MultipartFile.dataBuf hfirst.1
    | false =>
      have hfirst := hprefix.1
      simp only [fieldsOf, asField, Block.record, filterMap_cons, hfile, Bool.false_eq_true, if_false,
        cons_prefix_cons] at hfirst
      exact congrArg MultipartField.value hfirst.1
  rw [take_append_of_le_length hfits] at hdata
  have hall := congrArg List.length hdata
  rw [length_take, min_eq_left hfits] at hall
  rw [EndsData, hpos, hall]

/-- If the blocks are what is recorded, the delimiters behind their data are the first ones. -/
theorem Reading.endsData (h : Reading boundary records parser) (block : Block)
    (blocks : List Block) (hlines : ∀ other ∈ block :: blocks, ∀ line ∈ other.allLines, IsLine line)
    (epilogue : Bytes) {fuel : ℕ}
    (hfuel : (block.text boundary (blocksText boundary blocks epilogue)).length < fuel)
    (hfields : (feedLoop fuel parser
      (block.text boundary (blocksText boundary blocks epilogue))).2.fields =
      fieldsOf (records ++ (block :: blocks).map Block.record))
    (hfiles : (feedLoop fuel parser
      (block.text boundary (blocksText boundary blocks epilogue))).2.files =
      filesOf (records ++ (block :: blocks).map Block.record)) :
    ∀ other ∈ block :: blocks, EndsData (delimiter boundary) other.data := by
  have hfirst := h.endsData_first (hlines _ mem_cons_self) _ hfuel hfields hfiles
  rw [forall_mem_cons]
  refine ⟨hfirst, ?_⟩
  induction blocks generalizing block records parser fuel with
  | nil => exact fun _ hmem => absurd hmem not_mem_nil
  | cons next blocks ih =>
    have ⟨fuel', parser', hreading, hfuel', hloop⟩ :=
      h.feedLoop_next ⟨hlines _ mem_cons_self, hfirst⟩ _ hfuel
    rw [blocksText, hloop, map_cons, append_cons] at hfields hfiles
    have hmore : ∀ other ∈ next :: blocks, ∀ line ∈ other.allLines, IsLine line :=
      fun other hmem => hlines _ (mem_cons_of_mem _ hmem)
    have hnext := hreading.endsData_first (hmore _ mem_cons_self) _ hfuel' hfields hfiles
    rw [forall_mem_cons]
    exact ⟨hnext, ih hreading _ hmore hfuel' hfields hfiles hnext⟩

end StreamingMultipartParser

/-! ## One call of feed -/

/-- A body within the limit goes through the loop; a limit of zero is none. -/
theorem multipartOutcome_feedLoop (boundary : Bytes) {maxBodySize : ℕ} {body : Bytes}
    (hsize : maxBodySize = 0 ∨ body.length ≤ maxBodySize) :
    ∃ total, multipartOutcome boundary maxBodySize [body] =
      let last := feedLoop (body.length + 1)
        { create boundary maxBodySize with totalBytes := total } body
      (last.1, last.2.fields, last.2.files) := by
  have hlookahead : (create boundary maxBodySize).lookahead ++ body = body := nil_append _
  have hcounted : (create boundary maxBodySize).counted body ≤ body.length := by
    rw [counted]
    split
    · exact (Nat.zero_add _).le
    · exact Nat.zero_le _
  refine ⟨(create boundary maxBodySize).counted body, ?_⟩
  have hdone : (create boundary maxBodySize).state ≠ .done := MultipartState.noConfusion
  have herr : (create boundary maxBodySize).state ≠ .err := MultipartState.noConfusion
  rw [multipartOutcome, feedAll_singleton, feed_eq hdone herr, if_neg, hlookahead]
  · rfl
  · intro hexceeded
    rcases hsize with hzero | hsize
    · exact absurd hzero (Nat.ne_of_gt hexceeded.1)
    · exact absurd hexceeded.2 (Nat.not_lt.mpr (hcounted.trans hsize))

theorem process_preamble (parser : StreamingMultipartParser) {boundary preamble : Bytes}
    (rest : Bytes) (hstate : parser.state = .preamble)
    (hboundary : parser.boundary = marker boundary)
    (hpreamble : firstOccurrence (marker boundary) (preamble ++ (marker boundary ++ rest)) =
      some preamble.length) :
    parser.process (preamble ++ (marker boundary ++ rest)) =
      parser.afterBoundary (preamble ++ (marker boundary ++ rest)) preamble.length
        (preamble ++ marker boundary).length := by
  have hne : parser.boundary ≠ [] := by
    rw [hboundary]
    exact marker_ne_nil _
  rw [← hboundary] at hpreamble ⊢
  rw [process_preamble_some hstate hne hpreamble, ← length_append]

theorem feedLoop_opening {boundary preamble : Bytes} (maxBodySize total : ℕ) (text : Bytes)
    (hpreamble : firstOccurrence (marker boundary) (preamble ++ (marker boundary ++ (crlf ++ text)))
      = some preamble.length) :
    ∃ fuel parser, Reading boundary [] parser ∧ text.length < fuel ∧
      feedLoop ((preamble ++ (marker boundary ++ (crlf ++ text))).length + 1)
        { create boundary maxBodySize with totalBytes := total }
        (preamble ++ (marker boundary ++ (crlf ++ text))) = feedLoop fuel parser text := by
  have hprocess := process_preamble { create _ maxBodySize with totalBytes := total }
    _ rfl rfl hpreamble
  have hsplit : preamble ++ (marker boundary ++ (crlf ++ text)) =
      preamble ++ marker boundary ++ (crlf ++ text) := (append_assoc _ _ _).symm
  rw [afterBoundary_line _ hsplit rfl] at hprocess
  have hne : preamble ++ (marker boundary ++ (crlf ++ text)) ≠ [] :=
    append_ne_nil_of_right_ne_nil _ (append_ne_nil_of_left_ne_nil (marker_ne_nil _) _)
  have hdrop : (preamble ++ (marker boundary ++ (crlf ++ text))).drop
      ((preamble ++ marker boundary).length + 2) = text := by
    rw [← append_assoc, ← append_assoc]
    exact drop_left' length_append
  refine ⟨_, _, ?_, ?_, (feedLoop_step hne hprocess (Nat.succ_ne_zero _)).trans (by rw [hdrop])⟩
  · exact ⟨rfl, rfl, rfl, rfl, rfl, rfl⟩
  · rw [length_append, length_append, length_append]
    have hmarker := length_pos_of_ne_nil (marker_ne_nil boundary)
    omega

theorem multipartOutcome_blocks (boundary : Bytes) {maxBodySize : ℕ} {preamble : Bytes}
    (blocks : List Block) (epilogue : Bytes)
    (hsize : maxBodySize = 0 ∨ (preamble ++ render boundary blocks epilogue).length ≤ maxBodySize)
    (hpreamble : firstOccurrence (marker boundary) (preamble ++ render boundary blocks epilogue) =
      some preamble.length)
    (hreadable : ∀ block ∈ blocks, block.Readable boundary) :
    multipartOutcome boundary maxBodySize [preamble ++ render boundary blocks epilogue] =
      (.done, fieldsOf (blocks.map Block.record), filesOf (blocks.map Block.record)) := by
  have ⟨total, houtcome⟩ := multipartOutcome_feedLoop boundary hsize
  rw [houtcome]
  rw [render] at hpreamble ⊢
  cases blocks with
  | nil =>
    have hprocess := process_preamble { create _ maxBodySize with totalBytes := total }
      ([dash, dash] ++ epilogue) rfl rfl hpreamble
    rw [afterBoundary_final _ (append_assoc _ _ _).symm rfl] at hprocess
    have hne : preamble ++ (marker boundary ++ blocksText boundary [] epilogue) ≠ [] :=
      append_ne_nil_of_right_ne_nil _ (append_ne_nil_of_left_ne_nil (marker_ne_nil _) _)
    rw [feedLoop_stop hne hprocess nofun]
    rfl
  | cons block blocks =>
    have ⟨fuel, parser, hreading, hfuel, hloop⟩ :=
      feedLoop_opening maxBodySize total _ hpreamble
    have ⟨last, hlast, hfields, hfiles⟩ :=
      hreading.feedLoop_blocks _ _ hreadable _ hfuel
    rw [blocksText, hloop, hlast]
    dsimp only
    rw [hfields, hfiles, nil_append]

theorem endsData_of_outcome (boundary : Bytes) {maxBodySize : ℕ} {preamble : Bytes}
    (blocks : List Block) (epilogue : Bytes)
    (hsize : maxBodySize = 0 ∨ (preamble ++ render boundary blocks epilogue).length ≤ maxBodySize)
    (hpreamble : firstOccurrence (marker boundary) (preamble ++ render boundary blocks epilogue) =
      some preamble.length)
    (hlines : ∀ block ∈ blocks, ∀ line ∈ block.allLines, IsLine line)
    (houtcome : multipartOutcome boundary maxBodySize [preamble ++ render boundary blocks epilogue] =
      (.done, fieldsOf (blocks.map Block.record), filesOf (blocks.map Block.record))) :
    ∀ block ∈ blocks, EndsData (delimiter boundary) block.data := by
  have ⟨total, hfed⟩ := multipartOutcome_feedLoop boundary hsize
  rw [hfed, render] at houtcome
  cases blocks with
  | nil => exact fun _ hmem => absurd hmem not_mem_nil
  | cons block blocks =>
    have ⟨fuel, parser, hreading, hfuel, hloop⟩ :=
      feedLoop_opening maxBodySize total _ hpreamble
    rw [blocksText, hloop] at houtcome
    exact hreading.endsData _ _ hlines _ hfuel (congrArg (fun outcome => outcome.2.1) houtcome)
      (congrArg (fun outcome => outcome.2.2) houtcome)

end AstraApi.Multipart
