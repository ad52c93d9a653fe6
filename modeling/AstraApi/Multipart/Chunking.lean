import AstraApi.Multipart.Feed

/-!
# Chunks of a multipart body

How the result of the streaming parser depends on where the body is cut.  The end of
the headers of a part is not found when two chunks share it, so that a parser fed one
byte at a time never sees a part.  A body gives one result for all cuts if and only if
no cut shows a part or a limit that another one hides.
-/

namespace AstraApi.Multipart

open List
open Bytes Occurrence StreamingMultipartParser

variable {found start fuel : ℕ} {data body : Bytes}

/-! ## What all cuts agree on -/

def marker (boundary : Bytes) : Bytes := [dash, dash] ++ boundary

def delimiter (boundary : Bytes) : Bytes := crlf ++ marker boundary

/-- The bytes that can be fed before the size limit stops the parser. -/
def admitted (maxBodySize : ℕ) (body : Bytes) : Bytes :=
  if maxBodySize = 0 then body else body.take maxBodySize

/-- An end of the headers that some cut shows before the header has grown too large. -/
def Reachable (rest : Bytes) (found : ℕ) : Prop :=
  OccursAt headersEnd found rest ∧
    ∀ later, maxHeaderSize ≤ later → OccursAt headersEnd later rest → found ≤ later

/-- No cut of the body shows a part, or a limit that another cut hides. -/
def ShowsNothing (boundary : Bytes) (maxBodySize : ℕ) (body : Bytes) : Prop :=
  let fed := admitted maxBodySize body
  match opening (marker boundary) fed with
  | .waiting => True
  | .final => fed = body
  | .header start =>
    let rest := fed.drop start
    match firstOccurrence headersEnd rest with
    | none => fed = body ∨ rest.length ≤ maxHeaderSize
    | some found =>
      let content := rest.drop (found + 4)
      (parsePartHeaders (rest.take found)).isFile = false ∧
      firstOccurrence (delimiter boundary) content = none ∧
      if 0 < maxBodySize then rest.length ≤ maxHeaderSize
      else if rest.length ≤ maxHeaderSize then content.length < (delimiter boundary).length
      else ∀ later, Reachable rest later →
        later + 4 + (delimiter boundary).length ≤ rest.length

/-! ## The parser between two chunks -/

section Invariant

variable (boundary : Bytes) (maxBodySize : ℕ)

/-- The bytes have been fed, and no part has been seen. -/
structure Fed (fed : Bytes) (parser : StreamingMultipartParser) : Prop where
  boundary_eq : parser.boundary = marker boundary
  max_eq : parser.maxBodySize = maxBodySize
  total_eq : 0 < maxBodySize → parser.totalBytes = fed.length ∧ fed.length ≤ maxBodySize
  parts_eq : parser.parts = 0

structure Waiting (fed : Bytes) (parser : StreamingMultipartParser) : Prop
    extends Fed boundary maxBodySize fed parser where
  state_eq : parser.state = .preamble
  opening_eq : opening (marker boundary) fed = .waiting
  keeps : Keeps (marker boundary) fed parser.lookahead

structure ReadingHeader (start : ℕ) (fed data : Bytes) (parser : StreamingMultipartParser) : Prop
    extends Fed boundary maxBodySize fed parser where
  state_eq : parser.state = .partHeader
  opening_eq : opening (marker boundary) fed = .header start
  lookahead_eq : parser.lookahead = []
  header_eq : parser.curHeaderBuf ++ data = fed.drop start
  limit : parser.curHeaderBuf.length ≤ maxHeaderSize

/-- The headers ended at `found`, and the field has been read but for `data`. -/
structure ReadingField (start found : ℕ) (fed data : Bytes) (parser : StreamingMultipartParser) :
    Prop extends Fed boundary maxBodySize fed parser where
  state_eq : parser.state = .partData
  opening_eq : opening (marker boundary) fed = .header start
  reachable : Reachable (fed.drop start) found
  isFile_eq : parser.cur.isFile = false
  field_eq : parser.curFieldData ++ data = (fed.drop start).drop (found + 4)
  unlimited : maxBodySize = 0 → parser.curFieldData = []

end Invariant

variable {boundary : Bytes} {maxBodySize : ℕ} {fed : Bytes} {parser : StreamingMultipartParser}

theorem marker_ne_nil (boundary : Bytes) : marker boundary ≠ [] := cons_ne_nil _ _

theorem delimiter_ne_nil (boundary : Bytes) : delimiter boundary ≠ [] := cons_ne_nil _ _

theorem Reachable.append {rest : Bytes} {found : ℕ} (h : Reachable rest found) (more : Bytes) :
    Reachable (rest ++ more) found := by
  have hfits := h.1.add_length_le headersEnd_ne_nil
  refine ⟨h.1.append headersEnd_ne_nil more, ?_⟩
  intro later hlater hoccurs
  by_contra hless
  apply hless
  apply h.2 later hlater
  exact (occursAt_append_iff (by omega)).mp hoccurs

theorem Fed.feed_of_exceeded (h : Fed boundary maxBodySize fed parser)
    (hdone : parser.state ≠ .done) (herr : parser.state ≠ .err) {chunk : Bytes}
    (hpos : 0 < maxBodySize) (hsize : maxBodySize < (fed ++ chunk).length) :
    ∃ parser', parser.feed chunk = (.sizeExceeded, parser') ∧ parser'.parts = 0 := by
  have hcounted : maxBodySize < parser.counted chunk := by
    rw [counted, if_pos (h.max_eq.symm ▸ hpos), (h.total_eq hpos).1, ← length_append]
    exact hsize
  use { parser with totalBytes := parser.counted chunk }
  rw [feed_eq hdone herr, if_pos (by rw [h.max_eq]; exact ⟨hpos, hcounted⟩)]
  exact ⟨rfl, h.parts_eq⟩

theorem Fed.feed_of_admitted (h : Fed boundary maxBodySize fed parser)
    (hdone : parser.state ≠ .done) (herr : parser.state ≠ .err) {chunk : Bytes}
    (hsize : 0 < maxBodySize → (fed ++ chunk).length ≤ maxBodySize) :
    let parser' := { parser with totalBytes := parser.counted chunk, lookahead := [] }
    parser.feed chunk =
        feedLoop ((parser.lookahead ++ chunk).length + 1) parser' (parser.lookahead ++ chunk) ∧
      Fed boundary maxBodySize (fed ++ chunk) parser' := by
  intro parser'
  have hcounted : 0 < maxBodySize → parser.counted chunk = (fed ++ chunk).length := by
    intro hpos
    rw [counted, if_pos (h.max_eq.symm ▸ hpos), (h.total_eq hpos).1, length_append]
  constructor
  · rw [feed_eq hdone herr, if_neg]
    rw [h.max_eq]
    rintro ⟨hpos, hexceeded⟩
    rw [hcounted hpos] at hexceeded
    exact Nat.not_lt.mpr (hsize hpos) hexceeded
  · exact ⟨h.boundary_eq, h.max_eq, fun hpos => ⟨hcounted hpos, hsize hpos⟩, h.parts_eq⟩

theorem Fed.delim_eq (h : Fed boundary maxBodySize fed parser) :
    parser.delim = delimiter boundary := by
  rw [delim, h.boundary_eq, delimiter]

/-- While the boundary is awaited, the bytes decide as if they had come at once. -/
theorem Waiting.feed (h : Waiting boundary maxBodySize fed parser) {chunk : Bytes}
    (hsize : 0 < maxBodySize → (fed ++ chunk).length ≤ maxBodySize) :
    match opening (marker boundary) (fed ++ chunk) with
    | .waiting => ∃ parser', parser.feed chunk = (.needMore, parser') ∧
        Waiting boundary maxBodySize (fed ++ chunk) parser'
    | .final => ∃ parser', parser.feed chunk = (.done, parser') ∧ parser'.parts = 0
    | .header start => ∃ parser' fuel, ((fed ++ chunk).drop start).length < fuel ∧
        parser.feed chunk = feedLoop fuel parser' ((fed ++ chunk).drop start) ∧
        parser'.curHeaderBuf = [] ∧
        ReadingHeader boundary maxBodySize start (fed ++ chunk) ((fed ++ chunk).drop start)
          parser' := by
  obtain ⟨skipped, hfed, hkeeps⟩ := h.keeps
  obtain ⟨hfeed, hnext⟩ := h.toFed.feed_of_admitted (by rw [h.state_eq]; decide)
    (by rw [h.state_eq]; decide) hsize
  have hopening : opening (marker boundary) (fed ++ chunk) =
      (opening (marker boundary) (parser.lookahead ++ chunk)).shift skipped.length := by
    have hfirst := hkeeps chunk
    rw [hfed, append_assoc] at hfirst ⊢
    exact opening_skip hfirst
  have hwhole : fed ++ chunk = skipped ++ (parser.lookahead ++ chunk) := by
    conv_lhs => rw [hfed, append_assoc]
  have hstate : ({ parser with totalBytes := parser.counted chunk, lookahead := [] } :
      StreamingMultipartParser).state = .preamble := h.state_eq
  have hempty : ({ parser with totalBytes := parser.counted chunk, lookahead := [] } :
      StreamingMultipartParser).lookahead = [] := rfl
  generalize ({ parser with totalBytes := parser.counted chunk, lookahead := [] } :
    StreamingMultipartParser) = next at hfeed hnext hstate hempty
  have hboundary := hnext.boundary_eq
  have hne : next.boundary ≠ [] := hboundary ▸ marker_ne_nil _
  have hfuel := Nat.lt_succ_self (parser.lookahead ++ chunk).length
  rw [← hboundary] at hopening ⊢
  cases hcase : opening next.boundary (parser.lookahead ++ chunk) with
  | waiting =>
    rw [hopening, hcase]
    obtain ⟨kept, hloop, skipped', hdata, hkept⟩ :=
      feedLoop_preamble_waiting hstate hne hfuel hempty hcase
    use { next with lookahead := kept }
    refine ⟨hfeed.trans hloop, ⟨⟨hboundary, hnext.max_eq, hnext.total_eq, hnext.parts_eq⟩,
      hstate, ?_, ?_⟩⟩
    · rw [← hboundary, hopening, hcase]
      rfl
    · use skipped ++ skipped'
      constructor
      · rw [hwhole, hdata, append_assoc]
      · intro more
        have hfirst := hkeeps (chunk ++ more)
        have hagain := hkept more
        simp only [append_assoc] at hfirst hagain ⊢
        rw [hboundary] at hagain
        rw [hfirst, hagain, Option.map_map]
        congr 1
        funext i
        simp [Nat.add_assoc]
  | final =>
    rw [hopening, hcase]
    exact ⟨_, hfeed.trans (feedLoop_preamble_final hstate hne hfuel hcase), hnext.parts_eq⟩
  | header start =>
    rw [hopening, hcase]
    obtain ⟨fuel, hlength, hloop⟩ := feedLoop_preamble_header hstate hne hfuel hcase
    have hrest : (fed ++ chunk).drop (skipped.length + start) =
        (parser.lookahead ++ chunk).drop start := by
      rw [hwhole, ← drop_drop, drop_left]
    simp only [Opening.shift]
    rw [hrest]
    use { next with state := .partHeader, curHeaderBuf := [] }, fuel
    refine ⟨hlength, hfeed.trans hloop, rfl,
      ⟨⟨hboundary, hnext.max_eq, hnext.total_eq, hnext.parts_eq⟩, rfl, ?_, hempty, ?_, ?_⟩⟩
    · rw [← hboundary, hopening, hcase]
      rfl
    · exact hrest.symm
    · exact Nat.zero_le _

theorem ReadingHeader.feed {start : ℕ}
    (h : ReadingHeader boundary maxBodySize start fed [] parser) {chunk : Bytes}
    (hsize : 0 < maxBodySize → (fed ++ chunk).length ≤ maxBodySize) :
    ∃ parser', parser.feed chunk = feedLoop (chunk.length + 1) parser' chunk ∧
      parser'.curHeaderBuf = parser.curHeaderBuf ∧
      ReadingHeader boundary maxBodySize start (fed ++ chunk) chunk parser' := by
  obtain ⟨hfeed, hnext⟩ := h.toFed.feed_of_admitted (by rw [h.state_eq]; decide)
    (by rw [h.state_eq]; decide) hsize
  have hbounds := header_bounds h.opening_eq
  have hheader := h.header_eq
  rw [append_nil] at hheader
  use { parser with totalBytes := parser.counted chunk, lookahead := [] }
  rw [h.lookahead_eq, nil_append] at hfeed
  refine ⟨hfeed, rfl, ⟨hnext, h.state_eq, ?_, rfl, ?_, h.limit⟩⟩
  · rw [opening_append (marker_ne_nil _) (by rw [h.opening_eq]; simp)]
    exact h.opening_eq
  · rw [drop_append_of_le_length hbounds.2, ← hheader]

theorem ReadingHeader.feedLoop_none (h : ReadingHeader boundary maxBodySize start fed data parser)
    (hfuel : data.length < fuel) (hnone : firstOccurrence headersEnd data = none) :
    if maxHeaderSize < (fed.drop start).length then feedLoop fuel parser data = (.err, parser)
    else ∃ parser', feedLoop fuel parser data = (.needMore, parser') ∧
      ReadingHeader boundary maxBodySize start fed [] parser' := by
  have hloop := feedLoop_header_none h.state_eq hfuel h.limit hnone
  rw [← length_append, h.header_eq] at hloop
  split
  · rename_i hlimit
    rwa [if_pos hlimit] at hloop
  · rename_i hlimit
    rw [if_neg hlimit] at hloop
    refine ⟨_, hloop, ⟨⟨h.boundary_eq, h.max_eq, h.total_eq, h.parts_eq⟩, h.state_eq, h.opening_eq,
      h.lookahead_eq, ?_, ?_⟩⟩
    · exact append_nil _
    · exact Nat.le_of_not_lt hlimit

theorem ReadingHeader.feedLoop_some (h : ReadingHeader boundary maxBodySize start fed data parser)
    (hfuel : data.length < fuel)
    (hfound : firstOccurrence headersEnd data = some found) :
    let ending := parser.curHeaderBuf.length + found
    Reachable (fed.drop start) ending ∧
      if (parsePartHeaders ((fed.drop start).take ending)).isFile then
        0 < (feedLoop fuel parser data).2.parts
      else
        ∃ parser' fuel', (data.drop (found + 4)).length < fuel' ∧
          feedLoop fuel parser data = feedLoop fuel' parser' (data.drop (found + 4)) ∧
          parser'.curFieldData = [] ∧ parser'.lookahead = [] ∧
          ReadingField boundary maxBodySize start ending fed (data.drop (found + 4)) parser' := by
  intro ending
  obtain ⟨hoccurs, hearlier⟩ := (firstOccurrence_eq_some_iff headersEnd_ne_nil).mp hfound
  have hheader := h.header_eq
  have hreachable : Reachable (fed.drop start) ending := by
    rw [← hheader]
    constructor
    · rw [OccursAt, drop_append, drop_of_length_le (by omega), nil_append, Nat.add_sub_cancel_left]
      exact hoccurs
    · intro later hlater hlast
      have hlimit := h.limit
      by_contra hless
      apply hearlier (later - parser.curHeaderBuf.length) (by omega)
      rw [OccursAt, drop_append, drop_of_length_le (by omega), nil_append] at hlast
      exact hlast
  have htake : (fed.drop start).take ending = parser.curHeaderBuf ++ data.take found := by
    rw [← hheader, take_append, take_of_length_le (by omega), Nat.add_sub_cancel_left]
  have hcontent : (fed.drop start).drop (ending + 4) = data.drop (found + 4) := by
    rw [← hheader, drop_append, drop_of_length_le (by omega), nil_append]
    congr 1
    omega
  refine ⟨hreachable, ?_⟩
  obtain ⟨fuel', hfuel', hloop⟩ := feedLoop_header_some h.state_eq hfound hfuel
  rw [htake]
  split
  · rename_i hfile
    rw [hloop]
    exact (parts_header_file h.state_eq hfound hfile).trans_le (parts_feedLoop _ _ _).1
  · rename_i hfield
    have hfield := Bool.eq_false_iff.mpr hfield
    rw [process_header_field h.state_eq hfound hfield] at hloop
    exact ⟨_, fuel', hfuel', hloop, rfl, h.lookahead_eq,
      ⟨⟨h.boundary_eq, h.max_eq, h.total_eq, h.parts_eq⟩, rfl, h.opening_eq, hreachable, hfield,
        hcontent.symm, fun _ => rfl⟩⟩

theorem ReadingField.feed {start found : ℕ}
    (h : ReadingField boundary maxBodySize start found fed parser.lookahead parser)
    {chunk : Bytes} (hsize : 0 < maxBodySize → (fed ++ chunk).length ≤ maxBodySize) :
    ∃ parser', parser.feed chunk = feedLoop ((parser.lookahead ++ chunk).length + 1) parser'
        (parser.lookahead ++ chunk) ∧ parser'.lookahead = [] ∧
      ReadingField boundary maxBodySize start found (fed ++ chunk) (parser.lookahead ++ chunk)
        parser' := by
  obtain ⟨hfeed, hnext⟩ := h.toFed.feed_of_admitted (by rw [h.state_eq]; decide)
    (by rw [h.state_eq]; decide) hsize
  have hbounds := header_bounds h.opening_eq
  have hfits : found + 4 ≤ (fed.drop start).length :=
    h.reachable.1.add_length_le headersEnd_ne_nil
  refine ⟨_, hfeed, rfl, ⟨hnext, h.state_eq, ?_, ?_, h.isFile_eq, ?_, h.unlimited⟩⟩
  · rw [opening_append (marker_ne_nil _) (by rw [h.opening_eq]; simp)]
    exact h.opening_eq
  · rw [drop_append_of_le_length hbounds.2]
    exact h.reachable.append _
  · rw [drop_append_of_le_length hbounds.2, drop_append_of_le_length hfits,
      ← h.field_eq, append_assoc]

/-- A field without its delimiter is stored but for its last bytes.  Without a size limit
nothing can be stored at all. -/
theorem ReadingField.feedLoop_none
    (h : ReadingField boundary maxBodySize start found fed data parser)
    (hlookahead : parser.lookahead = []) (hfuel : data.length < fuel)
    (hnone : firstOccurrence (delimiter boundary) data = none) :
    if maxBodySize = 0 ∧ (delimiter boundary).length ≤ data.length then
      feedLoop fuel parser data = (.err, parser)
    else
      ∃ parser', feedLoop fuel parser data = (.needMore, parser') ∧
        ReadingField boundary maxBodySize start found fed parser'.lookahead parser' ∧
        (maxBodySize = 0 → parser'.lookahead.length < (delimiter boundary).length) := by
  have hdelim := h.delim_eq
  have hlength := length_pos_of_ne_nil (delimiter_ne_nil boundary)
  have hloop := feedLoop_data_none h.state_eq h.isFile_eq hfuel hlookahead (hdelim ▸ hnone)
  rw [hdelim, h.max_eq] at hloop
  simp only at hloop
  generalize hsafe : data.length - ((delimiter boundary).length - 1) = safe at hloop
  have hstored : parser.curFieldData.length + data.length ≤ fed.length := by
    rw [← length_append, h.field_eq, length_drop, length_drop]
    omega
  have hfull : (0 < safe ∧ maxBodySize < parser.curFieldData.length + safe) ↔
      maxBodySize = 0 ∧ (delimiter boundary).length ≤ data.length := by
    rcases Nat.eq_zero_or_pos maxBodySize with hzero | hpos
    · omega
    · have hlimit := (h.total_eq hpos).2
      omega
  split
  · rename_i hlimit
    rwa [if_pos (hfull.mpr hlimit)] at hloop
  · rename_i hlimit
    rw [if_neg (fun hreached => hlimit (hfull.mp hreached))] at hloop
    refine ⟨_, hloop, ⟨⟨h.boundary_eq, rfl, h.total_eq, h.parts_eq⟩, h.state_eq, h.opening_eq,
      h.reachable, h.isFile_eq, ?_, ?_⟩, ?_⟩
    · rw [append_assoc, take_append_drop]
      exact h.field_eq
    · intro hzero
      have hnothing : safe = 0 := by omega
      simp only [hnothing, take_zero, append_nil]
      exact h.unlimited hzero
    · intro hzero
      simp only [length_drop]
      omega

/-! ## One byte at a time -/

def byteResult (boundary : Bytes) (maxBodySize : ℕ) (body : Bytes) : FeedResult :=
  let fed := admitted maxBodySize body
  let incomplete : FeedResult := if fed = body then .needMore else .sizeExceeded
  match opening (marker boundary) fed with
  | .waiting => incomplete
  | .final => .done
  | .header start => if maxHeaderSize < (fed.drop start).length then .err else incomplete

theorem Waiting.create (boundary : Bytes) (maxBodySize : ℕ) :
    Waiting boundary maxBodySize [] (create boundary maxBodySize) := by
  have hne := marker_ne_nil boundary
  refine ⟨⟨rfl, rfl, fun _ => ⟨rfl, Nat.zero_le _⟩, rfl⟩, rfl, ?_, .initial _⟩
  simp [opening, firstOccurrence, if_neg hne]

theorem feedAll_append (parser : StreamingMultipartParser) (left right : List Bytes) :
    parser.feedAll (left ++ right) =
      match parser.feedAll left with
      | (.needMore, parser') => parser'.feedAll right
      | stopped => stopped := by
  induction left generalizing parser with
  | nil => rfl
  | cons chunk left ih =>
    simp only [cons_append, feedAll]
    cases parser.feed chunk with
    | mk result parser' =>
      cases result with
      | needMore => exact ih _
      | _ => rfl

def bytewise (body : Bytes) : List Bytes := body.map fun b => [b]

theorem flatten_bytewise (body : Bytes) : (bytewise body).flatten = body := by
  induction body with
  | nil => rfl
  | cons b body ih =>
    exact congrArg _ ih

theorem feedAll_singleton (parser : StreamingMultipartParser) (chunk : Bytes) :
    parser.feedAll [chunk] = parser.feed chunk := by
  simp only [feedAll]
  split
  · rename_i hresult
    exact hresult.symm
  · rename_i hresult
    exact hresult.symm

theorem headersEnd_of_short (hshort : data.length < 4) :
    firstOccurrence headersEnd data = none := by
  apply (firstOccurrence_eq_none_iff headersEnd_ne_nil).mpr
  intro i hoccurs
  have hfits : i + 4 ≤ data.length := hoccurs.add_length_le headersEnd_ne_nil
  omega

/-- One byte at a time, no end of a header is ever found. -/
theorem feedAll_bytewise (boundary : Bytes) (maxBodySize : ℕ) (fed : Bytes)
    (hsize : 0 < maxBodySize → fed.length ≤ maxBodySize) :
    match opening (marker boundary) fed with
    | .waiting => ∃ parser, (create boundary maxBodySize).feedAll (bytewise fed) =
        (.needMore, parser) ∧ Waiting boundary maxBodySize fed parser
    | .final => ∃ parser, (create boundary maxBodySize).feedAll (bytewise fed) =
        (.done, parser) ∧ parser.parts = 0
    | .header start =>
      if maxHeaderSize < (fed.drop start).length then
        ∃ parser, (create boundary maxBodySize).feedAll (bytewise fed) = (.err, parser) ∧
          parser.parts = 0
      else
        ∃ parser, (create boundary maxBodySize).feedAll (bytewise fed) = (.needMore, parser) ∧
          ReadingHeader boundary maxBodySize start fed [] parser := by
  induction fed using List.reverseRecOn with
  | nil =>
    have hcreate := Waiting.create boundary maxBodySize
    exact ⟨_, rfl, hcreate⟩
  | append_singleton fed b ih =>
    have hsize' : 0 < maxBodySize → fed.length ≤ maxBodySize := by
      intro hpos
      have hlimit := hsize hpos
      rw [length_append] at hlimit
      omega
    have hih := ih hsize'
    have hbytes : bytewise (fed ++ [b]) = bytewise fed ++ [[b]] := map_append
    rw [hbytes, feedAll_append]
    cases hopening : opening (marker boundary) fed with
    | waiting =>
      rw [hopening] at hih
      obtain ⟨parser, hfeed, hwaiting⟩ := hih
      simp only [hfeed, feedAll_singleton]
      have hstep := hwaiting.feed hsize
      cases hnext : opening (marker boundary) (fed ++ [b]) with
      | waiting | final =>
        rw [hnext] at hstep
        exact hstep
      | header start =>
        rw [hnext] at hstep
        obtain ⟨parser', fuel, hfuel, hloop, -, hreading⟩ := hstep
        have hlength := length_drop_of_waiting (marker_ne_nil _) hopening hnext
        have hresult := hreading.feedLoop_none hfuel (headersEnd_of_short (by omega))
        rw [← hloop] at hresult
        have hlimit : ¬ maxHeaderSize < ((fed ++ [b]).drop start).length := by
          unfold maxHeaderSize
          omega
        rw [if_neg hlimit] at hresult
        simp only [if_neg hlimit]
        exact hresult
    | final =>
      rw [hopening] at hih
      obtain ⟨parser, hfeed, hparts⟩ := hih
      rw [opening_append (marker_ne_nil _) (by rw [hopening]; simp), hopening]
      simp only [hfeed]
      exact ⟨parser, rfl, hparts⟩
    | header start =>
      rw [hopening] at hih
      have hbounds := header_bounds hopening
      rw [opening_append (marker_ne_nil _) (by rw [hopening]; simp), hopening]
      simp only at hih ⊢
      by_cases hlimit : maxHeaderSize < (fed.drop start).length
      · rw [if_pos hlimit] at hih
        obtain ⟨parser, hfeed, hparts⟩ := hih
        have hlimit' : maxHeaderSize < ((fed ++ [b]).drop start).length := by
          rw [drop_append_of_le_length hbounds.2, length_append]
          omega
        rw [if_pos hlimit', hfeed]
        exact ⟨parser, rfl, hparts⟩
      · rw [if_neg hlimit] at hih
        obtain ⟨parser, hfeed, hreading⟩ := hih
        obtain ⟨parser', hloop, -, hreading'⟩ := hreading.feed hsize
        have hresult := hreading'.feedLoop_none (Nat.lt_succ_self _) (headersEnd_of_short (by simp))
        rw [← hloop] at hresult
        simp only [hfeed, feedAll_singleton]
        split
        · rename_i hlimit'
          rw [if_pos hlimit'] at hresult
          exact ⟨parser', hresult, hreading'.parts_eq⟩
        · rename_i hlimit'
          rw [if_neg hlimit'] at hresult
          exact hresult

/-! ## A body that shows nothing -/

theorem admitted_append {chunk rest : Bytes} (hbody : fed ++ chunk ++ rest = body)
    (hsize : 0 < maxBodySize → (fed ++ chunk).length ≤ maxBodySize) :
    ∃ more, admitted maxBodySize body = fed ++ chunk ++ more := by
  unfold admitted
  split
  · exact ⟨rest, hbody.symm⟩
  · rename_i hlimit
    use rest.take (maxBodySize - (fed ++ chunk).length)
    rw [← hbody, take_append, take_of_length_le (hsize (by omega))]

theorem admitted_eq_self :
    admitted maxBodySize body = body ↔ (0 < maxBodySize → body.length ≤ maxBodySize) := by
  unfold admitted
  split
  · rename_i hzero
    simp [hzero]
  · rename_i hlimit
    constructor
    · intro htake _
      rw [← htake]
      exact length_take_le _ _
    · intro hsize
      exact take_of_length_le (hsize (by omega))

section ShowsNothing

variable {body : Bytes} (hshows : ShowsNothing boundary maxBodySize body)

include hshows

theorem ShowsNothing.final
    (hopening : opening (marker boundary) (admitted maxBodySize body) = .final) :
    admitted maxBodySize body = body := by
  simp only [ShowsNothing, hopening] at hshows
  exact hshows

variable {start : ℕ}
  (hopening : opening (marker boundary) (admitted maxBodySize body) = .header start)

include hopening

theorem ShowsNothing.field {found : ℕ}
    (hreachable : Reachable ((admitted maxBodySize body).drop start) found) :
    let rest := (admitted maxBodySize body).drop start
    (parsePartHeaders (rest.take found)).isFile = false ∧
      firstOccurrence (delimiter boundary) (rest.drop (found + 4)) = none ∧
      (0 < maxBodySize → rest.length ≤ maxHeaderSize) ∧
      (maxBodySize = 0 → ((rest.drop (found + 4)).length < (delimiter boundary).length ↔
        rest.length ≤ maxHeaderSize)) := by
  simp only [ShowsNothing, hopening] at hshows ⊢
  generalize (admitted maxBodySize body).drop start = rest at hshows hreachable ⊢
  cases hfirst : firstOccurrence headersEnd rest with
  | none => exact absurd hreachable.1 ((firstOccurrence_eq_none_iff headersEnd_ne_nil).mp hfirst _)
  | some first =>
    rw [hfirst] at hshows
    obtain ⟨hfield, hdelimiter, hlimits⟩ := hshows
    have hle : first ≤ found := by
      by_contra hless
      exact ((firstOccurrence_eq_some_iff headersEnd_ne_nil).mp hfirst).2 found (by omega)
        hreachable.1
    refine ⟨?_, ?_, ?_, ?_⟩
    · rw [parsePartHeaders_take hfirst hreachable.1]
      exact hfield
    · apply firstOccurrence_infix (delimiter_ne_nil _) _ hdelimiter
      apply List.IsSuffix.isInfix
      rw [show found + 4 = first + 4 + (found - first) by omega, ← drop_drop]
      exact drop_suffix _ _
    · intro hpos
      rw [if_pos hpos] at hlimits
      exact hlimits
    · intro hzero
      rw [if_neg (by omega)] at hlimits
      split at hlimits
      · rename_i hsmall
        simp only [length_drop] at hlimits ⊢
        constructor
        · intro _
          exact hsmall
        · intro _
          omega
      · rename_i hlarge
        have hroom := hlimits _ hreachable
        simp only [length_drop]
        constructor
        · intro hshort
          omega
        · intro hsmall
          exact absurd hsmall hlarge

/-- A header over its limit is only there when the size limit is not reached. -/
theorem ShowsNothing.header
    (hlimit : maxHeaderSize < ((admitted maxBodySize body).drop start).length) :
    admitted maxBodySize body = body := by
  simp only [ShowsNothing, hopening] at hshows
  split at hshows
  · rcases hshows with hwhole | hsmall
    · exact hwhole
    · omega
  · obtain ⟨-, -, hlimits⟩ := hshows
    apply admitted_eq_self.mpr
    intro hpos
    rw [if_pos hpos] at hlimits
    omega

end ShowsNothing

/-- The parser has been fed the bytes, in any cut, and has seen nothing. -/
inductive Unseen (boundary : Bytes) (maxBodySize : ℕ) (fed : Bytes)
    (parser : StreamingMultipartParser) : Prop
  | waiting (h : Waiting boundary maxBodySize fed parser)
  | header (start : ℕ) (h : ReadingHeader boundary maxBodySize start fed [] parser)
  | field (start found : ℕ)
      (h : ReadingField boundary maxBodySize start found fed parser.lookahead parser)
      (hshort : maxBodySize = 0 → parser.lookahead.length < (delimiter boundary).length)

theorem Unseen.toFed (h : Unseen boundary maxBodySize fed parser) :
    Fed boundary maxBodySize fed parser ∧ parser.state ≠ .done ∧ parser.state ≠ .err := by
  cases h with
  | waiting h =>
    refine ⟨h.toFed, ?_⟩
    rw [h.state_eq]
    decide
  | header start h =>
    refine ⟨h.toFed, ?_⟩
    rw [h.state_eq]
    decide
  | field start found h =>
    refine ⟨h.toFed, ?_⟩
    rw [h.state_eq]
    decide

def Agrees (boundary : Bytes) (maxBodySize : ℕ) (body fed : Bytes)
    (outcome : FeedResult × StreamingMultipartParser) : Prop :=
  (outcome.1 = .needMore ∧ Unseen boundary maxBodySize fed outcome.2) ∨
    (outcome.1 ≠ .needMore ∧ outcome.1 = byteResult boundary maxBodySize body ∧
      outcome.2.parts = 0)

theorem opening_of_append {more : Bytes}
    (hmore : admitted maxBodySize body = fed ++ more)
    (hopening : opening (marker boundary) fed = .header start) :
    opening (marker boundary) (admitted maxBodySize body) = .header start ∧
      (admitted maxBodySize body).drop start = fed.drop start ++ more := by
  have hbounds := header_bounds hopening
  rw [hmore]
  constructor
  · rw [opening_append (marker_ne_nil _) (by rw [hopening]; simp), hopening]
  · rw [drop_append_of_le_length hbounds.2]

theorem byteResult_err
    (hopening : opening (marker boundary) (admitted maxBodySize body) = .header start)
    (hlimit : maxHeaderSize < ((admitted maxBodySize body).drop start).length) :
    byteResult boundary maxBodySize body = .err := by
  simp only [byteResult, hopening, if_pos hlimit]

section Agreement

variable {body more : Bytes} (hshows : ShowsNothing boundary maxBodySize body)
  (hmore : admitted maxBodySize body = fed ++ more) {data : Bytes} {start : ℕ}

include hshows hmore

theorem ReadingField.agrees (h : ReadingField boundary maxBodySize start found fed data parser)
    (hlookahead : parser.lookahead = []) (hfuel : data.length < fuel) :
    Agrees boundary maxBodySize body fed (feedLoop fuel parser data) := by
  obtain ⟨hwhole, hrest⟩ := opening_of_append hmore h.opening_eq
  have hreachable := h.reachable.append more
  rw [← hrest] at hreachable
  obtain ⟨-, hdelimiter, hlimited, hunlimited⟩ := hshows.field hwhole hreachable
  have hfits : found + 4 ≤ (fed.drop start).length :=
    h.reachable.1.add_length_le headersEnd_ne_nil
  have hcontent : ((admitted maxBodySize body).drop start).drop (found + 4) =
      parser.curFieldData ++ data ++ more := by
    rw [hrest, drop_append_of_le_length hfits, h.field_eq]
  rw [hcontent] at hdelimiter hunlimited
  have hnone : firstOccurrence (delimiter boundary) data = none := by
    apply firstOccurrence_infix (delimiter_ne_nil _) _ hdelimiter
    exact ⟨parser.curFieldData, more, rfl⟩
  have hloop := h.feedLoop_none hlookahead hfuel hnone
  split at hloop
  · rename_i hlimit
    right
    rw [hloop]
    refine ⟨(by decide : FeedResult.err ≠ .needMore), ?_, h.parts_eq⟩
    symm
    apply byteResult_err hwhole
    by_contra hsmall
    have hshort := (hunlimited hlimit.1).mpr (by omega)
    simp only [length_append] at hshort
    omega
  · obtain ⟨parser', hresult, hfield, hshort⟩ := hloop
    left
    rw [hresult]
    exact ⟨rfl, .field start found hfield hshort⟩

theorem ReadingHeader.agrees
    (h : ReadingHeader boundary maxBodySize start fed data parser) {fuel : ℕ}
    (hfuel : data.length < fuel) :
    Agrees boundary maxBodySize body fed (feedLoop fuel parser data) := by
  obtain ⟨hwhole, hrest⟩ := opening_of_append hmore h.opening_eq
  cases hfound : firstOccurrence headersEnd data with
  | none =>
    have hloop := h.feedLoop_none hfuel hfound
    split at hloop
    · rename_i hlimit
      right
      rw [hloop]
      refine ⟨(by decide : FeedResult.err ≠ .needMore), ?_, h.parts_eq⟩
      symm
      apply byteResult_err hwhole
      rw [hrest, length_append]
      omega
    · obtain ⟨parser', hresult, hheader⟩ := hloop
      left
      rw [hresult]
      exact ⟨rfl, .header start hheader⟩
  | some found =>
    obtain ⟨hreachable, hloop⟩ := h.feedLoop_some hfuel hfound
    have hfits := hreachable.1.add_length_le headersEnd_ne_nil
    have hreachable' := hreachable.append more
    rw [← hrest] at hreachable'
    have hfile := (hshows.field hwhole hreachable').1
    rw [hrest, take_append_of_le_length (by omega)] at hfile
    rw [if_neg (by rw [hfile]; decide)] at hloop
    obtain ⟨parser', fuel', hfuel', hresult, -, hlookahead, hfield⟩ := hloop
    rw [hresult]
    exact hfield.agrees hshows hmore hlookahead hfuel'

end Agreement

theorem byteResult_sizeExceeded
    (hshows : ShowsNothing boundary maxBodySize body) (hpos : 0 < maxBodySize)
    (hlarge : maxBodySize < body.length) :
    byteResult boundary maxBodySize body = .sizeExceeded := by
  have hpart : admitted maxBodySize body ≠ body := by
    intro hwhole
    have hsize := admitted_eq_self.mp hwhole hpos
    omega
  simp only [byteResult, if_neg hpart]
  cases hopening : opening (marker boundary) (admitted maxBodySize body) with
  | waiting => rfl
  | final => exact absurd (hshows.final hopening) hpart
  | header start =>
    simp only
    rw [if_neg]
    intro hlimit
    exact hpart (hshows.header hopening hlimit)

theorem Unseen.agrees {body chunk rest : Bytes}
    (hshows : ShowsNothing boundary maxBodySize body)
    (h : Unseen boundary maxBodySize fed parser) (hbody : fed ++ chunk ++ rest = body) :
    Agrees boundary maxBodySize body (fed ++ chunk) (parser.feed chunk) := by
  by_cases hsize : 0 < maxBodySize → (fed ++ chunk).length ≤ maxBodySize
  · obtain ⟨more, hmore⟩ := admitted_append hbody hsize
    cases h with
    | waiting h =>
      have hstep := h.feed hsize
      cases hopening : opening (marker boundary) (fed ++ chunk) with
      | waiting =>
        rw [hopening] at hstep
        obtain ⟨parser', hfeed, hwaiting⟩ := hstep
        left
        rw [hfeed]
        exact ⟨rfl, .waiting hwaiting⟩
      | final =>
        rw [hopening] at hstep
        obtain ⟨parser', hfeed, hparts⟩ := hstep
        right
        rw [hfeed]
        refine ⟨(by decide : FeedResult.done ≠ .needMore), ?_, hparts⟩
        simp only [byteResult, hmore]
        rw [opening_append (marker_ne_nil _) (by rw [hopening]; simp), hopening]
      | header start =>
        rw [hopening] at hstep
        obtain ⟨parser', fuel, hfuel, hloop, -, hreading⟩ := hstep
        rw [hloop]
        exact hreading.agrees hshows hmore hfuel
    | header start h =>
      obtain ⟨parser', hloop, -, hreading⟩ := h.feed hsize
      rw [hloop]
      exact hreading.agrees hshows hmore (Nat.lt_succ_self _)
    | field start found h =>
      obtain ⟨parser', hloop, hlookahead, hfield⟩ := h.feed hsize
      rw [hloop]
      exact hfield.agrees hshows hmore hlookahead (Nat.lt_succ_self _)
  · obtain ⟨hpos, hlarge⟩ := Classical.not_imp.mp hsize
    have hlarge := Nat.lt_of_not_le hlarge
    obtain ⟨hfed, hdone, herr⟩ := h.toFed
    obtain ⟨parser', hfeed, hparts⟩ := hfed.feed_of_exceeded hdone herr hpos hlarge
    right
    rw [hfeed]
    refine ⟨(by decide : FeedResult.sizeExceeded ≠ .needMore), ?_, hparts⟩
    symm
    apply byteResult_sizeExceeded hshows hpos
    rw [← hbody, length_append]
    omega

/-- At the end of the body nothing is left to be decided. -/
theorem Unseen.byteResult_eq (hshows : ShowsNothing boundary maxBodySize body)
    (h : Unseen boundary maxBodySize body parser) :
    byteResult boundary maxBodySize body = .needMore := by
  have hwhole : admitted maxBodySize body = body :=
    admitted_eq_self.mpr fun hpos => (h.toFed.1.total_eq hpos).2
  unfold byteResult
  cases h with
  | waiting h => simp [hwhole, h.opening_eq]
  | header start h =>
    have hheader := h.header_eq
    have hlimit := h.limit
    rw [append_nil] at hheader
    rw [hheader] at hlimit
    simp only [hwhole, h.opening_eq, if_true]
    rw [if_neg (by omega)]
  | field start found h hshort =>
    have hopening := h.opening_eq
    have hreachable := h.reachable
    have hcontent := h.field_eq
    rw [← hwhole] at hopening hreachable hcontent
    obtain ⟨-, -, hlimited, hunlimited⟩ := hshows.field hopening hreachable
    have hsmall : ((admitted maxBodySize body).drop start).length ≤ maxHeaderSize := by
      rcases Nat.eq_zero_or_pos maxBodySize with hzero | hpos
      · apply (hunlimited hzero).mp
        rw [← hcontent, h.unlimited hzero, nil_append]
        exact hshort hzero
      · exact hlimited hpos
    simp only [hopening]
    rw [if_neg (by omega), if_pos hwhole]

theorem feedAll_of_showsNothing (hshows : ShowsNothing boundary maxBodySize body)
    {chunks : List Bytes} (h : Unseen boundary maxBodySize fed parser)
    (hbody : fed ++ chunks.flatten = body) :
    (parser.feedAll chunks).1 = byteResult boundary maxBodySize body ∧
      (parser.feedAll chunks).2.parts = 0 := by
  induction chunks generalizing fed parser with
  | nil =>
    rw [flatten_nil, append_nil] at hbody
    rw [hbody] at h
    exact ⟨(h.byteResult_eq hshows).symm, h.toFed.1.parts_eq⟩
  | cons chunk chunks ih =>
    rw [flatten_cons, ← append_assoc] at hbody
    have hagrees := h.agrees hshows hbody
    simp only [feedAll]
    cases hfeed : parser.feed chunk with
    | mk result parser' =>
      rw [hfeed] at hagrees
      rcases hagrees with ⟨hresult, hunseen⟩ | ⟨hresult, hvalue, hparts⟩
      · simp only at hresult hunseen
        rw [hresult]
        exact ih hunseen hbody
      · cases result with
        | needMore => exact absurd rfl hresult
        | _ => exact ⟨hvalue, hparts⟩

/-! ## A body that gives one result shows nothing -/

theorem ReadingHeader.feedLoop_unseen (h : ReadingHeader boundary maxBodySize start fed data parser)
    (hfuel : data.length < fuel)
    (hfound : firstOccurrence headersEnd data = some found)
    (hparts : (feedLoop fuel parser data).2.parts = 0) :
    let ending := parser.curHeaderBuf.length + found
    let content := (fed.drop start).drop (ending + 4)
    (parsePartHeaders ((fed.drop start).take ending)).isFile = false ∧
      firstOccurrence (delimiter boundary) content = none ∧
      (feedLoop fuel parser data).1 =
        if maxBodySize = 0 ∧ (delimiter boundary).length ≤ content.length then .err
        else .needMore := by
  intro ending content
  obtain ⟨-, hloop⟩ := h.feedLoop_some hfuel hfound
  split at hloop
  · omega
  · rename_i hfield
    obtain ⟨parser', fuel', hfuel', hresult, hstored, hlookahead, hreading⟩ := hloop
    have hcontent : data.drop (found + 4) = content := by
      have hdata := hreading.field_eq
      rwa [hstored, nil_append] at hdata
    rw [hcontent] at hreading hfuel' hresult
    refine ⟨Bool.eq_false_iff.mpr hfield, ?_⟩
    have hdelim := hreading.delim_eq
    cases hdelimiter : firstOccurrence (delimiter boundary) content with
    | some pos =>
      have hseen := parts_data_some hreading.state_eq hreading.isFile_eq hfuel'
        (hdelim ▸ hdelimiter)
      rw [← hresult] at hseen
      omega
    | none =>
      refine ⟨rfl, ?_⟩
      have hlast := hreading.feedLoop_none hlookahead hfuel' hdelimiter
      rw [hresult]
      split at hlast
      · rename_i hlimit
        rw [hlast, if_pos hlimit]
      · rename_i hlimit
        obtain ⟨parser'', hneed, -⟩ := hlast
        rw [hneed, if_neg hlimit]

theorem exists_admitted (maxBodySize : ℕ) (body : Bytes) :
    ∃ tail, body = admitted maxBodySize body ++ tail := by
  unfold admitted
  split
  · exact ⟨[], (append_nil _).symm⟩
  · exact ⟨_, (take_append_drop _ _).symm⟩

/-- What is left decides only when nothing has been decided yet. -/
theorem exists_of_unseen {boundary : Bytes} {maxBodySize : ℕ}
    {parser : StreamingMultipartParser}
    (hfeed : (create boundary maxBodySize).feedAll (bytewise (admitted maxBodySize body)) =
      (.needMore, parser))
    (hunseen : Unseen boundary maxBodySize (admitted maxBodySize body) parser)
    (hresult : byteResult boundary maxBodySize body =
      if admitted maxBodySize body = body then .needMore else .sizeExceeded) :
    ∃ chunks : List Bytes, chunks.flatten = body ∧
      ((create boundary maxBodySize).feedAll chunks).1 = byteResult boundary maxBodySize body ∧
      ((create boundary maxBodySize).feedAll chunks).2.parts = 0 := by
  obtain ⟨tail, htail⟩ := exists_admitted _ body
  obtain ⟨hfed, hdone, herr⟩ := hunseen.toFed
  rw [hresult]
  by_cases hwhole : admitted maxBodySize body = body
  · use bytewise (admitted maxBodySize body)
    rw [flatten_bytewise, hfeed, if_pos hwhole]
    exact ⟨hwhole, rfl, hfed.parts_eq⟩
  · obtain ⟨hpos, hlarge⟩ := Classical.not_imp.mp fun hsize =>
      hwhole (admitted_eq_self.mpr hsize)
    rw [htail] at hlarge
    obtain ⟨parser', hexceeded, hparts⟩ := hfed.feed_of_exceeded hdone herr hpos
      (Nat.lt_of_not_le hlarge)
    use bytewise (admitted maxBodySize body) ++ [tail]
    rw [flatten_append, flatten_bytewise, flatten_singleton, feedAll_append, hfeed, if_neg hwhole]
    simp only [feedAll_singleton, hexceeded]
    exact ⟨htail.symm, trivial, hparts⟩

theorem exists_of_decided {boundary : Bytes} {maxBodySize : ℕ}
    {result : FeedResult} {parser : StreamingMultipartParser} (hneed : result ≠ .needMore)
    (hfeed : (create boundary maxBodySize).feedAll (bytewise (admitted maxBodySize body)) =
      (result, parser)) (hparts : parser.parts = 0)
    (hresult : byteResult boundary maxBodySize body = result) :
    ∃ chunks : List Bytes, chunks.flatten = body ∧
      ((create boundary maxBodySize).feedAll chunks).1 = byteResult boundary maxBodySize body ∧
      ((create boundary maxBodySize).feedAll chunks).2.parts = 0 := by
  obtain ⟨tail, htail⟩ := exists_admitted _ _
  use bytewise (admitted maxBodySize body) ++ [tail]
  rw [flatten_append, flatten_bytewise, flatten_singleton, feedAll_append, hfeed, hresult]
  refine ⟨htail.symm, ?_⟩
  cases result with
  | needMore => exact absurd rfl hneed
  | _ => exact ⟨rfl, hparts⟩

/-- The body in single bytes, up to the size limit, and the rest. -/
theorem exists_bytewise (boundary : Bytes) (maxBodySize : ℕ) (body : Bytes) :
    ∃ chunks : List Bytes, chunks.flatten = body ∧
      ((create boundary maxBodySize).feedAll chunks).1 = byteResult boundary maxBodySize body ∧
      ((create boundary maxBodySize).feedAll chunks).2.parts = 0 := by
  have hsize : 0 < maxBodySize → (admitted maxBodySize body).length ≤ maxBodySize := by
    intro hpos
    rw [admitted, if_neg (by omega)]
    exact length_take_le _ _
  have hbytes := feedAll_bytewise boundary _ _ hsize
  cases hopening : opening (marker boundary) (admitted maxBodySize body) with
  | waiting =>
    rw [hopening] at hbytes
    obtain ⟨parser, hfeed, hwaiting⟩ := hbytes
    apply exists_of_unseen hfeed (.waiting hwaiting)
    simp [byteResult, hopening]
  | final =>
    rw [hopening] at hbytes
    obtain ⟨parser, hfeed, hparts⟩ := hbytes
    apply exists_of_decided (by decide) hfeed hparts
    simp [byteResult, hopening]
  | header start =>
    rw [hopening] at hbytes
    simp only at hbytes
    split at hbytes
    · rename_i hlimit
      obtain ⟨parser, hfeed, hparts⟩ := hbytes
      exact exists_of_decided (by decide) hfeed hparts (byteResult_err hopening hlimit)
    · rename_i hlimit
      obtain ⟨parser, hfeed, hreading⟩ := hbytes
      apply exists_of_unseen hfeed (.header start hreading)
      simp only [byteResult, hopening, if_neg hlimit]

section OneResult

variable {body : Bytes}
  (hone : ∀ chunks : List Bytes, chunks.flatten = body →
    ((create boundary maxBodySize).feedAll chunks).1 = byteResult boundary maxBodySize body ∧
      ((create boundary maxBodySize).feedAll chunks).2.parts = 0)

include hone

/-- Fed at once, a body over the size limit is refused. -/
theorem byteResult_of_cropped (hcropped : admitted maxBodySize body ≠ body) :
    byteResult boundary maxBodySize body = .sizeExceeded := by
  obtain ⟨hfed, hdone, herr⟩ := (Unseen.waiting (Waiting.create _ _)).toFed
  obtain ⟨hpos, hlarge⟩ := Classical.not_imp.mp fun hsize =>
    hcropped (admitted_eq_self.mpr hsize)
  have hexceeds : maxBodySize < ([] ++ body).length := Nat.lt_of_not_le hlarge
  obtain ⟨parser', hexceeded, -⟩ := hfed.feed_of_exceeded hdone herr hpos hexceeds
  have hresult := (hone [body] (flatten_singleton ..)).1
  rw [feedAll_singleton, hexceeded] at hresult
  exact hresult.symm

variable {start : ℕ}
  (hopening : opening (marker boundary) (admitted maxBodySize body) = .header start)

include hopening

theorem header_of_oneResult :
    admitted maxBodySize body = body ∨
      ((admitted maxBodySize body).drop start).length ≤ maxHeaderSize := by
  by_contra hneither
  obtain ⟨hcropped, hlarge⟩ := not_or.mp hneither
  have hexceeded := byteResult_of_cropped hone hcropped
  rw [byteResult_err hopening (Nat.lt_of_not_le hlarge)] at hexceeded
  cases hexceeded

/-- The admitted bytes in one chunk show the first end of the headers. -/
theorem field_of_oneResult
    (hfound : firstOccurrence headersEnd ((admitted maxBodySize body).drop start) = some found) :
    let rest := (admitted maxBodySize body).drop start
    let content := rest.drop (found + 4)
    (parsePartHeaders (rest.take found)).isFile = false ∧
      firstOccurrence (delimiter boundary) content = none ∧
      (admitted maxBodySize body = body → byteResult boundary maxBodySize body =
          if maxBodySize = 0 ∧ (delimiter boundary).length ≤ content.length then .err
          else .needMore) := by
  have hsize : 0 < maxBodySize → ([] ++ admitted maxBodySize body).length ≤ maxBodySize := by
    intro hpos
    rw [nil_append, admitted, if_neg (by omega)]
    exact length_take_le _ _
  have hstep := (Waiting.create boundary _).feed hsize
  simp only [nil_append, hopening] at hstep
  obtain ⟨parser, fuel, hfuel, hloop, hheld, hreading⟩ := hstep
  have hparts : ((create boundary maxBodySize).feed (admitted maxBodySize body)).2.parts = 0 := by
    obtain ⟨tail, htail⟩ : ∃ tail, admitted maxBodySize body ++ tail = body := by
      unfold admitted
      split
      · exact ⟨[], append_nil _⟩
      · exact ⟨_, take_append_drop _ _⟩
    have hall := (hone [admitted _ _, tail] (by simpa using htail)).2
    have hfront := parts_feedAll_cons (create boundary maxBodySize) (admitted maxBodySize body)
      [tail]
    omega
  rw [hloop] at hparts
  obtain ⟨hfield, hdelimiter, hresult⟩ := hreading.feedLoop_unseen hfuel hfound hparts
  rw [hheld, length_nil, Nat.zero_add] at hfield hdelimiter hresult
  refine ⟨hfield, hdelimiter, ?_⟩
  intro hwhole
  have hvalue := (hone [admitted _ _] (by simpa using hwhole)).1
  rw [feedAll_singleton, hloop, hresult] at hvalue
  exact hvalue.symm

/-- Without a size limit, a cut in front of a later end of the headers shows that one. -/
theorem later_of_oneResult (hzero : maxBodySize = 0) {later : ℕ}
    (hfound : firstOccurrence headersEnd ((admitted maxBodySize body).drop start) = some found)
    (hlarge : maxHeaderSize < ((admitted maxBodySize body).drop start).length)
    (hlater : Reachable ((admitted maxBodySize body).drop start) later) :
    later + 4 + (delimiter boundary).length ≤ ((admitted maxBodySize body).drop start).length := by
  have hwhole : admitted maxBodySize body = body := by
    rw [admitted, if_pos hzero]
  have herr := byteResult_err hopening hlarge
  obtain ⟨hoccurs, hnone⟩ := (firstOccurrence_eq_some_iff headersEnd_ne_nil).mp hfound
  have hfits : later + 4 ≤ ((admitted maxBodySize body).drop start).length :=
    hlater.1.add_length_le headersEnd_ne_nil
  -- The parser stops with an error only if a delimiter's worth of content follows.
  have enough {content : Bytes}
      (hresult : FeedResult.err =
        if maxBodySize = 0 ∧ (delimiter boundary).length ≤ content.length then .err
        else .needMore) : (delimiter boundary).length ≤ content.length := by
    split at hresult
    · rename_i hlimit
      exact hlimit.2
    · cases hresult
  rcases Nat.lt_trichotomy found later with hlt | heq | hgt
  · have hapart := headersEnd_apart hoccurs hlater.1 hlt
    rw [hwhole] at hlater hfits ⊢
    generalize hcut : min later maxHeaderSize = cut
    have htwo : 2 ≤ cut := by
      unfold maxHeaderSize at hcut
      omega
    have hfront := opening_take (marker_ne_nil _) hopening (show start + 2 ≤ start + cut by omega)
    rw [hwhole] at hfront
    have hheader : (body.take (start + cut)).drop start = (body.drop start).take cut := by
      rw [drop_take, Nat.add_sub_cancel_left]
    have hlength : ((body.take (start + cut)).drop start).length = cut := by
      rw [hheader, length_take]
      omega
    have hbytes := feedAll_bytewise boundary maxBodySize (body.take (start + cut)) (by omega)
    rw [hfront] at hbytes
    simp only at hbytes
    rw [hlength, if_neg (by omega)] at hbytes
    obtain ⟨parser, hfeed, hreading⟩ := hbytes
    have hunlimited : 0 < maxBodySize →
        (body.take (start + cut) ++ body.drop (start + cut)).length ≤ maxBodySize := by
      omega
    obtain ⟨parser', hloop, hheld, hreading'⟩ := hreading.feed hunlimited
    rw [take_append_drop] at hreading'
    have hbuffer : parser'.curHeaderBuf.length = cut := by
      have hkept := hreading.header_eq
      rw [append_nil] at hkept
      rw [hheld, hkept, hlength]
    have hchunk : firstOccurrence headersEnd (body.drop (start + cut)) = some (later - cut) := by
      rw [← drop_drop]
      apply (firstOccurrence_eq_some_iff headersEnd_ne_nil).mpr
      constructor
      · rw [occursAt_drop, Nat.add_sub_cancel' (by omega)]
        exact hlater.1
      · intro j hj hearlier
        rw [occursAt_drop] at hearlier
        have hle := hlater.2 (cut + j) (by omega) hearlier
        omega
    have hall := hone (bytewise (body.take (start + cut)) ++ [body.drop (start + cut)]) (by
      rw [flatten_append, flatten_bytewise, flatten_singleton, take_append_drop])
    rw [feedAll_append, hfeed] at hall
    simp only [feedAll_singleton, hloop] at hall
    obtain ⟨hvalue, hparts⟩ := hall
    obtain ⟨-, -, hresult⟩ := hreading'.feedLoop_unseen (Nat.lt_succ_self _) hchunk hparts
    rw [hvalue, herr, hbuffer, Nat.add_sub_cancel' (by omega)] at hresult
    have hcontent := enough hresult
    rw [length_drop] at hcontent
    omega
  · have hresult := (field_of_oneResult hone hopening hfound).2.2 hwhole
    rw [herr, heq] at hresult
    have hcontent := enough hresult
    rw [length_drop] at hcontent
    omega
  · exact absurd hlater.1 (hnone _ hgt)

theorem showsNothing_of_oneResult_header : ShowsNothing boundary maxBodySize body := by
  have hheader := header_of_oneResult hone hopening
  simp only [ShowsNothing, hopening]
  cases hfound : firstOccurrence headersEnd ((admitted maxBodySize body).drop start) with
  | none => exact hheader
  | some found =>
    obtain ⟨hfield, hdelimiter, hresult⟩ := field_of_oneResult hone hopening hfound
    refine ⟨hfield, hdelimiter, ?_⟩
    split
    · rename_i hpos
      rcases hheader with hwhole | hsmall
      · by_contra hlarge
        have hvalue := hresult hwhole
        rw [byteResult_err hopening (Nat.lt_of_not_le hlarge), if_neg (by omega)] at hvalue
        cases hvalue
      · exact hsmall
    · rename_i hzero
      have hwhole : admitted maxBodySize body = body := by
        rw [admitted, if_pos (by omega)]
      split
      · rename_i hsmall
        by_contra hlong
        have hvalue := hresult hwhole
        rw [if_pos ⟨by omega, Nat.le_of_not_lt hlong⟩] at hvalue
        simp only [byteResult, hopening, if_neg (Nat.not_lt.mpr hsmall), if_pos hwhole] at hvalue
        cases hvalue
      · rename_i hlarge
        intro later hlater
        exact later_of_oneResult hone hopening (by omega) hfound (Nat.lt_of_not_le hlarge) hlater

end OneResult

theorem showsNothing_of_oneResult {body : Bytes}
    (hone : ∀ chunks : List Bytes, chunks.flatten = body →
      ((create boundary maxBodySize).feedAll chunks).1 = byteResult boundary maxBodySize body ∧
        ((create boundary maxBodySize).feedAll chunks).2.parts = 0) :
    ShowsNothing boundary maxBodySize body := by
  cases hopening : opening (marker boundary) (admitted maxBodySize body) with
  | waiting => simp [ShowsNothing, hopening]
  | final =>
    simp only [ShowsNothing, hopening]
    by_contra hcropped
    have hexceeded := byteResult_of_cropped hone hcropped
    simp only [byteResult, hopening] at hexceeded
    cases hexceeded
  | header start => exact showsNothing_of_oneResult_header hone hopening

/-! ## Cutting the body -/

theorem multipartOutcome_eq_iff {chunks : List Bytes} {result : FeedResult} :
    multipartOutcome boundary maxBodySize chunks = (result, [], []) ↔
      ((create boundary maxBodySize).feedAll chunks).1 = result ∧
        ((create boundary maxBodySize).feedAll chunks).2.parts = 0 := by
  simp [multipartOutcome, parts]

/-- All cuts of a body give one result if and only if the body shows nothing in any. -/
theorem multipartOutcome_cut_iff (boundary : Bytes) (maxBodySize : ℕ) (body : Bytes) :
    (∀ chunks chunks' : List Bytes, chunks.flatten = body → chunks'.flatten = body →
      multipartOutcome boundary maxBodySize chunks =
        multipartOutcome boundary maxBodySize chunks') ↔
      ShowsNothing boundary maxBodySize body := by
  constructor
  · intro hsame
    obtain ⟨chunks', hflatten', hbytes⟩ := exists_bytewise _ _ _
    have hvalue := multipartOutcome_eq_iff.mpr hbytes
    apply showsNothing_of_oneResult
    intro chunks hflatten
    apply multipartOutcome_eq_iff.mp
    rw [hsame _ _ hflatten hflatten']
    exact hvalue
  · intro hshows
    have hvalue {chunks : List _} (hflatten : chunks.flatten = body) :
        multipartOutcome boundary maxBodySize chunks =
          (byteResult boundary maxBodySize body, [], []) := by
      apply multipartOutcome_eq_iff.mpr
      apply feedAll_of_showsNothing hshows (.waiting (Waiting.create _ _))
      exact hflatten
    intro chunks chunks' hflatten hflatten'
    rw [hvalue hflatten, hvalue hflatten']

/-- A form with one field, cut inside the line ends behind its header. -/
def greetingForm : Bytes := ascii "--x\r\nA\r\n\r\nhi\r\n--x--"

theorem multipartOutcome_cut_greetingForm :
    ¬ ∀ (boundary : Bytes) (maxBodySize : ℕ) (body : Bytes) (chunks chunks' : List Bytes),
      chunks.flatten = body → chunks'.flatten = body →
        multipartOutcome boundary maxBodySize chunks =
          multipartOutcome boundary maxBodySize chunks' := by
  intro hsame
  have hcut := hsame (ascii "x") 1000 greetingForm [greetingForm]
    [greetingForm.take 8, greetingForm.drop 8] (by decide) (by decide)
  revert hcut
  decide

end AstraApi.Multipart
