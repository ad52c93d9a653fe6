import AstraApi.Multipart.Entities

/-!
# Agreement of the two multipart parsers

The streaming parser gives back every part of a well-formed body.  The buffered parser
looks for keys anywhere in a disposition and for the boundary anywhere in the data, and it
drops no white space but spaces in front of a value, so it gives back the same parts if and
only if none of these stands where it was not meant.
-/

namespace AstraApi.Multipart

open List
open Bytes Occurrence Buffered StreamingMultipartParser
open AstraApi.Dispatch (IsUtf8)

/-! ## What the buffered parser reads -/

theorem Buffered.quotedValue_none {key text : Bytes} (htext : quotationMark ∉ text) :
    quotedValue key text = none := by
  have hnone : firstOccurrence (key ++ [quotationMark]) text = none := by
    apply (firstOccurrence_none_iff (append_ne_nil_of_right_ne_nil _ (cons_ne_nil _ _))).mpr
    exact fun hinside => htext (hinside.subset (mem_append_right _ mem_cons_self))
  rw [quotedValue, hnone]

theorem Buffered.quotedValue_open {key front rest : Bytes} (hkey : quotationMark ∉ key)
    (hfront : quotationMark ∉ front) (hends : key <:+ front) (hrest : quotationMark ∉ rest) :
    quotedValue key (front ++ quotationMark :: rest) = none := by
  have hpos := firstOccurrence_key hkey hfront rest
  rw [if_pos hends] at hpos
  have hstart : front.length - key.length + (key.length + 1) = front.length + 1 := by
    rw [← Nat.add_assoc, Nat.sub_add_cancel hends.length_le]
  have hdrop : (front ++ quotationMark :: rest).drop (front.length + 1) = rest := by
    rw [append_cons]
    exact drop_left' length_append
  have hnone : firstOccurrence [quotationMark] rest = none := by
    apply (firstOccurrence_none_iff (cons_ne_nil _ _)).mpr
    exact fun hinside => hrest (hinside.subset mem_cons_self)
  simp only [quotedValue, hpos, hstart, hdrop, hnone]
  rfl

/-- The buffered parser drops the spaces in front of a value. -/
def dropSpaces (text : Bytes) : Bytes := text.dropWhile (· == 0x20)

theorem dropSpaces_subset (text : Bytes) : dropSpaces text ⊆ text := (dropWhile_suffix _).subset

theorem trim_dropSpaces (text : Bytes) : trim (dropSpaces text) = trim text := by
  induction text with
  | nil => rfl
  | cons b text ih =>
    rw [dropSpaces, dropWhile_cons]
    split
    · rename_i hspace
      rw [trim_cons_space (by rw [eq_of_beq hspace]; rfl)]
      exact ih
    · rfl

section RawHeaders

/-- The entry of the headers for a line. -/
def Field.entry (field : Field) : Bytes × Bytes := (field.key.map lower, dropSpaces field.value)

end RawHeaders

namespace Entity

variable (entity : Entity)

/-- The disposition that the buffered parser searches. -/
def rawValue : Bytes := dropSpaces entity.value

/-- The name and the filename that the buffered parser finds. -/
def rawName : Bytes := (quotedValue (ascii "name=") entity.rawValue).getD []

def rawFilename : Bytes := (quotedValue (ascii "filename=") entity.rawValue).getD []

def rawHeaders : RawHeaders where
  name := entity.rawName
  filename := entity.rawFilename
  contentType := ((lastType (entity.front ++ entity.back)).map dropSpaces).getD []
  headers := entity.front.map Field.entry ++
    (ascii "content-disposition", entity.rawValue) :: entity.back.map Field.entry

/-- What stands in front of the first quoted value. -/
def opened (key : String) : Bytes :=
  dropSpaces entity.lead.text ++ (ascii "form-data" ++
    (entity.opening.1.text ++ semicolon :: (entity.opening.2.text ++ ascii key)))

/-- What stands between two quoted values. -/
def between (key : String) : Bytes :=
  entity.middle.1.text ++ semicolon :: (entity.middle.2.text ++ ascii key)

theorem rawValue_eq : entity.rawValue =
    dropSpaces entity.lead.text ++
      (dispositionText entity.opening.1 entity.params ++ entity.trail.text) := by
  have ⟨middle, hmiddle⟩ := exists_joinSegments entity.endsQuoted_params
    (ascii "form-data" ++ entity.opening.1.text)
  rw [rawValue, value, padded, dispositionText, hmiddle, dropSpaces, dropSpaces, dropWhile_append]
  split
  · rename_i hempty
    rw [isEmpty_iff.mp hempty]
    rfl
  · rfl

theorem rawValue_none (h : entity.filename = none) : entity.rawValue =
    entity.opened "name=" ++
      quotationMark :: (entity.name ++ quotationMark :: entity.trail.text) := by
  simp [rawValue_eq, params, h, dispositionText, joinSegments, paddedParameter, padded, quoted,
    Blank.empty, opened]

/-- A disposition with two parameters, from its first quoted value on. -/
def twoValues (value : Bytes) (key : String) (text : Bytes) : Bytes :=
  quotationMark :: (value ++ quotationMark :: (entity.between key ++
    quotationMark :: (text ++ quotationMark :: entity.trail.text)))

theorem rawValue_some {filename : Bytes} (h : entity.filename = some filename) :
    entity.rawValue =
      if entity.filenameFirst then
        entity.opened "filename=" ++ entity.twoValues filename "name=" entity.name
      else entity.opened "name=" ++ entity.twoValues entity.name "filename=" filename := by
  rw [rawValue_eq, params, h]
  dsimp only
  split
  · simp [dispositionText, joinSegments, paddedParameter, padded, quoted, Blank.empty, opened,
      twoValues, between]
  · simp [dispositionText, joinSegments, paddedParameter, padded, quoted, Blank.empty, opened,
      twoValues, between]

theorem notMem_opened {key : String} (hkey : quotationMark ∉ ascii key) :
    quotationMark ∉ entity.opened key := by
  have hlead : quotationMark ∉ dropSpaces entity.lead.text :=
    fun hmem => entity.lead.notMem (by decide) (dropSpaces_subset _ hmem)
  apply not_mem_append hlead
  apply not_mem_append (by decide)
  apply not_mem_append (entity.opening.1.notMem (by decide))
  apply not_mem_cons_of_ne_of_not_mem (by decide)
  exact not_mem_append (entity.opening.2.notMem (by decide)) hkey

theorem notMem_between {key : String} (hkey : quotationMark ∉ ascii key) :
    quotationMark ∉ entity.between key := by
  apply not_mem_append (entity.middle.1.notMem (by decide))
  apply not_mem_cons_of_ne_of_not_mem (by decide)
  exact not_mem_append (entity.middle.2.notMem (by decide)) hkey

theorem suffix_opened (key : String) : ascii key <:+ entity.opened key := by
  apply IsSuffix.trans _ (suffix_append _ _)
  apply IsSuffix.trans _ (suffix_append _ _)
  apply IsSuffix.trans _ (suffix_append _ _)
  exact (suffix_append _ _).trans (suffix_cons _ _)

theorem suffix_between (key : String) : ascii key <:+ entity.between key :=
  ((suffix_append _ _).trans (suffix_cons _ _)).trans (suffix_append _ _)

/-- In front of the name stands a semicolon or white space. -/
theorem not_filename_opened : ¬ ascii "filename=" <:+ entity.opened "name=" := by
  rintro ⟨rest, hrest⟩
  have hsplit : rest ++ ascii "file" ++ ascii "name=" =
      dropSpaces entity.lead.text ++ (ascii "form-data" ++
        (entity.opening.1.text ++ semicolon :: entity.opening.2.text)) ++ ascii "name=" := by
    rw [opened] at hrest
    simpa [ascii] using hrest
  have hfront := append_cancel_right hsplit
  have hlast := congrArg List.getLast? hfront
  rw [getLast?_append_of_ne_nil _ (by decide), ← append_assoc, ← append_assoc,
    getLast?_append_of_ne_nil _ (cons_ne_nil _ _)] at hlast
  have hmem : (0x65 : Byte) ∈ semicolon :: entity.opening.2.text := mem_of_getLast? hlast.symm
  exact not_mem_cons_of_ne_of_not_mem (by decide) (entity.opening.2.notMem (by decide)) hmem

theorem rawName_eq : entity.rawName =
    match entity.filename with
    | none => entity.name
    | some filename => if entity.filenameFirst then filename else entity.name := by
  have hname := entity.name_quotable.1.1
  have hkey : quotationMark ∉ ascii "name=" := by decide
  rw [rawName]
  cases hsome : entity.filename with
  | none =>
    rw [entity.rawValue_none hsome, quotedValue_here hkey (entity.notMem_opened hkey) hname
      (entity.suffix_opened _)]
    rfl
  | some filename =>
    have hfilename := (entity.filename_quotable _ hsome).1.1
    have hends : ascii "name=" <:+ entity.opened "filename=" :=
      IsSuffix.trans ⟨ascii "file", by decide⟩ (entity.suffix_opened _)
    rw [entity.rawValue_some hsome]
    dsimp only
    split
    · rw [twoValues, quotedValue_here hkey (entity.notMem_opened (by decide)) hfilename hends]
      rfl
    · rw [twoValues, quotedValue_here hkey (entity.notMem_opened hkey) hname
        (entity.suffix_opened _)]
      rfl

/-- The filename is the first value behind its key, which may be the end of the name. -/
theorem rawFilename_eq : entity.rawFilename =
    match entity.filename with
    | none => []
    | some filename =>
      if entity.filenameFirst then filename
      else if ascii "filename=" <:+ entity.name then entity.between "filename="
      else filename := by
  have hname := entity.name_quotable.1.1
  have hkey : quotationMark ∉ ascii "filename=" := by decide
  have hopening : quotationMark ∉ entity.opened "name=" := entity.notMem_opened (by decide)
  have hnot := entity.not_filename_opened
  have hbetween := entity.notMem_between hkey
  have htrail : quotationMark ∉ entity.trail.text := entity.trail.notMem (by decide)
  rw [rawFilename]
  cases hsome : entity.filename with
  | none =>
    rw [entity.rawValue_none hsome, quotedValue_next hkey hopening hnot]
    by_cases hends : ascii "filename=" <:+ entity.name
    · rw [quotedValue_open hkey hname hends htrail]
      rfl
    · rw [quotedValue_next hkey hname hends, quotedValue_none htrail]
      rfl
  | some filename =>
    have hfilename := (entity.filename_quotable _ hsome).1.1
    rw [entity.rawValue_some hsome]
    dsimp only
    split
    · rw [twoValues, quotedValue_here hkey (entity.notMem_opened hkey) hfilename
        (entity.suffix_opened _)]
      rfl
    · rw [twoValues, quotedValue_next hkey hopening hnot]
      split
      · rename_i hends
        rw [quotedValue_here hkey hname hbetween hends]
        rfl
      · rename_i hends
        rw [quotedValue_next hkey hname hends, quotedValue_here hkey hbetween hfilename
          (entity.suffix_between _)]
        rfl

end Entity

/-! ## Agreement -/

/-- An entry of the list in the form of the streaming parser. -/
def Buffered.BufferedPart.record (part : BufferedPart) : PartHeaders × Bytes :=
  ({ name := part.name
     filename := part.filename.getD []
     contentType := part.contentType.getD (ascii "application/octet-stream")
     isFile := part.filename.isSome }, part.data)

/-- The buffered parser finds in the part what is meant. -/
structure Entity.Shared (boundary : Bytes) (entity : Entity) : Prop where
  name : IsText entity.name
  filename : ∀ text ∈ entity.filename, text ≠ [] ∧ IsText text
  order : ∀ text ∈ entity.filename,
    if entity.filenameFirst then text = entity.name else ¬ ascii "filename=" <:+ entity.name
  contentType : entity.filename.isSome →
    ∀ value ∈ lastType (entity.front ++ entity.back), IsTrimmed (dropSpaces value)
  data : ¬ marker boundary <:+: entity.data

/-! ### One part -/

theorem isText_cons {b : Byte} (hb : 0 < b ∧ b < 128) {text : Bytes} (h : IsText text) :
    IsText (b :: text) :=
  (isText_of_ascii (forall_mem_singleton.mpr hb)).append h

theorem IsText.isUtf8_cString {text : Bytes} (h : IsText text) : IsUtf8 (cString text) :=
  (isText_iff.mp h).1

theorem IsText.cString_eq {text : Bytes} (h : IsText text) : cString text = text :=
  (isText_iff.mp h).2

namespace Field

variable (field : Field)

theorem isText_key : IsText (field.key.map lower) := by
  apply isText_of_ascii
  intro b hb
  have ⟨other, hother, heq⟩ := mem_map.mp hb
  have htoken := field.key_token _ hother
  have hpos : (0 : Byte) < 0x20 := by decide
  have hbelow : (0x7F : Byte) < 128 := by decide
  rw [← heq]
  exact ⟨UInt8.lt_trans hpos (lower_token htoken.1), lower_ascii (UInt8.lt_trans htoken.2.1 hbelow)⟩

theorem isText_value : IsText (dropSpaces field.value) := by
  apply isText_of_ascii
  intro b hb
  rcases field.value_text b (dropSpaces_subset _ hb) with heq | htext
  · rw [heq]
    decide
  · have hpos : (0 : Byte) < 0x20 := by decide
    have hbelow : (0x7F : Byte) < 128 := by decide
    exact ⟨UInt8.lt_of_lt_of_le hpos htext.1, UInt8.lt_trans htext.2 hbelow⟩

theorem isText_contentType {value : Bytes} (h : field.contentType = some value) :
    IsText (dropSpaces value) ∧ dropSpaces value ≠ [] := by
  rw [contentType] at h
  split at h
  · rename_i htype
    rw [← Option.some.inj h]
    refine ⟨field.isText_value, fun hempty => field.contentType_ne htype ?_⟩
    rw [← trim_dropSpaces, hempty]
    rfl
  · cases h

end Field

theorem isText_lastType {fields : List Field} {value : Bytes} (h : lastType fields = some value) :
    IsText (dropSpaces value) ∧ dropSpaces value ≠ [] := by
  induction fields with
  | nil => cases h
  | cons field fields ih =>
    rcases Option.or_eq_some_iff.mp h with hlast | ⟨_, hfirst⟩
    · exact ih hlast
    · exact field.isText_contentType hfirst

theorem nonempty_lastType (fields : List Field) (default : Bytes) :
    (nonempty (((lastType fields).map dropSpaces).getD [])).getD default =
      ((lastType fields).map dropSpaces).getD default := by
  cases htype : lastType fields with
  | none => rfl
  | some value =>
    have ⟨htext, hne⟩ := isText_lastType htype
    rw [Option.map_some, Option.getD_some, Option.getD_some, nonempty, if_neg hne,
      Option.getD_some, htext.cString_eq]

/-- Both parsers read the same content type if only spaces in front of it are to be dropped. -/
theorem forall_isTrimmed_iff (fields : List Field) (default : Bytes) :
    (∀ value ∈ lastType fields, IsTrimmed (dropSpaces value)) ↔
      ((lastType fields).map dropSpaces).getD default =
        ((lastType fields).map trim).getD default := by
  cases lastType fields with
  | none => exact ⟨fun _ => rfl, fun _ value hmem => absurd hmem (Option.not_mem_none value)⟩
  | some value =>
    have hvalue : IsTrimmed (dropSpaces value) ↔ dropSpaces value = trim value := by
      rw [IsTrimmed, trim_dropSpaces]
      exact eq_comm
    rw [Option.map_some, Option.map_some, Option.getD_some, Option.getD_some, ← hvalue]
    exact ⟨fun h => h _ rfl, fun h other hother => Option.some.inj hother ▸ h⟩

theorem Blank.isText (gap : Blank) : IsText gap.text := by
  apply isText_of_ascii
  intro b hb
  rcases gap.blank b hb with heq | heq
  · rw [heq]
    decide
  · rw [heq]
    decide

namespace Entity

variable {entity : Entity}

theorem isText_between {key : String} (hkey : IsText (ascii key)) :
    IsText (entity.between key) := by
  apply entity.middle.1.isText.append
  apply isText_cons (by decide)
  exact entity.middle.2.isText.append hkey

theorem isText_rawValue (hname : IsText entity.name)
    (hfilename : ∀ text ∈ entity.filename, IsText text) : IsText entity.rawValue := by
  have hquote : (0 : Byte) < quotationMark ∧ quotationMark < 128 := by decide
  have hend : IsText (quotationMark :: entity.trail.text) := isText_cons hquote entity.trail.isText
  have hlead : IsText (dropSpaces entity.lead.text) := by
    apply isText_of_ascii
    intro b hb
    rcases entity.lead.blank b (dropSpaces_subset _ hb) with heq | heq
    · rw [heq]
      decide
    · rw [heq]
      decide
  have hopened : ∀ key : String, IsText (ascii key) → IsText (entity.opened key) := by
    intro key hkey
    apply hlead.append
    apply (isText_ascii rfl).append
    apply entity.opening.1.isText.append
    apply isText_cons (by decide)
    exact entity.opening.2.isText.append hkey
  have htwo : ∀ {key : String} {value text : Bytes}, IsText (ascii key) → IsText value →
      IsText text → IsText (entity.twoValues value key text) := by
    intro key value text hkey hvalue htext
    apply isText_cons hquote
    apply hvalue.append
    apply isText_cons hquote
    apply (isText_between hkey).append
    apply isText_cons hquote
    exact htext.append hend
  have hnameKey : IsText (ascii "name=") := isText_ascii rfl
  have hfilenameKey : IsText (ascii "filename=") := isText_ascii rfl
  cases hsome : entity.filename with
  | none =>
    rw [entity.rawValue_none hsome]
    exact (hopened _ hnameKey).append (isText_cons hquote (hname.append hend))
  | some filename =>
    rw [entity.rawValue_some hsome]
    split
    · exact (hopened _ hfilenameKey).append (htwo hnameKey (hfilename _ hsome) hname)
    · exact (hopened _ hnameKey).append (htwo hfilenameKey hname (hfilename _ hsome))

theorem record_bufferedPart {part : BufferedPart}
    (h : bufferedPart (entity.rawHeaders, entity.data) = some part) :
    part.record =
      ({ name := cString entity.rawName
         filename := (nonempty entity.rawFilename).getD []
         contentType := ((lastType (entity.front ++ entity.back)).map dropSpaces).getD
           (ascii "application/octet-stream")
         isFile := (nonempty entity.rawFilename).isSome }, entity.data) := by
  rw [bufferedPart] at h
  split at h
  · rw [← Option.some.inj h, BufferedPart.record]
    have htype := nonempty_lastType (entity.front ++ entity.back) (ascii "application/octet-stream")
    rw [← htype]
    rfl
  · cases h

theorem exists_bufferedPart (hname : IsText entity.rawName) (hfilename : IsText entity.rawFilename)
    (hdisposition : IsText entity.rawValue) :
    ∃ part, bufferedPart (entity.rawHeaders, entity.data) = some part := by
  have hentries : ∀ fields : List Field, ∀ entry ∈ fields.map Field.entry,
      IsText entry.1 ∧ IsText entry.2 := by
    intro fields entry hentry
    have ⟨field, _, heq⟩ := mem_map.mp hentry
    rw [← heq]
    exact ⟨field.isText_key, field.isText_value⟩
  have hheaders : ∀ entry ∈ entity.rawHeaders.headers, IsText entry.1 ∧ IsText entry.2 := by
    rw [rawHeaders, forall_mem_append, forall_mem_cons]
    have hkey : IsText (ascii "content-disposition") := isText_ascii rfl
    exact ⟨hentries _, ⟨hkey, hdisposition⟩, hentries _⟩
  have htype : IsText entity.rawHeaders.contentType := by
    rw [rawHeaders]
    cases hlast : lastType (entity.front ++ entity.back) with
    | none => exact isText_of_ascii nofun
    | some value => exact (isText_lastType hlast).1
  have htexts : ∀ text ∈ entity.rawHeaders.texts, IsText text := by
    rw [RawHeaders.texts, forall_mem_cons, forall_mem_cons, forall_mem_cons]
    refine ⟨hname, hfilename, htype, ?_⟩
    intro text htext
    have ⟨entry, hentry, hmem⟩ := mem_flatMap.mp htext
    rcases mem_pair.mp hmem with heq | heq
    · exact heq ▸ (hheaders _ hentry).1
    · exact heq ▸ (hheaders _ hentry).2
  rw [bufferedPart, if_pos fun text htext => (htexts _ htext).isUtf8_cString]
  exact ⟨_, rfl⟩

end Entity

namespace Entity

variable {boundary : Bytes} {entity : Entity}

theorem Shared.record (h : entity.Shared boundary) :
    ∃ part, bufferedPart (entity.rawHeaders, entity.data) = some part ∧
      asField part.record = asField entity.record ∧ asFile part.record = asFile entity.record := by
  have hname : entity.rawName = entity.name := by
    rw [rawName_eq]
    cases hsome : entity.filename with
    | none => rfl
    | some filename =>
      have horder := h.order _ hsome
      dsimp only
      split
      · rename_i hfirst
        rwa [if_pos hfirst] at horder
      · rfl
  have hfilename : entity.rawFilename = entity.filename.getD [] := by
    rw [rawFilename_eq]
    cases hsome : entity.filename with
    | none => rfl
    | some filename =>
      have horder := h.order _ hsome
      dsimp only
      split
      · rfl
      · rename_i hfirst
        rw [if_neg hfirst] at horder
        rw [if_neg horder]
        rfl
  have htext : IsText (entity.filename.getD []) := by
    cases hsome : entity.filename with
    | none => exact ⟨by decide, not_mem_nil⟩
    | some filename => exact (h.filename _ hsome).2
  have hmark : nonempty (entity.filename.getD []) = entity.filename := by
    cases hsome : entity.filename with
    | none => rfl
    | some filename =>
      have hfile := h.filename _ hsome
      rw [Option.getD_some, nonempty, if_neg hfile.1, hfile.2.cString_eq]
  have ⟨part, hpart⟩ := exists_bufferedPart (hname ▸ h.name) (hfilename ▸ htext)
    (isText_rawValue h.name fun text hmem => (h.filename _ hmem).2)
  refine ⟨part, hpart, ?_⟩
  rw [record_bufferedPart hpart, hname, hfilename, hmark, h.name.cString_eq, Entity.record, headers]
  cases hsome : entity.filename with
  | none => exact ⟨rfl, rfl⟩
  | some filename =>
    have htype := (forall_isTrimmed_iff _ (ascii "application/octet-stream")).mp
      (h.contentType (hsome ▸ rfl))
    rw [htype]
    exact ⟨rfl, rfl⟩

end Entity

/-! ### All parts -/

section Body

variable {boundary : Bytes} (hboundary : carriageReturn ∉ boundary ∧ lineFeed ∉ boundary)

include hboundary

end Body

section Agree

variable {boundary : Bytes} (hboundary : carriageReturn ∉ boundary ∧ lineFeed ∉ boundary)
variable {maxBodySize : ℕ} {preamble : Bytes} {entities : List Entity} {epilogue : Bytes}
variable (hpreamble : preamble = [] ∨ ∃ text, preamble = text ++ crlf)
variable (hmarker : ¬ marker boundary <:+: preamble)
variable (hdata : ∀ entity ∈ entities, ¬ delimiter boundary <:+: entity.data)
variable (hsize : maxBodySize = 0 ∨
  (preamble ++ render boundary (entities.map Entity.block) epilogue).length ≤ maxBodySize)

include hboundary hpreamble hmarker hdata hsize

end Agree

end AstraApi.Multipart
