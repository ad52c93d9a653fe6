import AstraApi.Multipart.Buffered
import AstraApi.Multipart.RoundTrip

/-!
# Forms of a request

`Request.form` hands the whole content type to the buffered parser as the boundary.  The
delimiter of the body is shorter than what the parser searches, so no part of a form comes
back as it was sent.
-/

namespace AstraApi.Multipart

open List
open Bytes Occurrence Buffered

/-- What `Request.form` returns; the fallback parser gives an `F`. -/
inductive FormResult (F : Type) where
  | parts (parts : List BufferedPart)
  | fallback (form : F)
  | urlencoded (body : Bytes)
  | empty

def requestForm {F : Type} (parseMultipartFallback : Bytes → Bytes → F)
    (contentType body : Bytes) : FormResult F :=
  if ascii "multipart/form-data" <:+: contentType then
    match parseMultipartBody body contentType with
    | some parts => .parts parts
    | none => .fallback (parseMultipartFallback body contentType)
  else if ascii "application/x-www-form-urlencoded" <:+: contentType then .urlencoded body
  else .empty

structure DeclaresBoundary (contentType boundary : Bytes) : Prop where
  line : carriageReturn ∉ contentType ∧ lineFeed ∉ contentType
  declared : ∃ front back, ∃ value ∈ [boundary, quoted boundary],
    contentType = ascii "multipart/form-data" ++ (front ++ (ascii "boundary=" ++ (value ++ back)))

/-- The part without its headers dictionary. -/
def Buffered.BufferedPart.content (part : BufferedPart) :
    Bytes × Option Bytes × Option Bytes × Bytes :=
  (part.name, part.filename, part.contentType, part.data)

def Part.content (part : Part) : Bytes × Option Bytes × Option Bytes × Bytes :=
  (part.name, part.filename, part.contentType, part.data)

theorem DeclaresBoundary.length_lt {contentType boundary : Bytes}
    (h : DeclaresBoundary contentType boundary) : boundary.length + 2 < contentType.length := by
  have ⟨front, back, value, hvalue, heq⟩ := h.declared
  have hle : boundary.length ≤ value.length := by
    rcases mem_pair.mp hvalue with hplain | hquoted
    · rw [hplain]
    · rw [hquoted, quoted, length_cons, length_append]
      omega
  have htype : (ascii "multipart/form-data").length = 19 := rfl
  rw [heq]
  simp only [length_append, htype]
  omega

/-! ## The search in a rendered body -/

section Search

variable {boundary contentType : Bytes}
variable (hline : carriageReturn ∉ contentType ∧ lineFeed ∉ contentType)
variable (hlong : boundary.length + 2 < contentType.length)
variable {epilogue : Bytes} (hepilogue : epilogue = [] ∨ epilogue = crlf)

def linesBehind (lines : List Bytes) : Bytes := lines.flatMap fun line => crlf ++ line

theorem joinLines_eq (line : Bytes) (lines : List Bytes) :
    joinLines line lines = line ++ linesBehind lines := by
  induction lines generalizing line with
  | nil => exact (append_nil _).symm
  | cons next lines ih =>
    rw [joinLines, ih, linesBehind, linesBehind, flatMap_cons, append_assoc, append_assoc]

theorem isLine_drop {line : Bytes} (h : IsLine line) (count : ℕ) :
    line.drop count = [] ∨ IsLine (line.drop count) := by
  by_cases hempty : line.drop count = []
  · exact Or.inl hempty
  · exact Or.inr ⟨hempty, fun hmem => h.2.1 (mem_of_mem_drop hmem),
      fun hmem => h.2.2 (mem_of_mem_drop hmem)⟩

section Line

include hline

theorem firstOccurrence_passed {front : Bytes}
    (hfront : firstOccurrence (marker contentType) front = none) (rest : Bytes) :
    firstOccurrence (marker contentType) (front ++ (crlf ++ rest)) =
      (firstOccurrence (marker contentType) rest).map fun i => front.length + 2 + i := by
  have hne := marker_ne_nil contentType
  have hempty : firstOccurrence (marker contentType) [] = none := by
    rw [firstOccurrence, if_neg hne]
  have hpass : firstOccurrence (marker contentType)
      (front ++ carriageReturn :: ([] ++ lineFeed :: rest)) = _ :=
    firstOccurrence_apart hne (notMem_marker (by decide) hline.1) hfront _
  rw [firstOccurrence_apart hne (notMem_marker (by decide) hline.2) hempty, Option.map_map] at hpass
  refine hpass.trans ?_
  congr 1
  funext i
  rw [Function.comp_apply, length_nil]
  omega

theorem behindFirst_crlf {front : Bytes}
    (hfront : firstOccurrence (marker contentType) front = none) (rest : Bytes) :
    behindFirst (marker contentType) (front ++ (crlf ++ rest)) =
      behindFirst (marker contentType) rest := by
  rw [← append_assoc]
  apply behindFirst_passed
  rw [append_assoc, firstOccurrence_passed hline hfront, length_append]
  rfl

theorem behindFirst_lines {line : Bytes} {lines : List Bytes}
    (h : ∀ other ∈ line :: lines, IsLine other) (content : Bytes) {rest : Bytes}
    (hrest : behindFirst (marker contentType)
      (line ++ (linesBehind lines ++ (headersEnd ++ content))) = some rest) :
    (∃ post later, (post = [] ∨ IsLine post) ∧ (∀ other ∈ later, IsLine other) ∧
      rest = post ++ (linesBehind later ++ (headersEnd ++ content))) ∨
    behindFirst (marker contentType) content = some rest := by
  have hne := marker_ne_nil contentType
  have hempty : firstOccurrence (marker contentType) [] = none := by
    rw [firstOccurrence, if_neg hne]
  induction lines generalizing line with
  | nil =>
    cases hfound : firstOccurrence (marker contentType) line with
    | some i =>
      rw [behindFirst_append hne hfound] at hrest
      exact Or.inl ⟨_, [], isLine_drop (h _ mem_cons_self) _,
        fun _ hmem => absurd hmem not_mem_nil, (Option.some.inj hrest).symm⟩
    | none =>
      have hend : linesBehind [] ++ (headersEnd ++ content) = crlf ++ ([] ++ (crlf ++ content)) :=
        rfl
      rw [hend, behindFirst_crlf hline hfound, behindFirst_crlf hline hempty] at hrest
      exact Or.inr hrest
  | cons next lines ih =>
    rw [forall_mem_cons] at h
    cases hfound : firstOccurrence (marker contentType) line with
    | some i =>
      rw [behindFirst_append hne hfound] at hrest
      exact Or.inl ⟨_, next :: lines, isLine_drop h.1 _, h.2, (Option.some.inj hrest).symm⟩
    | none =>
      have hcons : linesBehind (next :: lines) ++ (headersEnd ++ content) =
          crlf ++ (next ++ (linesBehind lines ++ (headersEnd ++ content))) := by
        rw [linesBehind, flatMap_cons, append_assoc, append_assoc]
        rfl
      rw [hcons, behindFirst_crlf hline hfound] at hrest
      exact ih h.2 hrest

end Line

include hlong

theorem firstOccurrence_shorter : firstOccurrence (marker contentType) (marker boundary) = none := by
  apply firstOccurrence_of_length_lt (marker_ne_nil _)
  rw [marker, marker, length_append, length_append]
  omega

include hline hepilogue

/-- Behind the last part nothing is found. -/
theorem firstOccurrence_final :
    firstOccurrence (marker contentType) (marker boundary ++ ([dash, dash] ++ epilogue)) = none := by
  have hne := marker_ne_nil contentType
  have hshort : firstOccurrence (marker contentType) (marker boundary ++ [dash, dash]) = none := by
    apply firstOccurrence_of_length_lt hne
    rw [marker, marker, length_append, length_append, length_append]
    have hdashes : [dash, dash].length = 2 := rfl
    omega
  have hempty : behindFirst (marker contentType) [] = none := by
    rw [behindFirst_eq_none_iff, firstOccurrence, if_neg hne]
  rw [← append_assoc]
  rcases hepilogue with heq | heq
  · rw [heq, append_nil]
    exact hshort
  · have hcrlf : epilogue = crlf ++ [] := heq
    rw [← behindFirst_eq_none_iff, hcrlf, behindFirst_crlf hline hshort, hempty]

/-- Behind what is found, the rest of a header, its data and a delimiter follow. -/
theorem behindFirst_blocks {blocks : List Block}
    (hlines : ∀ block ∈ blocks, ∀ line ∈ block.allLines, IsLine line)
    (hdata : ∀ block ∈ blocks, firstOccurrence (marker contentType) block.data = none)
    {rest : Bytes} (hrest : behindFirst (marker contentType)
      (marker boundary ++ blocksText boundary blocks epilogue) = some rest) :
    ∃ post later data others, (post = [] ∨ IsLine post) ∧ (∀ line ∈ later, IsLine line) ∧
      firstOccurrence (marker contentType) data = none ∧
      rest = post ++ (linesBehind later ++ (headersEnd ++
        (data ++ (delimiter boundary ++ blocksText boundary others epilogue)))) := by
  induction blocks with
  | nil =>
    have hnone := behindFirst_eq_none_iff.mpr (firstOccurrence_final hline hlong hepilogue)
    rw [blocksText, hnone] at hrest
    cases hrest
  | cons block blocks ih =>
    rw [forall_mem_cons] at hlines hdata
    rw [blocksText, behindFirst_crlf hline (firstOccurrence_shorter hlong), Block.text,
      Block.headerText, joinLines_eq, append_assoc] at hrest
    rcases behindFirst_lines hline hlines.1 _ hrest with hheader | hcontent
    · obtain ⟨post, later, hpost, hlater, heq⟩ := hheader
      exact ⟨post, later, block.data, blocks, hpost, hlater, hdata.1, heq⟩
    · have hsplit : block.data ++ (delimiter boundary ++ blocksText boundary blocks epilogue) =
          block.data ++ (crlf ++ (marker boundary ++ blocksText boundary blocks epilogue)) := by
        rw [delimiter, append_assoc]
      rw [hsplit, behindFirst_crlf hline hdata.1] at hcontent
      exact ih hlines.2 hdata.2 hcontent

/-- The data of the part goes on behind the delimiter that was sent. -/
theorem le_stop {data : Bytes} (hdata : firstOccurrence (marker contentType) data = none)
    (blocks : List Block) :
    (data ++ delimiter boundary).length + 2 ≤ (firstOccurrence (marker contentType)
          (data ++ (delimiter boundary ++ blocksText boundary blocks epilogue))).getD
        (data ++ (delimiter boundary ++ blocksText boundary blocks epilogue)).length := by
  have hlength : (data ++ delimiter boundary).length = data.length + 2 + (marker boundary).length := by
    rw [length_append, delimiter, length_append, Nat.add_assoc]
    rfl
  have htext : 2 ≤ (blocksText boundary blocks epilogue).length := by
    cases blocks with
    | nil =>
      rw [blocksText, length_append]
      exact Nat.le_add_right 2 _
    | cons block blocks =>
      rw [blocksText, length_append]
      exact Nat.le_add_right 2 _
  have hsplit : data ++ (delimiter boundary ++ blocksText boundary blocks epilogue) =
      data ++ (crlf ++ (marker boundary ++ blocksText boundary blocks epilogue)) := by
    rw [delimiter, append_assoc]
  cases hfound : firstOccurrence (marker contentType)
      (data ++ (delimiter boundary ++ blocksText boundary blocks epilogue)) with
  | none =>
    rw [Option.getD_none, ← append_assoc]
    exact (Nat.add_le_add_left htext _).trans length_append.ge
  | some stop =>
    rw [hsplit, firstOccurrence_passed hline hdata] at hfound
    cases blocks with
    | nil =>
      rw [blocksText, firstOccurrence_final hline hlong hepilogue] at hfound
      cases hfound
    | cons block blocks =>
      rw [blocksText, firstOccurrence_passed hline (firstOccurrence_shorter hlong),
        Option.map_map, Option.map_eq_some_iff] at hfound
      obtain ⟨i, _, hi⟩ := hfound
      rw [Option.getD_some, ← hi, hlength, Function.comp_apply]
      omega

end Search

/-! ## The part behind what is found -/

theorem length_stripLineEnd (data : Bytes) : data.length ≤ (stripLineEnd data).length + 2 := by
  have hdrop : ∀ (b : Byte) (data : Bytes),
      data.length ≤ (if data.getLast? = some b then data.dropLast else data).length + 1 := by
    intro b data
    split
    · rw [length_dropLast]
      omega
    · exact Nat.le_succ _
  have hreturn := hdrop carriageReturn
    (if data.getLast? = some lineFeed then data.dropLast else data)
  have hfeed := hdrop lineFeed data
  have hboth : data.length ≤ (if
      (if data.getLast? = some lineFeed then data.dropLast else data).getLast? = some carriageReturn
      then (if data.getLast? = some lineFeed then data.dropLast else data).dropLast
      else (if data.getLast? = some lineFeed then data.dropLast else data)).length + 2 := by omega
  exact hboth

theorem headerLoop_behind {post : Bytes} {later : List Bytes} (hpost : post = [] ∨ IsLine post)
    (hlater : ∀ line ∈ later, IsLine line) (content : Bytes) :
    let start := skipLineEnd (post ++ (linesBehind later ++ (headersEnd ++ content)))
    (headerLoop start.length start {}).2 = content := by
  have hlines : ∀ (line : Bytes) (lines : List Bytes), (∀ other ∈ line :: lines, IsLine other) →
      let start := line ++ (linesBehind lines ++ (headersEnd ++ content))
      (headerLoop start.length start {}).2 = content := by
    intro line lines h
    dsimp only
    rw [← append_assoc, ← joinLines_eq, headerLoop_lines h _ le_rfl]
  rcases hpost with hempty | hline
  · rw [hempty, nil_append]
    cases later with
    | nil => rfl
    | cons next later =>
      have hcons : linesBehind (next :: later) ++ (headersEnd ++ content) =
          crlf ++ (next ++ (linesBehind later ++ (headersEnd ++ content))) := by
        rw [linesBehind, flatMap_cons, append_assoc, append_assoc]
        rfl
      rw [hcons, skipLineEnd_crlf]
      exact hlines _ _ hlater
  · obtain ⟨b, bytes, hcons⟩ := exists_cons_of_ne_nil hline.1
    have hskip : ∀ rest, skipLineEnd (post ++ rest) = post ++ rest := by
      intro rest
      have hreturn : b ≠ carriageReturn := fun heq => hline.2.1 (by
        rw [hcons, heq]
        exact mem_cons_self)
      have hfeed : b ≠ lineFeed := fun heq => hline.2.2 (by
        rw [hcons, heq]
        exact mem_cons_self)
      rw [hcons, cons_append, skipLineEnd, skip, skip, head?_cons,
        if_neg fun heq => hreturn (Option.some.inj heq), head?_cons,
        if_neg fun heq => hfeed (Option.some.inj heq)]
    rw [hskip]
    exact hlines _ _ (forall_mem_cons.mpr ⟨hline, hlater⟩)

section Found

variable {boundary contentType : Bytes}
variable (hline : carriageReturn ∉ contentType ∧ lineFeed ∉ contentType)
variable (hlong : boundary.length + 2 < contentType.length)
variable {epilogue : Bytes} (hepilogue : epilogue = [] ∨ epilogue = crlf)

include hline hlong hepilogue

theorem delimiter_of_partLoop {blocks : List Block}
    (hlines : ∀ block ∈ blocks, ∀ line ∈ block.allLines, IsLine line)
    (hdata : ∀ block ∈ blocks, firstOccurrence (marker contentType) block.data = none)
    {rest : Bytes} (hrest : behindFirst (marker contentType)
      (marker boundary ++ blocksText boundary blocks epilogue) = some rest)
    {part : RawHeaders × Bytes} {parts : List (RawHeaders × Bytes)}
    (hparts : partLoop (marker contentType) rest.length rest = part :: parts) :
    delimiter boundary <:+: part.2 := by
  have ⟨post, later, data, others, hpost, hlater, hfree, heq⟩ :=
    behindFirst_blocks hline hlong hepilogue hlines hdata hrest
  cases hcons : rest with
  | nil =>
    rw [hcons] at hparts
    cases hparts
  | cons b bytes =>
    rw [hcons, length_cons, partLoop] at hparts
    split at hparts
    · cases hparts
    · dsimp only at hparts
      rw [← hcons, heq, headerLoop_behind hpost hlater] at hparts
      rw [← (List.cons.inj hparts).1]
      have hstop := le_stop hline hlong hepilogue hfree others
      have hend := firstOccurrence_getD_le (marker_ne_nil contentType)
        (data ++ (delimiter boundary ++ blocksText boundary others epilogue))
      have hfront : data ++ delimiter boundary <+:
          data ++ (delimiter boundary ++ blocksText boundary others epilogue) := by
        rw [← append_assoc]
        exact prefix_append _ _
      generalize data ++ (delimiter boundary ++ blocksText boundary others epilogue) = content
        at hstop hend hfront
      have hstripped := length_stripLineEnd (content.take
        ((firstOccurrence (marker contentType) content).getD content.length))
      rw [length_take, min_eq_left hend] at hstripped
      have hinside : data ++ delimiter boundary <+: stripLineEnd (content.take
          ((firstOccurrence (marker contentType) content).getD content.length)) := by
        apply prefix_of_prefix_length_le hfront ((stripLineEnd_le _).trans (List.take_prefix _ _))
        omega
      exact (suffix_append _ _).isInfix.trans hinside.isInfix

theorem delimiter_of_parse {blocks : List Block}
    (hlines : ∀ block ∈ blocks, ∀ line ∈ block.allLines, IsLine line)
    (hdata : ∀ block ∈ blocks, firstOccurrence (marker contentType) block.data = none)
    {parts : List BufferedPart}
    (h : parseMultipartBody (render boundary blocks epilogue) contentType = some parts)
    (hparts : parts ≠ []) : ∃ part ∈ parts, delimiter boundary <:+: part.data := by
  have ⟨rest, raw, raws, part, hpart, hbehind, hraws, hraw⟩ := exists_first_of_parse h hparts
  refine ⟨part, hpart, ?_⟩
  rw [data_bufferedPart hraw]
  exact delimiter_of_partLoop hline hlong hepilogue hlines hdata hbehind hraws

end Found

theorem requestForm_eq_parts_iff {F : Type} (parseMultipartFallback : Bytes → Bytes → F)
    {contentType boundary : Bytes} (hdeclares : DeclaresBoundary contentType boundary)
    {body : Bytes} {parts : List BufferedPart} :
    requestForm parseMultipartFallback contentType body = .parts parts ↔
      parseMultipartBody body contentType = some parts := by
  have hmultipart : ascii "multipart/form-data" <:+: contentType := by
    have ⟨front, back, value, _, heq⟩ := hdeclares.declared
    rw [heq]
    exact (prefix_append _ _).isInfix
  rw [requestForm, if_pos hmultipart]
  cases parseMultipartBody body contentType with
  | none => exact ⟨nofun, nofun⟩
  | some found =>
    exact ⟨fun h => congrArg _ (FormResult.parts.inj h),
      fun h => congrArg _ (Option.some.inj h)⟩

theorem data_of_content {parts : List BufferedPart} {sent : List Part}
    (h : parts.map BufferedPart.content = sent.map Part.content) :
    parts.map BufferedPart.data = sent.map Part.data := by
  have hdata := congrArg (List.map fun content => content.2.2.2) h
  rw [map_map, map_map] at hdata
  exact hdata

/-- A form comes back as it was sent if and only if it has no parts. -/
theorem requestForm_parts_iff {F : Type} (parseMultipartFallback : Bytes → Bytes → F)
    {contentType boundary epilogue : Bytes} (hdeclares : DeclaresBoundary contentType boundary)
    {sent : List Part} (hdata : ∀ part ∈ sent, ¬ delimiter boundary <:+: part.data)
    (hepilogue : epilogue = [] ∨ epilogue = crlf) :
    (∃ parts, requestForm parseMultipartFallback contentType
        (render boundary (sent.map Part.block) epilogue) = .parts parts ∧
      parts.map BufferedPart.content = sent.map Part.content) ↔ sent = [] := by
  have hne := marker_ne_nil contentType
  have hlong := hdeclares.length_lt
  constructor
  · rintro ⟨parts, hparts, hcontent⟩
    by_contra hsent
    rw [requestForm_eq_parts_iff _ hdeclares] at hparts
    have hsame := data_of_content hcontent
    have hfree : ∀ data ∈ sent.map Part.data, ¬ marker contentType <:+: data := by
      rw [← hsame]
      exact forall_mem_map.mpr (notInfix_of_parse hparts)
    have hlines : ∀ block ∈ sent.map Part.block, ∀ line ∈ block.allLines, IsLine line :=
      forall_mem_map.mpr fun part _ => part.isLine
    have hblocks : ∀ block ∈ sent.map Part.block,
        firstOccurrence (marker contentType) block.data = none :=
      forall_mem_map.mpr fun part hpart =>
        (firstOccurrence_none_iff hne).mpr (hfree _ (mem_map_of_mem hpart))
    have hnonempty : parts ≠ [] := by
      intro hempty
      rw [hempty, map_nil] at hcontent
      exact hsent (map_eq_nil_iff.mp hcontent.symm)
    have ⟨part, hpart, hdelimiter⟩ := delimiter_of_parse hdeclares.line hlong hepilogue hlines
      hblocks hparts hnonempty
    -- the data was sent, and what was sent has no delimiter
    have hmem : part.data ∈ sent.map Part.data := hsame ▸ mem_map_of_mem hpart
    have ⟨other, hother, heq⟩ := mem_map.mp hmem
    exact hdata _ hother (heq ▸ hdelimiter)
  · intro hsent
    refine ⟨[], ?_, by rw [hsent]; rfl⟩
    have hnone : firstOccurrence (marker contentType)
        (render boundary ([].map Part.block) epilogue) = none :=
      firstOccurrence_final hdeclares.line hlong hepilogue
    rw [requestForm_eq_parts_iff _ hdeclares, hsent, parseMultipartBody]
    simp only [hnone]

theorem declaresBoundary_letter :
    DeclaresBoundary (ascii "multipart/form-data; boundary=x") (ascii "x") where
  line := by decide
  declared := ⟨ascii "; ", [], ascii "x", mem_cons_self, by decide⟩

/-- No part is the form of no part, and one part is not. -/
theorem requestForm_parts_known :
    (∃ parts, requestForm (fun _ _ => ()) (ascii "multipart/form-data; boundary=x")
        (render (ascii "x") (([] : List Part).map Part.block) crlf) = .parts parts ∧
      parts.map BufferedPart.content = ([] : List Part).map Part.content) ∧
    ¬ ∃ parts, requestForm (fun _ _ => ()) (ascii "multipart/form-data; boundary=x")
        (render (ascii "x") ([letterPart (ascii "a") isQuotable_letters.1].map Part.block) crlf) =
          .parts parts ∧
      parts.map BufferedPart.content =
        [letterPart (ascii "a") isQuotable_letters.1].map Part.content :=
  ⟨(requestForm_parts_iff _ declaresBoundary_letter
      (fun _ hmem => absurd hmem not_mem_nil) (Or.inr rfl)).mpr rfl,
    (requestForm_parts_iff _ declaresBoundary_letter (by decide) (Or.inr rfl)).not.mpr
      (cons_ne_nil _ _)⟩

/-- A field is sent, and the form is empty. -/
theorem requestForm_parts_letter :
    ¬ ∀ (contentType boundary : Bytes) (sent : List Part), DeclaresBoundary contentType boundary →
      (∀ part ∈ sent, ¬ delimiter boundary <:+: part.data) →
      ∃ parts, requestForm (fun _ _ => ()) contentType
          (render boundary (sent.map Part.block) crlf) = .parts parts ∧
        parts.map BufferedPart.content = sent.map Part.content := by
  intro hall
  have ⟨parts, hparts, hcontent⟩ := hall _ _
    [letterPart _ isQuotable_letters.1] declaresBoundary_letter (by decide)
  have hempty : parseMultipartBody
      (render (ascii "x") ([letterPart (ascii "a") isQuotable_letters.1].map Part.block) crlf)
      (ascii "multipart/form-data; boundary=x") = some [] := by decide
  rw [← FormResult.parts.inj hparts] at hcontent
  cases hcontent

end AstraApi.Multipart
