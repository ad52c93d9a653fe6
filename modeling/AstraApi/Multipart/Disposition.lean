import AstraApi.Multipart.Blocks

/-!
# Header lines

What the streaming parser reads in the lines of a header: a content disposition with its
parameters, and a content type.
-/

namespace AstraApi.Multipart

open List
open Bytes Occurrence

def semicolon : Byte := 0x3B

/-! ## Trimming -/

/-- No space at either end. -/
def IsTrimmed (text : Bytes) : Prop := trim text = text

theorem dropWhile_of_head {text : Bytes} (h : ∀ b, text.head? = some b → isSpace b = false) :
    text.dropWhile isSpace = text := by
  cases text with
  | nil => rfl
  | cons b text => exact dropWhile_cons_of_neg (by rw [h b rfl]; exact Bool.false_ne_true)

theorem rdropWhile_of_getLast {text : Bytes} (h : ∀ b, text.getLast? = some b → isSpace b = false) :
    text.rdropWhile isSpace = text := by
  rw [List.rdropWhile, dropWhile_of_head, reverse_reverse]
  intro b hb
  rw [head?_reverse] at hb
  exact h b hb

theorem isTrimmed_of_ends {text : Bytes} (hhead : ∀ b, text.head? = some b → isSpace b = false)
    (hlast : ∀ b, text.getLast? = some b → isSpace b = false) : IsTrimmed text := by
  rw [IsTrimmed, trim, dropWhile_of_head hhead, rdropWhile_of_getLast hlast]

theorem trim_cons_space {b : Byte} (hb : isSpace b = true) (text : Bytes) :
    trim (b :: text) = trim text := by
  rw [trim, trim, dropWhile_cons_of_pos hb]

theorem trim_subset (text : Bytes) : trim text ⊆ text :=
  List.Subset.trans (List.rdropWhile_prefix _ _).subset (dropWhile_suffix _).subset

theorem isTrimmed_trim (text : Bytes) : IsTrimmed (trim text) := by
  have hhead : ∀ b, (trim text).head? = some b → isSpace b = false := by
    intro b hb
    have ⟨behind, hbehind⟩ : trim text <+: text.dropWhile isSpace :=
      rdropWhile_prefix _ _
    change trim text ++ behind = _ at hbehind
    obtain ⟨rest, hrest⟩ := head?_eq_some_iff.mp hb
    have hsame : (text.dropWhile isSpace).dropWhile isSpace = text.dropWhile isSpace :=
      dropWhile_idempotent _ _
    rw [← hbehind, hrest, cons_append] at hsame
    by_contra hspace
    rw [dropWhile_cons_of_pos (Bool.eq_true_of_not_eq_false hspace)] at hsame
    have hshorter := (dropWhile_suffix isSpace (l := rest ++ behind)).length_le
    rw [hsame] at hshorter
    exact absurd hshorter (Nat.not_succ_le_self _)
  calc trim (trim text) = ((trim text).dropWhile isSpace).rdropWhile isSpace := rfl
    _ = (trim text).rdropWhile isSpace := by rw [dropWhile_of_head hhead]
    _ = trim text := rdropWhile_idempotent _ _

/-! ## White space around a text -/

/-- Optional white space. -/
structure Blank where
  text : Bytes
  blank : ∀ b ∈ text, b = 0x20 ∨ b = 0x09

def Blank.empty : Blank := ⟨[], nofun⟩

def Blank.space : Blank := ⟨[0x20], by decide⟩

theorem Blank.isSpace (gap : Blank) : ∀ b ∈ gap.text, Multipart.isSpace b = true := by
  intro b hb
  rcases gap.blank b hb with heq | heq
  · rw [heq]
    rfl
  · rw [heq]
    rfl

theorem Blank.notMem (gap : Blank) {b : Byte} (h : b ≠ 0x20 ∧ b ≠ 0x09) : b ∉ gap.text :=
  fun hmem => (gap.blank b hmem).elim h.1 h.2

def padded (before after : Blank) (text : Bytes) : Bytes := before.text ++ (text ++ after.text)

theorem trim_padded (before after : Blank) {text : Bytes} (hne : text ≠ [])
    (hhead : ∀ b, text.head? = some b → isSpace b = false)
    (hlast : ∀ b, text.getLast? = some b → isSpace b = false) :
    trim (padded before after text) = text := by
  have hfront : ∀ b, (text ++ after.text).head? = some b → isSpace b = false := by
    intro b hb
    rw [head?_append_of_ne_nil _ hne] at hb
    exact hhead b hb
  have hbehind : (text ++ after.text).rdropWhile isSpace = text.rdropWhile isSpace := by
    have hall : ∀ b ∈ after.text.reverse, isSpace b = true :=
      fun b hb => after.isSpace b (mem_reverse.mp hb)
    rw [List.rdropWhile, List.rdropWhile, reverse_append, dropWhile_append_of_pos hall]
  rw [trim, padded, dropWhile_append_of_pos before.isSpace, dropWhile_of_head hfront, hbehind,
    rdropWhile_of_getLast hlast]

/-! ## Parameters -/

/-- Parameters with semicolons between them. -/
def joinSegments : Bytes → List Bytes → Bytes
  | seg, [] => seg
  | seg, next :: segs => seg ++ semicolon :: joinSegments next segs

theorem dispositionLoop_nil (fuel : ℕ) (part : PartHeaders) :
    dispositionLoop fuel [] part = part := by
  cases fuel <;> rfl

theorem dispositionLoop_turn {fuel : ℕ} {hval : Bytes} (hne : hval ≠ []) (part : PartHeaders) :
    dispositionLoop (fuel + 1) hval part =
      let sc := (firstOccurrence (ascii ";") hval).getD hval.length
      dispositionLoop fuel (hval.drop (sc + 1)) (part.segment (trim (hval.take sc))) := by
  obtain ⟨b, bytes, rfl⟩ := exists_cons_of_ne_nil hne
  rfl

theorem firstOccurrence_semicolon {seg : Bytes} (h : semicolon ∉ seg) (rest : Bytes) :
    firstOccurrence (ascii ";") (seg ++ semicolon :: rest) = some seg.length := by
  have hbehind : firstOccurrence [semicolon] (seg ++ semicolon :: rest) = _ :=
    firstOccurrence_behind h _
  have hhere : firstOccurrence [semicolon] (semicolon :: rest) = some 0 :=
    firstOccurrence_self_append (cons_ne_nil _ _) _
  exact hbehind

theorem firstOccurrence_semicolon_none {seg : Bytes} (h : semicolon ∉ seg) :
    firstOccurrence (ascii ";") seg = none := by
  have hbehind : firstOccurrence [semicolon] (seg ++ []) = _ := firstOccurrence_behind h []
  rwa [append_nil] at hbehind

theorem dispositionLoop_segments {fuel : ℕ} {seg : Bytes} {segs : List Bytes}
    (h : ∀ other ∈ seg :: segs, semicolon ∉ other)
    (hfuel : (joinSegments seg segs).length ≤ fuel) (part : PartHeaders) :
    dispositionLoop fuel (joinSegments seg segs) part =
      (seg :: segs).foldl (fun part seg => part.segment (trim seg)) part := by
  induction segs generalizing fuel seg part with
  | nil =>
    rw [joinSegments] at hfuel ⊢
    by_cases hseg : seg = []
    · rw [hseg, dispositionLoop_nil]
      rfl
    · have hpos := length_pos_of_ne_nil hseg
      obtain ⟨fuel, rfl⟩ := Nat.exists_eq_add_one_of_ne_zero (Nat.ne_zero_of_lt
        (hpos.trans_le hfuel))
      rw [dispositionLoop_turn hseg, firstOccurrence_semicolon_none (h _ mem_cons_self)]
      dsimp only
      rw [Option.getD_none, take_length, drop_of_length_le (Nat.le_succ _), dispositionLoop_nil]
      rfl
  | cons next segs ih =>
    have htail : ∀ other ∈ next :: segs, semicolon ∉ other :=
      fun other hmem => h _ (mem_cons_of_mem _ hmem)
    have hne : seg ++ semicolon :: joinSegments next segs ≠ [] :=
      append_ne_nil_of_right_ne_nil _ (cons_ne_nil _ _)
    rw [joinSegments] at hfuel ⊢
    have hpos := length_pos_of_ne_nil hne
    obtain ⟨fuel, rfl⟩ := Nat.exists_eq_add_one_of_ne_zero (Nat.ne_zero_of_lt (hpos.trans_le hfuel))
    rw [dispositionLoop_turn hne, firstOccurrence_semicolon (h _ mem_cons_self)]
    dsimp only
    have hdrop : (seg ++ semicolon :: joinSegments next segs).drop (seg.length + 1) =
        joinSegments next segs := by
      rw [append_cons]
      exact drop_left' length_append
    rw [Option.getD_some, take_left, hdrop, ih htail]
    · rfl
    · rw [length_append, length_cons] at hfuel
      omega

/-! ## The lines of a rendered header -/

def IsQuotable (text : Bytes) : Prop :=
  quotationMark ∉ text ∧ carriageReturn ∉ text ∧ lineFeed ∉ text

def quoted (text : Bytes) : Bytes := quotationMark :: (text ++ [quotationMark])

theorem unquote_quoted (text : Bytes) : unquote (quoted text) = text := by
  rw [unquote, quoted, head?_cons, if_pos rfl, drop_one, tail_cons, length_cons, length_append]
  exact take_left

theorem trim_quoted (text : Bytes) : trim (quoted text) = quoted text := by
  apply isTrimmed_of_ends
  · intro b hb
    rw [← Option.some.inj hb]
    rfl
  · intro b hb
    rw [quoted, ← cons_append, getLast?_concat] at hb
    rw [← Option.some.inj hb]
    rfl

def paddedParameter (before after : Blank) (key : String) (value : Bytes) : Bytes :=
  padded before after (ascii key ++ quoted value)

theorem trim_paddedParameter {key : String} {first : Byte} {rest : Bytes}
    (hkey : ascii key = first :: rest) (hfirst : isSpace first = false) (before after : Blank)
    (value : Bytes) :
    trim (paddedParameter before after key value) = ascii key ++ quoted value := by
  apply trim_padded
  · exact append_ne_nil_of_right_ne_nil _ (cons_ne_nil _ _)
  · intro b hb
    rw [hkey, cons_append, head?_cons] at hb
    rw [← Option.some.inj hb]
    exact hfirst
  · intro b hb
    rw [quoted, ← cons_append, ← append_assoc, getLast?_concat] at hb
    rw [← Option.some.inj hb]
    rfl

/-- A parameter behind a space. -/
def parameter (key : String) (value : Bytes) : Bytes := 0x20 :: (ascii key ++ quoted value)

theorem trim_parameter {key : String} {first : Byte} {rest : Bytes}
    (hkey : ascii key = first :: rest) (hfirst : isSpace first = false) (value : Bytes) :
    trim (parameter key value) = ascii key ++ quoted value := by
  have hpadded := trim_paddedParameter hkey hfirst Blank.space Blank.empty value
  rw [paddedParameter, padded, Blank.empty, append_nil] at hpadded
  exact hpadded

theorem segment_name (part : PartHeaders) (name : Bytes) :
    part.segment (ascii "name=" ++ quoted name) = { part with name := name } := by
  have hdrop : (ascii "name=" ++ quoted name).drop 5 = quoted name := drop_left' rfl
  rw [PartHeaders.segment, if_pos (prefix_append _ _), hdrop, trim_quoted, unquote_quoted]

theorem segment_filename (part : PartHeaders) (filename : Bytes) :
    part.segment (ascii "filename=" ++ quoted filename) =
      { part with filename := filename, isFile := true } := by
  have hname : ¬ ascii "name=" <+: ascii "filename=" ++ quoted filename := by
    rintro ⟨rest, hrest⟩
    exact absurd (List.cons.inj hrest).1 (by decide)
  have hdrop : (ascii "filename=" ++ quoted filename).drop 9 = quoted filename :=
    drop_left' rfl
  rw [PartHeaders.segment, if_neg hname, if_pos (prefix_append _ _), hdrop, trim_quoted,
    unquote_quoted]

theorem segment_formData (part : PartHeaders) (before after : Blank) :
    part.segment (trim (padded before after (ascii "form-data"))) = part := by
  have htrim : trim (padded before after (ascii "form-data")) = ascii "form-data" := by
    apply trim_padded
    · exact cons_ne_nil _ _
    · intro b hb
      rw [← Option.some.inj hb]
      rfl
    · intro b hb
      rw [← Option.some.inj hb]
      rfl
  rw [htrim, PartHeaders.segment, if_neg (by decide), if_neg (by decide)]

/-! ## Lines -/

def colon : Byte := 0x3A

def colonLine (key text : Bytes) : Bytes := key ++ colon :: text

def headerLine (key value : Bytes) : Bytes := colonLine key (0x20 :: value)

/-- The value of a content disposition, with white space behind its type. -/
def dispositionText (gap : Blank) (params : List Bytes) : Bytes :=
  joinSegments (ascii "form-data" ++ gap.text) params

def dispositionValue (params : List Bytes) : Bytes := joinSegments (ascii "form-data") params

theorem colonLine_colon {key : Bytes} (hkey : colon ∉ key) (text : Bytes) :
    firstOccurrence (ascii ":") (colonLine key text) = some key.length ∧
      (colonLine key text).take key.length = key ∧
      (colonLine key text).drop (key.length + 1) = text := by
  refine ⟨?_, take_left, ?_⟩
  · have hbehind : firstOccurrence [colon] (key ++ colon :: text) = _ :=
      firstOccurrence_behind hkey _
    have hhere : firstOccurrence [colon] (colon :: text) = some 0 :=
      firstOccurrence_self_append (cons_ne_nil _ _) _
    rw [hhere] at hbehind
    exact hbehind
  · rw [colonLine, append_cons]
    exact drop_left' length_append

theorem line_colonLine {key : Bytes} (hkey : colon ∉ key) (text : Bytes) (part : PartHeaders) :
    part.line (colonLine key text) =
      if trim (key.map lower) = ascii "content-disposition" then
        dispositionLoop (trim text).length (trim text) part
      else if trim (key.map lower) = ascii "content-type" then
        { part with contentType := trim text }
      else part := by
  obtain ⟨hcolon, htake, hdrop⟩ := colonLine_colon hkey text
  simp [PartHeaders.line, hcolon, htake, hdrop]

def EndsQuoted (params : List Bytes) : Prop :=
  ∃ front last, params = front ++ [last ++ [quotationMark]]

theorem exists_joinSegments {params : List Bytes} (h : EndsQuoted params) (seg : Bytes) :
    ∃ middle, joinSegments seg params = seg ++ (middle ++ [quotationMark]) := by
  obtain ⟨front, last, rfl⟩ := h
  induction front generalizing seg with
  | nil => exact ⟨semicolon :: last, rfl⟩
  | cons next front ih =>
    have ⟨middle, hmiddle⟩ := ih next
    refine ⟨semicolon :: (next ++ middle), ?_⟩
    rw [cons_append, joinSegments, hmiddle, cons_append, append_assoc]

/-- White space around the value, around its type and around its parameters is not read. -/
theorem line_disposition {key : Bytes} (hcolon : colon ∉ key)
    (hkey : key.map lower = ascii "content-disposition") {params : List Bytes}
    (hparams : ∀ param ∈ params, semicolon ∉ param) (hends : EndsQuoted params)
    (lead gap trail : Blank) (part : PartHeaders) :
    part.line (colonLine key (padded lead trail (dispositionText gap params))) =
      params.foldl (fun part seg => part.segment (trim seg)) part := by
  have ⟨middle, hmiddle⟩ := exists_joinSegments hends (ascii "form-data" ++ gap.text)
  have htrim : trim (padded lead trail (dispositionText gap params)) =
      dispositionText gap params := by
    rw [dispositionText, hmiddle]
    apply trim_padded
    · exact append_ne_nil_of_left_ne_nil (append_ne_nil_of_left_ne_nil (by decide) _) _
    · intro b hb
      rw [← Option.some.inj hb]
      rfl
    · intro b hb
      rw [← append_assoc, getLast?_concat] at hb
      rw [← Option.some.inj hb]
      rfl
  have hformData : semicolon ∉ ascii "form-data" ++ gap.text :=
    not_mem_append (by decide) (gap.notMem (by decide))
  have hsegment : part.segment (trim (ascii "form-data" ++ gap.text)) = part :=
    segment_formData part Blank.empty gap
  rw [line_colonLine hcolon, hkey, if_pos (by decide), htrim, dispositionText,
    dispositionLoop_segments (forall_mem_cons.mpr ⟨hformData, hparams⟩) le_rfl, foldl_cons, hsegment]

theorem line_dispositionValue {key : Bytes} (hcolon : colon ∉ key)
    (hkey : key.map lower = ascii "content-disposition") {params : List Bytes}
    (hparams : ∀ param ∈ params, semicolon ∉ param) (hends : EndsQuoted params)
    (part : PartHeaders) :
    part.line (headerLine key (dispositionValue params)) =
      params.foldl (fun part seg => part.segment (trim seg)) part := by
  have hvalue : padded Blank.space Blank.empty (dispositionText Blank.empty params) =
      0x20 :: dispositionValue params := by
    rw [padded, Blank.empty, append_nil, dispositionText, append_nil]
    rfl
  rw [headerLine, ← hvalue, line_disposition hcolon hkey hparams hends]

theorem line_contentType {key : Bytes} (hcolon : colon ∉ key)
    (hkey : key.map lower = ascii "content-type") (value : Bytes) (part : PartHeaders) :
    part.line (headerLine key value) = { part with contentType := trim value } := by
  rw [headerLine, line_colonLine hcolon, hkey, if_neg (by decide), if_pos (by decide),
    trim_cons_space rfl]

end AstraApi.Multipart
