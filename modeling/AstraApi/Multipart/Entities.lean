import AstraApi.Multipart.Buffered
import AstraApi.Multipart.RoundTrip

/-!
# Parts with arbitrary headers

A part has one content disposition among other header lines, its parameters stand in
either order, and white space stands around the values of all lines.  What each of the
two parsers makes of such a header is computed line by line.
-/

namespace AstraApi.Multipart

open List
open Bytes Occurrence Buffered
open AstraApi.Dispatch (IsUtf8)

/-! ## Texts -/

theorem isUtf8_append {left right : Bytes} (hleft : IsUtf8 left) (hright : IsUtf8 right) :
    IsUtf8 (left ++ right) := by
  have heq : (⟨(left ++ right).toArray⟩ : ByteArray) = ⟨left.toArray⟩ ++ ⟨right.toArray⟩ := by
    apply ByteArray.ext
    simp
  exact ByteArray.IsValidUTF8.append hleft hright

theorem isUtf8_singleton {b : Byte} (h : b < 128) : IsUtf8 [b] := by
  have hall : ∀ b : Fin 128, IsUtf8 [UInt8.ofNat b.val] := by decide
  have hbyte : UInt8.ofNat b.toNat = b := UInt8.ofNat_toNat
  rw [← hbyte]
  exact hall ⟨b.toNat, h⟩

theorem isUtf8_of_ascii {text : Bytes} (h : ∀ b ∈ text, b < 128) : IsUtf8 text := by
  induction text with
  | nil => decide
  | cons b text ih =>
    rw [forall_mem_cons] at h
    exact isUtf8_append (isUtf8_singleton h.1) (ih h.2)

/-- A text that both parsers can give back: UTF-8 without a zero byte. -/
def IsText (text : Bytes) : Prop := IsUtf8 text ∧ 0 ∉ text

theorem IsText.append {left right : Bytes} (hleft : IsText left) (hright : IsText right) :
    IsText (left ++ right) :=
  ⟨isUtf8_append hleft.1 hright.1,
    fun hmem => (mem_append.mp hmem).elim hleft.2 hright.2⟩

theorem isText_of_ascii {text : Bytes} (h : ∀ b ∈ text, 0 < b ∧ b < 128) : IsText text :=
  ⟨isUtf8_of_ascii fun b hb => (h b hb).2, fun hmem => absurd (h 0 hmem).1 (by decide)⟩

theorem isText_ascii {text : String}
    (h : text.toList.all (fun c => decide (0 < c.toNat) && decide (c.toNat < 128)) = true) :
    IsText (ascii text) := by
  apply isText_of_ascii
  intro b hb
  have ⟨c, hc, heq⟩ := mem_map.mp hb
  have hrange := all_eq_true.mp h c hc
  rw [Bool.and_eq_true, decide_eq_true_iff, decide_eq_true_iff] at hrange
  have hsame : (UInt8.ofNat c.toNat).toNat = c.toNat := by
    exact Nat.mod_eq_of_lt (hrange.2.trans (by decide))
  rw [← heq, UInt8.lt_iff_toNat_lt, UInt8.lt_iff_toNat_lt, hsame]
  exact hrange

theorem cString_eq_iff {text : Bytes} : cString text = text ↔ 0 ∉ text := by
  rw [cString, takeWhile_eq_self_iff]
  constructor
  · intro h hmem
    exact absurd (h 0 hmem) (by decide)
  · intro h b hb
    rw [bne_iff_ne]
    exact fun heq => h (heq ▸ hb)

/-- Reading a string from C keeps texts, and only these give themselves back. -/
theorem isText_iff {text : Bytes} : IsText text ↔ IsUtf8 (cString text) ∧ cString text = text := by
  constructor
  · intro h
    have hsame := cString_eq_iff.mpr h.2
    rw [hsame]
    exact ⟨h.1, rfl⟩
  · intro h
    have htext := h.1
    rw [h.2] at htext
    exact ⟨htext, cString_eq_iff.mp h.2⟩

/-! ## Entities -/

/-- A header line other than the content disposition.  The value is all that stands behind the
colon. -/
structure Field where
  key : Bytes
  value : Bytes
  key_token : ∀ b ∈ key, 0x20 < b ∧ b < 0x7F ∧ b ≠ colon
  key_ne : key.map lower ≠ ascii "content-disposition"
  value_text : ∀ b ∈ value, b = 0x09 ∨ 0x20 ≤ b ∧ b < 0x7F
  contentType_ne : key.map lower = ascii "content-type" → trim value ≠ []

/-- A part of a well-formed body; its disposition may be spelled in any case.  White space
stands around its value and around each of its semicolons. -/
structure Entity where
  front : List Field
  key : Bytes
  name : Bytes
  filename : Option Bytes
  filenameFirst : Bool
  lead : Blank := Blank.space
  opening : Blank × Blank := (Blank.empty, Blank.space)
  middle : Blank × Blank := (Blank.empty, Blank.space)
  trail : Blank := Blank.empty
  back : List Field
  data : Bytes
  key_disposition : key.map lower = ascii "content-disposition"
  name_quotable : IsQuotable name ∧ semicolon ∉ name
  filename_quotable : ∀ text ∈ filename, IsQuotable text ∧ semicolon ∉ text

def Field.line (field : Field) : Bytes := colonLine field.key field.value

def Field.contentType (field : Field) : Option Bytes :=
  if field.key.map lower = ascii "content-type" then some field.value else none

/-- The value of the last content type in some header lines. -/
def lastType : List Field → Option Bytes
  | [] => none
  | field :: fields => (lastType fields).or field.contentType

namespace Entity

variable (entity : Entity)

def params : List Bytes :=
  match entity.filename with
  | none => [paddedParameter entity.opening.2 Blank.empty "name=" entity.name]
  | some filename =>
    if entity.filenameFirst then
      [paddedParameter entity.opening.2 entity.middle.1 "filename=" filename,
        paddedParameter entity.middle.2 Blank.empty "name=" entity.name]
    else
      [paddedParameter entity.opening.2 entity.middle.1 "name=" entity.name,
        paddedParameter entity.middle.2 Blank.empty "filename=" filename]

/-- All that stands behind the colon of the disposition. -/
def value : Bytes :=
  padded entity.lead entity.trail (dispositionText entity.opening.1 entity.params)

def disposition : Bytes := colonLine entity.key entity.value

def block : Block :=
  match entity.front with
  | [] => ⟨entity.disposition, entity.back.map Field.line, entity.data⟩
  | field :: fields =>
    ⟨field.line, fields.map Field.line ++ entity.disposition :: entity.back.map Field.line,
      entity.data⟩

theorem block_allLines : entity.block.allLines =
    entity.front.map Field.line ++ entity.disposition :: entity.back.map Field.line := by
  rw [block, Block.allLines]
  cases entity.front with
  | nil => rfl
  | cons field fields => rfl

end Entity

/-! ## What the streaming parser reads -/

theorem lower_token {b : Byte} (h : 0x20 < b) : 0x20 < lower b := by
  rw [lower]
  split
  · rename_i hupper
    have hsmall : b.toNat ≤ 0x5A := UInt8.le_iff_toNat_le.mp hupper.2
    have hlarge : 0x20 < b.toNat := UInt8.lt_iff_toNat_lt.mp h
    rw [UInt8.lt_iff_toNat_lt, UInt8.toNat_add]
    simp only [UInt8.reduceToNat]
    omega
  · exact h

theorem lower_ascii {b : Byte} (h : b < 128) : lower b < 128 := by
  have hall : ∀ b : Fin 128, lower (UInt8.ofNat b.val) < 128 := by decide
  have hbyte : UInt8.ofNat b.toNat = b := UInt8.ofNat_toNat
  rw [← hbyte]
  exact hall ⟨b.toNat, h⟩

namespace Field

variable (field : Field)

theorem isLine : IsLine field.line := by
  have hkey : ∀ c : Byte, c ≤ 0x20 → c ∉ field.key :=
    fun c hc hmem => absurd (field.key_token c hmem).1 (UInt8.not_lt.mpr hc)
  have hvalue : ∀ c : Byte, c ≠ 0x09 → c < 0x20 → c ∉ field.value :=
    fun c htab hc hmem => (field.value_text c hmem).elim htab
      fun htext => absurd htext.1 (UInt8.not_le.mpr hc)
  apply isLine_colonLine
  · exact ⟨hkey _ (by decide), hkey _ (by decide)⟩
  · exact ⟨hvalue _ (by decide) (by decide), hvalue _ (by decide) (by decide)⟩

end Field

namespace Entity

variable (entity : Entity)

/-- What the part says about itself, without the white space. -/
def headers : PartHeaders where
  name := entity.name
  filename := entity.filename.getD []
  contentType := ((lastType (entity.front ++ entity.back)).map trim).getD
    (ascii "application/octet-stream")
  isFile := entity.filename.isSome

/-- The part as it should be returned. -/
def record : PartHeaders × Bytes := (entity.headers, entity.data)

theorem notMem_key {b : Byte} (hlower : lower b ∉ ascii "content-disposition") :
    b ∉ entity.key :=
  fun hmem => hlower (entity.key_disposition ▸ mem_map_of_mem hmem)

theorem notMem_padded {b : Byte} {before after : Blank} {text : Bytes}
    (hblank : b ≠ 0x20 ∧ b ≠ 0x09) (h : b ∉ text) : b ∉ padded before after text :=
  not_mem_append (before.notMem hblank) (not_mem_append h (after.notMem hblank))

theorem notMem_paddedParameter {b : Byte} {before after : Blank} {key : String} {value : Bytes}
    (hblank : b ≠ 0x20 ∧ b ≠ 0x09) (hkey : b ∉ quotationMark :: ascii key) (hvalue : b ∉ value) :
    b ∉ paddedParameter before after key value := by
  rw [mem_cons, not_or] at hkey
  apply notMem_padded hblank
  apply not_mem_append hkey.2
  apply not_mem_cons_of_ne_of_not_mem hkey.1
  exact not_mem_append hvalue (not_mem_cons_of_ne_of_not_mem hkey.1 not_mem_nil)

/-- A byte of a parameter belongs to its key, to its value or to the white space around it. -/
theorem notMem_params {b : Byte} (hblank : b ≠ 0x20 ∧ b ≠ 0x09)
    (hname : b ∉ quotationMark :: ascii "name=")
    (hfilename : b ∉ quotationMark :: ascii "filename=") (hpart : b ∉ entity.name)
    (hfile : ∀ text ∈ entity.filename, b ∉ text) : ∀ param ∈ entity.params, b ∉ param := by
  rw [params]
  cases hsome : entity.filename with
  | none => exact forall_mem_singleton.mpr (notMem_paddedParameter hblank hname hpart)
  | some filename =>
    have hsecond := hfile _ hsome
    dsimp only
    split
    · rw [forall_mem_cons, forall_mem_singleton]
      exact ⟨notMem_paddedParameter hblank hfilename hsecond,
        notMem_paddedParameter hblank hname hpart⟩
    · rw [forall_mem_cons, forall_mem_singleton]
      exact ⟨notMem_paddedParameter hblank hname hpart,
        notMem_paddedParameter hblank hfilename hsecond⟩

theorem notMem_value {b : Byte} (hblank : b ≠ 0x20 ∧ b ≠ 0x09)
    (hname : b ∉ quotationMark :: ascii "name=")
    (hfilename : b ∉ quotationMark :: ascii "filename=")
    (hdisposition : b ∉ semicolon :: ascii "form-data") (hpart : b ∉ entity.name)
    (hfile : ∀ text ∈ entity.filename, b ∉ text) : b ∉ entity.value := by
  rw [mem_cons, not_or] at hdisposition
  apply notMem_padded hblank
  apply notMem_joinSegments hdisposition.1
  rw [forall_mem_cons]
  exact ⟨not_mem_append hdisposition.2 (entity.opening.1.notMem hblank),
    entity.notMem_params hblank hname hfilename hpart hfile⟩

theorem isLine_disposition : IsLine entity.disposition := by
  have hname := entity.name_quotable.1
  have hfile := entity.filename_quotable
  apply isLine_colonLine
  · exact ⟨entity.notMem_key (by decide), entity.notMem_key (by decide)⟩
  · constructor
    · exact entity.notMem_value (by decide) (by decide) (by decide) (by decide) hname.2.1
        fun text htext => (hfile _ htext).1.2.1
    · exact entity.notMem_value (by decide) (by decide) (by decide) (by decide) hname.2.2
        fun text htext => (hfile _ htext).1.2.2

theorem isLine : ∀ line ∈ entity.block.allLines, IsLine line := by
  have hfields : ∀ (fields : List Field), ∀ line ∈ fields.map Field.line, IsLine line := by
    intro fields line hline
    have ⟨field, _, heq⟩ := mem_map.mp hline
    rw [← heq]
    exact field.isLine
  rw [block_allLines]
  intro line hline
  rcases mem_append.mp hline with hfront | hrest
  · exact hfields _ _ hfront
  · rcases mem_cons.mp hrest with heq | hback
    · rw [heq]
      exact entity.isLine_disposition
    · exact hfields _ _ hback

theorem paddedParameter_quote (before : Blank) (key : String) (value : Bytes) :
    paddedParameter before Blank.empty key value =
      before.text ++ (ascii key ++ quotationMark :: value) ++ [quotationMark] := by
  rw [paddedParameter, padded, Blank.empty, append_nil, quoted, append_assoc, append_assoc]
  rfl

theorem endsQuoted_params : EndsQuoted entity.params := by
  have hlast : ∀ before key value, paddedParameter before Blank.empty key value = _ :=
    paddedParameter_quote
  rw [params]
  cases entity.filename with
  | none => exact ⟨[], _, congrArg (fun last => [last]) (hlast _ _ _)⟩
  | some filename =>
    dsimp only
    split
    · exact ⟨[_], _, congrArg (fun last => [_, last]) (hlast _ _ _)⟩
    · exact ⟨[_], _, congrArg (fun last => [_, last]) (hlast _ _ _)⟩

end Entity

end AstraApi.Multipart
