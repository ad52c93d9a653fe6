import AstraApi.Dispatch.Parameters
import AstraApi.Multipart.Blocks

/-!
# The buffered multipart parser

`py_parse_multipart_body` has the whole body at once.  It searches for the boundary
anywhere, reads header lines up to an empty one, and makes Python strings of the texts
that it finds, each up to its first zero byte.
-/

namespace AstraApi.Multipart.Buffered

open List
open Bytes Occurrence
open AstraApi.Dispatch (IsUtf8)

/-! ## Headers -/

/-- What the header lines of a part have given so far. -/
structure RawHeaders where
  name : Bytes := []
  filename : Bytes := []
  contentType : Bytes := []
  headers : List (Bytes × Bytes) := []
  deriving DecidableEq

def quotedValue (key hval : Bytes) : Option Bytes :=
  match firstOccurrence (key ++ [quotationMark]) hval with
  | none => none
  | some pos =>
    let value := hval.drop (pos + (key.length + 1))
    (firstOccurrence [quotationMark] value).map fun stop => value.take stop

def RawHeaders.disposition (raw : RawHeaders) (hval : Bytes) : RawHeaders :=
  { raw with
    name := (quotedValue (ascii "name=") hval).getD raw.name
    filename := (quotedValue (ascii "filename=") hval).getD raw.filename }

/-- A header line; one without a colon is skipped. -/
def RawHeaders.line (raw : RawHeaders) (line : Bytes) : RawHeaders :=
  match firstOccurrence (ascii ":") line with
  | none => raw
  | some colon =>
    let hname := (line.take colon).map lower
    let hval := (line.drop (colon + 1)).dropWhile (· == 0x20)
    let raw := { raw with headers := raw.headers ++ [(hname, hval)] }
    if hname = ascii "content-disposition" then raw.disposition hval
    else if hname = ascii "content-type" then { raw with contentType := hval }
    else raw

def isLineByte (b : Byte) : Bool := b != carriageReturn && b != lineFeed

def skip (b : Byte) (rest : Bytes) : Bytes := if rest.head? = some b then rest.tail else rest

def skipLineEnd (rest : Bytes) : Bytes := skip lineFeed (skip carriageReturn rest)

/-- The loop over the header lines, which an empty line or the end of the body ends. -/
def headerLoop : ℕ → Bytes → RawHeaders → RawHeaders × Bytes
  | 0, rest, raw => (raw, rest)
  | _ + 1, [], raw => (raw, [])
  | fuel + 1, b :: bytes, raw =>
    let line := (b :: bytes).takeWhile isLineByte
    let rest := skipLineEnd ((b :: bytes).dropWhile isLineByte)
    if line = [] then (raw, rest) else headerLoop fuel rest (raw.line line)

/-! ## Parts -/

def stripLineEnd (data : Bytes) : Bytes :=
  let data := if data.getLast? = some lineFeed then data.dropLast else data
  if data.getLast? = some carriageReturn then data.dropLast else data

def partLoop (delim : Bytes) : ℕ → Bytes → List (RawHeaders × Bytes)
  | 0, _ => []
  | _ + 1, [] => []
  | fuel + 1, b :: bytes =>
    if [dash, dash] <+: b :: bytes then []
    else
      let start := skipLineEnd (b :: bytes)
      let (raw, rest) := headerLoop start.length start {}
      let stop := (firstOccurrence delim rest).getD rest.length
      (raw, stripLineEnd (rest.take stop)) :: partLoop delim fuel (rest.drop (stop + delim.length))

/-- An entry of the list that is returned; texts stand for their UTF-8. -/
structure BufferedPart where
  name : Bytes
  data : Bytes
  filename : Option Bytes
  contentType : Option Bytes
  headers : List (Bytes × Bytes)
  deriving DecidableEq

/-- The bytes that `PyUnicode_FromString` reads. -/
def cString (text : Bytes) : Bytes := text.takeWhile (· != 0)

def nonempty (text : Bytes) : Option Bytes := if text = [] then none else some (cString text)

/-- `PyDict_SetItem` on a dictionary in the order of its keys. -/
def setItem (items : List (Bytes × Bytes)) (item : Bytes × Bytes) : List (Bytes × Bytes) :=
  if items.any (·.1 == item.1) then
    items.map fun other => if other.1 = item.1 then item else other
  else items ++ [item]

def RawHeaders.dict (raw : RawHeaders) : List (Bytes × Bytes) :=
  (raw.headers.map fun (key, value) => (cString key, cString value)).foldl setItem []

/-- The texts that become Python strings. -/
def RawHeaders.texts (raw : RawHeaders) : List Bytes :=
  raw.name :: raw.filename :: raw.contentType :: raw.headers.flatMap fun (key, value) => [key, value]

/-- The dictionary of a part.  A text that is not UTF-8 leaves a null pointer or an exception
behind, and the call does not return. -/
def bufferedPart (part : RawHeaders × Bytes) : Option BufferedPart :=
  if ∀ text ∈ part.1.texts, IsUtf8 (cString text) then
    some
      { name := cString part.1.name
        data := part.2
        filename := nonempty part.1.filename
        contentType := nonempty part.1.contentType
        headers := part.1.dict }
  else none

def parseMultipartBody (body boundary : Bytes) : Option (List BufferedPart) :=
  let delim := marker boundary
  match firstOccurrence delim body with
  | none => some []
  | some first =>
    let rest := body.drop (first + delim.length)
    (partLoop delim rest.length rest).mapM bufferedPart

theorem mapM_eq_some_iff {α β : Type} {f : α → Option β} {entries : List α} {results : List β} :
    entries.mapM f = some results ↔ List.Forall₂ (fun a b => f a = some b) entries results := by
  induction entries generalizing results with
  | nil =>
    rw [mapM_nil, forall₂_nil_left_iff]
    exact ⟨fun h => (Option.some.inj h).symm, fun h => congrArg _ h.symm⟩
  | cons a entries ih =>
    rw [mapM_cons, forall₂_cons_left_iff]
    simp only [Option.bind_eq_bind, Option.bind_eq_some_iff, Option.pure_def, Option.some.injEq]
    constructor
    · rintro ⟨b, hb, rest, hrest, heq⟩
      exact ⟨b, rest, hb, ih.mp hrest, heq.symm⟩
    · rintro ⟨b, rest, hb, hrest, heq⟩
      exact ⟨b, hb, rest, ih.mpr hrest, heq.symm⟩

theorem exists_of_forall₂ {α β : Type} {R : α → β → Prop} {left : List α} {right : List β}
    (h : List.Forall₂ R left right) : ∀ b ∈ right, ∃ a ∈ left, R a b := by
  induction h with
  | nil => exact fun _ hmem => absurd hmem not_mem_nil
  | @cons a b left right hhead _ ih =>
    rw [forall_mem_cons]
    refine ⟨⟨a, mem_cons_self, hhead⟩, fun other hmem => ?_⟩
    have ⟨found, hmatch, hrelated⟩ := ih _ hmem
    exact ⟨found, mem_cons_of_mem _ hmatch, hrelated⟩

/-! ## The values of a disposition -/

theorem quotedValue_here {key front value : Bytes} (hkey : quotationMark ∉ key)
    (hfront : quotationMark ∉ front) (hvalue : quotationMark ∉ value) (hends : key <:+ front)
    (rest : Bytes) :
    quotedValue key (front ++ quotationMark :: (value ++ quotationMark :: rest)) = some value := by
  have hpos := firstOccurrence_key hkey hfront (value ++ quotationMark :: rest)
  rw [if_pos hends] at hpos
  have hstart : front.length - key.length + (key.length + 1) = front.length + 1 := by
    rw [← Nat.add_assoc, Nat.sub_add_cancel hends.length_le]
  have hdrop : (front ++ quotationMark :: (value ++ quotationMark :: rest)).drop
      (front.length + 1) = value ++ quotationMark :: rest := by
    rw [append_cons]
    exact drop_left' length_append
  have hstop : firstOccurrence [quotationMark] (value ++ quotationMark :: rest) =
      some value.length := by
    rw [firstOccurrence_behind hvalue]
    have hhere : firstOccurrence [quotationMark] ([quotationMark] ++ rest) = some 0 :=
      firstOccurrence_self_append (cons_ne_nil _ _) _
    exact congrArg _ hhere
  simp [quotedValue, hpos, hstart, hstop]

/-- A key that does not stand in front of the quotation mark is searched behind it. -/
theorem quotedValue_next {key front : Bytes} (hkey : quotationMark ∉ key)
    (hfront : quotationMark ∉ front) (hends : ¬ key <:+ front) (rest : Bytes) :
    quotedValue key (front ++ quotationMark :: rest) = quotedValue key rest := by
  have hpos := firstOccurrence_key hkey hfront rest
  rw [if_neg hends] at hpos
  rw [quotedValue, quotedValue, hpos]
  cases firstOccurrence (key ++ [quotationMark]) rest with
  | none => rfl
  | some pos =>
    have hdrop : (front ++ quotationMark :: rest).drop
        (front.length + 1 + pos + (key.length + 1)) = rest.drop (pos + (key.length + 1)) := by
      rw [Nat.add_assoc, append_cons, ← drop_drop]
      congr 1
      exact drop_left' length_append
    simp [hdrop]

theorem quotedValue_nil (key : Bytes) : quotedValue key [] = none := by
  have hne : key ++ [quotationMark] ≠ [] :=
    append_ne_nil_of_right_ne_nil _ (cons_ne_nil _ _)
  rw [quotedValue, firstOccurrence, if_neg hne]

/-! ## Blocks -/

theorem isLineByte_of_isLine {line : Bytes} (h : IsLine line) :
    ∀ b ∈ line, isLineByte b = true := by
  intro b hb
  rw [isLineByte, Bool.and_eq_true, bne_iff_ne, bne_iff_ne]
  exact ⟨fun heq => h.2.1 (heq ▸ hb), fun heq => h.2.2 (heq ▸ hb)⟩

theorem skipLineEnd_crlf (rest : Bytes) : skipLineEnd (crlf ++ rest) = rest := rfl

theorem headerLoop_line {line : Bytes} (h : IsLine line) (rest : Bytes) (fuel : ℕ)
    (raw : RawHeaders) :
    headerLoop (fuel + 1) (line ++ (crlf ++ rest)) raw = headerLoop fuel rest (raw.line line) := by
  have hline := isLineByte_of_isLine h
  have hreturn : isLineByte carriageReturn = false := by decide
  have hstop : (crlf ++ rest).takeWhile isLineByte = [] :=
    takeWhile_cons_of_neg (by exact Bool.false_ne_true)
  have hleft : (crlf ++ rest).dropWhile isLineByte = crlf ++ rest :=
    dropWhile_cons_of_neg (by exact Bool.false_ne_true)
  have htake : (line ++ (crlf ++ rest)).takeWhile isLineByte = line := by
    rw [takeWhile_append_of_pos hline, hstop, append_nil]
  have hdrop : (line ++ (crlf ++ rest)).dropWhile isLineByte = crlf ++ rest := by
    rw [dropWhile_append_of_pos hline, hleft]
  obtain ⟨b, bytes, hcons⟩ := exists_cons_of_ne_nil h.1
  rw [hcons, cons_append] at htake hdrop ⊢
  simp only [headerLoop, htake, hdrop, skipLineEnd_crlf]
  rw [if_neg (cons_ne_nil _ _)]

theorem headerLoop_end (rest : Bytes) (fuel : ℕ) (raw : RawHeaders) :
    headerLoop (fuel + 1) (crlf ++ rest) raw = (raw, rest) := rfl

theorem headerLoop_lines {line : Bytes} {lines : List Bytes}
    (h : ∀ other ∈ line :: lines, IsLine other) (rest : Bytes) {fuel : ℕ}
    (hfuel : (joinLines line lines ++ (headersEnd ++ rest)).length ≤ fuel) (raw : RawHeaders) :
    headerLoop fuel (joinLines line lines ++ (headersEnd ++ rest)) raw =
      ((line :: lines).foldl RawHeaders.line raw, rest) := by
  have hend : headersEnd ++ rest = crlf ++ (crlf ++ rest) := by
    rw [headersEnd, append_assoc]
  induction lines generalizing fuel line raw with
  | nil =>
    have hline := h _ mem_cons_self
    have hpos := length_pos_of_ne_nil hline.1
    rw [joinLines, hend] at hfuel ⊢
    simp only [length_append] at hfuel
    obtain ⟨fuel, rfl⟩ := Nat.exists_eq_add_one_of_ne_zero (show fuel ≠ 0 by omega)
    have hcrlf : crlf.length = 2 := rfl
    obtain ⟨fuel, rfl⟩ := Nat.exists_eq_add_one_of_ne_zero (show fuel ≠ 0 by omega)
    rw [headerLoop_line hline, headerLoop_end]
    rfl
  | cons next lines ih =>
    have hline := h _ mem_cons_self
    have hpos := length_pos_of_ne_nil hline.1
    rw [joinLines, append_assoc, append_assoc] at hfuel ⊢
    simp only [length_append] at hfuel
    obtain ⟨fuel, rfl⟩ := Nat.exists_eq_add_one_of_ne_zero (show fuel ≠ 0 by omega)
    rw [headerLoop_line hline, ih (fun other hmem => h _ (mem_cons_of_mem _ hmem))]
    · rfl
    · simp only [length_append]
      omega

theorem stripLineEnd_le (data : Bytes) : stripLineEnd data <+: data := by
  have hdrop : ∀ (b : Byte) (data : Bytes),
      (if data.getLast? = some b then data.dropLast else data) <+: data := by
    intro b data
    split
    · exact dropLast_prefix _
    · exact prefix_rfl
  exact (hdrop _ _).trans (hdrop _ _)

theorem notMem_marker {b : Byte} {boundary : Bytes} (hdash : b ≠ dash) (hboundary : b ∉ boundary) :
    b ∉ marker boundary := by
  intro hmem
  rcases mem_append.mp hmem with hdashes | hmem
  · exact hdash (by simpa using hdashes)
  · exact hboundary hmem

section Boundary

variable {boundary : Bytes} (hboundary : carriageReturn ∉ boundary)

include hboundary

end Boundary

theorem partLoop_noMarker {delim : Bytes} (hne : delim ≠ []) (fuel : ℕ) (rest : Bytes) :
    ∀ part ∈ partLoop delim fuel rest, firstOccurrence delim part.2 = none := by
  induction fuel generalizing rest with
  | zero => exact fun _ hmem => absurd hmem not_mem_nil
  | succ fuel ih =>
    cases rest with
    | nil => exact fun _ hmem => absurd hmem not_mem_nil
    | cons b bytes =>
      rw [partLoop]
      split
      · exact fun _ hmem => absurd hmem not_mem_nil
      · rw [forall_mem_cons]
        refine ⟨?_, ih _⟩
        generalize (headerLoop _ _ _).2 = data
        apply firstOccurrence_infix hne (stripLineEnd_le _).isInfix
        exact firstOccurrence_take hne _

theorem data_bufferedPart {raw : RawHeaders × Bytes} {part : BufferedPart}
    (h : bufferedPart raw = some part) : part.data = raw.2 := by
  rw [bufferedPart] at h
  split at h
  · rw [← Option.some.inj h]
  · cases h

/-- No part that is returned has the marker in its data. -/
theorem notInfix_of_parse {body boundary : Bytes} {parts : List BufferedPart}
    (h : parseMultipartBody body boundary = some parts) :
    ∀ part ∈ parts, ¬ marker boundary <:+: part.data := by
  rw [parseMultipartBody] at h
  cases hfirst : firstOccurrence (marker boundary) body with
  | none =>
    rw [hfirst] at h
    rw [← Option.some.inj h]
    exact fun _ hmem => absurd hmem not_mem_nil
  | some first =>
    simp only [hfirst] at h
    have hnone := partLoop_noMarker (marker_ne_nil boundary)
      (body.drop (first + (marker boundary).length)).length
      (body.drop (first + (marker boundary).length))
    intro part hpart
    obtain ⟨raw, hraw, hreturned⟩ := exists_of_forall₂ (mapM_eq_some_iff.mp h) _ hpart
    rw [data_bufferedPart hreturned]
    exact (firstOccurrence_none_iff (marker_ne_nil _)).mp (hnone _ hraw)

theorem exists_first_of_parse {body boundary : Bytes} {parts : List BufferedPart}
    (h : parseMultipartBody body boundary = some parts) (hparts : parts ≠ []) :
    ∃ rest raw raws, ∃ part ∈ parts, behindFirst (marker boundary) body = some rest ∧
      partLoop (marker boundary) rest.length rest = raw :: raws ∧ bufferedPart raw = some part := by
  rw [parseMultipartBody] at h
  cases hfirst : firstOccurrence (marker boundary) body with
  | none =>
    rw [hfirst] at h
    exact absurd (Option.some.inj h).symm hparts
  | some first =>
    simp only [hfirst] at h
    generalize hrest : body.drop (first + (marker boundary).length) = rest at h
    have hbehind : behindFirst (marker boundary) body = some rest := by
      rw [behindFirst, hfirst, Option.map_some, hrest]
    cases hraws : partLoop (marker boundary) rest.length rest with
    | nil =>
      rw [hraws] at h
      exact absurd (Option.some.inj h).symm hparts
    | cons raw raws =>
      rw [hraws, mapM_eq_some_iff, forall₂_cons_left_iff] at h
      obtain ⟨part, later, hpart, _, heq⟩ := h
      exact ⟨rest, raw, raws, part, heq ▸ mem_cons_self, hbehind, hraws, hpart⟩

end AstraApi.Multipart.Buffered
