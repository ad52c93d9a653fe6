import AstraApi.Response.Json
import AstraApi.Lib.JsonText
import Mathlib.Data.List.GetD

/-!
# Escaped strings

`write_escaped_string` looks at 32 or 16 bytes at a time where the processor can,
and copies what needs no escape in one piece.  Whatever the processor, it escapes
byte for byte; a JSON reader gets the characters back, and refuses bytes that are
no UTF-8.
-/

namespace AstraApi.Response

open List Option
open Json (SpellsChars ReadsChars readChar readUnicode readUnit hexValue quoted)

/-- The instruction sets that the build has. -/
structure Simd where
  avx2 : Bool
  sse2 : Bool

/-- One lane of a block: a signed comparison with the space, where bytes with the
high bit are left out, and two comparisons for equality. -/
def needEscape (c : Byte) : Bool :=
  let isHigh := c &&& 0x80 = 0x80
  let isCtrl := ¬ isHigh ∧ c.toInt8 < 0x20
  isCtrl ∨ c = 0x22 ∨ c = 0x5c

/-- The test of the loop over single bytes. -/
def needEscapeByte (c : Byte) : Bool :=
  ¬ ((0x20 ≤ c ∧ c ≠ 0x22 ∧ c ≠ 0x5c) ∨ 0x80 ≤ c)

structure Scan where
  p : ℕ
  safe : ℕ
  buf : Bytes

def slice (data : Bytes) (start stop : ℕ) : Bytes := (data.drop start).take (stop - start)

/-- A loop over blocks of one width.  A round passes a whole block or escapes the
first byte that needs it. -/
def escapeBlocks (width : ℕ) (need : Byte → Bool) (data : Bytes) : ℕ → Scan → Scan
  | 0, scan => scan
  | fuel + 1, scan =>
    if scan.p + width ≤ data.length then
      match (slice data scan.p (scan.p + width)).findIdx? need with
      | none => escapeBlocks width need data fuel { scan with p := scan.p + width }
      | some first =>
        let p := scan.p + first
        escapeBlocks width need data fuel
          { p := p + 1
            safe := p + 1
            buf := scan.buf ++ slice data scan.safe p ++ emitEscape (data.getD p 0) }
    else scan

def writeEscapedStringBlocks (simd : Simd) (data : Bytes) : Bytes :=
  let blocks (width : ℕ) (need : Byte → Bool) := escapeBlocks width need data data.length
  let scan : Scan := { p := 0, safe := 0, buf := ascii "\"" }
  let scan := if simd.avx2 ∧ 32 ≤ data.length then blocks 32 needEscape scan else scan
  let scan := if simd.sse2 ∧ 16 ≤ data.length then blocks 16 needEscape scan else scan
  let scan := blocks 1 needEscapeByte scan
  scan.buf ++ slice data scan.safe scan.p ++ ascii "\""

/-! ## Byte for byte -/

def escapeByte (c : Byte) : Bytes :=
  if 0x20 ≤ c ∧ c ≠ 0x22 ∧ c ≠ 0x5c then [c] else emitEscape c

def escaped (data : Bytes) : Bytes := data.flatMap escapeByte

theorem writeEscapedString_eq_quoted (data : Bytes) :
    writeEscapedString data = quoted (escaped data) := rfl

theorem forall_byte {P : Byte → Prop} (h : ∀ n < 256, P (UInt8.ofNat n)) (c : Byte) : P c := by
  have hc := h c.toNat c.toNat_lt
  rwa [UInt8.ofNat_toNat] at hc

set_option maxRecDepth 4096 in
/-- The lanes of a block and the loop over bytes find the same bytes. -/
theorem needEscape_eq (c : Byte) : needEscape c = needEscapeByte c :=
  forall_byte (P := fun c => needEscape c = needEscapeByte c) (by decide) c

theorem escapeByte_of_not_needEscape {c : Byte} (h : needEscapeByte c = false) :
    escapeByte c = [c] := by
  rw [escapeByte, if_pos]
  simp only [needEscapeByte, decide_eq_false_iff_not, not_not] at h
  rcases h with h | h
  · exact h
  · refine ⟨UInt8.le_trans (show (0x20 : Byte) ≤ 0x80 by decide) h, ?_, ?_⟩ <;> rintro rfl <;> exact absurd h (by decide)

theorem escapeByte_of_needEscape {c : Byte} (h : needEscapeByte c = true) :
    escapeByte c = emitEscape c := by
  rw [escapeByte, if_neg]
  simp only [needEscapeByte, decide_eq_true_eq, not_or] at h
  exact h.1

theorem escaped_append (left right : Bytes) :
    escaped (left ++ right) = escaped left ++ escaped right :=
  flatMap_append

theorem escaped_eq_self {data : Bytes} (h : ∀ c ∈ data, needEscapeByte c = false) :
    escaped data = data := by
  induction data with
  | nil => rfl
  | cons c data ih =>
    rw [escaped, flatMap_cons, escapeByte_of_not_needEscape (h c mem_cons_self)]
    exact congrArg (c :: ·) (ih fun d hd => h d (mem_cons_of_mem c hd))

theorem drop_eq_slice_append (data : Bytes) {start stop : ℕ} (h : start ≤ stop) :
    data.drop start = slice data start stop ++ data.drop stop := by
  have hdrop : data.drop stop = (data.drop start).drop (stop - start) := by
    rw [drop_drop, Nat.add_sub_cancel' h]
  rw [hdrop, slice, take_append_drop]

/-- What has been written and what is still to be escaped make up the whole, and
nothing that is passed needs an escape. -/
structure Scan.Copied (data : Bytes) (scan : Scan) : Prop where
  safe_le : scan.safe ≤ scan.p
  le_length : scan.p ≤ data.length
  buf_eq : scan.buf ++ escaped (data.drop scan.safe) = ascii "\"" ++ escaped data
  plain : ∀ c ∈ slice data scan.safe scan.p, needEscapeByte c = false

theorem slice_append (data : Bytes) {start middle stop : ℕ} (hleft : start ≤ middle)
    (hright : middle ≤ stop) :
    slice data start stop = slice data start middle ++ slice data middle stop := by
  have hdrop : data.drop middle = (data.drop start).drop (middle - start) := by
    rw [drop_drop, Nat.add_sub_cancel' hleft]
  have hlength : stop - start = (middle - start) + (stop - middle) := by omega
  rw [slice, slice, slice, hdrop, hlength, take_add]

theorem length_slice (data : Bytes) (start stop : ℕ) :
    (slice data start stop).length = min (stop - start) (data.length - start) := by
  rw [slice, length_take, length_drop]

/-- A block without anything to escape is passed. -/
theorem Scan.Copied.pass {data : Bytes} {scan : Scan} (h : scan.Copied data) {count : ℕ}
    (hfits : scan.p + count ≤ data.length)
    (hplain : ∀ c ∈ slice data scan.p (scan.p + count), needEscapeByte c = false) :
    Scan.Copied data { scan with p := scan.p + count } where
  safe_le := Nat.le_add_right_of_le h.safe_le
  le_length := hfits
  buf_eq := h.buf_eq
  plain := by
    intro c hc
    rw [slice_append data h.safe_le (Nat.le_add_right scan.p count)] at hc
    cases mem_append.mp hc with
    | inl hleft => exact h.plain c hleft
    | inr hright => exact hplain c hright

theorem Scan.Copied.escape {data : Bytes} {scan : Scan} (h : scan.Copied data)
    (hlt : scan.p < data.length) (hneed : needEscapeByte (data.getD scan.p 0) = true) :
    Scan.Copied data
      { p := scan.p + 1
        safe := scan.p + 1
        buf := scan.buf ++ slice data scan.safe scan.p ++ emitEscape (data.getD scan.p 0) } where
  safe_le := le_rfl
  le_length := hlt
  buf_eq := by
    have hdrop : data.drop scan.p = data.getD scan.p 0 :: data.drop (scan.p + 1) := by
      rw [getD_eq_getElem _ _ hlt]
      exact drop_eq_getElem_cons hlt
    calc
      scan.buf ++ slice data scan.safe scan.p ++ emitEscape (data.getD scan.p 0) ++
          escaped (data.drop (scan.p + 1)) =
        scan.buf ++ (slice data scan.safe scan.p ++ escaped (data.drop scan.p)) := by
          rw [hdrop, escaped, escaped, flatMap_cons, escapeByte_of_needEscape hneed]
          simp only [append_assoc]
      _ = scan.buf ++ escaped (data.drop scan.safe) := by
          rw [drop_eq_slice_append data h.safe_le, escaped_append, escaped_eq_self h.plain]
      _ = ascii "\"" ++ escaped data := h.buf_eq
  plain := by
    intro c hc
    rw [slice, Nat.sub_self, take_zero] at hc
    cases hc

/-- The first byte of a block that needs an escape. -/
theorem findIdx?_slice {data : Bytes} {start stop first : ℕ}
    (h : (slice data start stop).findIdx? needEscapeByte = some first) :
    start + first < stop ∧ start + first < data.length ∧
      needEscapeByte (data.getD (start + first) 0) = true ∧
      ∀ c ∈ slice data start (start + first), needEscapeByte c = false := by
  obtain ⟨hlt, hfound, hbefore⟩ := findIdx?_eq_some_iff_getElem.mp h
  have hlength := length_slice data start stop
  have hdata : start + first < data.length := by omega
  have hget {i : ℕ} (hi : i < (slice data start stop).length) (hidata : start + i < data.length) :
      (slice data start stop)[i] = data[start + i] := by
    simp only [slice, getElem_take, getElem_drop]
  refine ⟨by omega, hdata, ?_, ?_⟩
  · rw [getD_eq_getElem _ _ hdata, ← hget hlt hdata]
    exact hfound
  · intro c hc
    obtain ⟨i, hi, rfl⟩ := getElem_of_mem hc
    have hshort := length_slice data start (start + first)
    have hi' : i < first := by omega
    have hlow := hbefore i hi'
    rw [hget (by omega) (by omega)] at hlow
    have heq : (slice data start (start + first))[i] = data[start + i] := by
      simp only [slice, getElem_take, getElem_drop]
    rw [heq]
    exact Bool.not_eq_true _ ▸ hlow

theorem Scan.Copied.escapeBlocks {data : Bytes} {scan : Scan} (h : scan.Copied data) (width : ℕ)
    {need : Byte → Bool} (hneed : need = needEscapeByte) (fuel : ℕ) :
    (escapeBlocks width need data fuel scan).Copied data := by
  subst hneed
  induction fuel generalizing scan with
  | zero => exact h
  | succ fuel ih =>
    rw [Response.escapeBlocks]
    split
    · next hfits =>
      split
      · next hnone => exact ih (h.pass hfits (findIdx?_eq_none_iff.mp hnone))
      · next first hsome =>
        obtain ⟨-, hlt, hfound, hbefore⟩ := findIdx?_slice hsome
        exact ih ((h.pass (Nat.le_of_lt hlt) hbefore).escape hlt hfound)
    · exact h

theorem length_lt_escapeBlocks {width : ℕ} (hwidth : 0 < width) (need : Byte → Bool)
    (data : Bytes) {fuel : ℕ} {scan : Scan} (hfuel : data.length ≤ scan.p + fuel) :
    data.length < (escapeBlocks width need data fuel scan).p + width := by
  induction fuel generalizing scan with
  | zero =>
    rw [escapeBlocks]
    omega
  | succ fuel ih =>
    rw [escapeBlocks]
    split
    · split
      · refine ih ?_
        show data.length ≤ scan.p + width + fuel
        omega
      · next first _ =>
        refine ih ?_
        show data.length ≤ scan.p + first + 1 + fuel
        omega
    · omega

theorem writeEscapedStringBlocks_eq (simd : Simd) (data : Bytes) :
    writeEscapedStringBlocks simd data = writeEscapedString data := by
  have hlanes : needEscape = needEscapeByte := funext needEscape_eq
  have hstart : Scan.Copied data { p := 0, safe := 0, buf := ascii "\"" } :=
    ⟨le_rfl, Nat.zero_le _, rfl, fun c hc => nomatch hc⟩
  have hwide {scan : Scan} (h : scan.Copied data) (P : Prop) [Decidable P] (width : ℕ) :
      Scan.Copied data (if P then escapeBlocks width needEscape data data.length scan else scan) := by
    split
    · exact h.escapeBlocks width hlanes _
    · exact h
  have hscan := hwide (hwide hstart (simd.avx2 ∧ 32 ≤ data.length) 32)
    (simd.sse2 ∧ 16 ≤ data.length) 16
  rw [writeEscapedStringBlocks]
  generalize (if simd.sse2 = true ∧ 16 ≤ data.length then _ else _ : Scan) = scan at hscan ⊢
  have hlast := hscan.escapeBlocks 1 (rfl : needEscapeByte = needEscapeByte) data.length
  have hend := @length_lt_escapeBlocks 1 Nat.one_pos needEscapeByte data data.length scan (by omega)
  show (let last := escapeBlocks 1 needEscapeByte data data.length scan
    last.buf ++ slice data last.safe last.p ++ ascii "\"") = _
  generalize escapeBlocks 1 needEscapeByte data data.length scan = last at hlast hend ⊢
  have hp : last.p = data.length := by
    have := hlast.le_length
    omega
  have hrest : slice data last.safe last.p = data.drop last.safe := by
    rw [drop_eq_slice_append data hlast.safe_le, hp, drop_length, append_nil]
  have hbuf := hlast.buf_eq
  rw [← hrest, escaped_eq_self hlast.plain] at hbuf
  show last.buf ++ slice data last.safe last.p ++ ascii "\"" = _
  rw [hbuf]
  rfl

/-! ## Reading it back -/

theorem hexValue_hexDigit {n : ℕ} (h : n < 16) : hexValue (hexDigit n) = some n :=
  (show ∀ n < 16, hexValue (hexDigit n) = some n by decide) n h

theorem readUnicode_hexDigits {n : ℕ} (h : n < 256) (rest : Bytes) :
    readUnicode (0x30 :: 0x30 :: hexDigit (n / 16) :: hexDigit (n % 16) :: rest) =
      some (Fin.ofNat 0x110000 n, rest) := by
  have hzero : hexValue 0x30 = some 0 := rfl
  have hunit : readUnit (0x30 :: 0x30 :: hexDigit (n / 16) :: hexDigit (n % 16) :: rest) =
      some (n, rest) := by
    rw [readUnit, hzero, hexValue_hexDigit (by omega), hexValue_hexDigit (by omega)]
    simp only [bind_eq_bind, bind_some]
    rw [show ((0 * 16 + 0) * 16 + n / 16) * 16 + n % 16 = n by omega]
  rw [readUnicode, hunit]
  exact if_neg (by omega)

theorem readChar_emitEscape (c : Byte) (rest : Bytes) :
    readChar (emitEscape c ++ rest) = some (Fin.ofNat 0x110000 c.toNat, rest) := by
  rw [emitEscape]
  split_ifs with hquote hslash hb hf hn hr ht
  · rw [hquote]; rfl
  · rw [hslash]; rfl
  · rw [hb]; rfl
  · rw [hf]; rfl
  · rw [hn]; rfl
  · rw [hr]; rfl
  · rw [ht]; rfl
  · exact readUnicode_hexDigits c.toNat_lt rest

theorem head_emitEscape (c : Byte) : (emitEscape c).head? = some 0x5c := by
  rw [emitEscape]
  split_ifs <;> rfl

theorem escapeByte_escaper : Json.Escaper escapeByte := by
  refine ⟨fun b => ?_⟩
  cases hneed : needEscapeByte b with
  | false =>
    refine .inl ⟨escapeByte_of_not_needEscape hneed, ?_, ?_⟩ <;> rintro rfl <;>
      exact absurd hneed (by decide)
  | true =>
    rw [escapeByte_of_needEscape hneed]
    refine .inr ⟨?_, head_emitEscape b, readChar_emitEscape b⟩
    simp only [needEscapeByte, decide_eq_true_eq, not_or, UInt8.le_iff_toNat_le] at hneed
    exact not_le.mp hneed.2

theorem le_of_escapeByte {b : Byte} (h : escapeByte b = [b]) : 0x20 ≤ b := by
  rw [escapeByte] at h
  split at h
  · next hplain => exact hplain.1
  · have hhead := head_emitEscape b
    rw [h] at hhead
    rw [← show (0x5c : Byte) = b from (Option.some.inj hhead).symm]
    decide

theorem spellsChars_escaped {text : Text} (h : text.Encodable) :
    SpellsChars (escaped text.bytes) text :=
  escapeByte_escaper.spellsChars h fun _ _ => le_of_escapeByte

theorem exists_text_of_readsChars {data rest tail : Bytes} {chars : Text}
    (h : ReadsChars (escaped data ++ 0x22 :: rest) chars tail) :
    ∃ text : Text, text.Encodable ∧ text.bytes = data := by
  obtain ⟨hencodable, hbytes, -⟩ := escapeByte_escaper.eq_of_readsChars h
  exact ⟨chars, hencodable, hbytes⟩

/-! ## Bytes that are no UTF-8 -/

/-- The bytes of a JSON string, where an escape stands for the bytes of its character and
any other byte from the space on stands for itself. -/
def unescapeBytes : ℕ → Bytes → Option Bytes
  | _, [] => some []
  | 0, _ :: _ => none
  | fuel + 1, b :: rest =>
    if b = 0x5c then do
      let (c, rest) ← readChar (b :: rest)
      let data ← unescapeBytes fuel rest
      return encode c ++ data
    else if 0x20 ≤ b ∧ b ≠ 0x22 then (unescapeBytes fuel rest).map (b :: ·)
    else none

theorem unescapeBytes_escapeByte (fuel : ℕ) (c : Byte) (rest : Bytes) :
    unescapeBytes (fuel + 1) (escapeByte c ++ rest) = (unescapeBytes fuel rest).map (c :: ·) := by
  cases hneed : needEscapeByte c with
  | false =>
    have hplain := le_of_escapeByte (escapeByte_of_not_needEscape hneed)
    have hquote : c ≠ 0x22 := by
      rintro rfl
      cases hneed
    have hslash : c ≠ 0x5c := by
      rintro rfl
      cases hneed
    rw [escapeByte_of_not_needEscape hneed, singleton_append, unescapeBytes, if_neg hslash,
      if_pos ⟨hplain, hquote⟩]
  | true =>
    have hlow : c.toNat < 128 := by
      simp only [needEscapeByte, decide_eq_true_eq, not_or, UInt8.le_iff_toNat_le] at hneed
      exact not_le.mp hneed.2
    have hread := readChar_emitEscape c rest
    have hhead := head_emitEscape c
    rw [escapeByte_of_needEscape hneed]
    cases htext : emitEscape c with
    | nil =>
      rw [htext] at hhead
      cases hhead
    | cons first tail =>
      rw [htext, head?_cons, Option.some.injEq] at hhead
      rw [htext, cons_append] at hread
      rw [cons_append, unescapeBytes, if_pos hhead, hread]
      simp only [bind_eq_bind, bind_some, Json.encode_byte hlow]
      cases unescapeBytes fuel rest <;> rfl

theorem unescapeBytes_escaped {fuel : ℕ} {data : Bytes} (hfuel : data.length ≤ fuel) :
    unescapeBytes fuel (escaped data) = some data := by
  induction data generalizing fuel with
  | nil =>
    rw [escaped, flatMap_nil]
    cases fuel <;> rfl
  | cons c data ih =>
    obtain ⟨fuel, rfl⟩ := Nat.exists_eq_succ_of_ne_zero (Nat.ne_of_gt (Nat.lt_of_lt_of_le
      (Nat.succ_pos _) hfuel))
    rw [escaped, flatMap_cons, unescapeBytes_escapeByte, ← escaped,
      ih (Nat.le_of_succ_le_succ hfuel), map_some]

theorem length_le_escaped (data : Bytes) : data.length ≤ (escaped data).length := by
  induction data with
  | nil => exact Nat.zero_le _
  | cons c data ih =>
    have hpos : 0 < (escapeByte c).length := by
      cases hneed : needEscapeByte c with
      | false => rw [escapeByte_of_not_needEscape hneed, length_singleton]; exact Nat.one_pos
      | true =>
        rw [escapeByte_of_needEscape hneed]
        refine length_pos_of_ne_nil fun hnil => ?_
        have hhead := head_emitEscape c
        rw [hnil] at hhead
        cases hhead
    rw [escaped, flatMap_cons, ← escaped, length_append, length_cons]
    omega

/-- Every processor writes the text of the loop over bytes, which escapes what has to be
escaped, keeps the high bytes and can be read back, for any bytes. -/
theorem writeEscapedStringBlocks_spec (simd : Simd) (data : Bytes) :
    writeEscapedStringBlocks simd data = writeEscapedStringBlocks ⟨false, false⟩ data ∧
      writeEscapedStringBlocks simd data = quoted (data.flatMap escapeByte) ∧
      (∀ c : Byte, c < 0x20 ∨ c = 0x22 ∨ c = 0x5c →
        escapeByte c = emitEscape c ∧ (emitEscape c).head? = some 0x5c) ∧
      (∀ c : Byte, 0x80 ≤ c → escapeByte c = [c]) ∧
      unescapeBytes (data.flatMap escapeByte).length (data.flatMap escapeByte) = some data := by
  refine ⟨?_, ?_, fun c hc => ⟨?_, head_emitEscape c⟩, fun c hc => ?_, ?_⟩
  · rw [writeEscapedStringBlocks_eq, writeEscapedStringBlocks_eq]
  · rw [writeEscapedStringBlocks_eq, writeEscapedString_eq_quoted, escaped]
  · apply escapeByte_of_needEscape
    rcases hc with hlow | rfl | rfl
    · have hlow' : c.toNat < 0x20 := hlow
      have hplain : ¬ (0x20 : Byte) ≤ c := fun h => absurd (UInt8.le_iff_toNat_le.mp h) (by
        show ¬ 0x20 ≤ c.toNat
        omega)
      have hhigh : ¬ (0x80 : Byte) ≤ c := fun h => absurd (UInt8.le_iff_toNat_le.mp h) (by
        show ¬ 0x80 ≤ c.toNat
        omega)
      simp [needEscapeByte, hplain, hhigh]
    · rfl
    · rfl
  · apply escapeByte_of_not_needEscape
    simp [needEscapeByte, hc]
  · exact unescapeBytes_escaped (length_le_escaped data)

end AstraApi.Response
