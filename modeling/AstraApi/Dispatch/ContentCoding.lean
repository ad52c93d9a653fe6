import AstraApi.Http.Request
import AstraApi.Lib.AcceptEncoding
import AstraApi.Lib.Occurrence
import AstraApi.Lib.Utf8

/-!
# Content codings

`try_compress_inline` looks for the names of the codings anywhere in the Accept-Encoding header,
`py_negotiate_encoding` looks for them between delimiters.  Neither of them reads a weight.
-/

namespace AstraApi.Dispatch

open List Option
open Http (lower)
open Occurrence (firstOccurrence)
open Words (Stands Separates)
open Message (CodingElement readAcceptEncoding Listed Acceptable Delimited IsToken lowerCase
  isOws isWeightByte isTokenChar)

inductive ContentCoding where
  | br
  | gzip
  deriving DecidableEq

def ContentCoding.name : ContentCoding → String
  | .br => "br"
  | .gzip => "gzip"

/-! ## Compressed responses -/

/-- What is called of zlib and Brotli.  An encoder is given the room for its output, and
`none` is a failure. -/
structure Encoders where
  brotliMaxCompressedSize : ℕ → ℕ
  brotliCompress : Bytes → ℕ → Option Bytes
  deflateBound : ℕ → ℕ → ℕ
  deflate : ℕ → Bytes → ℕ → Option Bytes

/-- Sizes for `deflate` are those of `uInt`. -/
def uInt (n : ℕ) : ℕ := n % 2 ^ 32

section Inline

variable (encoders : Encoders) (body : Bytes)

def brotliInline : Option Bytes :=
  let bound := encoders.brotliMaxCompressedSize body.length
  let outputSize := if bound = 0 then body.length + 1024 else bound
  (encoders.brotliCompress body outputSize).filter fun out => out.length < body.length

def gzipInline : Option Bytes :=
  let level := if body.length < 4096 then 1 else if body.length ≤ 65536 then 4 else 6
  (encoders.deflate level (body.take (uInt body.length))
    (uInt (encoders.deflateBound level body.length))).filter fun out => out.length < body.length

def tryCompressInline (hasBrotli : Bool) (ae : Bytes) : Option (ContentCoding × Bytes) :=
  if body.length < 500 then none
  else
    let aeLower := ae.map lower
    let acceptBr := hasBrotli && (firstOccurrence (ascii "br") aeLower).isSome
    let acceptGzip := (firstOccurrence (ascii "gzip") aeLower).isSome
    match if acceptBr then brotliInline encoders body else none with
    | some out => some (.br, out)
    | none =>
      if acceptGzip then (gzipInline encoders body).map fun out => (.gzip, out) else none

end Inline

/-! ## Negotiation -/

def isLeftDelimiter (b : Byte) : Bool := b = 44 || b = 32 || b = 9 || b = 59

def isRightDelimiter (b : Byte) : Bool := isLeftDelimiter b || b = 61 || b = 0

/-- The word begins here, with `last` before it. -/
def matchesWord (needle : Bytes) (last : Option Byte) (s : Bytes) : Bool :=
  (s.take needle.length).map lower == needle && last.all isLeftDelimiter &&
    (s.drop needle.length).head?.all isRightDelimiter

def ciContainsFrom (needle : Bytes) (last : Option Byte) : Bytes → Bool
  | [] => matchesWord needle last []
  | b :: s => matchesWord needle last (b :: s) || ciContainsFrom needle (some b) s

def ciContainsMw (s needle : Bytes) : Bool := ciContainsFrom needle none s

/-- `none` is a `UnicodeEncodeError`. -/
def pyNegotiateEncoding (hasBrotli : Bool) (acceptEncoding : Text) : Option String := do
  let ae ← acceptEncoding.utf8
  if hasBrotli && ciContainsMw ae (ascii "br") then return "br"
  else if ciContainsMw ae (ascii "gzip") then return "gzip"
  else return "identity"

/-! ## What a client asks for -/

/-- The codings of a build, the preferred one first. -/
def codings (hasBrotli : Bool) : List ContentCoding := if hasBrotli then [.br, .gzip] else [.gzip]

def encodingName (choice : Option ContentCoding) : String := (choice.map (·.name)).getD "identity"

def Encoders.Shrink (encoders : Encoders) (body : Bytes) : Prop :=
  (brotliInline encoders body).isSome ∧ (gzipInline encoders body).isSome

/-- No coding is chosen that the client does not accept, and where the encoders shrink the
body both choose the same one. -/
structure RespectsClient (hasBrotli : Bool) (acceptEncoding : Text) (ae : Bytes)
    (elements : List CodingElement) : Prop where
  negotiated : ∀ coding : ContentCoding,
    pyNegotiateEncoding hasBrotli acceptEncoding = some coding.name →
      Acceptable (ascii coding.name) elements
  inlined : ∀ encoders body coding out,
    tryCompressInline encoders body hasBrotli ae = some (coding, out) →
      Acceptable (ascii coding.name) elements
  same : ∀ encoders body, 500 ≤ body.length → encoders.Shrink body →
    pyNegotiateEncoding hasBrotli acceptEncoding =
      some (encodingName ((tryCompressInline encoders body hasBrotli ae).map (·.1)))

/-- The name is a part of a listed name. -/
def Occurs (coding : Bytes) (elements : List CodingElement) : Prop :=
  ∃ element ∈ elements, coding <:+: element.coding

instance (coding : Bytes) (elements : List CodingElement) : Decidable (Occurs coding elements) :=
  inferInstanceAs (Decidable (∃ _ ∈ _, _))

def firstOccurring (hasBrotli : Bool) (elements : List CodingElement) : Option ContentCoding :=
  (codings hasBrotli).find? fun coding : ContentCoding => Occurs (ascii coding.name) elements

structure PlainlyListed (hasBrotli : Bool) (elements : List CodingElement) : Prop where
  acceptable : ∀ coding ∈ codings hasBrotli, Occurs (ascii coding.name) elements →
    Acceptable (ascii coding.name) elements
  preferred : ∀ coding, firstOccurring hasBrotli elements = some coding →
    Listed (ascii coding.name) elements

/-! ## Names in a header -/

theorem lower_eq_lowerCase : lower = lowerCase := rfl

theorem ciContainsFrom_iff (needle : Bytes) (last : Option Byte) (s : Bytes) :
    ciContainsFrom needle last s = true ↔
      ∃ before found after, s = before ++ found ++ after ∧ found.map lower = needle ∧
        (before.getLast?.or last).all isLeftDelimiter = true ∧
          after.head?.all isRightDelimiter = true := by
  have hhere (last : Option _) (s : Bytes) : matchesWord needle last s = true ↔
      ∃ found after, s = found ++ after ∧ found.map lower = needle ∧
        last.all isLeftDelimiter = true ∧ after.head?.all isRightDelimiter = true := by
    simp only [matchesWord, Bool.and_eq_true, beq_iff_eq, and_assoc]
    constructor
    · rintro ⟨hfound, hlast, hafter⟩
      exact ⟨_, _, (take_append_drop _ s).symm, hfound, hlast, hafter⟩
    · rintro ⟨found, after, rfl, rfl, hlast, hafter⟩
      simpa using ⟨hlast, hafter⟩
  induction s generalizing last with
  | nil =>
    rw [ciContainsFrom, hhere]
    constructor
    · rintro ⟨found, after, h, hfound, hlast, hafter⟩
      exact ⟨[], found, after, h, hfound, hlast, hafter⟩
    · rintro ⟨before, found, after, h, hfound, hlast, hafter⟩
      obtain rfl : before = [] := by simp_all
      exact ⟨found, after, h, hfound, hlast, hafter⟩
  | cons b s ih =>
    have hbehind (before : Bytes) :
        (b :: before).getLast?.or last = before.getLast?.or (some b) := by
      rcases eq_nil_or_concat before with rfl | ⟨before, c, rfl⟩
      · rfl
      · rw [concat_eq_append, getLast?_concat, ← cons_append, getLast?_concat, some_or, some_or]
    rw [ciContainsFrom, Bool.or_eq_true, hhere]
    refine (or_congr_right (ih (some b))).trans ?_
    constructor
    · rintro (⟨found, after, h, hfound, hlast, hafter⟩ |
        ⟨before, found, after, rfl, hfound, hlast, hafter⟩)
      · exact ⟨[], found, after, h, hfound, hlast, hafter⟩
      · exact ⟨b :: before, found, after, rfl, hfound, hbehind _ ▸ hlast, hafter⟩
    · rintro ⟨before, found, after, h, hfound, hlast, hafter⟩
      rcases before with - | ⟨c, before⟩
      · exact Or.inl ⟨found, after, h, hfound, hlast, hafter⟩
      · obtain ⟨rfl, rfl⟩ : b = c ∧ s = before ++ found ++ after := List.cons.inj h
        exact Or.inr ⟨before, found, after, rfl, hfound, hbehind _ ▸ hlast, hafter⟩

theorem ciContainsMw_iff (s needle : Bytes) :
    ciContainsMw s needle = true ↔
      Stands lower (·.all isLeftDelimiter) (·.all isRightDelimiter) needle s := by
  simp [ciContainsMw, ciContainsFrom_iff, Stands]

theorem isWeightByte_lowerCase {b : Byte} (h : isWeightByte b = true) :
    isWeightByte (lowerCase b) = true := by
  have hall : ∀ n < 256, isWeightByte (UInt8.ofNat n) = true →
      isWeightByte (lowerCase (UInt8.ofNat n)) = true := by
    decide +kernel
  have hb := hall _ b.toNat_lt
  rw [UInt8.ofNat_toNat] at hb
  exact hb h

/-- A coding has a letter that no weight has. -/
theorem delimited_name (coding : ContentCoding) {left right : Option Byte → Prop}
    (hleft : left none) (hright : right none)
    (hseparator : ∀ b ∈ ascii ", \t;", left (some b) ∧ right (some b)) :
    Delimited left right (ascii coding.name) := by
  refine ⟨hleft, hright, fun b hb => ?_, ?_⟩
  · have hmem : b ∈ ascii ", \t;" := by
      rcases hb with hb | rfl | rfl
      · have hows : b = 32 ∨ b = 9 := by simpa [isOws] using hb
        rcases hows with rfl | rfl <;> decide
      · decide
      · decide
    have hletter : ∀ b ∈ ascii ", \t;", lowerCase b ∉ ascii coding.name := by
      cases coding <;> decide
    exact ⟨hletter b hmem, (hseparator b hmem).1, (hseparator b hmem).2⟩
  · have hletter : ∃ b ∈ ascii coding.name, isWeightByte b = false := by
      cases coding <;> decide
    obtain ⟨b, hb, hweight⟩ := hletter
    refine ⟨b, hb, fun c hc => ?_⟩
    by_contra h
    have hlower := isWeightByte_lowerCase (Bool.of_not_eq_false h)
    rw [hc, hweight] at hlower
    cases hlower

section Header

variable {ae : Bytes} {elements : List CodingElement} (hread : readAcceptEncoding ae = some elements)

include hread in
theorem firstOccurrence_name_iff (coding : ContentCoding) :
    (firstOccurrence (ascii coding.name) (ae.map lower)).isSome = true ↔
      Occurs (ascii coding.name) elements := by
  have hdelimited : Delimited (fun _ => True) (fun _ => True) (ascii coding.name) :=
    delimited_name coding trivial trivial fun _ _ => ⟨trivial, trivial⟩
  have hinfix : ascii coding.name <:+: ae.map lower ↔ Occurs (ascii coding.name) elements := by
    rw [lower_eq_lowerCase, ← Words.stands_anywhere_iff]
    exact hdelimited.stands_acceptEncoding_iff (P := fun token => ascii coding.name <:+: token)
      (fun token _ => Words.stands_anywhere_iff) hread
  rw [← hinfix, ← ne_none_iff_isSome, Ne,
    Occurrence.firstOccurrence_none_iff hdelimited.word_ne_nil, not_not]

include hread in
theorem ciContainsMw_name_iff (coding : ContentCoding) :
    ciContainsMw ae (ascii coding.name) = true ↔ Listed (ascii coding.name) elements := by
  have hdelimited : Delimited (·.all isLeftDelimiter) (·.all isRightDelimiter)
      (ascii coding.name) :=
    delimited_name coding rfl rfl (by decide)
  rw [ciContainsMw_iff, lower_eq_lowerCase]
  refine hdelimited.stands_acceptEncoding_iff (P := fun token => token = ascii coding.name)
    (fun token htoken => ?_) hread
  have hdelimiter : ∀ b, isRightDelimiter b = true → isTokenChar b = false := by
    intro b hb
    simp only [isRightDelimiter, isLeftDelimiter, Bool.or_eq_true, decide_eq_true_eq] at hb
    rcases hb with ((((rfl | rfl) | rfl) | rfl) | rfl) | rfl <;> decide
  have htoken' : ∀ b ∈ token, isRightDelimiter b = false := by
    intro b hb
    by_contra h
    have hchar := hdelimiter b (Bool.of_not_eq_false h)
    rw [htoken.2 b hb] at hchar
    cases hchar
  refine Words.stands_whole_iff (by decide) (by decide) fun b hb => ?_
  have hright := htoken' b hb
  have hleft : isLeftDelimiter b = false := by
    simp only [isRightDelimiter, Bool.or_eq_false_iff] at hright
    exact hright.1.1
  simp [hleft, hright]

theorem occurs_of_listed {coding : Bytes} (h : Listed coding elements) : Occurs coding elements := by
  obtain ⟨element, hmem, rfl⟩ := h
  exact ⟨element, hmem, infix_rfl⟩

end Header

/-! ## The choices -/

def firstListed (hasBrotli : Bool) (elements : List CodingElement) : Option ContentCoding :=
  (codings hasBrotli).find? fun coding : ContentCoding => Listed (ascii coding.name) elements

theorem encodingName_injective : Function.Injective encodingName := by
  intro left right h
  revert h
  rcases left with - | ⟨- | -⟩ <;> rcases right with - | ⟨- | -⟩ <;> decide

theorem find?_eq_of_imp {α : Type*} {p q : α → Bool} {l : List α} (himp : ∀ x, p x → q x)
    (hfirst : ∀ x, l.find? q = some x → p x) : l.find? p = l.find? q := by
  cases hq : l.find? q with
  | none =>
    rw [find?_eq_none] at hq ⊢
    exact fun x hx hp => hq x hx (himp x hp)
  | some x =>
    rw [find?_eq_some_iff_append] at hq ⊢
    obtain ⟨-, front, back, hl, hfront⟩ := id hq
    refine ⟨hfirst x (find?_eq_some_iff_append.mpr hq), front, back, hl, fun y hy => ?_⟩
    rw [Bool.not_eq_true']
    by_contra hp
    have hnot := hfront y hy
    rw [himp y (Bool.of_not_eq_false hp)] at hnot
    cases hnot

section Choices

variable {ae : Bytes} {elements : List CodingElement} (hread : readAcceptEncoding ae = some elements)
variable (hasBrotli : Bool)

include hread in
theorem pyNegotiateEncoding_eq {acceptEncoding : Text} (hutf8 : acceptEncoding.utf8 = some ae) :
    pyNegotiateEncoding hasBrotli acceptEncoding =
      some (encodingName (firstListed hasBrotli elements)) := by
  have hbr : ciContainsMw ae (ascii "br") = decide (Listed (ascii "br") elements) :=
    Bool.eq_iff_iff.mpr ((ciContainsMw_name_iff hread .br).trans decide_eq_true_iff.symm)
  have hgzip : ciContainsMw ae (ascii "gzip") = decide (Listed (ascii "gzip") elements) :=
    Bool.eq_iff_iff.mpr ((ciContainsMw_name_iff hread .gzip).trans decide_eq_true_iff.symm)
  simp only [pyNegotiateEncoding, hutf8, bind_eq_bind, bind_some, hbr, hgzip, firstListed, codings]
  cases hasBrotli <;> by_cases hbr : Listed (ascii "br") elements <;>
    by_cases hgzip : Listed (ascii "gzip") elements <;>
      simp [hbr, hgzip, encodingName, ContentCoding.name]

def encodeInline (encoders : Encoders) (body : Bytes) : ContentCoding → Option Bytes
  | .br => brotliInline encoders body
  | .gzip => gzipInline encoders body

include hread in
theorem tryCompressInline_eq (encoders : Encoders) (body : Bytes) :
    tryCompressInline encoders body hasBrotli ae =
      if body.length < 500 then none
      else (codings hasBrotli).findSome? fun coding =>
        if Occurs (ascii coding.name) elements then
          (encodeInline encoders body coding).map fun out => (coding, out)
        else none := by
  have hbr : (firstOccurrence (ascii "br") (ae.map lower)).isSome =
      decide (Occurs (ascii "br") elements) :=
    Bool.eq_iff_iff.mpr ((firstOccurrence_name_iff hread .br).trans decide_eq_true_iff.symm)
  have hgzip : (firstOccurrence (ascii "gzip") (ae.map lower)).isSome =
      decide (Occurs (ascii "gzip") elements) :=
    Bool.eq_iff_iff.mpr ((firstOccurrence_name_iff hread .gzip).trans decide_eq_true_iff.symm)
  simp only [tryCompressInline, hbr, hgzip, codings]
  split
  · rfl
  · cases hasBrotli <;> by_cases hoccurs : Occurs (ascii "br") elements <;>
      cases hout : brotliInline encoders body <;>
        by_cases hoccurs' : Occurs (ascii "gzip") elements <;>
          simp [hoccurs, hout, hoccurs', encodeInline, ContentCoding.name]

include hread in
theorem tryCompressInline_eq_some {encoders : Encoders} {body : Bytes} {coding : ContentCoding}
    {out : Bytes} (h : tryCompressInline encoders body hasBrotli ae = some (coding, out)) :
    coding ∈ codings hasBrotli ∧ Occurs (ascii coding.name) elements := by
  rw [tryCompressInline_eq hread] at h
  split at h
  · cases h
  · obtain ⟨other, hmem, hother⟩ := exists_of_findSome?_eq_some h
    split at hother
    · rename_i hoccurs
      obtain ⟨out', -, heq⟩ := map_eq_some_iff.mp hother
      cases heq
      exact ⟨hmem, hoccurs⟩
    · cases hother

include hread in
theorem tryCompressInline_shrink {encoders : Encoders} {body : Bytes} (hlength : 500 ≤ body.length)
    (hshrink : encoders.Shrink body) :
    (tryCompressInline encoders body hasBrotli ae).map (·.1) =
      firstOccurring hasBrotli elements := by
  obtain ⟨brOut, hbr⟩ := isSome_iff_exists.mp hshrink.1
  obtain ⟨gzipOut, hgzip⟩ := isSome_iff_exists.mp hshrink.2
  rw [tryCompressInline_eq hread, if_neg (by omega)]
  simp only [firstOccurring, codings]
  cases hasBrotli <;> by_cases hbr : Occurs (ascii "br") elements <;>
    by_cases hgzip : Occurs (ascii "gzip") elements <;> simp_all [encodeInline, ContentCoding.name]

/-- Encoders that fail, or make every body empty. -/
def emptying (enabled : ContentCoding → Bool) : Encoders where
  brotliMaxCompressedSize _ := 0
  brotliCompress _ _ := if enabled .br then some [] else none
  deflateBound _ _ := 0
  deflate _ _ _ := if enabled .gzip then some [] else none

theorem encodeInline_emptying (enabled : ContentCoding → Bool) {body : Bytes}
    (hbody : 500 ≤ body.length) (coding : ContentCoding) :
    encodeInline (emptying enabled) body coding = if enabled coding then some [] else none := by
  have hlength : 0 < body.length := by omega
  cases coding with
  | br =>
    cases h : enabled .br <;> simp [encodeInline, brotliInline, emptying, h, hlength]
  | gzip =>
    cases h : enabled .gzip <;> simp [encodeInline, gzipInline, emptying, h, hlength]

theorem shrink_emptying {body : Bytes} (hbody : 500 ≤ body.length) :
    (emptying fun _ => true).Shrink body := by
  have hencode := encodeInline_emptying (fun _ => true) hbody
  exact ⟨isSome_of_eq_some (hencode .br), isSome_of_eq_some (hencode .gzip)⟩

theorem exists_body : ∃ body : Bytes, 500 ≤ body.length :=
  ⟨List.replicate 500 0, (length_replicate).ge⟩

include hread in
/-- A coding that occurs is chosen for some body. -/
theorem exists_tryCompressInline {coding : ContentCoding} (hmem : coding ∈ codings hasBrotli)
    (hoccurs : Occurs (ascii coding.name) elements) :
    ∃ encoders body out, tryCompressInline encoders body hasBrotli ae = some (coding, out) := by
  obtain ⟨body, hbody⟩ := exists_body
  refine ⟨emptying (· = coding), body, [], ?_⟩
  rw [tryCompressInline_eq hread, if_neg (by omega)]
  simp only [encodeInline_emptying _ hbody]
  cases coding <;> cases hasBrotli <;> simp_all [codings]

end Choices

/-- For a header that can be read, the client is respected exactly when it lists plainly. -/
theorem contentCoding_respectsClient_iff (hasBrotli : Bool) {acceptEncoding : Text} {ae : Bytes}
    {elements : List CodingElement} (hutf8 : acceptEncoding.utf8 = some ae)
    (hread : readAcceptEncoding ae = some elements) :
    RespectsClient hasBrotli acceptEncoding ae elements ↔ PlainlyListed hasBrotli elements := by
  have hnegotiate := pyNegotiateEncoding_eq hread hasBrotli hutf8
  constructor
  · intro h
    refine ⟨fun coding hmem hoccurs => ?_, fun coding hfirst => ?_⟩
    · obtain ⟨encoders, body, out, hout⟩ := exists_tryCompressInline hread hasBrotli hmem hoccurs
      exact h.inlined _ _ _ _ hout
    · obtain ⟨body, hbody⟩ := exists_body
      have hshrink := shrink_emptying hbody
      have hsame := h.same _ _ hbody hshrink
      rw [hnegotiate, tryCompressInline_shrink hread hasBrotli hbody hshrink, hfirst,
        some_inj] at hsame
      have hchosen : firstListed hasBrotli elements = some coding := encodingName_injective hsame
      simpa using find?_some hchosen
  · intro h
    have hfirst : firstListed hasBrotli elements = firstOccurring hasBrotli elements := by
      refine find?_eq_of_imp (fun coding hlisted => ?_) (fun coding hcoding => ?_)
      · exact decide_eq_true (occurs_of_listed (of_decide_eq_true hlisted))
      · exact decide_eq_true (h.preferred _ hcoding)
    refine ⟨fun coding hcoding => ?_, fun encoders body coding out hout => ?_,
      fun encoders body hlength hshrink => ?_⟩
    · rw [hnegotiate, some_inj] at hcoding
      have hchosen : firstListed hasBrotli elements = some coding := encodingName_injective hcoding
      have hlisted : Listed (ascii coding.name) elements := by
        simpa using find?_some hchosen
      exact h.acceptable _ (mem_of_find?_eq_some hchosen) (occurs_of_listed hlisted)
    · obtain ⟨hmem, hoccurs⟩ := tryCompressInline_eq_some hread hasBrotli hout
      exact h.acceptable _ hmem hoccurs
    · rw [hnegotiate, tryCompressInline_shrink hread hasBrotli hlength hshrink, hfirst]

theorem contentCoding_respectsClient_weighted :
    RespectsClient true (plainText "gzip, br;q=0.5") (ascii "gzip, br;q=0.5")
      [⟨ascii "gzip", 1000⟩, ⟨ascii "br", 500⟩] := by
  have hutf8 : (plainText "gzip, br;q=0.5").utf8 = some (ascii "gzip, br;q=0.5") := by
    decide +kernel
  have hread : readAcceptEncoding (ascii "gzip, br;q=0.5") =
      some [⟨ascii "gzip", 1000⟩, ⟨ascii "br", 500⟩] := by
    decide +kernel
  refine (contentCoding_respectsClient_iff _ hutf8 hread).mpr ⟨?_, fun coding => ?_⟩
  · decide +kernel
  · cases coding <;> decide +kernel

/-- A coding with weight 0 is chosen. -/
theorem contentCoding_zeroWeight :
    (plainText "gzip;q=0").utf8 = some (ascii "gzip;q=0") ∧
      readAcceptEncoding (ascii "gzip;q=0") = some [⟨ascii "gzip", 0⟩] ∧
      pyNegotiateEncoding true (plainText "gzip;q=0") = some "gzip" ∧
      ¬ Acceptable (ascii "gzip") [⟨ascii "gzip", 0⟩] ∧
      ¬ RespectsClient true (plainText "gzip;q=0") (ascii "gzip;q=0") [⟨ascii "gzip", 0⟩] := by
  have hchoice : pyNegotiateEncoding true (plainText "gzip;q=0") = some "gzip" := by
    decide +kernel
  have hrefused : ¬ Acceptable (ascii "gzip") [⟨ascii "gzip", 0⟩] := by decide +kernel
  exact ⟨by decide +kernel, by decide +kernel, hchoice, hrefused, fun h =>
    hrefused (h.negotiated .gzip hchoice)⟩

end AstraApi.Dispatch
