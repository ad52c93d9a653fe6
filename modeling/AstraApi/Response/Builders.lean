import AstraApi.Lib.Message
import AstraApi.Response.Build

/-!
# The four builders

`build_http_response_bytes` with an encoding and extra headers, the builders that
write a response or serialise its body, and what a recipient reads from their
bytes.
-/

namespace AstraApi.Response

open List
open Message (Field CrlfFree fieldLine trimmed trim crlf writeMessage readMessage readResponse)

/-- What `try_compress_inline` returns when it compresses. -/
inductive ContentEncoding where
  | br
  | gzip

def ContentEncoding.name : ContentEncoding → Bytes
  | .br => ascii "br"
  | .gzip => ascii "gzip"

section Builders

variable (status : ℤ) (keepAlive headOnly : Bool) (cors : Option (CorsConfig × Bytes))
  (encoding : Option ContentEncoding) (extraHeaders : Option Bytes)

def corsHeaders : Bytes :=
  match cors with
  | none => []
  | some (config, origin) => buildCorsHeaders config origin

def encodingHeaders : Bytes :=
  match encoding with
  | none => []
  | some encoding =>
    ascii "\r\ncontent-encoding: " ++ encoding.name ++ ascii "\r\nvary: Accept-Encoding"

/-- `build_http_response_bytes`; `none` is a null pointer. -/
def buildHttpResponse (body : Bytes) : Bytes :=
  let extra := extraHeaders.getD []
  if status = 204 ∨ status = 304 then
    statusText status (statusReason status) ++ corsHeaders cors ++ extra ++
      connectionSuffix keepAlive
  else
    match cors, encoding, extraHeaders, cachedStatusLine status with
    | none, none, none, some prepared => buildFastJsonResponse keepAlive headOnly prepared body
    | _, _, _, _ =>
      statusLine status ++ jsonHeader ++ decimal body.length ++ encodingHeaders encoding ++
        (if extra = [] then [] else ascii "\r\n" ++ extra) ++ corsHeaders cors ++
        connectionSuffix keepAlive ++ (if headOnly then [] else body)

def buildAndWriteHttpResponse (body : Bytes) : Bytes :=
  match cors, encoding, cachedStatusLine status with
  | none, none, some prepared => buildFastJsonResponse keepAlive headOnly prepared body
  | _, _, _ => buildHttpResponse status keepAlive headOnly cors encoding none body

variable {F O : Type*} (runtime : Runtime F O)

def serializeJsonAndWriteResponse (value : PyObj F O) : Option Bytes :=
  match writeJson runtime 0 value with
  | none => none
  | some body =>
    if status = 204 ∨ status = 304 then
      some (statusText status (statusReason status) ++ connectionSuffix keepAlive)
    else
      match cors, cachedStatusLine status with
      | none, some prepared => some (buildFastJsonResponse keepAlive headOnly prepared body)
      | _, _ => some (buildHttpResponse status keepAlive headOnly cors none none body)

theorem buildHttpResponse_plain (body : Bytes) :
    buildHttpResponse status keepAlive headOnly cors none none body =
      buildHttpResponseBytes status keepAlive headOnly cors body := by
  unfold buildHttpResponse buildHttpResponseBytes
  cases cors <;> cases cachedStatusLine status <;> simp [corsHeaders, encodingHeaders]

end Builders

/-! ## Numbers and status lines -/

theorem decimal_natCast (n : ℕ) :
    decimal n = (Nat.toDigits 10 n).map fun c => UInt8.ofNat c.toNat := by
  simp [decimal]

theorem toNat_digit {c : Char} (h : c.isDigit = true) : (UInt8.ofNat c.toNat).toNat = c.toNat := by
  simp only [Char.isDigit, Bool.and_eq_true, decide_eq_true_eq, UInt32.le_iff_toNat_le] at h
  have hlarge : c.toNat ≤ 57 := h.2
  simp only [UInt8.toNat_ofNat']
  omega

theorem isDigit_decimal (n : ℕ) : ∀ b ∈ decimal n, Message.isDigit b = true := by
  intro b hb
  obtain ⟨c, hc, rfl⟩ := mem_map.mp hb
  have hdigit := Nat.isDigit_of_mem_toDigits (by decide) (by decide) hc
  have htoNat := toNat_digit hdigit
  simp only [Char.isDigit, Bool.and_eq_true, decide_eq_true_eq, UInt32.le_iff_toNat_le] at hdigit
  have hsmall : 48 ≤ c.toNat := hdigit.1
  have hlarge : c.toNat ≤ 57 := hdigit.2
  simp only [Message.isDigit, Bool.and_eq_true, decide_eq_true_eq, UInt8.le_iff_toNat_le, htoNat]
  exact ⟨hsmall, hlarge⟩

theorem digitsValue_decimal (n : ℕ) : Message.digitsValue (decimal n) = n := by
  have hfold (digits : List _) (hdigits : ∀ c ∈ digits, c.isDigit = true) (value : ℕ) :
      (digits.map fun c => UInt8.ofNat c.toNat).foldl
          (fun value (b : Byte) => value * 10 + (b.toNat - 48)) value =
        Nat.ofDigitChars 10 digits value := by
    induction digits generalizing value with
    | nil => rfl
    | cons c digits ih =>
      have hc := toNat_digit (hdigits c mem_cons_self)
      have hstep : value * 10 + (c.toNat - 48) = 10 * value + (c.toNat - '0'.toNat) := by
        rw [Nat.mul_comm]
        rfl
      simp only [map_cons, foldl_cons, hc, Nat.ofDigitChars_cons, hstep]
      exact ih (fun other hmem => hdigits _ (mem_cons_of_mem _ hmem)) _
  have hdigits : ∀ c ∈ Nat.toDigits 10 n, c.isDigit = true := fun c hc =>
    Nat.isDigit_of_mem_toDigits (by decide) (by decide) hc
  exact (hfold _ hdigits 0).trans Nat.ofDigitChars_ten_toDigits

theorem readDecimal_decimal (n : ℕ) : Message.readDecimal (decimal n) = some n := by
  have hne : decimal n ≠ [] := by
    rw [decimal_natCast]
    simp
  have hall : (decimal n).all Message.isDigit = true := all_eq_true.mpr (isDigit_decimal n)
  rw [Message.readDecimal, if_pos ⟨hne, hall⟩, digitsValue_decimal]

theorem crlfFree_decimal (n : ℕ) : CrlfFree (decimal n) := by
  constructor
  · intro hcr
    exact absurd (isDigit_decimal n _ hcr) (by decide)
  · intro hlf
    exact absurd (isDigit_decimal n _ hlf) (by decide)

theorem crlfFree_decimal_int (value : ℤ) : CrlfFree (decimal value) := by
  have hdigits := crlfFree_decimal value.natAbs
  have hsign : CrlfFree (ascii "-") := by decide
  simp only [decimal]
  split
  · exact Message.crlfFree_append.mpr ⟨hsign, hdigits⟩
  · exact hdigits

theorem trim_decimal (n : ℕ) : trim (decimal n) = decimal n := by
  apply Message.trim_of_forall
  intro b hb
  have hdigit := isDigit_decimal n b hb
  have hspace : b ≠ 32 := by
    rintro rfl
    exact absurd hdigit (by decide)
  have htab : b ≠ 9 := by
    rintro rfl
    exact absurd hdigit (by decide)
  simp [Message.isOws, hspace, htab]

theorem readStatus_statusText (status : ℕ) (reason : String) :
    Message.readStatus (statusText status reason) = some status := by
  have hdigits : ∀ b ∈ decimal status, decide (b ≠ 32) = true := by
    intro b hb
    have hdigit := isDigit_decimal _ b hb
    simp only [decide_eq_true_eq]
    rintro rfl
    exact absurd hdigit (by decide)
  have htext : statusText status reason =
      ascii "HTTP/1.1 " ++ (decimal status ++ (32 :: ascii reason)) := by
    simp only [statusText, append_assoc]
    rfl
  rw [htext, Message.readStatus, if_pos (prefix_append _ _), drop_left,
    takeWhile_append_of_pos hdigits, takeWhile_cons_of_neg (by simp), append_nil,
    readDecimal_decimal]

def reasonOf (status : ℤ) : String := (statusEntries.lookup status).getD (statusReason status)

theorem statusLine_eq (status : ℤ) : statusLine status = statusText status (reasonOf status) := by
  simp only [statusLine, cachedStatusLine, reasonOf]
  cases statusEntries.lookup status <;> rfl

theorem crlfFree_statusReason (status : ℤ) : CrlfFree (ascii (statusReason status)) := by
  unfold statusReason
  split <;> decide

theorem crlfFree_reasonOf (status : ℤ) : CrlfFree (ascii (reasonOf status)) := by
  unfold reasonOf
  cases hlookup : statusEntries.lookup status with
  | none => exact crlfFree_statusReason _
  | some reason =>
    have hall : ∀ entry ∈ statusEntries, CrlfFree (ascii entry.2) := by decide
    have hmem : (status, reason) ∈ statusEntries := by
      obtain ⟨before, after, hsplit, -⟩ := lookup_eq_some_iff.mp hlookup
      rw [hsplit]
      simp
    exact hall _ hmem

theorem crlfFree_statusText (status : ℕ) {reason : String} (h : CrlfFree (ascii reason)) :
    CrlfFree (statusText status reason) := by
  have hversion : CrlfFree (ascii "HTTP/1.1 ") := by decide
  have hspace : CrlfFree (ascii " ") := by decide
  simp only [statusText, Message.crlfFree_append]
  exact ⟨⟨⟨hversion, crlfFree_decimal _⟩, hspace⟩, h⟩

end AstraApi.Response
