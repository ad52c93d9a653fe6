import AstraApi.Dispatch.CookieParsers
import AstraApi.Lib.Base64

/-!
# Basic credentials

`extract_basic_credentials` reads the user name and the password of an `Authorization`
header.  Its base64 decoder looks letters up in a table and skips what has no entry there.
The padding character has one, the same as `A`, so each `=` adds six zero bits.
-/

namespace AstraApi.Dispatch

open List
open Routing (splitAtByte splitAtByte_append splitAtByte_none)
open Http (lower)

/-! ## The decoder -/

/-- `b64_table`, run by run. -/
def b64Table : Bytes :=
  List.replicate 43 64 ++ [62] ++ List.replicate 3 64 ++ [63] ++
    (List.range 10).map (fun i => UInt8.ofNat (52 + i)) ++ List.replicate 3 64 ++ [0] ++
    List.replicate 3 64 ++ (List.range 26).map (fun i => UInt8.ofNat i) ++ List.replicate 6 64 ++
    (List.range 26).map (fun i => UInt8.ofNat (26 + i)) ++ List.replicate 133 64

structure Decoder where
  buf : UInt32 := 0
  bits : ℕ := 0
  output : Bytes := []

/-- One turn of the loop in `base64_decode`. -/
def Decoder.push (d : Decoder) (b : Byte) : Decoder :=
  let c := b64Table.getD b.toNat 64
  if c = 64 then d
  else
    let buf := d.buf <<< 6 ||| c.toUInt32
    let bits := d.bits + 6
    if 8 ≤ bits then
      { buf := buf, bits := bits - 8,
        output := d.output ++ [((buf >>> UInt32.ofNat (bits - 8)) &&& 0xFF).toUInt8] }
    else { buf := buf, bits := bits, output := d.output }

def base64Decode (input : Bytes) : Bytes := (input.foldl Decoder.push {}).output

inductive CredentialsError where
  | unicodeEncodeError
  | unicodeDecodeError
  deriving DecidableEq

def extractBasicCredentials (header : Text) : Except CredentialsError (Option (Text × Text)) :=
  match header.utf8 with
  | none => .error .unicodeEncodeError
  | some bytes =>
    if bytes.length < 6 then .ok none
    else if (bytes.take 6).map lower ≠ ascii "basic " then .ok none
    else
      match splitAtByte 58 (base64Decode (bytes.drop 6)) with
      | none => .ok none
      | some (username, password) =>
        match Text.ofUtf8 username, Text.ofUtf8 password with
        | some username, some password => .ok (some (username, password))
        | _, _ => .error .unicodeDecodeError

/-! ## Letters in the table -/

theorem b64Table_letter {value : ℕ} (h : value < 64) :
    b64Table.getD (Base64.letter value).toNat 64 = UInt8.ofNat value := by
  revert value
  decide

theorem b64Table_padding : b64Table.getD (0x3D : Byte).toNat 64 = 0 := by decide

/-! ## The accumulator -/

theorem toNat_shift_or {buf c : UInt32} (hc : c.toNat < 64) :
    (buf <<< 6 ||| c).toNat = (buf.toNat * 64 + c.toNat) % 2 ^ 32 := by
  have hshift : (buf <<< 6).toNat = (buf.toNat % 2 ^ 26) <<< 6 := by
    simp only [UInt32.toNat_shiftLeft, Nat.shiftLeft_eq, UInt32.reduceToNat, Nat.reduceMod,
      Nat.reducePow]
    omega
  have hfits : c.toNat < 2 ^ 6 := hc
  rw [UInt32.toNat_or, hshift, ← Nat.shiftLeft_add_eq_or_of_lt hfits, Nat.shiftLeft_eq]
  omega

theorem lowByte (buf shift : UInt32) (h : shift.toNat < 32) :
    ((buf >>> shift) &&& 0xFF).toUInt8 = UInt8.ofNat (buf.toNat / 2 ^ shift.toNat) := by
  have hmask : (0xFF : UInt32).toNat = 2 ^ 8 - 1 := rfl
  apply UInt8.toNat_inj.mp
  rw [UInt32.toNat_toUInt8, UInt32.toNat_and, hmask, Nat.and_two_pow_sub_one_eq_mod,
    UInt32.toNat_shiftRight, Nat.mod_eq_of_lt h, Nat.shiftRight_eq_div_pow, UInt8.toNat_ofNat',
    Nat.mod_mod]

/-- How many bits are left, which number they are, and what has been written. -/
structure Decoder.Holds (d : Decoder) (bits value : ℕ) (output : Bytes) : Prop where
  bits_eq : d.bits = bits
  value_eq : d.buf.toNat % 2 ^ bits = value
  output_eq : d.output = output

theorem Decoder.Holds.start : ({} : Decoder).Holds 0 0 [] := ⟨rfl, rfl, rfl⟩

section Push

variable {d : Decoder} {b : Byte} {s value : ℕ} {output : Bytes}

theorem Decoder.push_eq (hs : s < 64) (hb : b64Table.getD b.toNat 64 = UInt8.ofNat s) :
    ∃ buf : UInt32, buf.toNat = (d.buf.toNat * 64 + s) % 2 ^ 32 ∧ d.push b =
        if 8 ≤ d.bits + 6 then
          { buf := buf, bits := d.bits + 6 - 8,
            output := d.output ++ [((buf >>> UInt32.ofNat (d.bits + 6 - 8)) &&& 0xFF).toUInt8] }
        else { buf := buf, bits := d.bits + 6, output := d.output } := by
  have hval : (UInt8.ofNat s).toUInt32.toNat = s := by
    rw [UInt8.toNat_toUInt32, UInt8.toNat_ofNat', Nat.mod_eq_of_lt (by omega)]
  have hne : UInt8.ofNat s ≠ 64 := by
    intro heq
    rw [heq] at hval
    exact absurd hval.symm (Nat.ne_of_lt hs)
  refine ⟨d.buf <<< 6 ||| (UInt8.ofNat s).toUInt32, ?_, ?_⟩
  · rw [toNat_shift_or (by rwa [hval]), hval]
  · rw [Decoder.push, hb, if_neg hne]

theorem Decoder.Holds.push_first (h : d.Holds 0 value output) (hs : s < 64)
    (hb : b64Table.getD b.toNat 64 = UInt8.ofNat s) : (d.push b).Holds 6 s output := by
  obtain ⟨buf, hbuf, hpush⟩ := Decoder.push_eq (d := d) hs hb
  rw [hpush, h.bits_eq, if_neg (by decide)]
  refine ⟨rfl, ?_, h.output_eq⟩
  rw [hbuf]
  omega

/-- Six more bits that complete a byte and leave two bits less than before. -/
theorem Decoder.Holds.push_next (bits : ℕ) (h : d.Holds (bits + 2) value output) (hbits : bits ≤ 4)
    (hs : s < 64) (hb : b64Table.getD b.toNat 64 = UInt8.ofNat s) :
    (d.push b).Holds bits (s % 2 ^ bits)
      (output ++ [UInt8.ofNat ((value * 64 + s) / 2 ^ bits)]) := by
  obtain ⟨buf, hbuf, hpush⟩ := Decoder.push_eq (d := d) hs hb
  have hleft : bits + 2 + 6 - 8 = bits := by omega
  have hshift : (UInt32.ofNat bits).toNat = bits := by
    rw [UInt32.toNat_ofNat', Nat.mod_eq_of_lt (by omega)]
  rw [hpush, h.bits_eq, if_pos (by omega), hleft]
  have hvalue := h.value_eq
  constructor
  · rfl
  · rw [hbuf]
    interval_cases bits <;> omega
  · have hbyte : UInt8.ofNat (buf.toNat / 2 ^ bits) = UInt8.ofNat ((value * 64 + s) / 2 ^ bits) := by
      apply UInt8.toNat_inj.mp
      rw [UInt8.toNat_ofNat', UInt8.toNat_ofNat', hbuf]
      interval_cases bits <;> omega
    rw [h.output_eq, lowByte _ _ (by omega), hshift, hbyte]

theorem Decoder.Holds.push_four (h : d.Holds 0 0 output) {s₁ s₂ s₃ s₄ : ℕ} {b₁ b₂ b₃ b₄ : Byte}
    (h₁ : s₁ < 64) (h₂ : s₂ < 64) (h₃ : s₃ < 64) (h₄ : s₄ < 64)
    (hb₁ : b64Table.getD b₁.toNat 64 = UInt8.ofNat s₁)
    (hb₂ : b64Table.getD b₂.toNat 64 = UInt8.ofNat s₂)
    (hb₃ : b64Table.getD b₃.toNat 64 = UInt8.ofNat s₃)
    (hb₄ : b64Table.getD b₄.toNat 64 = UInt8.ofNat s₄) :
    ([b₁, b₂, b₃, b₄].foldl Decoder.push d).Holds 0 0
      (output ++ [UInt8.ofNat (s₁ * 4 + s₂ / 16), UInt8.ofNat (s₂ % 16 * 16 + s₃ / 4),
        UInt8.ofNat (s₃ % 4 * 64 + s₄)]) := by
  have hrun := (((h.push_first h₁ hb₁).push_next 4 (by decide) h₂ hb₂).push_next
    2 (by decide) h₃ hb₃).push_next 0 (by decide) h₄ hb₄
  have hfirst : (s₁ * 64 + s₂) / 2 ^ 4 = s₁ * 4 + s₂ / 16 := by omega
  have hsecond : (s₂ % 2 ^ 4 * 64 + s₃) / 2 ^ 2 = s₂ % 16 * 16 + s₃ / 4 := by omega
  have hthird : (s₃ % 2 ^ 2 * 64 + s₄) / 2 ^ 0 = s₃ % 4 * 64 + s₄ := by omega
  rw [hfirst, hsecond, hthird, Nat.pow_zero, Nat.mod_one] at hrun
  simpa only [foldl_cons, foldl_nil, append_assoc, cons_append, nil_append] using hrun

/-- The letters of three bytes give the bytes back. -/
theorem Decoder.Holds.push_group (h : d.Holds 0 0 output) (a b c : Byte) {b₁ b₂ b₃ b₄ : Byte}
    (hb₁ : b64Table.getD b₁.toNat 64 = UInt8.ofNat (a.toNat / 4))
    (hb₂ : b64Table.getD b₂.toNat 64 = UInt8.ofNat (a.toNat % 4 * 16 + b.toNat / 16))
    (hb₃ : b64Table.getD b₃.toNat 64 = UInt8.ofNat (b.toNat % 16 * 4 + c.toNat / 64))
    (hb₄ : b64Table.getD b₄.toNat 64 = UInt8.ofNat (c.toNat % 64)) :
    ([b₁, b₂, b₃, b₄].foldl Decoder.push d).Holds 0 0 (output ++ [a, b, c]) := by
  have ha := a.toNat_lt
  have hb := b.toNat_lt
  have hc := c.toNat_lt
  have hrun := h.push_four (by omega) (by omega) (by omega) (by omega) hb₁ hb₂ hb₃ hb₄
  have hfirst : a.toNat / 4 * 4 + (a.toNat % 4 * 16 + b.toNat / 16) / 16 = a.toNat := by omega
  have hsecond : (a.toNat % 4 * 16 + b.toNat / 16) % 16 * 16 +
      (b.toNat % 16 * 4 + c.toNat / 64) / 4 = b.toNat := by omega
  have hthird : (b.toNat % 16 * 4 + c.toNat / 64) % 4 * 64 + c.toNat % 64 = c.toNat := by omega
  rwa [hfirst, hsecond, hthird, UInt8.ofNat_toNat, UInt8.ofNat_toNat, UInt8.ofNat_toNat] at hrun

end Push

/-- What the decoder makes of the padding. -/
def padding (data : Bytes) : Bytes := List.replicate ((3 - data.length % 3) % 3) 0

theorem foldl_push_encode (data : Bytes) {d : Decoder} {output : Bytes} (h : d.Holds 0 0 output) :
    ((Base64.encode data).foldl Decoder.push d).Holds 0 0 (output ++ data ++ padding data) := by
  have hzero : (0 : Byte).toNat = 0 := rfl
  match data with
  | [] => simpa [Base64.encode, Base64.sextets, padding] using h
  | [a] =>
    have ha := a.toNat_lt
    have hrun := h.push_group a 0 0 (b64Table_letter (by omega)) (b64Table_letter (by omega))
      b64Table_padding b64Table_padding
    rw [Base64.encode_one]
    simpa [padding] using hrun
  | [a, b] =>
    have ha := a.toNat_lt
    have hb := b.toNat_lt
    have hrun := h.push_group a b 0 (b64Table_letter (by omega)) (b64Table_letter (by omega))
      (b64Table_letter (by omega)) b64Table_padding
    rw [Base64.encode_two]
    simpa [padding] using hrun
  | a :: b :: c :: rest =>
    have ha := a.toNat_lt
    have hb := b.toNat_lt
    have hc := c.toNat_lt
    have hgroup := h.push_group a b c (b64Table_letter (by omega)) (b64Table_letter (by omega))
      (b64Table_letter (by omega)) (b64Table_letter (by omega))
    have hpadding : padding (a :: b :: c :: rest) = padding rest := by
      simp only [padding, length_cons, Nat.add_assoc, Nat.reduceAdd, Nat.add_mod_right]
    have hrest := foldl_push_encode rest hgroup
    rw [Base64.encode_three, foldl_append, hpadding]
    simpa only [append_assoc, cons_append, nil_append] using hrest

theorem base64Decode_encode (data : Bytes) :
    base64Decode (Base64.encode data) = data ++ padding data := by
  have hrun := (foldl_push_encode data Decoder.Holds.start).output_eq
  rwa [nil_append] at hrun

/-! ## The header -/

/-- The header that a client sends for a user name and a password. -/
def basicHeader (username password : Text) : Text :=
  plainText "Basic " ++
    Text.ofLatin1 (Base64.encode (username.bytes ++ 58 :: password.bytes))

theorem bytes_ofLatin1 {bytes : Bytes} (h : ∀ b ∈ bytes, b.toNat < 128) :
    (Text.ofLatin1 bytes).Encodable ∧ (Text.ofLatin1 bytes).bytes = bytes := by
  induction bytes with
  | nil => exact ⟨by decide, rfl⟩
  | cons b bytes ih =>
    obtain ⟨hb, hrest⟩ := forall_mem_cons.mp h
    obtain ⟨hencodable, hbytes⟩ := ih hrest
    have hval : (Fin.ofNat 0x110000 b.toNat : CodePoint).val = b.toNat := by
      rw [Fin.val_ofNat, Nat.mod_eq_of_lt (by omega)]
    have hlow : (Fin.ofNat 0x110000 b.toNat : CodePoint).val < 128 := by rwa [hval]
    constructor
    · exact forall_mem_cons.mpr ⟨isSurrogate_ascii hlow, hencodable⟩
    · rw [Text.ofLatin1, map_cons, Text.bytes_cons, encode_ascii hlow, hval, UInt8.ofNat_toNat]
      exact congrArg (b :: ·) hbytes

theorem encode_lt (data : Bytes) : ∀ b ∈ Base64.encode data, b.toNat < 128 := by
  have hletters : ∀ b ∈ Base64.alphabet ++ [0x3D], b.toNat < 128 := by decide
  exact fun b hb => hletters b (Base64.encode_subset data hb)

theorem utf8_basicHeader (username password : Text) :
    (basicHeader username password).utf8 =
      some (ascii "Basic " ++ Base64.encode (username.bytes ++ 58 :: password.bytes)) := by
  obtain ⟨hencodable, hbytes⟩ :=
    bytes_ofLatin1 (encode_lt (username.bytes ++ 58 :: password.bytes))
  have hscheme : (plainText "Basic ").bytes = ascii "Basic " := by decide
  rw [Text.utf8_eq_some_iff, basicHeader, Text.bytes_append, hbytes, hscheme]
  refine ⟨forall_mem_append.mpr ⟨?_, hencodable⟩, rfl⟩
  exact (by decide : (plainText "Basic ").Encodable)

theorem extractBasicCredentials_basicHeader {username : Text} (husername : username.Encodable)
    (hcolon : (58 : CodePoint) ∉ username) (password : Text) :
    extractBasicCredentials (basicHeader username password) =
      match Text.ofUtf8
        (password.bytes ++ padding (username.bytes ++ 58 :: password.bytes)) with
      | some password => .ok (some (username, password))
      | none => .error .unicodeDecodeError := by
  have hfree : (58 : Byte) ∉ username.bytes := Routing.not_mem_bytes 58 (by decide) husername hcolon
  have hread : Text.ofUtf8 username.bytes = some username :=
    Text.ofUtf8_eq_some_iff.mpr ⟨husername, rfl⟩
  have hscheme : ((ascii "Basic ").map lower) = ascii "basic " := by decide
  have hlength : (ascii "Basic ").length = 6 := by decide
  rw [extractBasicCredentials, utf8_basicHeader]
  simp only [length_append, hlength, take_left' hlength, drop_left' hlength, hscheme,
    base64Decode_encode, append_assoc, cons_append, splitAtByte_append hfree, hread,
    ne_eq, not_true_eq_false, if_false, Nat.not_lt.mpr (Nat.le_add_right 6 _)]
  cases Text.ofUtf8 (password.bytes ++ padding (username.bytes ++ 58 :: password.bytes)) <;> rfl

theorem ofUtf8_append_padding {password : Text} (hpassword : password.Encodable) (data : Bytes) :
    Text.ofUtf8 (password.bytes ++ padding data) =
      some (password ++ List.replicate ((3 - data.length % 3) % 3) 0) := by
  have hzeros (n : ℕ) : Text.bytes (List.replicate n 0) = List.replicate n 0 := by
    induction n with
    | zero => rfl
    | succ n ih => rw [replicate_succ, Text.bytes_cons, ih]; rfl
  refine Text.ofUtf8_eq_some_iff.mpr ⟨forall_mem_append.mpr ⟨hpassword, ?_⟩, ?_⟩
  · intro c hc
    rw [eq_of_mem_replicate hc]
    decide
  · rw [Text.bytes_append, hzeros, padding]

/-- User name and password come back as they were when no padding was needed, and never
otherwise. -/
theorem basicCredentials_roundTrip_iff {username password : Text} (husername : username.Encodable)
    (hpassword : password.Encodable) (hcolon : (58 : CodePoint) ∉ username) :
    extractBasicCredentials (basicHeader username password) = .ok (some (username, password)) ↔
      (username.bytes.length + 1 + password.bytes.length) % 3 = 0 := by
  have hlength : (username.bytes ++ 58 :: password.bytes).length =
      username.bytes.length + 1 + password.bytes.length := by
    rw [length_append, length_cons]
    omega
  rw [extractBasicCredentials_basicHeader husername hcolon, ofUtf8_append_padding hpassword, hlength]
  simp only [Except.ok.injEq, Option.some.injEq, Prod.mk.injEq, true_and, append_right_eq_self,
    replicate_eq_nil_iff]
  omega

theorem basicCredentials_roundTrip_aladdin :
    extractBasicCredentials (basicHeader (plainText "Aladdin") (plainText "open")) =
        .ok (some (plainText "Aladdin", plainText "open")) ↔
      ((plainText "Aladdin").bytes.length + 1 + (plainText "open").bytes.length) % 3 = 0 :=
  basicCredentials_roundTrip_iff (by decide) (by decide) (by decide)

/-- `Basic dTpwdw==` stands for `u:pw`, and gives a password that ends in two NUL
characters. -/
theorem basicCredentials_padded :
    basicHeader (plainText "u") (plainText "pw") = plainText "Basic dTpwdw==" ∧
      extractBasicCredentials (plainText "Basic dTpwdw==") =
        .ok (some (plainText "u", plainText "pw" ++ [0, 0])) ∧
      extractBasicCredentials (basicHeader (plainText "u") (plainText "pw")) ≠
        .ok (some (plainText "u", plainText "pw")) := by
  have hheader : basicHeader (plainText "u") (plainText "pw") = plainText "Basic dTpwdw==" := by
    decide +kernel
  have hread : extractBasicCredentials (plainText "Basic dTpwdw==") =
      .ok (some (plainText "u", plainText "pw" ++ [0, 0])) := by
    rw [← hheader, extractBasicCredentials_basicHeader (by decide) (by decide),
      ofUtf8_append_padding (by decide)]
    rfl
  refine ⟨hheader, hread, ?_⟩
  rw [hheader, hread]
  decide

end AstraApi.Dispatch
