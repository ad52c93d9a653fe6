import AstraApi.Response.Builders
import AstraApi.Lib.JsonText

/-!
# Numbers in JSON

The texts that `write_json` has for numbers: `fast_i64_to_buf`, `str()` of an
integer and of a `Decimal`, and `%.17g`.  All of them are numbers of JSON, save
those of the special values of `Decimal`.
-/

namespace AstraApi.Response

open List
open Json (Numeral Scale)
open Message (isDigit digitsValue)

def digits (n : ℕ) : Bytes := (Nat.toDigits 10 n).map fun c => UInt8.ofNat c.toNat

/-! ## Integers -/

/-- The loop of `fast_i64_to_buf`, which writes from the last digit to the first. -/
def pushDigits (uv : UInt64) (written : Bytes) : Bytes :=
  let written := UInt8.ofNat (0x30 + (uv % 10).toNat) :: written
  if _h : uv / 10 = 0 then written else pushDigits (uv / 10) written
termination_by uv.toNat
decreasing_by
  have hpos : uv.toNat / 10 ≠ 0 := fun h => _h (UInt64.toNat_inj.mp (by simpa using h))
  have hdiv : (uv / 10).toNat = uv.toNat / 10 := by simp
  omega

def fastI64ToBuf (val : ℤ) : Bytes :=
  let neg := val < 0
  let uv := if neg then -UInt64.ofInt val else UInt64.ofInt val
  if neg then 0x2d :: pushDigits uv [] else pushDigits uv []

/-- `PyLong_AsLongLongAndOverflow`. -/
def asLongLong (value : ℤ) : Option ℤ :=
  if -(2 ^ 63) ≤ value ∧ value < 2 ^ 63 then some value else none

theorem decimal_eq_digits (value : ℤ) :
    decimal value = (if value < 0 then [0x2d] else []) ++ digits value.natAbs := by
  rw [decimal, digits]
  split
  · rfl
  · rfl

theorem digits_of_lt {n : ℕ} (h : n < 10) : digits n = [UInt8.ofNat (0x30 + n)] := by
  rw [digits, Nat.toDigits_of_lt_base h]
  exact (show ∀ n < 10, [n.digitChar].map (fun c => UInt8.ofNat c.toNat) =
    [UInt8.ofNat (0x30 + n)] by decide) n h

theorem digits_of_le {n : ℕ} (h : 10 ≤ n) :
    digits n = digits (n / 10) ++ [UInt8.ofNat (0x30 + n % 10)] := by
  rw [digits, Nat.toDigits_of_base_le (by decide) h, map_append]
  have hlast := digits_of_lt (Nat.mod_lt n (by decide : 0 < 10))
  rw [digits, Nat.toDigits_of_lt_base (Nat.mod_lt n (by decide))] at hlast
  rw [hlast, digits]

theorem pushDigits_eq (uv : UInt64) (written : Bytes) :
    pushDigits uv written = digits uv.toNat ++ written := by
  fun_induction pushDigits uv written with
  | case1 uv written last hzero =>
    have hsmall : uv.toNat < 10 := by
      have h := congrArg UInt64.toNat hzero
      simpa using h
    have hmod : (uv % 10).toNat = uv.toNat := by
      exact Nat.mod_eq_of_lt hsmall
    rw [digits_of_lt hsmall]
    show UInt8.ofNat _ :: written = _
    rw [hmod]
    rfl
  | case2 uv written last hzero ih =>
    have hlarge : 10 ≤ uv.toNat := by
      by_contra hsmall
      apply hzero
      apply UInt64.toNat_inj.mp
      exact Nat.div_eq_of_lt (not_le.mp hsmall)
    rw [ih, digits_of_le hlarge, append_assoc, UInt64.toNat_div]
    show _ ++ UInt8.ofNat _ :: written = _
    rfl

/-- The machine word and the big integer have the same text. -/
theorem fastI64ToBuf_eq {value val : ℤ} (h : asLongLong value = some val) :
    fastI64ToBuf val = decimal value := by
  rw [asLongLong] at h
  split at h
  · next hrange =>
    cases h
    rw [fastI64ToBuf, decimal_eq_digits]
    by_cases hneg : value < 0
    · have hnat : (-UInt64.ofInt value).toNat = value.natAbs := by
        rw [← UInt64.ofInt_neg, UInt64.ofInt, UInt64.toNat_ofNat']
        omega
      simp only [if_pos hneg, pushDigits_eq, hnat, append_nil]
      rfl
    · have hnat : (UInt64.ofInt value).toNat = value.natAbs := by
        rw [UInt64.ofInt, UInt64.toNat_ofNat']
        omega
      simp only [if_neg hneg, pushDigits_eq, hnat, append_nil]
      rfl
  · cases h

theorem digits_eq_decimal (n : ℕ) : digits n = decimal n := (decimal_natCast n).symm

theorem isDigit_digits (n : ℕ) : ∀ b ∈ digits n, isDigit b = true := by
  exact isDigit_decimal n

theorem digits_ne_nil (n : ℕ) : digits n ≠ [] := by
  rw [digits, Ne, map_eq_nil_iff]
  exact Nat.toDigits_ne_nil

theorem digits_leading (n : ℕ) (h : (digits n).head? = some 0x30) : n = 0 := by
  induction n using Nat.strong_induction_on with
  | _ n ih =>
    by_cases hsmall : n < 10
    · rw [digits_of_lt hsmall, head?_cons] at h
      have hzero := congrArg UInt8.toNat (Option.some.inj h)
      rw [UInt8.toNat_ofNat', show (0x30 : Byte).toNat = 0x30 from rfl] at hzero
      omega
    · rw [digits_of_le (not_lt.mp hsmall)] at h
      obtain ⟨d, more, hdigits⟩ := exists_cons_of_ne_nil (digits_ne_nil (n / 10))
      rw [hdigits, cons_append, head?_cons] at h
      have hrest := ih (n / 10) (by omega) (by rw [hdigits, head?_cons, h])
      omega

theorem digits_zero_or (n : ℕ) : (digits n).head? = some 0x30 → digits n = [0x30] := by
  intro h
  rw [digits_leading n h]
  rfl

def intNumeral (value : ℤ) : Numeral where
  negative := value < 0
  whole := digits value.natAbs
  fraction := []
  scale := none
  whole_ne_nil := digits_ne_nil _
  isDigit_whole := isDigit_digits _
  leading := digits_zero_or _
  isDigit_fraction := fun _ h => nomatch h

theorem intNumeral_text (value : ℤ) : (intNumeral value).text = decimal value := by
  rw [decimal_eq_digits, Numeral.text, Numeral.fractionText, Numeral.scaleText]
  simp [intNumeral]

theorem intNumeral_value (value : ℤ) : (intNumeral value).value = value := by
  have hvalue : digitsValue (digits value.natAbs ++ []) = value.natAbs := by
    rw [append_nil, digits_eq_decimal, digitsValue_decimal]
  simp only [Numeral.value, intNumeral, Numeral.scaleValue, hvalue, decide_eq_true_eq,
    length_nil, Nat.cast_zero, sub_zero, zpow_zero, mul_one, Nat.cast_natAbs]
  split
  · next hneg => rw [abs_of_neg hneg, Int.cast_neg, neg_neg]
  · next hneg => rw [abs_of_nonneg (not_lt.mp hneg)]

/-- An integer is read back from its text. -/
theorem spells_decimal (value : ℤ) : Json.Spells Json.Reads (decimal value) (.number value) := by
  rw [← intNumeral_text, ← intNumeral_value]
  exact Json.spells_numeral _

/-! ## Decimals -/

/-- A `Decimal`: the digits of a NaN are a payload, where zero is written as nothing. -/
inductive DecimalValue where
  | finite (negative : Bool) (coefficient : ℕ) (exponent : ℤ)
  | infinity (negative : Bool)
  | nan (negative : Bool) (payload : ℕ)
  | snan (negative : Bool) (payload : ℕ)

def signText (negative : Bool) : Bytes := if negative then ascii "-" else []

def payloadText (payload : ℕ) : Bytes := if payload = 0 then [] else digits payload

/-- The format `%+d`. -/
def signedText (value : ℤ) : Bytes :=
  (if value < 0 then ascii "-" else ascii "+") ++ digits value.natAbs

def zeros (count : ℤ) : Bytes := List.replicate count.toNat 0x30

def DecimalValue.str (capitals : Bool) : DecimalValue → Bytes
  | .infinity negative => signText negative ++ ascii "Infinity"
  | .nan negative payload => signText negative ++ ascii "NaN" ++ payloadText payload
  | .snan negative payload => signText negative ++ ascii "sNaN" ++ payloadText payload
  | .finite negative coefficient exponent =>
    let int := digits coefficient
    let leftdigits := exponent + int.length
    let dotplace := if exponent ≤ 0 ∧ -6 < leftdigits then leftdigits else 1
    let intpart :=
      if dotplace ≤ 0 then ascii "0"
      else if int.length ≤ dotplace then int ++ zeros (dotplace - int.length)
      else int.take dotplace.toNat
    let fracpart :=
      if dotplace ≤ 0 then ascii "." ++ zeros (-dotplace) ++ int
      else if int.length ≤ dotplace then []
      else ascii "." ++ int.drop dotplace.toNat
    let exp :=
      if leftdigits = dotplace then []
      else (if capitals then ascii "E" else ascii "e") ++ signedText (leftdigits - dotplace)
    signText negative ++ intpart ++ fracpart ++ exp

def signedScale (capitals : Bool) (value : ℤ) : Scale where
  marker := if capitals then 0x45 else 0x65
  sign := some (value < 0)
  digits := digits value.natAbs
  marker_eq := by cases capitals <;> simp
  digits_ne_nil := digits_ne_nil _
  isDigit_digits := isDigit_digits _

theorem signedScale_text (capitals : Bool) (value : ℤ) :
    (signedScale capitals value).text =
      (if capitals then ascii "E" else ascii "e") ++ signedText value := by
  rw [Scale.text, signedText]
  by_cases hneg : value < 0
  · cases capitals <;> simp [signedScale, hneg] <;> rfl
  · cases capitals <;> simp [signedScale, hneg] <;> rfl

/-- The exponent is there when the point does not stand at its place. -/
theorem exists_scale (capitals : Bool) (leftdigits dotplace : ℤ) :
    ∃ scale : Option Scale, (if leftdigits = dotplace then []
      else (if capitals then ascii "E" else ascii "e") ++ signedText (leftdigits - dotplace)) =
      (match scale with
        | none => []
        | some scale => scale.text) := by
  by_cases heq : leftdigits = dotplace
  · exact ⟨none, if_pos heq⟩
  · exact ⟨some _, (if_neg heq).trans (signedScale_text _ _).symm⟩

/-- The text of a finite `Decimal` is a number of JSON. -/
theorem exists_numeral_str (capitals negative : Bool) (coefficient : ℕ) (exponent : ℤ) :
    ∃ numeral : Numeral,
      (DecimalValue.finite negative coefficient exponent).str capitals = numeral.text := by
  obtain ⟨int, hint⟩ : ∃ int, digits coefficient = int := ⟨_, rfl⟩
  have hne : int ≠ [] := hint ▸ digits_ne_nil _
  have hdigits : ∀ b ∈ int, isDigit b = true := hint ▸ isDigit_digits _
  have hleading : int.head? = some 0x30 → int = [0x30] := hint ▸ digits_zero_or _
  have hlength := length_pos_of_ne_nil hne
  have hsign : signText negative = if negative then [0x2d] else [] := rfl
  simp only [DecimalValue.str, hint]
  generalize hdot : (if exponent ≤ 0 ∧ -6 < exponent + (int.length : ℤ) then
    exponent + (int.length : ℤ) else 1) = dotplace
  obtain ⟨scale, hexp⟩ := exists_scale capitals _ dotplace
  rw [hexp, hsign]
  by_cases hlow : dotplace ≤ 0
  · have hfraction : zeros (-dotplace) ++ int ≠ [] := fun h => hne (append_eq_nil_iff.mp h).2
    refine ⟨⟨negative, [0x30], zeros (-dotplace) ++ int, scale, by simp, by decide, fun _ => rfl,
      ?_⟩, ?_⟩
    · intro b hb
      cases mem_append.mp hb with
      | inl hzero => rw [eq_of_mem_replicate hzero]; decide
      | inr hmem => exact hdigits b hmem
    · rw [if_pos hlow, if_pos hlow, Numeral.text, Numeral.fractionText, Numeral.scaleText,
        if_neg hfraction]
      rfl
  · by_cases hwhole : (int.length : ℤ) ≤ dotplace
    · have heq : dotplace = int.length := by
        rw [← hdot] at hwhole ⊢
        split at hwhole
        · next h => omega
        · next h => omega
      refine ⟨⟨negative, int, [], scale, hne, hdigits, hleading, by simp⟩, ?_⟩
      rw [if_neg hlow, if_pos hwhole, if_neg hlow, if_pos hwhole, heq, Int.sub_self, Numeral.text,
        Numeral.fractionText, Numeral.scaleText, if_pos rfl, zeros]
      cases scale with
      | none => simp
      | some scale => simp
    · have htake : int.take dotplace.toNat ≠ [] := by
        rw [Ne, take_eq_nil_iff]
        rintro (hzero | hnil)
        · omega
        · exact hne hnil
      have hdrop : int.drop dotplace.toNat ≠ [] := by
        rw [Ne, drop_eq_nil_iff]
        omega
      have hhead : (int.take dotplace.toNat).head? = some 0x30 →
          int.take dotplace.toNat = [0x30] := by
        intro h
        rw [head?_take, if_neg (by omega)] at h
        have hsingle := hleading h
        rw [hsingle] at hwhole
        simp only [length_singleton, Nat.cast_one] at hwhole
        omega
      refine ⟨⟨negative, int.take _, int.drop dotplace.toNat, scale, htake,
        fun b hb => hdigits b (mem_of_mem_take hb), hhead,
        fun b hb => hdigits b (mem_of_mem_drop hb)⟩, ?_⟩
      rw [if_neg hlow, if_neg hwhole, if_neg hlow, if_neg hwhole, Numeral.text,
        Numeral.fractionText, Numeral.scaleText, if_neg hdrop]
      rfl

/-- The test of `write_json`: the texts of NaN and of the infinities. -/
def isSpecialText (s : Bytes) : Bool :=
  s.head? = some 0x4e ∨ s.head? = some 0x49 ∨
    s.head? = some 0x2d ∧ 1 < s.length ∧ s.tail.head? = some 0x49

/-- The values whose text is no number, though the test lets it pass. -/
def DecimalValue.slips : DecimalValue → Bool
  | .finite _ _ _ => false
  | .infinity _ => false
  | .nan negative _ => negative
  | .snan _ _ => true

def DecimalValue.refused : DecimalValue → Bool
  | .finite _ _ _ => false
  | .infinity _ => true
  | .nan negative _ => !negative
  | .snan _ _ => false

theorem isSpecialText_numeral (numeral : Numeral) : isSpecialText numeral.text = false := by
  obtain ⟨d, more, hwhole⟩ := exists_cons_of_ne_nil numeral.whole_ne_nil
  have hd := numeral.isDigit_whole d (by rw [hwhole]; exact mem_cons_self)
  have hletter (b : Byte) (hb : isDigit b = false) : d ≠ b := Json.ne_of_isDigit hd hb
  rw [isSpecialText, decide_eq_false_iff_not, Numeral.text, hwhole]
  cases numeral.negative with
  | true =>
    rintro (h | h | ⟨-, -, h⟩)
    · exact absurd (Option.some.inj h) (by decide)
    · exact absurd (Option.some.inj h) (by decide)
    · exact hletter 0x49 (by decide) (Option.some.inj h)
  | false =>
    rintro (h | h | ⟨h, -⟩)
    · exact hletter 0x4e (by decide) (Option.some.inj h)
    · exact hletter 0x49 (by decide) (Option.some.inj h)
    · exact hletter 0x2d (by decide) (Option.some.inj h)

theorem isSpecialText_str (capitals : Bool) (value : DecimalValue) :
    isSpecialText (value.str capitals) = value.refused := by
  cases value with
  | finite negative coefficient exponent =>
    obtain ⟨numeral, heq⟩ := exists_numeral_str _ _ _ _
    rw [heq, isSpecialText_numeral]
    rfl
  | infinity negative => cases negative <;> rfl
  | nan negative payload =>
    cases negative with
    | true =>
      rfl
    | false =>
      rfl
  | snan negative payload =>
    cases negative with
    | true =>
      rfl
    | false =>
      rfl

theorem exists_numeral_of_finite (capitals : Bool) {value : DecimalValue}
    (hslips : value.slips = false) (hrefused : value.refused = false) :
    ∃ numeral : Numeral, value.str capitals = numeral.text := by
  cases value with
  | finite negative coefficient exponent =>
    exact exists_numeral_str _ _ _ _
  | infinity negative => cases hrefused
  | nan negative payload => cases negative <;> simp [DecimalValue.slips, DecimalValue.refused] at *
  | snan negative payload => cases hslips

/-- The text of a signalling or negative NaN is no number. -/
theorem spoils_str (capitals : Bool) {value : DecimalValue} (h : value.slips = true) :
    Json.Spoils Json.Reads (value.str capitals) := by
  have hminus (tail : Bytes) : Json.Shown (0x2d :: tail) := Json.shown_cons (by decide) _
  have hnegative (b : Byte) (hb : isDigit b = false) (tail : Bytes) :
      Json.Spoils Json.Reads (0x2d :: b :: tail) := by
    refine Json.spoils_of_readNumber (hminus _) (by decide) fun rest => ?_
    show (Json.readMagnitude (b :: (tail ++ rest))).map _ = none
    rw [Json.readMagnitude_eq_none hb, Option.map_none]
  cases value with
  | finite negative coefficient exponent => cases h
  | infinity negative => cases h
  | nan negative payload =>
    obtain rfl : negative = true := h
    exact hnegative 0x4e (by decide) _
  | snan negative payload =>
    cases negative with
    | true => exact hnegative 0x73 (by decide) _
    | false =>
      refine Json.spoils_of_readNumber ⟨_, _, rfl, by decide, by decide⟩ (by decide) fun rest => ?_
      exact Json.readNumber_eq_none (by decide) (by decide) _

/-! ## Floats -/

/-- `ryu` writes an upper-case exponent, of which the first letter is replaced. -/
def lowerExponent : Bytes → Bytes
  | [] => []
  | b :: rest => if b = 0x45 then 0x65 :: rest else b :: lowerExponent rest

/-- The 17 significant digits of a float that is not zero, and its decimal exponent. -/
structure Significant where
  negative : Bool
  digits : Bytes
  exponent : ℤ
  length_digits : digits.length = 17
  isDigit_digits : ∀ b ∈ digits, isDigit b = true
  head_ne : digits.head? ≠ some 0x30

def stripZeros (digits : Bytes) : Bytes := digits.rdropWhile (· = 0x30)

def Significant.format (s : Significant) : Bytes :=
  let point (fraction : Bytes) : Bytes := if fraction = [] then [] else 0x2e :: fraction
  signText s.negative ++
    if -4 ≤ s.exponent ∧ s.exponent < 17 then
      if s.exponent < 0 then ascii "0" ++ point (stripZeros (zeros (-s.exponent - 1) ++ s.digits))
      else
        s.digits.take (s.exponent.toNat + 1) ++ point (stripZeros (s.digits.drop (s.exponent.toNat + 1)))
    else
      s.digits.take 1 ++ point (stripZeros (s.digits.drop 1)) ++ ascii "e" ++
        (if s.exponent < 0 then ascii "-" else ascii "+") ++
        (if s.exponent.natAbs < 10 then ascii "0" else []) ++ Response.digits s.exponent.natAbs

theorem lowerExponent_append {front : Bytes} (h : (0x45 : Byte) ∉ front) (back : Bytes) :
    lowerExponent (front ++ back) = front ++ lowerExponent back := by
  induction front with
  | nil => rfl
  | cons b front ih =>
    rw [mem_cons, not_or] at h
    rw [cons_append, lowerExponent, if_neg (Ne.symm h.1), ih h.2, cons_append]

theorem not_mem_of_isDigit {digits : Bytes} (h : ∀ b ∈ digits, isDigit b = true) :
    (0x45 : Byte) ∉ digits := fun hmem => absurd (h _ hmem) (by decide)

/-- The text stays a number. -/
theorem exists_numeral_lowerExponent (numeral : Numeral) :
    ∃ lower : Numeral, lowerExponent numeral.text = lower.text := by
  have hsign : (0x45 : Byte) ∉ (if numeral.negative then [0x2d] else [] : Bytes) := by
    cases numeral.negative <;> decide
  have hfraction : (0x45 : Byte) ∉ numeral.fractionText := by
    rw [Numeral.fractionText]
    split
    · exact not_mem_nil
    · rw [mem_cons, not_or]
      exact ⟨by decide, not_mem_of_isDigit numeral.isDigit_fraction⟩
  have hfront : (0x45 : Byte) ∉ (if numeral.negative then [0x2d] else [] : Bytes) ++ numeral.whole ++
      numeral.fractionText := by
    rw [mem_append, mem_append]
    rintro ((h | h) | h)
    · exact hsign h
    · exact not_mem_of_isDigit numeral.isDigit_whole h
    · exact hfraction h
  rw [Numeral.text, lowerExponent_append hfront]
  cases hscale : numeral.scale with
  | none =>
    refine ⟨numeral, ?_⟩
    rw [Numeral.text, Numeral.scaleText, hscale]
    rfl
  | some scale =>
    refine ⟨{ numeral with scale := some { scale with marker := 0x65, marker_eq := .inl rfl } }, ?_⟩
    have hlower : lowerExponent scale.text =
        Scale.text { scale with marker := 0x65, marker_eq := .inl rfl } := by
      rw [Scale.text, Scale.text]
      cases scale.marker_eq with
      | inr hupper =>
        rw [hupper, lowerExponent, if_pos rfl]
        rfl
      | inl hmarker =>
        have hback : (0x45 : Byte) ∉ scale.signText ++ scale.digits := by
          rw [mem_append, Scale.signText]
          rintro (h | h)
          · cases hsign : scale.sign with
            | none => rw [hsign] at h; cases h
            | some negative => cases negative <;> rw [hsign] at h <;> exact absurd h (by decide)
          · exact not_mem_of_isDigit scale.isDigit_digits h
        have hself := lowerExponent_append hback []
        rw [append_nil, lowerExponent, append_nil] at hself
        rw [hmarker, lowerExponent, if_neg (by decide), hself]
        rfl
    rw [Numeral.scaleText, hscale]
    rw [hlower]
    rfl

theorem isDigit_stripZeros {digits : Bytes} (h : ∀ b ∈ digits, isDigit b = true) :
    ∀ b ∈ stripZeros digits, isDigit b = true := fun b hb =>
  h b ((List.rdropWhile_prefix _ _).subset hb)

def paddedScale (value : ℤ) : Scale where
  marker := 0x65
  sign := some (value < 0)
  digits := (if value.natAbs < 10 then ascii "0" else []) ++ digits value.natAbs
  marker_eq := .inl rfl
  digits_ne_nil := fun h => digits_ne_nil _ (append_eq_nil_iff.mp h).2
  isDigit_digits := by
    intro b hb
    cases mem_append.mp hb with
    | inl hzero =>
      split at hzero
      · rw [mem_singleton.mp hzero]; decide
      · cases hzero
    | inr hdigit => exact isDigit_digits _ b hdigit

theorem paddedScale_text (value : ℤ) :
    (paddedScale value).text = ascii "e" ++ (if value < 0 then ascii "-" else ascii "+") ++
      (if value.natAbs < 10 then ascii "0" else []) ++ digits value.natAbs := by
  by_cases hneg : value < 0
  · simp [paddedScale, hneg]
    rfl
  · simp [paddedScale, hneg]
    rfl

/-- The text of a float in `%.17g` is a number of JSON. -/
theorem exists_numeral_format (s : Significant) :
    ∃ numeral : Numeral, s.format = numeral.text := by
  have htake (n : ℕ) : s.digits.take (n + 1) ≠ [] := by
    rw [Ne, take_eq_nil_iff]
    rintro (h | h)
    · omega
    · have hlength := s.length_digits
      rw [h] at hlength
      cases hlength
  have hhead (n : ℕ) : (s.digits.take (n + 1)).head? = some 0x30 →
      s.digits.take (n + 1) = [0x30] := by
    intro h
    rw [head?_take, if_neg (by omega)] at h
    exact absurd h s.head_ne
  have hdigit (n : ℕ) : ∀ b ∈ s.digits.take n, isDigit b = true := fun b hb =>
    s.isDigit_digits b (mem_of_mem_take hb)
  have hfraction (n : ℕ) : ∀ b ∈ stripZeros (s.digits.drop n), isDigit b = true :=
    isDigit_stripZeros fun b hb => s.isDigit_digits b (mem_of_mem_drop hb)
  rw [Significant.format]
  by_cases hfixed : -4 ≤ s.exponent ∧ s.exponent < 17
  · rw [if_pos hfixed]
    by_cases hneg : s.exponent < 0
    · rw [if_pos hneg]
      have hzeros : ∀ b ∈ zeros (-s.exponent - 1) ++ s.digits, isDigit b = true := by
        intro b hb
        cases mem_append.mp hb with
        | inl hzero => rw [eq_of_mem_replicate hzero]; decide
        | inr hmem => exact s.isDigit_digits b hmem
      refine ⟨⟨s.negative, ascii "0", _, none, by decide, by decide, fun _ => rfl,
        isDigit_stripZeros hzeros⟩, ?_⟩
      rw [Numeral.text, Numeral.scaleText, append_nil, append_assoc]
      rfl
    · rw [if_neg hneg]
      refine ⟨⟨s.negative, s.digits.take (s.exponent.toNat + 1), _, none, htake _, hdigit _, hhead _,
        hfraction (s.exponent.toNat + 1)⟩, ?_⟩
      rw [Numeral.text, Numeral.scaleText, append_nil, append_assoc]
      rfl
  · rw [if_neg hfixed]
    refine ⟨⟨s.negative, s.digits.take 1, _, some (paddedScale s.exponent), htake 0, hdigit 1, hhead 0,
      hfraction 1⟩, ?_⟩
    show _ = _ ++ _ ++ _ ++ (paddedScale _).text
    rw [paddedScale_text]
    simp only [append_assoc]
    rfl

end AstraApi.Response
