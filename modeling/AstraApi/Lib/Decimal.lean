import AstraApi.Lib.Message

/-!
# Decimal integers

The integer that a text denotes, and what the C library's `strtoll` reads from
the text: it skips white space, stops at the first byte that it cannot use, and
gives the nearest value of 64 bits.
-/

namespace AstraApi.Decimal

open List
open Message (isDigit digitsValue readDecimal)

def readSign : Bytes → Bool × Bytes
  | [] => (false, [])
  | b :: text =>
    if b = 45 then (true, text) else if b = 43 then (false, text) else (false, b :: text)

def signed (negative : Bool) (magnitude : ℕ) : ℤ := if negative then -magnitude else magnitude

/-- The integer that an optional sign and at least one digit denote. -/
def denoted (text : Bytes) : Option ℤ :=
  (readDecimal (readSign text).2).map (signed (readSign text).1)

def isSpace (b : Byte) : Bool := b = 32 || (9 ≤ b && b ≤ 13)

def InRange (value : ℤ) : Prop := -2 ^ 63 ≤ value ∧ value < 2 ^ 63

instance (value : ℤ) : Decidable (InRange value) :=
  inferInstanceAs (Decidable (_ ∧ _))

def saturate (value : ℤ) : ℤ := max (-2 ^ 63) (min value (2 ^ 63 - 1))

/-- `strtoll` in base ten: the value, and the text from the end pointer on. -/
def strtoll (text : Bytes) : ℤ × Bytes :=
  let (negative, body) := readSign (text.dropWhile isSpace)
  if body.takeWhile isDigit = [] then (0, text)
  else (saturate (signed negative (digitsValue (body.takeWhile isDigit))), body.dropWhile isDigit)

/-- The value, when the end pointer is at the end of the text. -/
def readWhole (text : Bytes) : Option ℤ :=
  if (strtoll text).2 = [] then some (strtoll text).1 else none

theorem saturate_eq_self_iff {value : ℤ} : saturate value = value ↔ InRange value := by
  rw [saturate, InRange]
  omega

/-! ## Texts that are read as a whole -/

theorem readDecimal_eq (body : Bytes) :
    readDecimal body =
      if body.takeWhile isDigit = [] ∨ body.dropWhile isDigit ≠ [] then none
      else some (digitsValue (body.takeWhile isDigit)) := by
  have hsplit : body.takeWhile isDigit ++ body.dropWhile isDigit = body :=
    takeWhile_append_dropWhile
  have hall : body.all isDigit = true ↔ body.dropWhile isDigit = [] := by
    rw [dropWhile_eq_nil_iff, all_eq_true]
  by_cases hrest : body.dropWhile isDigit = []
  · have htake : body.takeWhile isDigit = body := by
      rw [hrest, append_nil] at hsplit
      exact hsplit
    rw [readDecimal, htake]
    by_cases hbody : body = [] <;> simp [hall, hrest]
  · rw [readDecimal, if_neg (fun h => hrest (hall.mp h.2)), if_pos (.inr hrest)]

theorem readWhole_eq_some_iff {text : Bytes} {value : ℤ} :
    readWhole text = some value ↔
      text = [] ∧ value = 0 ∨ ∃ n, denoted (text.dropWhile isSpace) = some n ∧ saturate n = value := by
  rw [readWhole, strtoll, denoted, readDecimal_eq]
  cases hsign : readSign (text.dropWhile isSpace) with | mk negative body =>
  by_cases hdigits : body.takeWhile isDigit = []
  · have hvalue : (0 : ℤ) = value ↔ value = 0 := eq_comm
    simp [hdigits, hvalue]
  · have htext : text ≠ [] := by
      rintro rfl
      cases hsign
      exact hdigits rfl
    by_cases hrest : body.dropWhile isDigit = [] <;> simp [hdigits, hrest, htext]

theorem denoted_of_isSpace {b : Byte} (h : isSpace b = true) (text : Bytes) :
    denoted (b :: text) = none := by
  have hb : b ≠ 45 ∧ b ≠ 43 ∧ isDigit b = false := by
    simp only [isSpace, isDigit, Bool.or_eq_true, Bool.and_eq_true, Bool.and_eq_false_iff,
      decide_eq_true_eq, decide_eq_false_iff_not, UInt8.le_iff_toNat_le, ← UInt8.toNat_inj,
      ne_eq, UInt8.reduceToNat] at h ⊢
    omega
  rw [denoted, readSign, if_neg hb.1, if_neg hb.2.1, readDecimal_eq, takeWhile_cons, hb.2.2]
  simp

theorem readWhole_exact_iff {text : Bytes} :
    (∀ value, readWhole text = some value → denoted text = some value) ↔
      text ≠ [] ∧ ∀ n, denoted (text.dropWhile isSpace) = some n →
        text.dropWhile isSpace = text ∧ InRange n := by
  constructor
  · intro h
    refine ⟨?_, fun n hn => ?_⟩
    · rintro rfl
      have hzero := h 0 (readWhole_eq_some_iff.mpr (.inl ⟨rfl, rfl⟩))
      cases hzero
    · have hvalue := h _ (readWhole_eq_some_iff.mpr (.inr ⟨n, hn, rfl⟩))
      have hself : text.dropWhile isSpace = text := by
        cases text with
        | nil => rfl
        | cons b text =>
          cases hb : isSpace b with
          | true =>
            rw [denoted_of_isSpace hb] at hvalue
            cases hvalue
          | false => rw [dropWhile_cons, hb, if_neg Bool.false_ne_true]
      rw [hself, hvalue] at hn
      exact ⟨hself, saturate_eq_self_iff.mp (Option.some.inj hn)⟩
  · rintro ⟨hne, hrange⟩ value hvalue
    rcases readWhole_eq_some_iff.mp hvalue with ⟨hnil, -⟩ | ⟨n, hn, rfl⟩
    · exact absurd hnil hne
    · obtain ⟨hself, hin⟩ := hrange n hn
      rw [hself] at hn
      rw [hn, saturate_eq_self_iff.mpr hin]

end AstraApi.Decimal
