import AstraApi.Dispatch.QueryParsers

/-!
# Percent-decoding

The two loops that always write their result and the loop that writes only if it has to
decode the same text, and what they decode is what any form encoder was given.
-/

namespace AstraApi.Dispatch.PercentDecode

open List Option

/-- The byte of an escape sequence that has both of its digits. -/
def escapedByte (s : Bytes) (i : ℕ) (h : i < s.length) : Option Byte :=
  if s[i] = percent then
    if h : i + 2 < s.length then
      have := Nat.lt_of_succ_lt h
      match hexVal s[i + 1], hexVal s[i + 2] with
      | some hi, some lo => some (hi <<< 4 ||| lo)
      | _, _ => none
    else none
  else none

def decodeLoop (s : Bytes) (i : ℕ) (result : Bytes) : Bytes :=
  if h : i < s.length then
    match escapedByte s i h with
    | some b => decodeLoop s (i + 3) (result ++ [b])
    | none => decodeLoop s (i + 1) (result ++ [if s[i] = plus then space else s[i]])
  else result
termination_by s.length - i

def percentDecode (s : Bytes) : Bytes := decodeLoop s 0 []

/-- The buffer of the caller is cleared. -/
def percentDecodeInto (_out s : Bytes) : Bytes := decodeLoop s 0 []

/-- The loop of `percent_decode_into_if_needed`.  What was skipped is copied when the first
byte differs. -/
def ifNeededLoop (s : Bytes) (i : ℕ) (out : Bytes) (modified : Bool) : Bytes × Bool :=
  if h : i < s.length then
    match escapedByte s i h with
    | some b => ifNeededLoop s (i + 3) ((if modified then out else out ++ s.take i) ++ [b]) true
    | none =>
      if s[i] = plus then
        ifNeededLoop s (i + 1) ((if modified then out else out ++ s.take i) ++ [space]) true
      else if modified then ifNeededLoop s (i + 1) (out ++ [s[i]]) true
      else ifNeededLoop s (i + 1) out false
  else (out, modified)
termination_by s.length - i

/-- The buffer and the result, which says whether to use it. -/
def percentDecodeIntoIfNeeded (_out s : Bytes) : Bytes × Bool := ifNeededLoop s 0 [] false

/-! ## The loops -/

variable {s out : Bytes} {i : ℕ}

theorem step_cases (h : i < s.length) :
    (∃ b, escapedByte s i h = some b ∧ i + 3 ≤ s.length ∧
      Dispatch.percentDecode (s.drop i) = b :: Dispatch.percentDecode (s.drop (i + 3))) ∨
    escapedByte s i h = none ∧ Dispatch.percentDecode (s.drop i) =
      plusToSpaceByte s[i] :: Dispatch.percentDecode (s.drop (i + 1)) := by
  rw [drop_eq_getElem_cons h]
  by_cases hescape : escapedByte s i h = none
  · refine .inr ⟨hescape, percentDecode_literal fun high low tail hpercent hrest => ?_⟩
    have hlength := congrArg List.length hrest
    rw [length_drop, length_cons, length_cons] at hlength
    have hlong : i + 2 < s.length := by omega
    rw [drop_eq_getElem_cons (by omega), drop_eq_getElem_cons hlong] at hrest
    cases hrest
    rw [escapedByte, if_pos hpercent, dif_pos hlong] at hescape
    by_contra hnone
    obtain ⟨hhigh, hlow⟩ := not_or.mp hnone
    obtain ⟨hi, hhi⟩ := ne_none_iff_exists'.mp hhigh
    obtain ⟨lo, hlo⟩ := ne_none_iff_exists'.mp hlow
    simp [hhi, hlo] at hescape
  · obtain ⟨b, hb⟩ := ne_none_iff_exists'.mp hescape
    refine .inl ⟨b, hb, ?_⟩
    rw [escapedByte] at hb
    split at hb
    · next hpercent =>
      split at hb
      · next hlong =>
        dsimp only at hb
        split at hb
        · next hi lo hhi hlo =>
          cases hb
          refine ⟨hlong, ?_⟩
          rw [hpercent, drop_eq_getElem_cons (by omega : i + 1 < s.length),
            drop_eq_getElem_cons hlong]
          exact percentDecode_escape hhi hlo _
        · cases hb
      · cases hb
    · cases hb

theorem decodeLoop_eq (result : Bytes) :
    decodeLoop s i result = result ++ Dispatch.percentDecode (s.drop i) := by
  induction i, result using decodeLoop.induct s with
  | case1 i result h b hb ih =>
    rw [decodeLoop, dif_pos h]
    rcases step_cases h with ⟨b', hb', -, hstep⟩ | ⟨hnone, -⟩
    · cases hb.symm.trans hb'
      simp only [hb, ih, hstep, append_assoc, singleton_append]
    · cases hb.symm.trans hnone
  | case2 i result h hnone ih =>
    rw [decodeLoop, dif_pos h]
    rcases step_cases h with ⟨b', hb', -⟩ | ⟨-, hstep⟩
    · cases hnone.symm.trans hb'
    · simp only [dite_eq_ite] at ih
      simp only [hnone, ih, hstep, append_assoc, singleton_append, plusToSpaceByte]
  | case3 i result h =>
    rw [decodeLoop, dif_neg h, drop_eq_nil_of_le (not_lt.mp h)]
    exact (append_nil result).symm

theorem length_percentDecode_le (text : Bytes) :
    (Dispatch.percentDecode text).length ≤ text.length := by
  induction text using escape_induction with
  | hnil => simp [Dispatch.percentDecode]
  | hescape high low hi lo rest hhigh hlow ih =>
    rw [percentDecode_escape hhigh hlow]
    simp only [length_cons]
    omega
  | hliteral c rest hliteral ih =>
    rw [percentDecode_literal hliteral]
    exact Nat.succ_le_succ ih

/-- The loop has changed a byte already, or it leaves everything to the first change. -/
theorem ifNeededLoop_eq (modified : Bool) (hout : modified = false → out = []) :
    ifNeededLoop s i out modified =
      if modified = true then (out ++ Dispatch.percentDecode (s.drop i), true)
      else if Dispatch.percentDecode (s.drop i) = s.drop i then ([], false)
      else (s.take i ++ Dispatch.percentDecode (s.drop i), true) := by
  induction i, out, modified using ifNeededLoop.induct s with
  | case1 i out modified h b hb ih =>
    rw [ifNeededLoop, dif_pos h]
    rcases step_cases h with ⟨b', hb', hlong, hstep⟩ | ⟨hnone, -⟩
    · cases hb.symm.trans hb'
      have hshort := length_percentDecode_le (s.drop (i + 3))
      have hchanged : b :: Dispatch.percentDecode (s.drop (i + 3)) ≠ s.drop i := by
        intro heq
        have hlength := congrArg List.length heq
        simp only [length_cons, length_drop] at hlength hshort
        omega
      simp only [dite_eq_ite] at ih
      simp only [hb]
      rw [ih nofun, hstep]
      cases modified with
      | true => simp
      | false => simp [hout rfl, hchanged]
    · cases hb.symm.trans hnone
  | case2 i out modified h hnone hplus ih =>
    rw [ifNeededLoop, dif_pos h]
    rcases step_cases h with ⟨b', hb', -⟩ | ⟨-, hstep⟩
    · cases hnone.symm.trans hb'
    · have hspace : plusToSpaceByte s[i] = space := if_pos hplus
      have hchanged : space :: Dispatch.percentDecode (s.drop (i + 1)) ≠ s.drop i := by
        intro heq
        rw [drop_eq_getElem_cons h, hplus] at heq
        exact absurd (List.cons.inj heq).1 (by decide)
      simp only [dite_eq_ite] at ih
      simp only [hnone]
      rw [if_pos hplus, ih nofun, hstep, hspace]
      cases modified with
      | true => simp
      | false => simp [hout rfl, hchanged]
  | case3 i out h hnone hplus ih =>
    rw [ifNeededLoop, dif_pos h]
    rcases step_cases h with ⟨b', hb', -⟩ | ⟨-, hstep⟩
    · cases hnone.symm.trans hb'
    · have hsame : plusToSpaceByte s[i] = s[i] := if_neg hplus
      simp only [hnone]
      rw [if_neg hplus, ih nofun, hstep, hsame]
      simp
  | case4 i out modified h hnone hplus hmodified ih =>
    rw [ifNeededLoop, dif_pos h]
    rcases step_cases h with ⟨b', hb', -⟩ | ⟨-, hstep⟩
    · cases hnone.symm.trans hb'
    · have hsame : plusToSpaceByte s[i] = s[i] := if_neg hplus
      obtain rfl : modified = false := Bool.eq_false_iff.mpr hmodified
      simp only [hnone]
      rw [if_neg hplus, if_neg hmodified, ih hout, hstep, hsame, drop_eq_getElem_cons h,
        take_add_one, getElem?_eq_getElem h]
      simp only [List.cons.injEq, true_and, Bool.false_eq_true, if_false, toList_some,
        append_assoc, singleton_append]
  | case5 i out modified h =>
    rw [ifNeededLoop, dif_neg h, drop_eq_nil_of_le (not_lt.mp h)]
    cases modified with
    | true => simp [Dispatch.percentDecode]
    | false => simp [Dispatch.percentDecode, hout rfl]

/-! ## Form encoding -/

/-- A byte that an encoder can leave as it is. -/
def isUnreserved (b : Byte) : Bool :=
  48 ≤ b ∧ b ≤ 57 ∨ 65 ≤ b ∧ b ≤ 90 ∨ 97 ≤ b ∧ b ≤ 122 ∨ b ∈ ascii "-._~*"

/-- A digit of base 16, in either case. -/
def SpellsDigit (n : ℕ) (c : Byte) : Prop :=
  (ascii "0123456789abcdef")[n]? = some c ∨ (ascii "0123456789ABCDEF")[n]? = some c

/-- The encodings of a text for `application/x-www-form-urlencoded`. -/
inductive Encodes : Bytes → Bytes → Prop where
  | nil : Encodes [] []
  | literal {b : Byte} {text encoded : Bytes} (h : isUnreserved b = true)
      (rest : Encodes text encoded) : Encodes (b :: text) (b :: encoded)
  | space {text encoded : Bytes} (rest : Encodes text encoded) :
      Encodes (space :: text) (plus :: encoded)
  | escape {b high low : Byte} {text encoded : Bytes} (hhigh : SpellsDigit (b.toNat / 16) high)
      (hlow : SpellsDigit (b.toNat % 16) low) (rest : Encodes text encoded) :
      Encodes (b :: text) (percent :: high :: low :: encoded)

theorem hexVal_of_spellsDigit {n : ℕ} {c : Byte} (h : SpellsDigit n c) :
    hexVal c = some (UInt8.ofNat n) := by
  have hall : ∀ n < 16, ∀ digits ∈ [ascii "0123456789abcdef", ascii "0123456789ABCDEF"],
      digits[n]?.bind hexVal = some (UInt8.ofNat n) := by decide
  have hdigits (digits : Bytes) (hlength : digits.length = 16)
      (hmem : digits ∈ [ascii "0123456789abcdef", ascii "0123456789ABCDEF"])
      (hdigit : digits[n]? = some c) : hexVal c = some (UInt8.ofNat n) := by
    obtain ⟨hn, -⟩ := List.getElem?_eq_some_iff.mp hdigit
    have hvalue := hall n (hlength ▸ hn) digits hmem
    rwa [hdigit] at hvalue
  rcases h with h | h
  · exact hdigits _ (by decide) (by decide) h
  · exact hdigits _ (by decide) (by decide) h

theorem percentDecode_encoded {text encoded : Bytes} (h : Encodes text encoded) :
    Dispatch.percentDecode encoded = text := by
  induction h with
  | nil => simp [Dispatch.percentDecode]
  | @literal b text encoded h _ ih =>
    have hpercent : b ≠ percent := by
      rintro rfl
      exact absurd h (by decide)
    have hplus : b ≠ plus := by
      rintro rfl
      exact absurd h (by decide)
    rw [percentDecode_literal fun _ _ _ heq => absurd heq hpercent, ih, plusToSpaceByte,
      if_neg hplus]
  | space _ ih =>
    rw [percentDecode_literal fun _ _ _ heq => absurd heq (by decide), ih]
    rfl
  | @escape b high low text encoded hhigh hlow _ ih =>
    have hall : ∀ n < 256, UInt8.ofNat (n / 16) <<< 4 ||| UInt8.ofNat (n % 16) = UInt8.ofNat n := by
      decide +kernel
    have hbyte := hall b.toNat b.toNat_lt
    rw [UInt8.ofNat_toNat] at hbyte
    rw [percentDecode_escape (hexVal_of_spellsDigit hhigh) (hexVal_of_spellsDigit hlow), ih, hbyte]

/-- The three loops agree, and they undo every form encoding. -/
theorem percentDecode_agrees (s : Bytes) :
    (∀ out, percentDecodeInto out s = percentDecode s ∧ percentDecodeIntoIfNeeded out s =
        if percentDecode s = s then ([], false) else (percentDecode s, true)) ∧
    ∀ text, Encodes text s → percentDecode s = text := by
  have hdecode : percentDecode s = Dispatch.percentDecode s := decodeLoop_eq []
  refine ⟨fun out => ⟨rfl, ?_⟩, fun text h => hdecode.trans (percentDecode_encoded h)⟩
  rw [percentDecodeIntoIfNeeded, ifNeededLoop_eq false fun _ => rfl, hdecode]
  rfl

theorem percentDecode_agrees_slash : percentDecode (ascii "a+%2f%2F") = ascii "a //" := by
  refine (percentDecode_agrees _).2 _ ?_
  exact .literal (by decide) (.space (.escape (.inl rfl) (.inl rfl)
    (.escape (.inl rfl) (.inr rfl) .nil)))

end AstraApi.Dispatch.PercentDecode
