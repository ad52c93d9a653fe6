import AstraApi.Lib.Message
import AstraApi.Lib.Utf8

/-!
# JSON

A reader of JSON texts, on bytes.  It recurses on fuel, and as much fuel as the
text has bytes reads whatever can be read, so that what a text says is a relation
without fuel, with one rule for each kind of value.
-/

namespace AstraApi

open List Option

variable {text rest : Bytes} {c : CodePoint} {b : Byte}

inductive Json where
  | null
  | bool (value : Bool)
  | number (value : ℚ)
  | string (text : Text)
  | array (items : List Json)
  | object (members : List (Text × Json))

namespace Json

open Message (isDigit digitsValue)

def isSpace (b : Byte) : Bool := b = 0x20 ∨ b = 0x09 ∨ b = 0x0a ∨ b = 0x0d

def skipSpace (text : Bytes) : Bytes := text.dropWhile isSpace

/-! ## Numbers -/

/-- At least one digit, and what follows the last one. -/
def readDigits (text : Bytes) : Option (Bytes × Bytes) :=
  if text.takeWhile isDigit = [] then none
  else some (text.takeWhile isDigit, text.dropWhile isDigit)

def readFraction (text : Bytes) : Option (Bytes × Bytes) :=
  if text.head? = some 0x2e then readDigits text.tail else some ([], text)

def readExponent (text : Bytes) : Option (ℤ × Bytes) :=
  if text.head? = some 0x65 ∨ text.head? = some 0x45 then
    if text.tail.head? = some 0x2d then
      (readDigits text.tail.tail).map fun (digits, rest) => (-(digitsValue digits : ℤ), rest)
    else if text.tail.head? = some 0x2b then
      (readDigits text.tail.tail).map fun (digits, rest) => ((digitsValue digits : ℤ), rest)
    else (readDigits text.tail).map fun (digits, rest) => ((digitsValue digits : ℤ), rest)
  else some (0, text)

/-- A number without its sign.  Only zero itself starts with the digit zero. -/
def readMagnitude (text : Bytes) : Option (ℚ × Bytes) := do
  let (whole, rest) ← readDigits text
  if whole.head? = some 0x30 ∧ whole ≠ [0x30] then none
  else
    let (fraction, rest) ← readFraction rest
    let (exponent, rest) ← readExponent rest
    some (digitsValue (whole ++ fraction) * 10 ^ (exponent - fraction.length), rest)

def readNumber (text : Bytes) : Option (ℚ × Bytes) :=
  if text.head? = some 0x2d then
    (readMagnitude text.tail).map fun (value, rest) => (-value, rest)
  else readMagnitude text

/-! ## Strings -/

def hexValue (b : Byte) : Option ℕ :=
  if 0x30 ≤ b ∧ b ≤ 0x39 then some (b.toNat - 0x30)
  else if 0x61 ≤ b ∧ b ≤ 0x66 then some (b.toNat - 0x57)
  else if 0x41 ≤ b ∧ b ≤ 0x46 then some (b.toNat - 0x37)
  else none

/-- The four hexadecimal digits of a `\u` escape. -/
def readUnit : Bytes → Option (ℕ × Bytes)
  | a :: b :: c :: d :: rest => do
    let a ← hexValue a
    let b ← hexValue b
    let c ← hexValue c
    let d ← hexValue d
    some (((a * 16 + b) * 16 + c) * 16 + d, rest)
  | _ => none

/-- The second half of a surrogate pair. -/
def readLowSurrogate (text : Bytes) : Option (ℕ × Bytes) :=
  if text.take 2 = ascii "\\u" then
    (readUnit (text.drop 2)).filter fun (unit, _) => 0xdc00 ≤ unit ∧ unit ≤ 0xdfff
  else none

def readUnicode (text : Bytes) : Option (CodePoint × Bytes) := do
  let (unit, rest) ← readUnit text
  if 0xd800 ≤ unit ∧ unit ≤ 0xdbff then
    match readLowSurrogate rest with
    | some (low, rest) =>
      some (Fin.ofNat 0x110000 (0x10000 + (unit - 0xd800) * 0x400 + (low - 0xdc00)), rest)
    | none => some (Fin.ofNat 0x110000 unit, rest)
  else some (Fin.ofNat 0x110000 unit, rest)

def simpleEscape (b : Byte) : Option CodePoint :=
  if b = 0x22 ∨ b = 0x5c ∨ b = 0x2f then some (Fin.ofNat 0x110000 b.toNat)
  else if b = 0x62 then some 0x08
  else if b = 0x66 then some 0x0c
  else if b = 0x6e then some 0x0a
  else if b = 0x72 then some 0x0d
  else if b = 0x74 then some 0x09
  else none

def readEscape : Bytes → Option (CodePoint × Bytes)
  | [] => none
  | b :: rest =>
    if b = 0x75 then readUnicode rest else (simpleEscape b).map fun c => (c, rest)

/-- One character of a string. -/
def readChar : Bytes → Option (CodePoint × Bytes)
  | [] => none
  | b :: rest =>
    if b = 0x5c then readEscape rest
    else if b < 0x20 then none
    else decodeChar (b :: rest)

/-- The characters of a string up to the quote that ends it. -/
def readChars : ℕ → Bytes → Option (Text × Bytes)
  | 0, _ => none
  | fuel + 1, text =>
    if text.head? = some 0x22 then some ([], text.tail)
    else do
      let (c, rest) ← readChar text
      let (chars, rest) ← readChars fuel rest
      some (c :: chars, rest)

/-! ## Values -/

def readLiteral (literal : Bytes) (value : Json) (text : Bytes) : Option (Json × Bytes) :=
  if literal.isPrefixOf text then some (value, text.drop literal.length) else none

/-- One or more items with commas between them, up to the closing bracket. -/
def readSequence {α : Type} (one : Bytes → Option (α × Bytes)) (close : Byte) :
    ℕ → Bytes → Option (List α × Bytes)
  | 0, _ => none
  | fuel + 1, text => do
    let (item, rest) ← one text
    match skipSpace rest with
    | [] => none
    | b :: rest =>
      if b = 0x2c then do
        let (items, rest) ← readSequence one close fuel (skipSpace rest)
        some (item :: items, rest)
      else if b = close then some ([item], rest)
      else none

/-- A name, a colon and a value. -/
def readMember {α : Type} (one : Bytes → Option (α × Bytes)) (fuel : ℕ) (text : Bytes) :
    Option ((Text × α) × Bytes) :=
  if text.head? = some 0x22 then do
    let (name, rest) ← readChars fuel text.tail
    if (skipSpace rest).head? = some 0x3a then do
      let (value, rest) ← one (skipSpace (skipSpace rest).tail)
      some ((name, value), rest)
    else none
  else none

/-- The items between two brackets, of which the first one was read. -/
def readItems {α : Type} (one : Bytes → Option (α × Bytes)) (close : Byte) (fuel : ℕ)
    (text : Bytes) : Option (List α × Bytes) :=
  if (skipSpace text).head? = some close then some ([], (skipSpace text).tail)
  else readSequence one close fuel (skipSpace text)

def readValue : ℕ → Bytes → Option (Json × Bytes)
  | 0, _ => none
  | _ + 1, [] => none
  | fuel + 1, b :: rest =>
    if b = 0x6e then readLiteral (ascii "ull") .null rest
    else if b = 0x74 then readLiteral (ascii "rue") (.bool true) rest
    else if b = 0x66 then readLiteral (ascii "alse") (.bool false) rest
    else if b = 0x22 then
      (readChars fuel rest).map fun (text, rest) => (.string text, rest)
    else if b = 0x5b then
      (readItems (readValue fuel) 0x5d fuel rest).map fun (items, rest) => (.array items, rest)
    else if b = 0x7b then
      (readItems (readMember (readValue fuel) fuel) 0x7d fuel rest).map fun (members, rest) =>
        (.object members, rest)
    else (readNumber (b :: rest)).map fun (value, rest) => (.number value, rest)

def parse (text : Bytes) : Option Json :=
  match readValue text.length (skipSpace text) with
  | some (value, rest) => if skipSpace rest = [] then some value else none
  | none => none

/-! ## Characters and fuel -/

/-- What was passed are whole characters. -/
def Skips (text rest : Bytes) : Prop :=
  ∃ front : Text, front.Encodable ∧ text = front.bytes ++ rest

/-- At least one character was passed. -/
def Takes (text rest : Bytes) : Prop := Skips text rest ∧ rest.length < text.length

theorem skips_refl (text : Bytes) : Skips text text := ⟨[], forall_mem_nil _, rfl⟩

theorem Skips.trans {middle : Bytes} (h : Skips text middle) (h' : Skips middle rest) :
    Skips text rest := by
  obtain ⟨left, hleft, rfl⟩ := h
  obtain ⟨right, hright, rfl⟩ := h'
  refine ⟨left ++ right, forall_mem_append.mpr ⟨hleft, hright⟩, ?_⟩
  rw [Text.bytes_append, append_assoc]

theorem Skips.length_le (h : Skips text rest) : rest.length ≤ text.length := by
  obtain ⟨front, -, rfl⟩ := h
  rw [length_append]
  omega

theorem Takes.trans_skips {middle : Bytes} (h : Takes text middle)
    (h' : Skips middle rest) : Takes text rest :=
  ⟨h.1.trans h', lt_of_le_of_lt h'.length_le h.2⟩

theorem Skips.trans_takes {middle : Bytes} (h : Skips text middle)
    (h' : Takes middle rest) : Takes text rest :=
  ⟨h.trans h'.1, lt_of_lt_of_le h'.2 h.length_le⟩

theorem takes_char (hc : isSurrogate c = false) (rest : Bytes) :
    Takes (encode c ++ rest) rest := by
  have hpos := length_pos_of_ne_nil (encode_ne_nil c)
  refine ⟨⟨[c], forall_mem_singleton.mpr hc, ?_⟩, ?_⟩
  · rw [Text.bytes_cons, Text.bytes_nil, append_nil]
  · rw [length_append]
    omega

theorem takes_ascii (hb : b.toNat < 128) (rest : Bytes) : Takes (b :: rest) rest := by
  have hval : (Fin.ofNat 0x110000 b.toNat : CodePoint).val = b.toNat := by
    rw [Fin.val_ofNat, Nat.mod_eq_of_lt (by omega)]
  have hascii : (Fin.ofNat 0x110000 b.toNat : CodePoint).val < 128 := by omega
  have h := takes_char (isSurrogate_ascii hascii) rest
  rwa [encode_ascii hascii, hval, UInt8.ofNat_toNat] at h

theorem takes_head (h : text.head? = some b) (hb : b.toNat < 128) :
    Takes text text.tail := by
  obtain ⟨tail, rfl⟩ := head?_eq_some_iff.mp h
  exact takes_ascii hb _

theorem skips_dropWhile {p : Byte → Bool} (hp : ∀ b, p b = true → b.toNat < 128) (text : Bytes) :
    Skips text (text.dropWhile p) := by
  induction text with
  | nil => exact skips_refl []
  | cons b text ih =>
    cases hb : p b with
    | true =>
      rw [dropWhile_cons_of_pos hb]
      exact ((takes_ascii (hp b hb) _).trans_skips ih).1
    | false =>
      rw [dropWhile_cons_of_neg (Bool.not_eq_true _ ▸ hb)]
      exact skips_refl _

theorem isDigit_lt (h : isDigit b = true) : b.toNat < 128 := by
  simp only [isDigit, Bool.and_eq_true, decide_eq_true_eq, UInt8.le_iff_toNat_le] at h
  exact lt_of_le_of_lt h.2 (by decide)

theorem skips_skipSpace (text : Bytes) : Skips text (skipSpace text) := by
  refine skips_dropWhile (fun b hb => ?_) _
  simp only [isSpace, decide_eq_true_eq] at hb
  rcases hb with rfl | rfl | rfl | rfl <;> decide

theorem length_skipSpace_le (text : Bytes) : (skipSpace text).length ≤ text.length :=
  (skips_skipSpace _).length_le

theorem takes_readDigits {digits : Bytes} (h : readDigits text = some (digits, rest)) :
    Takes text rest := by
  rw [readDigits] at h
  split at h
  · cases h
  · next hne =>
    cases h
    cases text with
    | nil => exact absurd rfl hne
    | cons b text =>
      cases hb : isDigit b with
      | true =>
        rw [dropWhile_cons_of_pos hb]
        exact (takes_ascii (isDigit_lt hb) _).trans_skips (skips_dropWhile (fun _ => isDigit_lt) _)
      | false => exact absurd (takeWhile_cons_of_neg (by simp [hb])) hne

theorem skips_readFraction {digits : Bytes} (h : readFraction text = some (digits, rest)) :
    Skips text rest := by
  rw [readFraction] at h
  split at h
  · next hpoint => exact ((takes_head hpoint (by decide)).trans_skips (takes_readDigits h).1).1
  · cases h
    exact skips_refl _

theorem skips_readExponent {exponent : ℤ}
    (h : readExponent text = some (exponent, rest)) : Skips text rest := by
  have hdigits {start : Bytes} {f : ℕ → ℤ} (hstart : Skips text start)
      (h : (readDigits start).map (fun (digits, rest) => (f (digitsValue digits), rest)) =
        some (exponent, rest)) : Skips text rest := by
    obtain ⟨⟨digits, after⟩, hread, heq⟩ := map_eq_some_iff.mp h
    cases heq
    exact hstart.trans (takes_readDigits hread).1
  rw [readExponent] at h
  split at h
  · next hmarker =>
    have htail : Skips text text.tail := by
      cases hmarker with
      | inl hmarker | inr hmarker => exact (takes_head hmarker (by decide)).1
    split at h
    · next hminus =>
      exact hdigits (f := fun n => -(n : ℤ)) (htail.trans (takes_head hminus (by decide)).1) h
    · split at h
      · next hplus =>
        exact hdigits (f := fun n => (n : ℤ)) (htail.trans (takes_head hplus (by decide)).1) h
      · exact hdigits (f := fun n => (n : ℤ)) htail h
  · cases h
    exact skips_refl _

theorem takes_readMagnitude {value : ℚ}
    (h : readMagnitude text = some (value, rest)) : Takes text rest := by
  simp only [readMagnitude, bind_eq_bind, bind_eq_some_iff] at h
  obtain ⟨⟨whole, afterWhole⟩, hwhole, h⟩ := h
  split at h
  · cases h
  · simp only [bind_eq_some_iff] at h
    obtain ⟨⟨fraction, afterFraction⟩, hfraction, ⟨exponent, afterExponent⟩, hexponent, heq⟩ := h
    cases heq
    exact (takes_readDigits hwhole).trans_skips
      ((skips_readFraction hfraction).trans (skips_readExponent hexponent))

theorem takes_readNumber {value : ℚ}
    (h : readNumber text = some (value, rest)) : Takes text rest := by
  rw [readNumber] at h
  split at h
  · next hminus =>
    obtain ⟨⟨magnitude, after⟩, hread, heq⟩ := map_eq_some_iff.mp h
    cases heq
    exact (takes_head hminus (by decide)).1.trans_takes (takes_readMagnitude hread)
  · exact takes_readMagnitude h

theorem lt_of_hexValue {value : ℕ} (h : hexValue b = some value) : b.toNat < 128 := by
  rw [hexValue] at h
  split_ifs at h with hdigit hlower hupper
  · exact lt_of_le_of_lt (UInt8.le_iff_toNat_le.mp hdigit.2) (by decide)
  · exact lt_of_le_of_lt (UInt8.le_iff_toNat_le.mp hlower.2) (by decide)
  · exact lt_of_le_of_lt (UInt8.le_iff_toNat_le.mp hupper.2) (by decide)

theorem takes_readUnit {unit : ℕ} (h : readUnit text = some (unit, rest)) :
    Takes text rest := by
  rw [readUnit.eq_def] at h
  split at h
  · simp only [bind_eq_bind, bind_eq_some_iff] at h
    obtain ⟨_, ha, _, hb, _, hc, _, hd, heq⟩ := h
    cases heq
    have hlast := (takes_ascii (lt_of_hexValue hc) _).1.trans_takes (takes_ascii (lt_of_hexValue hd) rest)
    exact (takes_ascii (lt_of_hexValue ha) _).1.trans_takes
      ((takes_ascii (lt_of_hexValue hb) _).1.trans_takes hlast)
  · cases h

theorem takes_readLowSurrogate {unit : ℕ}
    (h : readLowSurrogate text = some (unit, rest)) : Takes text rest := by
  rw [readLowSurrogate] at h
  split at h
  · next hescape =>
    have htext : text = 0x5c :: 0x75 :: text.drop 2 := by
      conv_lhs => rw [← take_append_drop 2 text, hescape]
      rfl
    have hskips : Skips text (text.drop 2) := by
      rw [htext]
      exact ((takes_ascii (by decide) _).trans_skips (takes_ascii (by decide) _).1).1
    exact hskips.trans_takes (takes_readUnit (filter_eq_some_iff.mp h).1)
  · cases h

theorem takes_readUnicode (h : readUnicode text = some (c, rest)) : Takes text rest := by
  simp only [readUnicode, bind_eq_bind, bind_eq_some_iff] at h
  obtain ⟨⟨unit, after⟩, hunit, h⟩ := h
  have htakes := takes_readUnit hunit
  split at h
  · split at h
    · next low afterLow hlow =>
      rw [← (Prod.mk.inj (Option.some.inj h)).2]
      exact htakes.trans_skips (takes_readLowSurrogate hlow).1
    · rwa [← (Prod.mk.inj (Option.some.inj h)).2]
  · rwa [← (Prod.mk.inj (Option.some.inj h)).2]

theorem lt_of_simpleEscape (h : simpleEscape b = some c) :
    b.toNat < 128 := by
  rw [simpleEscape] at h
  split_ifs at h with hself hb hf hn hr ht
  · rcases hself with rfl | rfl | rfl <;> decide
  · rw [hb]; decide
  · rw [hf]; decide
  · rw [hn]; decide
  · rw [hr]; decide
  · rw [ht]; decide

theorem takes_readChar (h : readChar text = some (c, rest)) :
    Takes text rest := by
  cases text with
  | nil => cases h
  | cons b text =>
    rw [readChar] at h
    split at h
    · next hslash =>
      subst hslash
      cases text with
      | nil => cases h
      | cons e text =>
        rw [readEscape] at h
        have hskips := (takes_ascii (b := 0x5c) (by decide) (e :: text)).1
        split at h
        · next hu =>
          subst hu
          exact (hskips.trans (takes_ascii (by decide) _).1).trans_takes (takes_readUnicode h)
        · obtain ⟨d, hescape, heq⟩ := map_eq_some_iff.mp h
          cases heq
          exact hskips.trans_takes (takes_ascii (lt_of_simpleEscape hescape) _)
    · split at h
      · cases h
      · obtain ⟨hc, heq⟩ := decodeChar_eq_some_iff.mp h
        rw [heq]
        exact takes_char hc _

/-- Whatever is read are whole characters, and the reader reads it with as much fuel as
it takes bytes. -/
def Exact {α : Type} (reads : Bytes → α → Bytes → Prop)
    (read : ℕ → Bytes → Option (α × Bytes)) : Prop :=
  ∀ {text : Bytes} {value : α} {rest : Bytes}, reads text value rest →
    Takes text rest ∧
      ∀ enough, text.length ≤ enough + rest.length → read enough text = some (value, rest)

/-- What a string says. -/
def ReadsChars (text : Bytes) (chars : Text) (rest : Bytes) : Prop :=
  ∃ fuel, readChars fuel text = some (chars, rest)

theorem exact_readChars : Exact ReadsChars readChars := by
  rintro text chars rest ⟨fuel, h⟩
  induction fuel generalizing text chars rest with
  | zero => cases h
  | succ fuel ih =>
    rw [readChars] at h
    split at h
    · next hquote =>
      cases h
      obtain ⟨tail, rfl⟩ := head?_eq_some_iff.mp hquote
      refine ⟨takes_ascii (by decide) _, fun enough henough => ?_⟩
      cases enough with
      | zero => simp at henough
      | succ enough => rw [readChars, if_pos hquote]
    · next hquote =>
      simp only [bind_eq_bind, bind_eq_some_iff] at h
      obtain ⟨⟨c, afterChar⟩, hchar, ⟨chars, afterChars⟩, hchars, heq⟩ := h
      cases heq
      obtain ⟨hskips, hshort⟩ := takes_readChar hchar
      obtain ⟨⟨hskipsMore, hrest⟩, hmore⟩ : Takes afterChar afterChars ∧ _ := ih hchars
      refine ⟨⟨hskips.trans hskipsMore, hrest.trans hshort⟩,
        fun enough (henough : text.length ≤ enough + afterChars.length) => ?_⟩
      cases enough with
      | zero => omega
      | succ enough =>
        rw [readChars, if_neg hquote, hchar]
        simp only [bind_eq_bind, bind_some]
        rw [hmore _ (by omega), bind_some]

section Items

variable {α : Type} {reads : Bytes → α → Bytes → Prop} {one : ℕ → Bytes → Option (α × Bytes)}
  {close : Byte}

/-- One or more items with commas between them and a closing bracket. -/
inductive Sequence (reads : Bytes → α → Bytes → Prop) (close : Byte) :
    Bytes → List α → Bytes → Prop
  | last {text tail rest : Bytes} {item : α} (hitem : reads text item tail)
      (hclose : skipSpace tail = close :: rest) : Sequence reads close text [item] rest
  | more {text tail next rest : Bytes} {item : α} {items : List α}
      (hitem : reads text item tail) (hcomma : skipSpace tail = 0x2c :: next)
      (hitems : Sequence reads close (skipSpace next) items rest) :
      Sequence reads close text (item :: items) rest

theorem sequence_of_readSequence {read : Bytes → Option (α × Bytes)} {count : ℕ}
    {items : List α} (h : readSequence read close count text = some (items, rest)) :
    Sequence (fun text item rest => read text = some (item, rest)) close text items rest := by
  induction count generalizing text items with
  | zero => cases h
  | succ count ih =>
    simp only [readSequence, bind_eq_bind, bind_eq_some_iff] at h
    obtain ⟨⟨item, tail⟩, hitem, h⟩ := h
    cases hskip : skipSpace tail with
    | nil => simp only [hskip] at h; cases h
    | cons b next =>
      simp only [hskip] at h
      split at h
      · next hcomma =>
        obtain ⟨⟨items, afterItems⟩, hitems, heq⟩ := bind_eq_some_iff.mp h
        cases heq
        subst hcomma
        exact .more hitem hskip (ih hitems)
      · split at h
        · next hclose =>
          cases h
          subst hclose
          exact .last hitem hskip
        · cases h

theorem Sequence.exact (hexact : Exact reads one) (hcomma : close ≠ 0x2c)
    (hascii : close.toNat < 128) {text rest : Bytes}
    {items : List α} (h : Sequence reads close text items rest) :
    Takes text rest ∧ ∀ enough count, text.length ≤ enough + rest.length →
      text.length ≤ count + rest.length →
      readSequence (one enough) close count text = some (items, rest) := by
  induction h with
  | @last text tail rest item hitem hclose =>
    obtain ⟨htakes, hread⟩ := hexact hitem
    have hshort := htakes.2
    have hskips := skips_skipSpace tail
    have htail := length_skipSpace_le tail
    rw [hclose] at hskips htail
    rw [length_cons] at htail
    refine ⟨htakes.trans_skips (hskips.trans (takes_ascii hascii _).1),
      fun enough count henough hcount => ?_⟩
    cases count with
    | zero => omega
    | succ count =>
      rw [readSequence, hread _ (by omega)]
      simp only [bind_eq_bind, bind_some, hclose]
      rw [if_neg hcomma, if_pos trivial]
  | @more text tail next rest item items hitem hskip _ ih =>
    obtain ⟨htakes, hread⟩ := hexact hitem
    obtain ⟨⟨hskipsMore, hrest⟩, hmore⟩ := ih
    have hshort := htakes.2
    have hskips := skips_skipSpace tail
    have htail := length_skipSpace_le tail
    have hnext := length_skipSpace_le next
    rw [hskip] at hskips htail
    rw [length_cons] at htail
    have hcommaSkips := hskips.trans (takes_ascii (by decide) _).1
    refine ⟨htakes.trans_skips (hcommaSkips.trans ((skips_skipSpace _).trans hskipsMore)),
      fun enough count henough hcount => ?_⟩
    cases count with
    | zero => omega
    | succ count =>
      rw [readSequence, hread _ (by omega)]
      simp only [bind_eq_bind, bind_some, hskip]
      rw [if_pos trivial, hmore _ _ (by omega) (by omega), bind_some]

/-- Two brackets and the items between them, without the first bracket. -/
inductive Items (reads : Bytes → α → Bytes → Prop) (close : Byte) :
    Bytes → List α → Bytes → Prop
  | empty {text rest : Bytes} (hclose : skipSpace text = close :: rest) :
      Items reads close text [] rest
  | items {text rest : Bytes} {items : List α} (hopen : (skipSpace text).head? ≠ some close)
      (hitems : Sequence reads close (skipSpace text) items rest) :
      Items reads close text items rest

theorem items_of_readItems {read : Bytes → Option (α × Bytes)} {count : ℕ}
    {items : List α} (h : readItems read close count text = some (items, rest)) :
    Items (fun text item rest => read text = some (item, rest)) close text items rest := by
  rw [readItems] at h
  split at h
  · next hclose =>
    obtain ⟨tail, htail⟩ := head?_eq_some_iff.mp hclose
    rw [htail] at h
    cases h
    exact .empty htail
  · next hopen => exact .items hopen (sequence_of_readSequence h)

theorem Items.exact (hexact : Exact reads one) (hcomma : close ≠ 0x2c)
    (hascii : close.toNat < 128) {text rest : Bytes} {items : List α}
    (h : Items reads close text items rest) : Takes text rest ∧ ∀ enough count, text.length ≤ enough + rest.length →
      text.length ≤ count + rest.length →
      readItems (one enough) close count text = some (items, rest) := by
  have hskip := length_skipSpace_le text
  cases h with
  | empty hclose =>
    have hskips := skips_skipSpace text
    rw [hclose] at hskips
    refine ⟨hskips.trans_takes (takes_ascii hascii _), fun enough count _ _ => ?_⟩
    rw [readItems, hclose, if_pos head?_cons, tail_cons]
  | items hopen hitems =>
    obtain ⟨htakes, hread⟩ := hitems.exact hexact hcomma hascii
    refine ⟨(skips_skipSpace _).trans_takes htakes, fun enough count henough hcount => ?_⟩
    rw [readItems, if_neg hopen, hread _ _ (by omega) (by omega)]

inductive Member (reads : Bytes → α → Bytes → Prop) : Bytes → Text × α → Bytes → Prop
  | mk {text tail next rest : Bytes} {name : Text} {value : α} (hname : ReadsChars text name tail)
      (hcolon : skipSpace tail = 0x3a :: next) (hvalue : reads (skipSpace next) value rest) :
      Member reads (0x22 :: text) (name, value) rest

theorem member_of_readMember {read : Bytes → Option (α × Bytes)} {fuel : ℕ}
    {entry : Text × α} (h : readMember read fuel text = some (entry, rest)) :
    Member (fun text item rest => read text = some (item, rest)) text entry rest := by
  rw [readMember] at h
  split at h
  · next hquote =>
    obtain ⟨tail, rfl⟩ := head?_eq_some_iff.mp hquote
    simp only [bind_eq_bind, bind_eq_some_iff, tail_cons] at h
    obtain ⟨⟨name, afterName⟩, hname, h⟩ := h
    split at h
    · next hcolon =>
      obtain ⟨next, hnext⟩ := head?_eq_some_iff.mp hcolon
      obtain ⟨⟨value, afterValue⟩, hvalue, heq⟩ := bind_eq_some_iff.mp h
      cases heq
      simp only [hnext, tail_cons] at hvalue
      exact .mk ⟨fuel, hname⟩ hnext hvalue
    · cases h
  · cases h

theorem Member.exact (hexact : Exact reads one) :
    Exact (Member reads) fun fuel => readMember (one fuel) fuel := by
  intro text entry rest h
  cases h with
  | @mk text tail next _ name value hname hcolon hvalue =>
    obtain ⟨htakes, hread⟩ := exact_readChars hname
    obtain ⟨htakesValue, hreadValue⟩ := hexact hvalue
    have hshort := htakes.2
    have hrest := htakesValue.2
    have hskips := skips_skipSpace tail
    have htail := length_skipSpace_le tail
    have hnext := length_skipSpace_le next
    rw [hcolon] at hskips htail
    rw [length_cons] at htail
    have hname := ((takes_ascii (b := 0x22) (by decide) _).trans_skips htakes.1).1
    have hcolonSkips := hskips.trans (takes_ascii (by decide) _).1
    refine ⟨(hname.trans hcolonSkips).trans_takes ((skips_skipSpace _).trans_takes htakesValue),
      fun enough henough => ?_⟩
    rw [length_cons] at henough
    show readMember _ _ _ = some ((name, value), rest)
    rw [readMember, if_pos head?_cons, tail_cons, hread _ (by omega)]
    simp only [bind_eq_bind, bind_some, hcolon, head?_cons, tail_cons]
    rw [if_pos trivial, hreadValue _ (by omega), bind_some]

end Items

/-! ## What a text says -/

def Reads (text : Bytes) (value : Json) (rest : Bytes) : Prop :=
  ∃ fuel, readValue fuel text = some (value, rest)

theorem Sequence.imp {α : Type} {reads reads' : Bytes → α → Bytes → Prop} {close : Byte}
    {text rest : Bytes} {items : List α}
    (himp : ∀ {text item rest}, reads text item rest → reads' text item rest)
    (h : Sequence reads close text items rest) : Sequence reads' close text items rest := by
  induction h with
  | last hitem hclose => exact .last (himp hitem) hclose
  | more hitem hcomma _ ih => exact .more (himp hitem) hcomma ih

theorem Items.imp {α : Type} {reads reads' : Bytes → α → Bytes → Prop} {close : Byte}
    {text rest : Bytes} {items : List α}
    (himp : ∀ {text item rest}, reads text item rest → reads' text item rest)
    (h : Items reads close text items rest) : Items reads' close text items rest := by
  cases h with
  | empty hclose => exact .empty hclose
  | items hopen hitems => exact .items hopen (hitems.imp himp)

theorem Member.imp {α : Type} {reads reads' : Bytes → α → Bytes → Prop}
    (himp : ∀ {text item rest}, reads text item rest → reads' text item rest)
    {text rest : Bytes} {entry : Text × α} (h : Member reads text entry rest) :
    Member reads' text entry rest := by
  cases h with
  | mk hname hcolon hvalue => exact .mk hname hcolon (himp hvalue)

theorem skips_readLiteral {literal : Bytes} {value found : Json}
    (hascii : ∀ b ∈ literal, b.toNat < 128)
    (h : readLiteral literal value text = some (found, rest)) : Skips text rest := by
  rw [readLiteral] at h
  split at h
  · next hprefix =>
    cases h
    obtain ⟨tail, rfl⟩ := isPrefixOf_iff_prefix.mp hprefix
    clear hprefix
    induction literal with
    | nil => exact skips_refl _
    | cons b literal ih =>
      obtain ⟨hb, hmore⟩ := forall_mem_cons.mp hascii
      exact ((takes_ascii hb _).trans_skips (ih hmore)).1
  · cases h

theorem exact_readValue_fuel (fuel : ℕ) :
    Exact (fun text value rest => readValue fuel text = some (value, rest)) readValue := by
  induction fuel with
  | zero => exact fun h => nomatch h
  | succ fuel ih =>
    intro text value rest h
    cases text with
    | nil => cases h
    | cons b text =>
      suffices Takes (b :: text) rest ∧ ∀ n, text.length ≤ n + rest.length →
          readValue (n + 1) (b :: text) = some (value, rest) by
        refine ⟨this.1, fun enough henough => ?_⟩
        have hshort := this.1.2
        rw [length_cons] at henough hshort
        cases enough with
        | zero => omega
        | succ enough => exact this.2 enough (by omega)
      simp only [readValue] at h ⊢
      split_ifs at h ⊢ with hn ht hf hquote harray hobject
      · exact ⟨(takes_ascii (by rw [hn]; decide) _).trans_skips
          (skips_readLiteral (by decide) h), fun _ _ => h⟩
      · exact ⟨(takes_ascii (by rw [ht]; decide) _).trans_skips
          (skips_readLiteral (by decide) h), fun _ _ => h⟩
      · exact ⟨(takes_ascii (by rw [hf]; decide) _).trans_skips
          (skips_readLiteral (by decide) h), fun _ _ => h⟩
      · obtain ⟨⟨chars, afterChars⟩, hchars, heq⟩ := map_eq_some_iff.mp h
        cases heq
        obtain ⟨htakes, hread⟩ := exact_readChars ⟨fuel, hchars⟩
        refine ⟨(takes_ascii (by rw [hquote]; decide) _).trans_skips htakes.1, fun n hn => ?_⟩
        rw [hread n hn, map_some]
      · obtain ⟨⟨items, afterItems⟩, hitems, heq⟩ := map_eq_some_iff.mp h
        cases heq
        obtain ⟨htakes, hread⟩ := (items_of_readItems hitems).exact ih (by decide) (by decide)
        refine ⟨(takes_ascii (by rw [harray]; decide) _).trans_skips htakes.1, fun n hn => ?_⟩
        rw [hread n n hn hn, map_some]
      · obtain ⟨⟨members, afterMembers⟩, hmembers, heq⟩ := map_eq_some_iff.mp h
        cases heq
        have hitems := (items_of_readItems hmembers).imp member_of_readMember
        obtain ⟨htakes, hread⟩ := hitems.exact (Member.exact ih) (by decide) (by decide)
        refine ⟨(takes_ascii (by rw [hobject]; decide) _).trans_skips htakes.1, fun n hn => ?_⟩
        rw [hread n n hn hn, map_some]
      · obtain ⟨⟨number, afterNumber⟩, hnumber, heq⟩ := map_eq_some_iff.mp h
        cases heq
        exact ⟨takes_readNumber hnumber, fun _ _ => h⟩

theorem exact_readValue : Exact Reads readValue := by
  rintro text value rest ⟨fuel, h⟩
  exact exact_readValue_fuel _ h

theorem parse_eq_some_iff {value : Json} :
    parse text = some value ↔ ∃ rest, Reads (skipSpace text) value rest ∧ skipSpace rest = [] := by
  rw [parse]
  constructor
  · intro h
    split at h
    · next found rest hread =>
      split at h
      · next hrest =>
        cases h
        exact ⟨rest, ⟨_, hread⟩, hrest⟩
      · cases h
    · cases h
  · rintro ⟨rest, hreads, hrest⟩
    have hlength := length_skipSpace_le text
    rw [(exact_readValue hreads).2 text.length (by omega)]
    exact if_pos hrest

theorem exists_utf8_of_parse {value : Json} (h : parse text = some value) :
    ∃ decoded : Text, decoded.utf8 = some text := by
  obtain ⟨rest, hreads, hrest⟩ := parse_eq_some_iff.mp h
  have hskips := (exact_readValue hreads).1.1.trans (skips_skipSpace _)
  obtain ⟨decoded, hencodable, heq⟩ := (skips_skipSpace _).trans hskips
  rw [hrest, append_nil] at heq
  exact ⟨decoded, Text.utf8_eq_some_iff.mpr ⟨hencodable, heq.symm⟩⟩

def Valid (text : Bytes) : Prop :=
  (∃ decoded : Text, decoded.utf8 = some text) ∧ ∃ value, parse text = some value

theorem valid_of_parse {value : Json} (h : parse text = some value) : Valid text :=
  ⟨exists_utf8_of_parse h, value, h⟩

theorem reads_array_iff {value : Json} :
    Reads (0x5b :: text) value rest ↔ ∃ items, value = .array items ∧ Items Reads 0x5d text items rest := by
  constructor
  · rintro ⟨fuel, h⟩
    cases fuel with
    | zero => cases h
    | succ fuel =>
      obtain ⟨⟨items, afterItems⟩, hitems, heq⟩ := map_eq_some_iff.mp h
      cases heq
      exact ⟨items, rfl, (items_of_readItems hitems).imp fun h => ⟨fuel, h⟩⟩
  · rintro ⟨items, rfl, hitems⟩
    obtain ⟨-, hread⟩ := hitems.exact exact_readValue (by decide) (by decide)
    refine ⟨text.length + 1, ?_⟩
    show (readItems _ 0x5d _ _).map _ = _
    rw [hread _ _ (by omega) (by omega), map_some]

theorem reads_object_iff {value : Json} :
    Reads (0x7b :: text) value rest ↔
      ∃ members, value = .object members ∧ Items (Member Reads) 0x7d text members rest := by
  constructor
  · rintro ⟨fuel, h⟩
    cases fuel with
    | zero => cases h
    | succ fuel =>
      obtain ⟨⟨members, afterMembers⟩, hmembers, heq⟩ := map_eq_some_iff.mp h
      cases heq
      exact ⟨members, rfl, (items_of_readItems hmembers).imp fun h =>
        (member_of_readMember h).imp fun h => ⟨fuel, h⟩⟩
  · rintro ⟨members, rfl, hmembers⟩
    obtain ⟨-, hread⟩ := hmembers.exact (Member.exact exact_readValue) (by decide) (by decide)
    refine ⟨text.length + 1, ?_⟩
    show (readItems _ 0x7d _ _).map _ = _
    rw [hread _ _ (by omega) (by omega), map_some]

theorem reads_string_iff {value : Json} :
    Reads (0x22 :: text) value rest ↔ ∃ chars, value = .string chars ∧ ReadsChars text chars rest := by
  constructor
  · rintro ⟨fuel, h⟩
    cases fuel with
    | zero => cases h
    | succ fuel =>
      obtain ⟨⟨chars, afterChars⟩, hchars, heq⟩ := map_eq_some_iff.mp h
      cases heq
      exact ⟨chars, rfl, fuel, hchars⟩
  · rintro ⟨chars, rfl, fuel, h⟩
    refine ⟨fuel + 1, ?_⟩
    show (readChars _ _).map _ = _
    rw [h, map_some]

theorem head_of_reads_string {chars : Text}
    (h : Reads text (.string chars) rest) : ∃ tail, text = 0x22 :: tail := by
  have hliteral {literal found : Bytes} {value : Json} (hvalue : value ≠ .string chars)
      (hread : readLiteral literal value found = some (.string chars, rest)) : False := by
    rw [readLiteral] at hread
    split at hread
    · exact hvalue (Prod.mk.inj (Option.some.inj hread)).1
    · cases hread
  obtain ⟨fuel, h⟩ := h
  cases fuel with
  | zero => cases h
  | succ fuel =>
    cases text with
    | nil => cases h
    | cons b text =>
      simp only [readValue] at h
      split_ifs at h with hn ht hf hquote harray hobject
      · refine (hliteral ?_ h).elim
        nofun
      · refine (hliteral ?_ h).elim
        nofun
      · refine (hliteral ?_ h).elim
        nofun
      · exact ⟨text, by rw [hquote]⟩
      · obtain ⟨_, -, heq⟩ := map_eq_some_iff.mp h
        cases heq
      · obtain ⟨_, -, heq⟩ := map_eq_some_iff.mp h
        cases heq
      · obtain ⟨_, -, heq⟩ := map_eq_some_iff.mp h
        cases heq

theorem reads_number_iff {value : Json}
    (hb : b ∉ [0x6e, 0x74, 0x66, 0x22, 0x5b, (0x7b : Byte)]) :
    Reads (b :: text) value rest ↔
      ∃ number, value = .number number ∧ readNumber (b :: text) = some (number, rest) := by
  have hstep (fuel : ℕ) : readValue (fuel + 1) (b :: text) =
      (readNumber (b :: text)).map fun (value, rest) => (.number value, rest) := by
    simp only [mem_cons, not_mem_nil, or_false, not_or] at hb
    rw [readValue, if_neg hb.1, if_neg hb.2.1, if_neg hb.2.2.1, if_neg hb.2.2.2.1,
      if_neg hb.2.2.2.2.1, if_neg hb.2.2.2.2.2]
  constructor
  · rintro ⟨fuel, h⟩
    cases fuel with
    | zero => cases h
    | succ fuel =>
      rw [hstep] at h
      obtain ⟨⟨number, afterNumber⟩, hnumber, heq⟩ := map_eq_some_iff.mp h
      cases heq
      exact ⟨number, rfl, hnumber⟩
  · rintro ⟨number, rfl, h⟩
    exact ⟨1, by rw [hstep, h, map_some]⟩

theorem reads_literal_iff {literal : Bytes} {value found : Json}
    (hb : (b, literal, found) ∈ [(0x6e, ascii "ull", Json.null), (0x74, ascii "rue", .bool true),
      (0x66, ascii "alse", .bool false)]) :
    Reads (b :: text) value rest ↔ value = found ∧ text = literal ++ rest := by
  have hstep (fuel : ℕ) : readValue (fuel + 1) (b :: text) = readLiteral literal found text := by
    simp only [mem_cons, not_mem_nil, or_false, Prod.mk.injEq] at hb
    rcases hb with ⟨rfl, rfl, rfl⟩ | ⟨rfl, rfl, rfl⟩ | ⟨rfl, rfl, rfl⟩ <;> rfl
  constructor
  · rintro ⟨fuel, h⟩
    cases fuel with
    | zero => cases h
    | succ fuel =>
      rw [hstep, readLiteral] at h
      split at h
      · next hprefix =>
        cases h
        obtain ⟨tail, rfl⟩ := isPrefixOf_iff_prefix.mp hprefix
        rw [drop_left]
        exact ⟨rfl, rfl⟩
      · cases h
  · rintro ⟨rfl, rfl⟩
    refine ⟨1, ?_⟩
    rw [hstep, readLiteral, if_pos (List.isPrefixOf_iff_prefix.mpr (prefix_append _ _)), drop_left]

end Json

end AstraApi
