import AstraApi.Lib.Text

/-!
# The bytes of a string

The encodings of two code points are equal or differ before the shorter one ends.  A
string can therefore be read back from its bytes, and ASCII characters stand for
themselves among them.
-/

namespace AstraApi

open List Option

variable {c : CodePoint} {text : Text}

def encode (c : CodePoint) : Bytes := String.utf8EncodeChar (Char.ofNat c.val)

def Text.bytes (text : Text) : Bytes := text.flatMap encode

def Text.Encodable (text : Text) : Prop := ∀ c ∈ text, isSurrogate c = false

instance (text : Text) : Decidable text.Encodable := List.decidableBAll _ _

@[simp]
theorem Text.bytes_nil : Text.bytes [] = [] := rfl

@[simp]
theorem Text.bytes_cons (c : CodePoint) (text : Text) :
    Text.bytes (c :: text) = encode c ++ Text.bytes text := rfl

theorem Text.bytes_append (left right : Text) :
    Text.bytes (left ++ right) = Text.bytes left ++ Text.bytes right :=
  flatMap_append

theorem encodeCodePoint_of_encodable (h : isSurrogate c = false) :
    encodeCodePoint c = some (encode c) := by
  rw [encodeCodePoint, h, if_neg Bool.false_ne_true]
  rfl

/-- A string has an encoding unless it has a surrogate. -/
theorem Text.utf8_eq_some_iff {bytes : Bytes} :
    text.utf8 = some bytes ↔ text.Encodable ∧ text.bytes = bytes := by
  rw [Text.utf8]
  induction text generalizing bytes with
  | nil => simp [Text.Encodable]
  | cons c text ih =>
    cases hc : isSurrogate c with
    | true =>
      apply iff_of_false
      · simp [encodeCodePoint, hc]
      · rintro ⟨h, -⟩
        rw [h c mem_cons_self] at hc
        cases hc
    | false =>
      rw [mapM_cons, encodeCodePoint_of_encodable hc]
      have htail (bytes : Bytes) : (text.mapM encodeCodePoint).map List.flatten = some bytes ↔
          Text.Encodable text ∧ Text.bytes text = bytes := ih
      cases hcodes : text.mapM encodeCodePoint with
      | none =>
        apply iff_of_false
        · simp
        · rintro ⟨h, -⟩
          have hsome := (htail _).mpr ⟨fun d hd => h d (mem_cons_of_mem c hd), rfl⟩
          rw [hcodes] at hsome
          cases hsome
      | some codes =>
        obtain ⟨hencodable, hbytes⟩ := (htail _).mp (by rw [hcodes]; rfl)
        have hall : Text.Encodable (c :: text) := by
          intro d hd
          cases mem_cons.mp hd with
          | inl heq => rw [heq, hc]
          | inr hmem => exact hencodable d hmem
        simp [hall, hbytes]

theorem isSurrogate_ascii (h : c.val < 128) : isSurrogate c = false := by
  rw [isSurrogate, Bool.and_eq_false_iff]
  exact .inl (decide_eq_false (by omega))

/-- The number of a code point is that of its character. -/
theorem val_ofNat (h : isSurrogate c = false) :
    (Char.ofNat c.val).val.toNat = c.val := by
  have hvalid : c.val.isValidChar := by
    rw [isSurrogate, Bool.and_eq_false_iff, decide_eq_false_iff_not, decide_eq_false_iff_not] at h
    omega
  rw [Char.ofNat, dif_pos hvalid]
  rfl

theorem encode_ascii (h : c.val < 128) : encode c = [UInt8.ofNat c.val] := by
  rw [encode, String.utf8EncodeChar, val_ofNat (isSurrogate_ascii h), if_pos (by omega)]

theorem encodeCodePoint_ascii (h : c.val < 128) :
    encodeCodePoint c = some [UInt8.ofNat c.val] := by
  rw [encodeCodePoint_of_encodable (isSurrogate_ascii h), encode_ascii h]

theorem encode_ne_nil (c : CodePoint) : encode c ≠ [] := by
  intro h
  have hlength := String.length_utf8EncodeChar (Char.ofNat c.val)
  rw [show String.utf8EncodeChar (Char.ofNat c.val) = [] from h] at hlength
  exact absurd hlength.symm (Char.utf8Size_pos _).ne'

/-- A byte of ASCII stands only for the character of that number. -/
theorem le_of_mem_encode (hc : isSurrogate c = false) (h : 128 ≤ c.val) :
    ∀ b ∈ encode c, 128 ≤ b.toNat := by
  rw [encode, String.utf8EncodeChar, val_ofNat hc, if_neg (by omega)]
  intro b hb
  split at hb
  · simp only [mem_cons, not_mem_nil, or_false] at hb
    rcases hb with rfl | rfl <;> simp <;> omega
  · split at hb
    · simp only [mem_cons, not_mem_nil, or_false] at hb
      rcases hb with rfl | rfl | rfl <;> simp <;> omega
    · simp only [mem_cons, not_mem_nil, or_false] at hb
      rcases hb with rfl | rfl | rfl | rfl <;> simp <;> omega

/-- The first character of a byte string that starts with one, and what follows it. -/
def decodeChar (bytes : Bytes) : Option (CodePoint × Bytes) :=
  (ByteArray.utf8DecodeChar? bytes.toByteArray 0).map fun c =>
    (Fin.ofNat 0x110000 c.toNat, bytes.drop c.utf8Size)

theorem val_toNat (c : Char) : (Fin.ofNat 0x110000 c.toNat : CodePoint).val = c.toNat := by
  have hvalid : c.toNat.isValidChar := c.valid
  rw [Fin.val_ofNat, Nat.mod_eq_of_lt (by omega)]

theorem isSurrogate_toNat (c : Char) : isSurrogate (Fin.ofNat 0x110000 c.toNat) = false := by
  have hvalid : c.toNat.isValidChar := c.valid
  rw [isSurrogate, val_toNat, Bool.and_eq_false_iff, decide_eq_false_iff_not, decide_eq_false_iff_not]
  omega

theorem encode_toNat (c : Char) : encode (Fin.ofNat 0x110000 c.toNat) = String.utf8EncodeChar c := by
  rw [encode, val_toNat, Char.ofNat_toNat]

/-- Decoding finds the one character whose encoding the bytes start with. -/
theorem decodeChar_eq_some_iff {bytes rest : Bytes} :
    decodeChar bytes = some (c, rest) ↔ isSurrogate c = false ∧ bytes = encode c ++ rest := by
  rw [decodeChar]
  constructor
  · intro h
    obtain ⟨d, hd, heq⟩ := map_eq_some_iff.mp h
    obtain ⟨rfl, rfl⟩ := Prod.mk.injEq .. ▸ heq
    obtain ⟨tail, htail⟩ := ByteArray.exists_of_utf8DecodeChar?_eq_some hd
    have hbytes : bytes = String.utf8EncodeChar d ++ tail.data.toList := by
      have hlist := congrArg (fun b : ByteArray => b.data.toList) htail
      simpa using hlist
    have hdrop : bytes.drop d.utf8Size = tail.data.toList := by
      rw [hbytes, ← String.length_utf8EncodeChar, drop_left]
    rw [encode_toNat, hdrop]
    exact ⟨isSurrogate_toNat d, hbytes⟩
  · rintro ⟨hc, rfl⟩
    have hdecode : ByteArray.utf8DecodeChar? (encode c ++ rest).toByteArray 0 =
        some (Char.ofNat c.val) := by
      rw [toByteArray_append, encode, ByteArray.utf8DecodeChar?_utf8EncodeChar_append]
    have hnat : (Char.ofNat c.val).toNat = c.val := val_ofNat hc
    rw [hdecode, map_some, hnat, Fin.ofNat_val_eq_self, ← String.length_utf8EncodeChar,
      encode, drop_left]

theorem decodeChar_encode (h : isSurrogate c = false) (rest : Bytes) :
    decodeChar (encode c ++ rest) = some (c, rest) :=
  decodeChar_eq_some_iff.mpr ⟨h, rfl⟩

/-- The first code point can be read from the bytes. -/
theorem encode_append_inj {d : CodePoint} (hc : isSurrogate c = false)
    (hd : isSurrogate d = false) {left right : Bytes}
    (h : encode c ++ left = encode d ++ right) : c = d ∧ left = right := by
  have hread := decodeChar_encode hc left
  rw [h, decodeChar_encode hd _] at hread
  obtain ⟨rfl, rfl⟩ := Prod.mk.injEq .. ▸ Option.some.inj hread
  exact ⟨rfl, rfl⟩

theorem Text.bytes_inj {left right : Text} (hleft : left.Encodable) (hright : right.Encodable)
    (h : left.bytes = right.bytes) : left = right := by
  induction left generalizing right with
  | nil =>
    cases right with
    | nil => rfl
    | cons d right =>
      have hnil := append_eq_nil_iff.mp h.symm
      exact absurd hnil.1 (encode_ne_nil d)
  | cons c left ih =>
    cases right with
    | nil =>
      have hnil := append_eq_nil_iff.mp h
      exact absurd hnil.1 (encode_ne_nil c)
    | cons d right =>
      obtain ⟨hcd, hrest⟩ := encode_append_inj (hleft c mem_cons_self) (hright d mem_cons_self) h
      rw [hcd, ih (fun e he => hleft e (mem_cons_of_mem c he))
        (fun e he => hright e (mem_cons_of_mem d he)) hrest]

/-- What holds of every byte above ASCII is a matter of the characters of ASCII. -/
theorem Text.forall_mem_bytes_iff {P : Byte → Prop} (hhigh : ∀ b, 128 ≤ b.toNat → P b)
    (h : text.Encodable) :
    (∀ b ∈ text.bytes, P b) ↔ ∀ c ∈ text, c.val < 128 → P (UInt8.ofNat c.val) := by
  constructor
  · intro hbytes c hc hascii
    refine hbytes _ (mem_flatMap.mpr ⟨c, hc, ?_⟩)
    rw [encode_ascii hascii]
    exact mem_singleton_self _
  · intro htext b hb
    obtain ⟨c, hc, hmem⟩ := mem_flatMap.mp hb
    by_cases hascii : c.val < 128
    · rw [encode_ascii hascii, mem_singleton] at hmem
      rw [hmem]
      exact htext c hc hascii
    · exact hhigh b (le_of_mem_encode (h c hc) (not_lt.mp hascii) b hmem)

theorem Text.bytes_takeWhile (stop : CodePoint) (hstop : stop.val < 128)
    (h : text.Encodable) :
    text.bytes.takeWhile (· != UInt8.ofNat stop.val) = Text.bytes (text.takeWhile (· != stop)) ∧
      text.bytes.dropWhile (· != UInt8.ofNat stop.val) =
        Text.bytes (text.dropWhile (· != stop)) := by
  induction text with
  | nil => exact ⟨rfl, rfl⟩
  | cons c text ih =>
    have htail := ih fun d hd => h d (mem_cons_of_mem c hd)
    by_cases hc : c = stop
    · subst hc
      simp [encode_ascii hstop]
    · have hbytes : ∀ b ∈ encode c, (b != UInt8.ofNat stop.val) = true := by
        intro b hb
        rw [bne_iff_ne]
        intro heq
        have hnat : b.toNat = stop.val := by
          rw [heq, UInt8.toNat_ofNat']
          omega
        by_cases hascii : c.val < 128
        · rw [encode_ascii hascii, mem_singleton] at hb
          rw [hb, UInt8.toNat_ofNat'] at hnat
          apply hc
          apply Fin.ext
          omega
        · have := le_of_mem_encode (h c mem_cons_self) (not_lt.mp hascii) b hb
          omega
      have hne : (c != stop) = true := bne_iff_ne.mpr hc
      rw [Text.bytes_cons, takeWhile_append_of_pos hbytes, dropWhile_append_of_pos hbytes,
        htail.1, htail.2, takeWhile_cons_of_pos (p := fun x => x != stop) hne,
        dropWhile_cons_of_pos (p := fun x => x != stop) hne]
      exact ⟨rfl, rfl⟩

theorem Text.ofUtf8_eq_some_iff {bytes : Bytes} :
    Text.ofUtf8 bytes = some text ↔ text.Encodable ∧ text.bytes = bytes := by
  have hread {bytes : Bytes} {text : Text} (h : Text.ofUtf8 bytes = some text) :
      text.Encodable ∧ text.bytes = bytes := by
    obtain ⟨string, hstring, rfl⟩ := map_eq_some_iff.mp h
    refine ⟨forall_mem_map.mpr fun c _ => isSurrogate_toNat c, ?_⟩
    rw [String.fromUTF8?] at hstring
    split at hstring
    · next hvalid =>
      cases hstring
      have hencode := String.utf8Encode_toList (b := String.fromUTF8 ⟨bytes.toArray⟩ hvalid)
      have hchars : (String.fromUTF8 ⟨bytes.toArray⟩ hvalid).toList.flatMap String.utf8EncodeChar =
          bytes := by
        simpa [List.utf8Encode, String.fromUTF8] using
          congrArg (fun b : ByteArray => b.data.toList) hencode
      rw [Text.bytes, flatMap_map]
      exact (flatMap_congr fun c _ => encode_toNat c).trans hchars
    · cases hstring
  refine ⟨hread, ?_⟩
  rintro ⟨hencodable, rfl⟩
  have hvalid : ByteArray.IsValidUTF8 ⟨text.bytes.toArray⟩ := by
    refine ⟨text.map fun c => Char.ofNat c.val, ?_⟩
    rw [List.utf8Encode, flatMap_map]
    apply ByteArray.ext
    rw [data_toByteArray]
    rfl
  obtain ⟨found, hfound⟩ : ∃ found, Text.ofUtf8 text.bytes = some found := by
    rw [Text.ofUtf8, String.fromUTF8?, dif_pos hvalid]
    exact ⟨_, rfl⟩
  obtain ⟨hdecodable, hbytes⟩ := hread hfound
  rw [hfound, Text.bytes_inj hdecodable hencodable hbytes]

/-- A byte that stands behind the first one of a character. -/
def isContinuation (b : Byte) : Bool := 0x80 ≤ b && b < 0xc0

theorem encode_first (hc : isSurrogate c = false) :
    ∃ first tail, encode c = first :: tail ∧ isContinuation first = false ∧
      ∀ b ∈ tail, isContinuation b = true := by
  have hcont {n : ℕ} : isContinuation (UInt8.ofNat n) = true ↔ 0x80 ≤ n % 256 ∧ n % 256 < 0xc0 := by
    simp [isContinuation, UInt8.le_iff_toNat_le, UInt8.lt_iff_toNat_lt]
  have hfirst {n : ℕ} (h : n % 256 < 0x80 ∨ 0xc0 ≤ n % 256) :
      isContinuation (UInt8.ofNat n) = false := by
    rw [Bool.eq_false_iff, ne_eq, hcont]
    omega
  rw [encode, String.utf8EncodeChar, val_ofNat hc]
  split
  · exact ⟨_, _, rfl, hfirst (by omega), forall_mem_nil _⟩
  · split
    · refine ⟨_, _, rfl, hfirst (by omega), ?_⟩
      exact forall_mem_singleton.mpr (hcont.mpr (by omega))
    · split
      · refine ⟨_, _, rfl, hfirst (by omega), ?_⟩
        exact forall_mem_cons.mpr ⟨hcont.mpr (by omega),
          forall_mem_singleton.mpr (hcont.mpr (by omega))⟩
      · refine ⟨_, _, rfl, hfirst (by omega), ?_⟩
        exact forall_mem_cons.mpr ⟨hcont.mpr (by omega), forall_mem_cons.mpr
          ⟨hcont.mpr (by omega), forall_mem_singleton.mpr (hcont.mpr (by omega))⟩⟩

/-- Bytes that go on with a new character end a character. -/
theorem Text.exists_append (h : text.Encodable) {left right : Bytes}
    (hright : ∀ b ∈ right.head?, isContinuation b = false) (heq : text.bytes = left ++ right) :
    ∃ front back : Text, text = front ++ back ∧ front.bytes = left ∧ back.bytes = right := by
  induction text generalizing left with
  | nil =>
    obtain ⟨rfl, rfl⟩ := append_eq_nil_iff.mp heq.symm
    exact ⟨[], [], rfl, rfl, rfl⟩
  | cons c text ih =>
    obtain ⟨hc, hmore⟩ := forall_mem_cons.mp h
    obtain ⟨first, tail, hencode, -, htail⟩ := encode_first hc
    rw [Text.bytes_cons, append_eq_append_iff] at heq
    rcases heq with ⟨more, rfl, hrest⟩ | ⟨cut, hcut, rfl⟩
    · obtain ⟨front, back, rfl, rfl, rfl⟩ := ih hmore hrest
      exact ⟨c :: front, back, rfl, rfl, rfl⟩
    · -- The character is cut nowhere but at its ends.
      cases cut with
      | nil =>
        rw [append_nil] at hcut
        refine ⟨[c], text, rfl, ?_, rfl⟩
        rw [← hcut, Text.bytes_cons, Text.bytes_nil, append_nil]
      | cons b cut =>
        cases left with
        | nil => exact ⟨[], c :: text, rfl, rfl, by rw [Text.bytes_cons, hcut]; rfl⟩
        | cons d left =>
          rw [hencode] at hcut
          obtain ⟨-, rfl⟩ := List.cons.inj hcut
          have hb := htail b (mem_append_right _ mem_cons_self)
          rw [hright b rfl] at hb
          cases hb

/-! ## Decoding with replacement -/

def mayFollow (first second : Byte) : Bool :=
  if first = 0xe0 then 0xa0 ≤ second && second ≤ 0xbf
  else if first = 0xed then 0x80 ≤ second && second ≤ 0x9f
  else if first = 0xf0 then 0x90 ≤ second && second ≤ 0xbf
  else if first = 0xf4 then 0x80 ≤ second && second ≤ 0x8f
  else isContinuation second

/-- How many bytes without a character are replaced at once: as many as a character can
start with. -/
def invalidLength : Bytes → ℕ
  | first :: second :: rest =>
    if 0xe0 ≤ first ∧ first ≤ 0xf4 ∧ mayFollow first second = true then
      if 0xf0 ≤ first ∧ rest.head?.any isContinuation = true then 3 else 2
    else 1
  | _ => 1

def decodeReplacing : ℕ → Bytes → Text
  | 0, _ => []
  | fuel + 1, bytes =>
    if bytes = [] then []
    else
      match decodeChar bytes with
      | some (c, rest) => c :: decodeReplacing fuel rest
      | none => 0xfffd :: decodeReplacing fuel (bytes.drop (invalidLength bytes))

def Text.ofUtf8Replacing (bytes : Bytes) : Text := decodeReplacing bytes.length bytes

theorem decodeReplacing_bytes (h : text.Encodable) {fuel : ℕ}
    (hfuel : text.bytes.length ≤ fuel) : decodeReplacing fuel text.bytes = text := by
  induction text generalizing fuel with
  | nil => cases fuel <;> rfl
  | cons c text ih =>
    obtain ⟨hc, hmore⟩ := forall_mem_cons.mp h
    have hpos := length_pos_of_ne_nil (encode_ne_nil c)
    rw [Text.bytes_cons, length_append] at hfuel
    cases fuel with
    | zero => omega
    | succ fuel =>
      rw [Text.bytes_cons, decodeReplacing,
        if_neg (append_ne_nil_of_left_ne_nil (encode_ne_nil c) _), decodeChar_encode hc]
      exact congrArg _ (ih hmore (by omega))

theorem Text.ofUtf8Replacing_bytes (h : text.Encodable) :
    Text.ofUtf8Replacing text.bytes = text := decodeReplacing_bytes h le_rfl

/-! ## Latin-1 -/

theorem latin1_ofLatin1 (bytes : Bytes) : Text.latin1 (Text.ofLatin1 bytes) = some bytes := by
  induction bytes with
  | nil => rfl
  | cons b bytes ih =>
    have hb := b.toNat_lt
    have hval : (Fin.ofNat 0x110000 b.toNat).val = b.toNat := by
      rw [Fin.val_ofNat, Nat.mod_eq_of_lt (by omega)]
    have hcode : (if (Fin.ofNat 0x110000 b.toNat).val < 256 then
        some (UInt8.ofNat (Fin.ofNat 0x110000 b.toNat).val) else none) = some b := by
      rw [hval, if_pos (by omega), UInt8.ofNat_toNat]
    rw [Text.latin1] at ih ⊢
    rw [Text.ofLatin1] at ih ⊢
    rw [map_cons, mapM_cons, hcode, ih]
    rfl

theorem ofLatin1_of_latin1 {data : Bytes} (h : text.latin1 = some data) :
    Text.ofLatin1 data = text := by
  induction text generalizing data with
  | nil =>
    cases h
    rfl
  | cons c text ih =>
    simp only [Text.latin1, mapM_cons, bind_eq_bind, bind_eq_some_iff] at h
    obtain ⟨b, hb, rest, hrest, heq⟩ := h
    cases heq
    obtain ⟨hlt, hval⟩ := ite_none_right_eq_some.mp hb
    have hc : Fin.ofNat 0x110000 b.toNat = c := by
      apply Fin.ext
      cases hval
      simp only [UInt8.toNat_ofNat', Fin.val_ofNat]
      omega
    rw [Text.ofLatin1, map_cons, hc]
    exact congrArg _ (ih hrest)

end AstraApi
