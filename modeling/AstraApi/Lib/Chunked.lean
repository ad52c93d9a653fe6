import AstraApi.Lib.Message

/-!
# The chunked transfer coding

A message whose length is not known in front is sent in chunks.  Each has its size in
hexadecimal on a line of its own, and one of size zero ends the message.
-/

namespace AstraApi.Message

open List

/-! ## Sizes -/

def hexValue (b : Byte) : Option ℕ :=
  if isDigit b then some (b.toNat - 48)
  else if 97 ≤ b ∧ b ≤ 102 then some (b.toNat - 87)
  else if 65 ≤ b ∧ b ≤ 70 then some (b.toNat - 55)
  else none

def readHex (digits : Bytes) : Option ℕ :=
  if digits = [] then none
  else digits.foldlM (fun value b => (hexValue b).map (value * 16 + ·)) 0

def hexText (n : ℕ) : Bytes := (Nat.toDigits 16 n).map fun c => UInt8.ofNat c.toNat

def chunkSize (line : Bytes) : Option ℕ :=
  readHex ((line.takeWhile (· ≠ 59)).rdropWhile isOws)

theorem hexText_of_lt {n : ℕ} (h : n < 16) : hexText n = [UInt8.ofNat n.digitChar.toNat] := by
  rw [hexText, Nat.toDigits_of_lt_base h, map_singleton]

theorem hexText_of_le {n : ℕ} (h : 16 ≤ n) : hexText n = hexText (n / 16) ++ hexText (n % 16) := by
  rw [hexText_of_lt (Nat.mod_lt n (by decide)), hexText, hexText,
    Nat.toDigits_of_base_le (by decide) h, map_append, map_singleton]

theorem hexText_ne_nil (n : ℕ) : hexText n ≠ [] := by
  simp [hexText]

theorem hexValue_digit {n : ℕ} (h : n < 16) : hexValue (UInt8.ofNat n.digitChar.toNat) = some n := by
  revert n
  decide

theorem foldlM_hexText (n : ℕ) :
    (hexText n).foldlM (fun value b => (hexValue b).map (value * 16 + ·)) 0 = some n := by
  induction n using Nat.strong_induction_on with
  | _ n ih =>
    rcases Nat.lt_or_ge n 16 with hlt | hge
    · simp [hexText_of_lt hlt, hexValue_digit hlt]
    · have hlast := Nat.mod_lt n (by decide : 16 > 0)
      rw [hexText_of_le hge, foldlM_append, ih _ (Nat.div_lt_self (by omega) (by decide)),
        hexText_of_lt hlast]
      simp [hexValue_digit hlast]
      omega

theorem readHex_hexText (n : ℕ) : readHex (hexText n) = some n := by
  rw [readHex, if_neg (hexText_ne_nil n), foldlM_hexText]

theorem mem_hexText {n : ℕ} {b : Byte} (h : b ∈ hexText n) : (hexValue b).isSome = true := by
  induction n using Nat.strong_induction_on with
  | _ n ih =>
    rcases Nat.lt_or_ge n 16 with hlt | hge
    · rw [hexText_of_lt hlt, mem_singleton] at h
      rw [h, hexValue_digit hlt, Option.isSome_some]
    · rw [hexText_of_le hge] at h
      rcases mem_append.mp h with h | h
      · exact ih _ (Nat.div_lt_self (by omega) (by decide)) h
      · exact ih _ ((Nat.mod_lt n (by decide)).trans_le hge) h

theorem crlfFree_hexText (n : ℕ) : CrlfFree (hexText n) := by
  constructor
  · intro h
    exact absurd (mem_hexText h) (by decide)
  · intro h
    exact absurd (mem_hexText h) (by decide)

theorem chunkSize_hexText (n : ℕ) : chunkSize (hexText n) = some n := by
  have hplain : (hexText n).takeWhile (· ≠ 59) = hexText n := by
    refine takeWhile_eq_self_iff.mpr fun b hb => decide_eq_true fun heq => ?_
    rw [heq] at hb
    exact absurd (mem_hexText hb) (by decide)
  have htrim : (hexText n).rdropWhile isOws = hexText n := by
    refine rdropWhile_eq_self_iff.mpr fun hne hows => ?_
    have hvalue := mem_hexText (getLast_mem hne)
    have hblank : (hexText n).getLast hne = 32 ∨ (hexText n).getLast hne = 9 := by
      simpa [isOws] using hows
    rcases hblank with heq | heq <;> rw [heq] at hvalue <;> exact absurd hvalue (by decide)
  rw [chunkSize, hplain, htrim, readHex_hexText]

/-! ## Chunks -/

/-- The chunks up to the last one, which is empty, and what follows the trailer section. -/
def readChunks : ℕ → Bytes → Option (List Bytes × Bytes)
  | 0, _ => none
  | fuel + 1, data =>
    match takeLine data with
    | none => none
    | some (line, rest) =>
      match chunkSize line with
      | none => none
      | some 0 => (takeFields (rest.length + 1) rest).map fun (_, rest) => ([], rest)
      | some size =>
        if (rest.drop size).take 2 = crlf then
          (readChunks fuel (rest.drop (size + 2))).map fun (chunks, last) =>
            (rest.take size :: chunks, last)
        else none

def chunkFrame (chunk : Bytes) : Bytes := hexText chunk.length ++ crlf ++ chunk ++ crlf

def lastChunk : Bytes := ascii "0\r\n\r\n"

theorem takeLine_chunkFrame (chunk rest : Bytes) :
    takeLine (chunkFrame chunk ++ rest) = some (hexText chunk.length, chunk ++ crlf ++ rest) := by
  rw [chunkFrame, append_assoc, append_assoc, takeLine_append (crlfFree_hexText _), append_assoc]

theorem readChunks_frame {chunk : Bytes} (h : chunk ≠ []) (fuel : ℕ) (rest : Bytes) :
    readChunks (fuel + 1) (chunkFrame chunk ++ rest) =
      (readChunks fuel rest).map fun (chunks, last) => (chunk :: chunks, last) := by
  obtain ⟨size, hsize⟩ := Nat.exists_eq_succ_of_ne_zero (mt length_eq_zero_iff.mp h)
  have hcrlf : crlf.length = 2 := rfl
  have hdata : (chunk ++ crlf ++ rest).take chunk.length = chunk := by
    rw [append_assoc, take_left]
  have hend : ((chunk ++ crlf ++ rest).drop chunk.length).take 2 = crlf := by
    rw [append_assoc, drop_left, ← hcrlf, take_left]
  have hrest : (chunk ++ crlf ++ rest).drop (chunk.length + 2) = rest := by
    rw [← hcrlf, ← length_append, drop_left]
  rw [readChunks, takeLine_chunkFrame]
  simp only [chunkSize_hexText]
  rw [hsize] at hdata hend hrest ⊢
  simp only [hend, hrest, hdata, if_true]

theorem readChunks_lastChunk (fuel : ℕ) (rest : Bytes) :
    readChunks (fuel + 1) (lastChunk ++ rest) = some ([], rest) := by
  have hline : takeLine (lastChunk ++ rest) = some (ascii "0", crlf ++ rest) := by
    have hzero : lastChunk ++ rest = ascii "0" ++ crlf ++ (crlf ++ rest) := by
      simp [lastChunk, ascii, crlf, cr, lf]
    have hfree : CrlfFree (ascii "0") := by decide
    rw [hzero, takeLine_append hfree]
  have hsize : chunkSize (ascii "0") = some 0 := by decide
  have hnone : CrlfFree [] := by decide
  have hempty : takeLine (crlf ++ rest) = some ([], rest) := takeLine_append hnone _
  rw [readChunks, hline]
  simp [hsize, takeFields, hempty]

theorem readChunks_write {chunks : List Bytes} (h : ∀ chunk ∈ chunks, chunk ≠ []) {fuel : ℕ}
    (hfuel : chunks.length < fuel) :
    readChunks fuel (chunks.flatMap chunkFrame ++ lastChunk) = some (chunks, []) := by
  induction chunks generalizing fuel with
  | nil =>
    obtain ⟨fuel, rfl⟩ := Nat.exists_eq_add_of_lt hfuel
    have hlast := readChunks_lastChunk (0 + fuel) []
    rwa [append_nil] at hlast
  | cons chunk chunks ih =>
    cases fuel with
    | zero => simp at hfuel
    | succ fuel =>
      obtain ⟨hchunk, hrest⟩ := forall_mem_cons.mp h
      rw [flatMap_cons, append_assoc, readChunks_frame hchunk,
        ih hrest (Nat.lt_of_succ_lt_succ hfuel)]
      rfl

theorem readChunks_open {chunks : List Bytes} (h : ∀ chunk ∈ chunks, chunk ≠ []) (fuel : ℕ) :
    readChunks fuel (chunks.flatMap chunkFrame) = none := by
  induction chunks generalizing fuel with
  | nil => cases fuel <;> rfl
  | cons chunk chunks ih =>
    cases fuel with
    | zero => rfl
    | succ fuel =>
      obtain ⟨hchunk, hrest⟩ := forall_mem_cons.mp h
      rw [flatMap_cons, readChunks_frame hchunk, ih hrest]
      rfl

theorem length_le_flatMap_chunkFrame (chunks : List Bytes) :
    chunks.length ≤ (chunks.flatMap chunkFrame).length := by
  induction chunks with
  | nil => exact Nat.le_refl 0
  | cons chunk chunks ih =>
    have hframe : 0 < (chunkFrame chunk).length := by simp [chunkFrame, crlf]
    rw [flatMap_cons, length_append, length_cons]
    omega

/-! ## Responses -/

def isTokenChar (b : Byte) : Bool :=
  isDigit b || (65 ≤ b && b ≤ 90) || (97 ≤ b && b ≤ 122) || (ascii "!#$%&'*+-.^_`|~").contains b

def IsToken (name : Bytes) : Prop := name ≠ [] ∧ ∀ b ∈ name, isTokenChar b = true

instance (name : Bytes) : Decidable (IsToken name) := inferInstanceAs (Decidable (_ ∧ _))

def transferEncoding : Bytes := ascii "transfer-encoding"

/-- The fields that tell where a message ends. -/
def isFraming (field : Field) : Bool :=
  field.1.map lowerCase = transferEncoding || field.1.map lowerCase = ascii "content-length"

def transferCodings (fields : List Field) : List Bytes :=
  (fields.filter fun field => field.1.map lowerCase = transferEncoding).map (·.2)

def HasContent (status : ℕ) : Prop := 200 ≤ status ∧ status ≤ 999 ∧ status ≠ 204 ∧ status ≠ 304

instance (status : ℕ) : Decidable (HasContent status) := inferInstanceAs (Decidable (_ ∧ _))

structure ChunkedResponse where
  status : ℕ
  fields : List Field
  chunks : List Bytes

def readChunked (data : Bytes) : Option ChunkedResponse :=
  match readMessage data with
  | none => none
  | some (start, lines, rest) =>
    match readStatus start, lines.mapM readField with
    | some status, some fields =>
      if HasContent status ∧ (∀ field ∈ fields, IsToken field.1) ∧
          transferCodings fields = [ascii "chunked"] then
        match readChunks (rest.length + 1) rest with
        | some (chunks, []) => some ⟨status, fields, chunks⟩
        | _ => none
      else none
    | _, _ => none

theorem IsToken.clean {field : Field} (hname : IsToken field.1) (hvalue : CrlfFree field.2) :
    Clean field := by
  refine ⟨⟨fun h => ?_, fun h => ?_⟩, hvalue, fun h => ?_⟩
  · exact absurd (hname.2 _ h) (by decide)
  · exact absurd (hname.2 _ h) (by decide)
  · exact absurd (hname.2 _ h) (by decide)

theorem readChunked_write {start content : Bytes} {fields : List Field} {status : ℕ}
    (hstart : CrlfFree start) (hstatus : readStatus start = some status)
    (hcontent : HasContent status)
    (hfields : ∀ field ∈ fields, IsToken field.1 ∧ CrlfFree field.2)
    (hcodings : transferCodings (fields.map trimmed) = [ascii "chunked"]) :
    readChunked (writeMessage start (fields.map fieldLine) content) =
      match readChunks (content.length + 1) content with
      | some (chunks, []) => some ⟨status, fields.map trimmed, chunks⟩
      | _ => none := by
  have hclean : ∀ field ∈ fields, Clean field := fun field hfield =>
    (hfields _ hfield).1.clean (hfields _ hfield).2
  have hlines : ∀ line ∈ fields.map fieldLine, CrlfFree line ∧ line ≠ [] := by
    intro line hline
    obtain ⟨field, hfield, rfl⟩ := mem_map.mp hline
    exact ⟨crlfFree_fieldLine.mpr ⟨(hclean _ hfield).name, (hclean _ hfield).value⟩,
      fieldLine_ne_nil _⟩
  have hread := (readMessage_write_iff _ _ content).mpr ⟨hstart, hlines⟩
  have hparsed := mapM_readField fun field hfield => (hclean _ hfield).colonFree
  have htokens : ∀ field ∈ fields.map trimmed, IsToken field.1 :=
    forall_mem_map.mpr fun field hfield => (hfields _ hfield).1
  have hall : HasContent status ∧ (∀ field ∈ fields.map trimmed, IsToken field.1) ∧
      transferCodings (fields.map trimmed) = [ascii "chunked"] := ⟨hcontent, htokens, hcodings⟩
  simp only [readChunked, hread, hstatus, hparsed, if_pos hall]

theorem readChunked_eq_some {data : Bytes} {response : ChunkedResponse}
    (h : readChunked data = some response) :
    HasContent response.status ∧ ∀ field ∈ response.fields, IsToken field.1 ∧ CrlfFree field.2 := by
  simp only [readChunked] at h
  split at h
  · cases h
  · rename_i start lines rest hread
    split at h
    · rename_i status fields hstatus hfields
      split at h
      · rename_i hall
        split at h
        · cases h
          have hlines := (readMessage_crlfFree hread).2
          have hvalues := crlfFree_of_forall₂ (fun line hline => (hlines _ hline).1)
            (forall₂_readField hfields)
          exact ⟨hall.1, fun field hfield => ⟨hall.2.1 field hfield, hvalues _ hfield⟩⟩
        · cases h
      · cases h
    · cases h

end AstraApi.Message
