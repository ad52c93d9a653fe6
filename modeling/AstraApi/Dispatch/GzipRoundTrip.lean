import AstraApi.Dispatch.ContentCoding
import AstraApi.Lib.Doubling

/-!
# gzip_compress and gzip_decompress

`py_gzip_decompress` doubles its output buffer while `inflate` fills it.  The two limits, on
the size and on the ratio to the compressed length, are limits of the buffer.
-/

namespace AstraApi.Dispatch

open List
open Doubling (Reaches)

inductive ZRet where
  | ok
  | streamEnd
  | failed
  deriving DecidableEq

/-- What is called of zlib and libdeflate.  A level is accepted or not; `deflate` and
`libdeflateGzip` are given an input and the room for the output; `inflate` is given all of
its input at the start, and the room of each call. -/
structure Codec where
  deflateInit2 : ℤ → Bool
  deflateBound : ℤ → ℕ → ℕ
  deflate : ℤ → Bytes → ℕ → ZRet × Bytes
  libdeflateAllocCompressor : ℤ → Bool
  libdeflateGzipCompressBound : ℤ → ℕ → ℕ
  libdeflateGzipCompress : ℤ → Bytes → ℕ → Bytes
  State : Type
  inflateInit2 : Bytes → Option State
  inflate : State → ℕ → ZRet × Bytes × State

/-- `RuntimeError` -/
structure GzipError where
  message : String
  deriving DecidableEq

section Source

variable (codec : Codec)

/-- `py_gzip_compress` without libdeflate.  A buffer that `deflate` has not finished is
returned as it is. -/
def zlibGzipCompress (data : Bytes) (level : ℤ) : Except GzipError Bytes :=
  if codec.deflateInit2 level then
    let room := codec.deflateBound level data.length
    match codec.deflate level (data.take (uInt data.length)) (uInt room) with
    | (.streamEnd, out) => .ok out
    | (.ok, out) => .ok (out ++ List.replicate (room - out.length) 0)
    | (.failed, _) => .error ⟨"gzip compression failed"⟩
  else .error ⟨"gzip compression failed"⟩

def libdeflateGzip (data : Bytes) (level : ℤ) : Except GzipError Bytes :=
  if codec.libdeflateAllocCompressor level then
    match codec.libdeflateGzipCompress level data
      (codec.libdeflateGzipCompressBound level data.length) with
    | [] => .error ⟨"gzip compression failed (libdeflate)"⟩
    | out => .ok out
  else .error ⟨"gzip compression failed (libdeflate)"⟩

def pyGzipCompress (hasLibdeflate : Bool) (data : Bytes) (level : Option ℤ) :
    Except GzipError Bytes :=
  if hasLibdeflate then libdeflateGzip codec data (level.getD 4)
  else zlibGzipCompress codec data (level.getD 4)

def maxDecompressed : ℕ := 256 * 1024 * 1024

def maxDecompressRatio : ℕ := 1000

/-- The buffer may grow to `newSize`. -/
def Growable (dataLen newSize : ℕ) : Prop :=
  newSize ≤ maxDecompressed ∧ (0 < dataLen → newSize / dataLen ≤ maxDecompressRatio)

instance (dataLen newSize : ℕ) : Decidable (Growable dataLen newSize) :=
  inferInstanceAs (Decidable (_ ∧ _))

def initialSize (dataLen : ℕ) : ℕ := max (min (dataLen * 4) (16 * 1024 * 1024)) 4096

def decompressionFailed : GzipError := ⟨"gzip decompression failed"⟩

/-- The calls of `inflate`.  `output` has been written, `size` is the size of the buffer. -/
def inflateLoop (dataLen : ℕ) : ℕ → codec.State → Bytes → ℕ → Option (Except GzipError Bytes)
  | 0, _, _, _ => none
  | fuel + 1, state, output, size =>
    let availOut := uInt (size - output.length)
    match codec.inflate state availOut with
    | (.streamEnd, out, _) => some (.ok (output ++ out))
    | (.failed, _, _) => some (.error decompressionFailed)
    | (.ok, out, next) =>
      if availOut - out.length = 0 then
        if Growable dataLen (size * 2) then
          inflateLoop dataLen fuel next (output ++ out) (size * 2)
        else some (.error decompressionFailed)
      else inflateLoop dataLen fuel next (output ++ out) size

/-- The bytes that `inflate` is given. -/
def supplied (data : Bytes) : Bytes := data.take (uInt data.length)

def pyGzipDecompress (fuel : ℕ) (data : Bytes) : Option (Except GzipError Bytes) :=
  match codec.inflateInit2 (supplied data) with
  | none => some (.error decompressionFailed)
  | some state => inflateLoop codec data.length fuel state [] (initialSize data.length)

end Source

/-! ## Streams -/

section Streams

variable (codec : Codec)

/-- `inflate` gives as much as there is room for, and ends the stream when it has given all. -/
def Codec.Recovers (data content : Bytes) : Prop :=
  ∃ pending : codec.State → Bytes → Prop,
    (∃ state, codec.inflateInit2 data = some state ∧ pending state content) ∧
      ∀ state rest room, pending state rest → 0 < room →
        ∃ next, pending next (rest.drop room) ∧ codec.inflate state room =
          (if rest.length ≤ room then .streamEnd else .ok, rest.take room, next)

/-- What the compressors write is a stream of their input, and has a size that is known
before. -/
structure Codec.Faithful : Prop where
  deflate_end : ∀ level input room, codec.deflateInit2 level = true →
    codec.deflateBound level input.length ≤ room →
      (codec.deflate level input room).1 = .streamEnd
  deflate_recovers : ∀ level input room, (codec.deflate level input room).1 = .streamEnd →
    (codec.deflate level input room).2.length ≤ room ∧
      codec.Recovers (codec.deflate level input room).2 input
  libdeflate_recovers : ∀ level input room, codec.libdeflateGzipCompress level input room ≠ [] →
    (codec.libdeflateGzipCompress level input room).length ≤ room ∧
      codec.Recovers (codec.libdeflateGzipCompress level input room) input
  bounds : ∀ level n, n ≤ maxDecompressed →
    codec.deflateBound level n < 2 ^ 32 ∧ codec.libdeflateGzipCompressBound level n < 2 ^ 32

def Codec.Decompresses (data : Bytes) (result : Except GzipError Bytes) : Prop :=
  ∃ enough, ∀ fuel ≥ enough, pyGzipDecompress codec fuel data = some result

def WithinLimits (content data : Bytes) : Prop :=
  content.length ≤ maxDecompressed ∧ content.length ≤ maxDecompressRatio * data.length

def Fits (content data : Bytes) : Prop :=
  Reaches (Growable data.length) (initialSize data.length) content.length

end Streams

theorem Growable.mono {dataLen small large : ℕ} (hle : small ≤ large) (h : Growable dataLen large) :
    Growable dataLen small :=
  ⟨hle.trans h.1, fun hpos => (Nat.div_le_div_right hle).trans (h.2 hpos)⟩

theorem uInt_of_lt {n : ℕ} (h : n < 2 ^ 32) : uInt n = n := Nat.mod_eq_of_lt h

theorem initialSize_bounds (dataLen : ℕ) :
    0 < initialSize dataLen ∧ initialSize dataLen ≤ maxDecompressed ∧
      maxDecompressed < initialSize dataLen * 2 ^ 17 := by
  unfold initialSize maxDecompressed
  omega

section Run

variable {codec : Codec}

/-- The loop gives the content where some size of the buffer holds it, and otherwise fails.
By induction on the number of doublings that are left below the limit. -/
theorem inflateLoop_pending {pending : codec.State → Bytes → Prop}
    (hinflate : ∀ state rest room, pending state rest → 0 < room →
      ∃ next, pending next (rest.drop room) ∧ codec.inflate state room =
        (if rest.length ≤ room then .streamEnd else .ok, rest.take room, next))
    {content : Bytes} (dataLen doublings : ℕ) {size : ℕ} {state : codec.State}
    {output rest : Bytes} (hcontent : output ++ rest = content) (hroom : output.length < size)
    (hsize : size ≤ maxDecompressed) (hdoublings : maxDecompressed < size * 2 ^ doublings)
    (hpending : pending state rest) {fuel : ℕ} (hfuel : doublings < fuel) :
    (Reaches (Growable dataLen) size content.length →
      inflateLoop codec dataLen fuel state output size = some (.ok content)) ∧
    (¬ Reaches (Growable dataLen) size content.length →
      inflateLoop codec dataLen fuel state output size = some (.error decompressionFailed)) := by
  induction doublings generalizing size state output rest fuel with
  | zero => omega
  | succ doublings ih =>
    obtain ⟨fuel, rfl⟩ := Nat.exists_eq_succ_of_ne_zero (Nat.ne_of_gt (Nat.zero_lt_of_lt hfuel))
    have hlength : content.length = output.length + rest.length := by
      rw [← hcontent, length_append]
    have havail : uInt (size - output.length) = size - output.length := by
      apply uInt_of_lt
      unfold maxDecompressed at hsize
      omega
    obtain ⟨next, hnext, hcall⟩ :=
      hinflate _ _ (size - output.length) hpending (by omega)
    simp only [inflateLoop, havail, hcall]
    by_cases hfits : rest.length ≤ size - output.length
    · have hreaches : Reaches (Growable dataLen) size content.length :=
        Doubling.reaches_of_le _ (by omega)
      rw [if_pos hfits, take_of_length_le hfits]
      exact ⟨fun _ => congrArg (some ∘ Except.ok) hcontent, fun h => absurd hreaches h⟩
    · have hfull : size - output.length - (rest.take (size - output.length)).length = 0 := by
        rw [length_take]
        omega
      have hreaches := Doubling.reaches_double_iff (@Growable.mono dataLen)
        (show size < content.length by omega)
      rw [if_neg hfits, hreaches]
      simp only [hfull, if_true]
      by_cases hgrow : Growable dataLen (size * 2)
      · have hcontent' : output ++ rest.take (size - output.length) ++
            rest.drop (size - output.length) = content := by
          rw [append_assoc, take_append_drop, hcontent]
        have hroom' : (output ++ rest.take (size - output.length)).length < size * 2 := by
          rw [length_append, length_take]
          omega
        have hrest := ih hcontent' hroom' hgrow.1 (by rwa [mul_assoc, ← pow_succ']) hnext
          (by omega : doublings < fuel)
        simpa only [hgrow, if_true, true_and] using hrest
      · simp [hgrow]

theorem Codec.Decompresses.unique {data : Bytes} {first second : Except GzipError Bytes}
    (hfirst : codec.Decompresses data first) (hsecond : codec.Decompresses data second) :
    first = second := by
  obtain ⟨enough, h⟩ := hfirst
  obtain ⟨enough', h'⟩ := hsecond
  have heq := h (max _ enough') (le_max_left _ _)
  rw [h' _ (le_max_right _ _)] at heq
  exact (Option.some.inj heq).symm

/-- The result for a stream is decided by the sizes alone. -/
theorem decompresses_of_recovers {data content : Bytes}
    (h : codec.Recovers (supplied data) content) :
    (Fits content data → codec.Decompresses data (.ok content)) ∧
      (¬ Fits content data → codec.Decompresses data (.error decompressionFailed)) := by
  obtain ⟨pending, ⟨state, hstate, hpending⟩, hinflate⟩ := h
  obtain ⟨hpos, hle, hdoublings⟩ := initialSize_bounds _
  have hloop {fuel : ℕ} (hfuel : 17 < fuel) := inflateLoop_pending hinflate data.length 17
    (nil_append _) hpos hle hdoublings hpending hfuel
  constructor
  · intro hfits
    refine ⟨18, fun fuel hfuel => ?_⟩
    rw [pyGzipDecompress, hstate]
    exact (hloop hfuel).1 hfits
  · intro hfits
    refine ⟨18, fun fuel hfuel => ?_⟩
    rw [pyGzipDecompress, hstate]
    exact (hloop hfuel).2 hfits

theorem decompresses_iff_fits {data content : Bytes}
    (h : codec.Recovers (supplied data) content) :
    codec.Decompresses data (.ok content) ↔ Fits content data := by
  constructor
  · intro hok
    by_contra hfits
    cases hok.unique ((decompresses_of_recovers h).2 hfits)
  · exact (decompresses_of_recovers h).1

theorem fails_iff_not_fits {data content : Bytes} (h : codec.Recovers (supplied data) content) :
    (∃ error, codec.Decompresses data (.error error)) ↔ ¬ Fits content data := by
  constructor
  · rintro ⟨error, herror⟩ hfits
    cases herror.unique ((decompresses_of_recovers h).1 hfits)
  · intro hfits
    exact ⟨decompressionFailed, (decompresses_of_recovers h).2 hfits⟩

theorem Codec.Faithful.recovers (hcodec : codec.Faithful) {hasLibdeflate : Bool}
    {content data : Bytes} {level : Option ℤ} (hlength : content.length ≤ maxDecompressed)
    (h : pyGzipCompress codec hasLibdeflate content level = .ok data) :
    codec.Recovers (supplied data) content := by
  have hshort : content.length < 2 ^ 32 := by
    unfold maxDecompressed at hlength
    omega
  obtain ⟨hdeflate, hlibdeflate⟩ := hcodec.bounds _ _ hlength
  have hstream : data.length < 2 ^ 32 ∧ codec.Recovers data content := by
    cases hasLibdeflate with
    | true =>
      simp only [pyGzipCompress, libdeflateGzip, if_true] at h
      split at h
      · split at h
        · cases h
        · rename_i hne
          cases h
          obtain ⟨hroom, hrecovers⟩ := hcodec.libdeflate_recovers _ _ _ hne
          exact ⟨hroom.trans_lt hlibdeflate, hrecovers⟩
      · cases h
    | false =>
      simp only [pyGzipCompress, zlibGzipCompress, uInt_of_lt hshort, uInt_of_lt hdeflate,
        take_length, Bool.false_eq_true, if_false] at h
      split at h
      · rename_i hlevel
        have hend := hcodec.deflate_end _ content _ hlevel le_rfl
        obtain ⟨hroom, hrecovers⟩ := hcodec.deflate_recovers _ _ _ hend
        split at h
        · rename_i out hout
          cases h
          rw [hout] at hroom hrecovers
          exact ⟨hroom.trans_lt hdeflate, hrecovers⟩
        · rename_i out hout
          rw [hout] at hend
          cases hend
        · cases h
      · cases h
  rw [supplied, uInt_of_lt hstream.1, take_length]
  exact hstream.2

end Run

/-- What is compressed is decompressed again, and a stream is refused for its size only, exactly
where some size of the buffer holds the content or the content is beyond the limits. -/
theorem gzip_roundTrip_iff (codec : Codec) (hcodec : codec.Faithful) (content data : Bytes) :
    (∀ hasLibdeflate level, pyGzipCompress codec hasLibdeflate content level = .ok data →
      ((WithinLimits content data → codec.Decompresses data (.ok content)) ↔
        (WithinLimits content data → Fits content data))) ∧
    (codec.Recovers (supplied data) content →
      (((∃ error, codec.Decompresses data (.error error)) → ¬ WithinLimits content data) ↔
        (WithinLimits content data → Fits content data))) := by
  constructor
  · intro hasLibdeflate level hdata
    have hiff (hlimits : WithinLimits _ data) :
        codec.Decompresses data (.ok content) ↔ Fits content data :=
      decompresses_iff_fits (hcodec.recovers hlimits.1 hdata)
    exact forall_congr' hiff
  · intro hrecovers
    rw [fails_iff_not_fits hrecovers]
    exact not_imp_not

/-! ## Real streams -/

/-- A codec that knows one stream; other contents are stored behind a mark. -/
def knownStream (content stream : Bytes) : Codec where
  deflateInit2 level := -1 ≤ level && level ≤ 9
  deflateBound _ n := n + 64
  deflate _ input room :=
    let out := if input = content then stream else 0 :: input
    if out.length ≤ room then (.streamEnd, out) else (.ok, out.take room)
  libdeflateAllocCompressor level := 0 ≤ level && level ≤ 12
  libdeflateGzipCompressBound _ n := n + 64
  libdeflateGzipCompress _ input room :=
    let out := if input = content then stream else 0 :: input
    if out.length ≤ room then out else []
  State := Bytes
  inflateInit2 data :=
    if data = stream then some content
    else match data with
      | 0 :: rest => some rest
      | _ => none
  inflate rest room :=
    (if rest.length ≤ room then .streamEnd else .ok, rest.take room, rest.drop room)

section Known

variable {content stream : Bytes}

theorem knownStream_recovers (hhead : stream.head? ≠ some 0) (input : Bytes) :
    (knownStream content stream).Recovers (if input = content then stream else 0 :: input)
      input := by
  refine ⟨fun state rest => state = rest, ⟨input, ?_, rfl⟩, ?_⟩
  · split
    · rename_i heq
      simp [knownStream, heq]
    · have hmark : 0 :: input ≠ stream := fun h => hhead (h ▸ rfl)
      simp [knownStream, hmark]
  · rintro state rest room rfl -
    exact ⟨state.drop _, rfl, rfl⟩

theorem length_knownStream (hlength : stream.length ≤ content.length + 64) (input : Bytes) :
    (if input = content then stream else 0 :: input).length ≤ input.length + 64 := by
  split
  · rename_i heq
    rwa [heq]
  · rw [length_cons]
    omega

theorem knownStream_faithful (hhead : stream.head? ≠ some 0)
    (hlength : stream.length ≤ content.length + 64) : (knownStream content stream).Faithful where
  deflate_end _ input room _ hroom :=
    congrArg _ (if_pos ((length_knownStream hlength _).trans hroom))
  deflate_recovers _ input room hend := by
    by_cases hfits : (if input = content then stream else 0 :: input).length ≤ room
    · simp only [knownStream, if_pos hfits]
      exact ⟨hfits, knownStream_recovers hhead _⟩
    · simp [knownStream, if_neg hfits] at hend
  libdeflate_recovers _ input room hne := by
    by_cases hfits : (if input = content then stream else 0 :: input).length ≤ room
    · simp only [knownStream, if_pos hfits]
      exact ⟨hfits, knownStream_recovers hhead _⟩
    · simp [knownStream, if_neg hfits] at hne
  bounds _ n hn := by
    unfold maxDecompressed at hn
    simp only [knownStream]
    omega

theorem pyGzipCompress_knownStream (hlength : stream.length ≤ content.length + 64)
    (hcontent : content.length ≤ maxDecompressed) :
    pyGzipCompress (knownStream content stream) false content none = .ok stream := by
  have hshort : uInt content.length = content.length := by
    apply uInt_of_lt
    unfold maxDecompressed at hcontent
    omega
  have hroom : uInt (content.length + 64) = content.length + 64 := by
    apply uInt_of_lt
    unfold maxDecompressed at hcontent
    omega
  simp [pyGzipCompress, zlibGzipCompress, knownStream, hshort, hroom, hlength]

end Known

def helloStream : Bytes :=
  [31, 139, 8, 0, 0, 0, 0, 0, 0, 3, 203, 72, 205, 201, 201, 7, 0, 134, 166, 16, 54, 5, 0, 0, 0]

theorem gzip_roundTrip_hello :
    (knownStream (ascii "hello") helloStream).Faithful ∧
      pyGzipCompress (knownStream (ascii "hello") helloStream) false (ascii "hello") none =
        .ok helloStream ∧
      (knownStream (ascii "hello") helloStream).Decompresses helloStream (.ok (ascii "hello")) := by
  have hfaithful : (knownStream (ascii "hello") helloStream).Faithful :=
    knownStream_faithful (by decide) (by decide)
  have hcompress : pyGzipCompress (knownStream (ascii "hello") helloStream) false
      (ascii "hello") none = .ok helloStream :=
    pyGzipCompress_knownStream (by decide) (by decide)
  have hfits : Fits (ascii "hello") helloStream := Doubling.reaches_of_le _ (by decide)
  have hlimits : WithinLimits (ascii "hello") helloStream := ⟨by decide, by decide⟩
  exact ⟨hfaithful, hcompress, ((gzip_roundTrip_iff _ hfaithful _ _).1 false none hcompress).mpr
    (fun _ => hfits) hlimits⟩

/-- 32769 zeros: 512 times the length of the stream. -/
def zeros : Bytes := List.replicate 32769 0

def zerosStream : Bytes :=
  [31, 139, 8, 0, 0, 0, 0, 0, 0, 3, 237, 193, 1, 1, 0, 0, 0, 128, 144, 254, 175, 238, 8, 10] ++
    List.replicate 31 0 ++ [104, 172, 246, 182, 237, 1, 128, 0, 0]

theorem not_fits_zeros : ¬ Fits zeros zerosStream := by
  rintro ⟨k, hfits, hk⟩
  have hlength : zeros.length = 32769 := length_replicate
  have hsize : initialSize zerosStream.length = 4096 := by decide
  rw [hlength, hsize] at hfits
  have hexponent : 4 ≤ k := by
    by_contra hlt
    have hpow : 2 ^ k ≤ 2 ^ 3 := Nat.pow_le_pow_right (by norm_num) (by omega)
    omega
  have hgrown : Growable zerosStream.length (4096 * 2 ^ k) := hk.resolve_left (by omega)
  have hpow : 4096 * 2 ^ 4 ≤ 4096 * 2 ^ k :=
    Nat.mul_le_mul_left _ (Nat.pow_le_pow_right (by norm_num) hexponent)
  -- 65536 / 64 is 1024
  exact absurd (hgrown.mono hpow) (by decide)

/-- Zeros that are within both limits are not decompressed. -/
theorem gzip_fails_zeros :
    (knownStream zeros zerosStream).Faithful ∧
      pyGzipCompress (knownStream zeros zerosStream) false zeros none = .ok zerosStream ∧
      WithinLimits zeros zerosStream ∧
      (knownStream zeros zerosStream).Decompresses zerosStream (.error decompressionFailed) ∧
      ¬ (knownStream zeros zerosStream).Decompresses zerosStream (.ok zeros) := by
  have hlength : zeros.length = 32769 := length_replicate
  have hstream : zerosStream.length = 64 := by decide
  have hfaithful : (knownStream zeros zerosStream).Faithful :=
    knownStream_faithful (by decide) (by omega)
  have hle : zeros.length ≤ maxDecompressed := by rw [hlength]; decide
  have hcompress : pyGzipCompress (knownStream zeros zerosStream) false zeros none =
      .ok zerosStream := pyGzipCompress_knownStream (by omega) hle
  have hlimits : WithinLimits zeros zerosStream := by
    refine ⟨hle, ?_⟩
    rw [hlength, hstream]
    decide
  have hrecovers := hfaithful.recovers hle hcompress
  exact ⟨hfaithful, hcompress, hlimits, (decompresses_of_recovers hrecovers).2 not_fits_zeros,
    fun h => not_fits_zeros ((decompresses_iff_fits hrecovers).mp h)⟩

/-! ## Zip bombs -/

/-- A buffer of 4096 bytes is never refused, and the ratio is rounded down. -/
def Returnable (dataLen size : ℕ) : Prop :=
  size ≤ maxDecompressed ∧ (0 < dataLen → size < max 4097 ((maxDecompressRatio + 1) * dataLen))

theorem inflateLoop_bounded {codec : Codec}
    (hroom : ∀ state room, (codec.inflate state room).2.1.length ≤ room) {dataLen fuel size : ℕ}
    {state : codec.State} {output content : Bytes} (houtput : output.length ≤ size)
    (hsize : Returnable dataLen size)
    (h : inflateLoop codec dataLen fuel state output size = some (.ok content)) :
    Returnable dataLen content.length := by
  induction fuel generalizing state output size with
  | zero => cases h
  | succ fuel ih =>
    have hout := hroom state (uInt (size - output.length))
    have havail : uInt (size - output.length) ≤ size - output.length := Nat.mod_le _ _
    simp only [inflateLoop] at h
    rcases hcall : codec.inflate state (uInt (size - output.length)) with ⟨ret, out, next⟩
    rw [hcall] at h hout
    have hlength : (output ++ out).length ≤ size := by
      rw [length_append]
      exact (Nat.add_le_add_left (hout.trans havail) _).trans_eq (Nat.add_sub_cancel' houtput)
    cases ret with
    | streamEnd =>
      cases h
      exact ⟨hlength.trans hsize.1, fun hpos => hlength.trans_lt (hsize.2 hpos)⟩
    | failed => cases h
    | ok =>
      simp only at h
      split at h
      · split at h
        · rename_i hgrow
          have hratio (hpos : 0 < dataLen) : size * 2 < (maxDecompressRatio + 1) * dataLen := by
            apply (Nat.div_lt_iff_lt_mul hpos).mp
            exact Nat.lt_succ_of_le (hgrow.2 hpos)
          apply ih (hlength.trans (Nat.le_mul_of_pos_right _ two_pos)) _ h
          exact ⟨hgrow.1, fun hpos => (hratio hpos).trans_le (le_max_right _ _)⟩
        · cases h
      · exact ih hlength hsize h

/-- Whatever the stream is, what is returned is within the limits, if `inflate` keeps within its
room. -/
theorem pyGzipDecompress_bounded (codec : Codec)
    (hroom : ∀ state room, (codec.inflate state room).2.1.length ≤ room) {fuel : ℕ}
    {data content : Bytes} (h : pyGzipDecompress codec fuel data = some (.ok content)) :
    Returnable data.length content.length := by
  rw [pyGzipDecompress] at h
  split at h
  · cases h
  · refine inflateLoop_bounded hroom (Nat.zero_le _) ⟨(initialSize_bounds _).2.1, fun hpos => ?_⟩ h
    unfold initialSize maxDecompressRatio
    omega

theorem pyGzipDecompress_bounded_known : Returnable helloStream.length (ascii "hello").length :=
  @pyGzipDecompress_bounded (knownStream (ascii "hello") helloStream)
    (fun rest room => length_take_le room rest) 1 helloStream (ascii "hello") rfl

end AstraApi.Dispatch
