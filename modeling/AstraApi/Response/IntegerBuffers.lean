import AstraApi.Response.JsonNumber
import AstraApi.Response.Splitting

/-!
# Integers in small arrays

`fast_i64_to_buf` writes digits backwards into an array of 21 bytes and copies them to an
array of its caller.  That array has room for any length of a body, but not for any status.
-/

namespace AstraApi.Response

open List Option

/-! ## The array of the digits -/

/-- The loop that writes the digits below the pointer `p`.  It is `none` when the pointer
steps below the array. -/
def digitLoop : ℕ → UInt64 → Bytes → Option (ℕ × Bytes)
  | 0, _, _ => none
  | p + 1, uv, tmp =>
    let tmp := tmp.set p (UInt8.ofNat (0x30 + (uv % 10).toNat))
    if uv / 10 = 0 then some (p, tmp) else digitLoop p (uv / 10) tmp

def putSign (neg : Bool) : ℕ × Bytes → Option (ℕ × Bytes)
  | (p, tmp) =>
    if neg then
      match p with
      | 0 => none
      | p + 1 => some (p, tmp.set p 0x2d)
    else some (p, tmp)

/-- The bytes that `fast_i64_to_buf` copies, with the array as it was set aside. -/
def fastI64Digits (memory : FreshMemory) (val : BitVec 64) : Option Bytes := do
  let neg := val.toInt < 0
  let uv := UInt64.ofBitVec (if neg then -val else val)
  let written ← digitLoop 20 uv (memory 21).1
  let (p, tmp) ← putSign neg written
  return (tmp.drop p).take (20 - p)

/-! ## The arrays of the callers -/

/-- A write past the end of an array. -/
inductive Overrun where
  | overrun
  deriving DecidableEq

section Builders

variable (memory : FreshMemory)

/-- `fast_i64_to_buf` into an array of this size. -/
def putNumber (size : ℕ) (val : BitVec 64) : Except Overrun Bytes :=
  match fastI64Digits memory val with
  | none => .error .overrun
  | some text => if text.length ≤ size then .ok text else .error .overrun

def putStatusText (status : BitVec 32) : Except Overrun Bytes := do
  let scBuf ← putNumber memory 8 (status.signExtend 64)
  return ascii "HTTP/1.1 " ++ scBuf ++ ascii " " ++ ascii (statusReason status.toInt)

def putStatusLine (status : BitVec 32) : Except Overrun Bytes :=
  match cachedStatusLine status.toInt with
  | some prepared => .ok prepared
  | none => putStatusText memory status

def putLength (body : Bytes) : Except Overrun Bytes :=
  putNumber memory 20 (BitVec.ofNat 64 body.length)

/-- A response without a prepared prefix, or with more headers. -/
def putResponse (status : BitVec 32) (keepAlive headOnly : Bool)
    (cors : Option (CorsConfig × Bytes)) (encoding : Option ContentEncoding) (extra body : Bytes) :
    Except Overrun Bytes := do
  let line ← putStatusLine memory status
  let length ← putLength memory body
  return line ++ jsonHeader ++ length ++ encodingHeaders encoding ++
    (if extra = [] then [] else ascii "\r\n" ++ extra) ++ corsHeaders cors ++
    connectionSuffix keepAlive ++ (if headOnly then [] else body)

def buildHttpResponseChecked (status : BitVec 32) (keepAlive headOnly : Bool)
    (cors : Option (CorsConfig × Bytes)) (encoding : Option ContentEncoding)
    (extraHeaders : Option Bytes) (body : Bytes) : Except Overrun Bytes :=
  let extra := extraHeaders.getD []
  if status.toInt = 204 ∨ status.toInt = 304 then
    (putStatusText memory status).map fun line =>
      line ++ corsHeaders cors ++ extra ++ connectionSuffix keepAlive
  else
    match cors, encoding, extraHeaders, cachedStatusLine status.toInt with
    | none, none, none, some prepared =>
      (putLength memory body).map fun length =>
        prepared ++ jsonHeader ++ length ++ connectionSuffix keepAlive ++
          (if headOnly then [] else body)
    | _, _, _, _ => putResponse memory status keepAlive headOnly cors encoding extra body

def buildResponseFromPartsChecked (status : BitVec 32) (headers : List (Text × Text))
    (body : Bytes) (keepAlive : Bool) : Except Overrun (Option Bytes) := do
  let line ← putStatusLine memory status
  match headers.mapM (encodePair Text.utf8) with
  | none => return none
  | some fields =>
    let lengthLine ←
      if fields.any isContentLength ∨ status.toInt = 204 ∨ status.toInt = 304 then .ok []
      else (putLength memory body).map fun length =>
        ascii "content-length: " ++ length ++ ascii "\r\n"
    return some (line ++ ascii "\r\n" ++
      fields.flatMap (fun field => field.1 ++ ascii ": " ++ field.2 ++ ascii "\r\n") ++
      lengthLine ++
      (if keepAlive then ascii "connection: keep-alive\r\n" else ascii "connection: close\r\n") ++
      ascii "\r\n" ++ body)

end Builders

/-! ## The text and its length -/

theorem length_digits_le_iff {n k : ℕ} (hk : 0 < k) : (digits n).length ≤ k ↔ n < 10 ^ k := by
  rw [digits, length_map]
  exact Nat.length_toDigits_le_iff (by decide) hk

/-- The digits stand below the pointer, and the rest of the array is as it was. -/
theorem digitLoop_spec {uv : UInt64} {front : Bytes} (back : Bytes)
    (hfits : (digits uv.toNat).length ≤ front.length) :
    digitLoop front.length uv (front ++ back) = some (front.length - (digits uv.toNat).length,
        front.take (front.length - (digits uv.toNat).length) ++ (digits uv.toNat ++ back)) := by
  induction front using List.reverseRecOn generalizing uv back with
  | nil =>
    have hpos : 0 < (digits uv.toNat).length := by
      rw [digits, length_map]
      exact Nat.length_toDigits_pos
    rw [length_nil] at hfits
    omega
  | append_singleton front x ih =>
    have hlength : (front ++ [x]).length = front.length + 1 := length_append
    have hset (c : Byte) : ((front ++ [x]) ++ back).set front.length c = front ++ c :: back := by
      rw [append_assoc, set_append_right _ _ le_rfl, Nat.sub_self]
      rfl
    have hmod : (uv % 10).toNat = uv.toNat % 10 := UInt64.toNat_mod ..
    have hdiv : (uv / 10).toNat = uv.toNat / 10 := UInt64.toNat_div ..
    have htake (k : ℕ) : (front ++ [x]).take (front.length - k) = front.take (front.length - k) :=
      take_append_of_le_length (Nat.sub_le _ _)
    rw [hlength] at hfits ⊢
    rw [digitLoop, hset, hmod]
    by_cases hzero : uv / 10 = 0
    · have hsmall : uv.toNat < 10 := by
        have h := congrArg UInt64.toNat hzero
        exact (Nat.div_eq_zero_iff_lt (by decide)).mp h
      rw [if_pos hzero, Nat.mod_eq_of_lt hsmall, digits_of_lt hsmall, length_singleton,
        Nat.add_sub_cancel, ← Nat.sub_zero front.length, htake, Nat.sub_zero, take_length]
      rfl
    · have hlarge : 10 ≤ uv.toNat := by
        by_contra hsmall
        refine hzero (UInt64.toNat_inj.mp ?_)
        exact Nat.div_eq_of_lt (not_le.mp hsmall)
      have hdigits := digits_of_le hlarge
      have hlast : (digits uv.toNat).length = (digits (uv.toNat / 10)).length + 1 := by
        rw [hdigits, length_append, length_singleton]
      rw [if_neg hzero, ih _ (by rw [hdiv]; omega), hdiv, hlast, Nat.add_sub_add_right, htake,
        hdigits, append_assoc]
      rfl

theorem natAbs_le (val : BitVec 64) : val.toInt.natAbs ≤ 2 ^ 63 := by
  have hle := BitVec.le_toInt val
  have hlt := BitVec.toInt_lt (x := val)
  omega

/-- Unsigned negation gives the magnitude, of the least integer too. -/
theorem toNat_magnitude (val : BitVec 64) :
    (UInt64.ofBitVec (if val.toInt < 0 then -val else val)).toNat = val.toInt.natAbs := by
  rw [UInt64.toNat_ofBitVec]
  by_cases hneg : val.toInt < 0
  · rw [if_pos hneg, BitVec.toNat_neg]
    rw [BitVec.toInt_eq_toNat_cond] at hneg ⊢
    split at hneg <;> omega
  · rw [if_neg hneg]
    rw [BitVec.toInt_eq_toNat_cond] at hneg ⊢
    split at hneg <;> omega

theorem length_digits_natAbs (val : BitVec 64) : (digits val.toInt.natAbs).length ≤ 19 := by
  have hle := natAbs_le val
  rw [length_digits_le_iff (by decide)]
  omega

/-- The text of any 64-bit integer fits above the start of the array. -/
theorem fastI64Digits_eq (memory : FreshMemory) (val : BitVec 64) :
    fastI64Digits memory val = some (decimal val.toInt) := by
  obtain ⟨front, back, hmemory, hfront⟩ : ∃ front back : Bytes,
      (memory 21).1 = front ++ back ∧ front.length = 20 :=
    ⟨(memory 21).1.take 20, (memory 21).1.drop 20, (take_append_drop _ _).symm,
      length_take_of_le (by rw [(memory 21).2]; decide)⟩
  have hlength := length_digits_natAbs val
  have hloop := @digitLoop_spec (UInt64.ofBitVec (if val.toInt < 0 then -val else val)) front back
    (by rw [toNat_magnitude]; omega)
  rw [toNat_magnitude, hfront] at hloop
  rw [fastI64Digits, decimal_eq_digits]
  simp only [hmemory, hloop, bind_eq_bind, bind_some]
  generalize digits val.toInt.natAbs = text at hlength ⊢
  have hread {p : ℕ} (written : Bytes) (hp : p + written.length = 20) :
      ((front.take p ++ (written ++ back)).drop p).take (20 - p) = written := by
    have hstart : (front.take p).length = p := length_take_of_le (by omega)
    have hdrop := @drop_left _ (front.take p) (written ++ back)
    rw [hstart] at hdrop
    rw [hdrop, ← hp, Nat.add_sub_cancel_left, take_left]
  by_cases hneg : val.toInt < 0
  · obtain ⟨p, hp⟩ : ∃ p, 20 - text.length = p + 1 := ⟨19 - text.length, by omega⟩
    have hstart : (front.take p).length = p := length_take_of_le (by omega)
    have hset : (front.take (p + 1) ++ (text ++ back)).set p 0x2d =
        front.take p ++ ((0x2d :: text) ++ back) := by
      have hlt : p < front.length := by omega
      have hput := set_append_right (s := front.take p) (t := front[p] :: (text ++ back)) p
        (0x2d : Byte) (by omega)
      rw [hstart, Nat.sub_self] at hput
      rw [take_succ_eq_append_getElem hlt, append_assoc, singleton_append, hput]
      rfl
    have htext := hread (p := p) (0x2d :: text) (by rw [length_cons]; omega)
    simp only [putSign, hp, hneg, decide_true, if_true, bind_some, hset, htext]
    rfl
  · have htext := hread text (p := 20 - text.length) (by omega)
    simp only [putSign, hneg, decide_false, Bool.false_eq_true, if_false, bind_some, htext]
    rfl

theorem length_decimal_le (val : BitVec 64) : (decimal val.toInt).length ≤ 20 := by
  have hlength := length_digits_natAbs val
  rw [decimal_eq_digits, length_append]
  split
  · rw [length_singleton]
    omega
  · rw [length_nil]
    omega

theorem length_decimal_le_eight_iff (value : ℤ) :
    (decimal value).length ≤ 8 ↔ -9999999 ≤ value ∧ value ≤ 99999999 := by
  rw [decimal_eq_digits, length_append]
  split
  · have hdigits := length_digits_le_iff (n := value.natAbs) (k := 7) (by decide)
    rw [length_singleton, show 1 + (digits value.natAbs).length ≤ 8 ↔
      (digits value.natAbs).length ≤ 7 by omega, hdigits]
    omega
  · have hdigits := length_digits_le_iff (n := value.natAbs) (k := 8) (by decide)
    rw [length_nil, Nat.zero_add, hdigits]
    omega

/-! ## What the arrays have room for -/

section Builders

variable (memory : FreshMemory)

theorem putNumber_eq (size : ℕ) (val : BitVec 64) :
    putNumber memory size val =
      if (decimal val.toInt).length ≤ size then .ok (decimal val.toInt) else .error .overrun := by
  rw [putNumber, fastI64Digits_eq]

/-- The statuses for which an array of eight bytes is enough. -/
def StatusFits (status : BitVec 32) : Prop := -9999999 ≤ status.toInt ∧ status.toInt ≤ 99999999

theorem putStatusText_ok_iff {status : BitVec 32} :
    (∃ text, putStatusText memory status = .ok text) ↔ StatusFits status := by
  have hvalue : (status.signExtend 64).toInt = status.toInt :=
    BitVec.toInt_signExtend_of_le (by decide)
  rw [StatusFits, ← length_decimal_le_eight_iff, putStatusText, putNumber_eq, hvalue]
  split
  · next hfits => exact iff_of_true ⟨_, rfl⟩ hfits
  · next hlong => exact iff_of_false (fun ⟨_, h⟩ => nomatch h) hlong

theorem statusFits_of_cached {status : BitVec 32} {prepared : Bytes}
    (hcached : cachedStatusLine status.toInt = some prepared) : StatusFits status := by
  obtain ⟨reason, hreason, -⟩ := map_eq_some_iff.mp hcached
  have hentries : ∀ entry ∈ statusEntries, -9999999 ≤ entry.1 ∧ entry.1 ≤ 99999999 := by decide
  have hmem : (status.toInt, reason) ∈ statusEntries := by
    obtain ⟨front, back, hentries, -⟩ := lookup_eq_some_iff.mp hreason
    rw [hentries]
    exact mem_append_right _ mem_cons_self
  exact hentries _ hmem

theorem putStatusLine_ok_iff {status : BitVec 32} :
    (∃ line, putStatusLine memory status = .ok line) ↔ StatusFits status := by
  rw [putStatusLine]
  cases hcached : cachedStatusLine status.toInt with
  | some prepared => exact iff_of_true ⟨_, rfl⟩ (statusFits_of_cached hcached)
  | none => exact putStatusText_ok_iff _

theorem putLength_ok (body : Bytes) : ∃ length, putLength memory body = .ok length :=
  ⟨_, by rw [putLength, putNumber_eq, if_pos (length_decimal_le _)]⟩

theorem bind_ok_iff {A B : Type} {x : Except Overrun A} {f : A → Except Overrun B}
    (hf : ∀ a, ∃ b, f a = .ok b) : (∃ b, x.bind f = .ok b) ↔ ∃ a, x = .ok a := by
  cases x with
  | error e => exact iff_of_false (fun ⟨_, h⟩ => nomatch h) fun ⟨_, h⟩ => nomatch h
  | ok a => exact iff_of_true (hf a) ⟨a, rfl⟩

variable (status : BitVec 32)

theorem map_ok_iff {A B : Type} {x : Except Overrun A} {f : A → B} :
    (∃ b, x.map f = .ok b) ↔ ∃ a, x = .ok a := by
  cases x with
  | error e => exact iff_of_false (fun ⟨_, h⟩ => nomatch h) fun ⟨_, h⟩ => nomatch h
  | ok a => exact iff_of_true ⟨f a, rfl⟩ ⟨a, rfl⟩

theorem putResponse_ok_iff (keepAlive headOnly : Bool) (cors : Option (CorsConfig × Bytes))
    (encoding : Option ContentEncoding) (extra body : Bytes) :
    (∃ response, putResponse memory status keepAlive headOnly cors encoding extra body =
      .ok response) ↔ StatusFits status := by
  obtain ⟨length, hlength⟩ := putLength_ok _ _
  refine (bind_ok_iff fun line => ?_).trans (putStatusLine_ok_iff _)
  rw [hlength]
  exact ⟨_, rfl⟩

theorem buildHttpResponseChecked_ok_iff (keepAlive headOnly : Bool)
    (cors : Option (CorsConfig × Bytes)) (encoding : Option ContentEncoding)
    (extraHeaders : Option Bytes) (body : Bytes) :
    (∃ response, buildHttpResponseChecked memory status keepAlive headOnly cors encoding
      extraHeaders body = .ok response) ↔ StatusFits status := by
  unfold buildHttpResponseChecked
  split
  · exact map_ok_iff.trans (putStatusText_ok_iff _)
  · split
    · next hcached =>
      exact iff_of_true (map_ok_iff.mpr (putLength_ok _ _)) (statusFits_of_cached hcached)
    · exact putResponse_ok_iff _ _ _ headOnly _ _ _ _

theorem buildResponseFromPartsChecked_ok_iff (headers : List (Text × Text)) (body : Bytes)
    (keepAlive : Bool) :
    (∃ response, buildResponseFromPartsChecked memory status headers body keepAlive =
      .ok response) ↔ StatusFits status := by
  obtain ⟨length, hlength⟩ := putLength_ok _ _
  refine (bind_ok_iff fun line => ?_).trans (putStatusLine_ok_iff _)
  cases headers.mapM (encodePair Text.utf8) with
  | none => exact ⟨_, rfl⟩
  | some fields =>
    rw [hlength]
    by_cases hskip : fields.any isContentLength ∨ status.toInt = 204 ∨ status.toInt = 304
    · simp only [hskip, if_true]
      exact ⟨_, rfl⟩
    · simp only [hskip, if_false]
      exact ⟨_, rfl⟩

/-- Every 64-bit integer has its decimal text in the array of the digits and in 20 bytes;
both builders stay inside of their arrays exactly for a status of at most eight bytes. -/
theorem integerBuffers_iff :
    (∀ val : BitVec 64, fastI64Digits memory val = some (decimal val.toInt) ∧
      (decimal val.toInt).length ≤ 20) ∧
    ∀ (status : BitVec 32) (keepAlive headOnly : Bool) (cors : Option (CorsConfig × Bytes))
      (encoding : Option ContentEncoding) (extraHeaders : Option Bytes)
      (headers : List (Text × Text)) (body : Bytes),
      ((∃ response, buildHttpResponseChecked memory status keepAlive headOnly cors encoding
          extraHeaders body = .ok response) ↔ StatusFits status) ∧
        ((∃ response, buildResponseFromPartsChecked memory status headers body keepAlive =
          .ok response) ↔ StatusFits status) :=
  ⟨fun _ => ⟨fastI64Digits_eq _ _, length_decimal_le _⟩,
    fun _ _ headOnly _ _ _ _ _ =>
      ⟨buildHttpResponseChecked_ok_iff _ _ _ headOnly _ _ _ _,
        buildResponseFromPartsChecked_ok_iff _ _ _ _ _⟩⟩

/-- Within the arrays the builder is the one without them. -/
theorem buildHttpResponseChecked_eq (hstatus : StatusFits status) (keepAlive headOnly : Bool)
    (cors : Option (CorsConfig × Bytes)) (encoding : Option ContentEncoding)
    (extraHeaders : Option Bytes) {body : Bytes} (hbody : body.length < 2 ^ 63) :
    buildHttpResponseChecked memory status keepAlive headOnly cors encoding extraHeaders body =
      .ok (buildHttpResponse status.toInt keepAlive headOnly cors encoding extraHeaders body) := by
  have hvalue : (status.signExtend 64).toInt = status.toInt :=
    BitVec.toInt_signExtend_of_le (by decide)
  have htext : putStatusText memory status =
      .ok (statusText status.toInt (statusReason status.toInt)) := by
    rw [putStatusText, putNumber_eq, hvalue, if_pos ((length_decimal_le_eight_iff _).mpr hstatus)]
    rfl
  have hline : putStatusLine memory status = .ok (statusLine status.toInt) := by
    rw [putStatusLine, statusLine]
    cases cachedStatusLine status.toInt with
    | some prepared => rfl
    | none => exact htext
  have hlength : putLength memory body = .ok (decimal body.length) := by
    have hint : (BitVec.ofNat 64 body.length).toInt = body.length :=
      BitVec.toInt_eq_toNat_of_lt (by rw [BitVec.toNat_ofNat]; omega) |>.trans (by
        rw [BitVec.toNat_ofNat, Nat.mod_eq_of_lt (by omega)])
    rw [putLength, putNumber_eq, if_pos (length_decimal_le _), hint]
  have hresponse (extra : Bytes) :
      putResponse memory status keepAlive headOnly cors encoding extra body =
        .ok (statusLine status.toInt ++ jsonHeader ++ decimal body.length ++
          encodingHeaders encoding ++ (if extra = [] then [] else ascii "\r\n" ++ extra) ++
          corsHeaders cors ++ connectionSuffix keepAlive ++ (if headOnly then [] else body)) := by
    rw [putResponse, hline, hlength]
    rfl
  unfold buildHttpResponseChecked buildHttpResponse
  by_cases hbodiless : status.toInt = 204 ∨ status.toInt = 304
  · simp only [if_pos hbodiless, htext]
    rfl
  · simp only [if_neg hbodiless, hresponse, hlength]
    cases cors <;> cases encoding <;> cases extraHeaders <;>
      cases cachedStatusLine status.toInt <;> rfl

end Builders

def zeroed : FreshMemory := fun size => ⟨List.replicate size 0, length_replicate⟩

/-- A status without a prepared line, with a body and a field of its own. -/
theorem buildHttpResponseChecked_eq_teapot :
    buildHttpResponseChecked zeroed 418 false false none none
        (some (ascii "\r\nx-kind: short")) (ascii "short and stout") =
      .ok (buildHttpResponse 418 false false none none (some (ascii "\r\nx-kind: short"))
        (ascii "short and stout")) :=
  buildHttpResponseChecked_eq zeroed 418 ⟨by decide, by decide⟩ false false none none _ (by decide)

/-- A status of nine digits overruns both arrays. -/
theorem integerBuffers_overrun :
    buildHttpResponseChecked zeroed 123456789 true false none none none [] = .error .overrun ∧
      buildResponseFromPartsChecked zeroed 123456789 [] [] true = .error .overrun := by
  have hlong : ¬ StatusFits 123456789 := fun hfits => absurd hfits.2 (by decide)
  constructor
  · cases hresult : buildHttpResponseChecked zeroed 123456789 true false none none none [] with
    | error e => rfl
    | ok response =>
      exact absurd ((buildHttpResponseChecked_ok_iff ..).mp ⟨response, hresult⟩) hlong
  · cases hresult : buildResponseFromPartsChecked zeroed 123456789 [] [] true with
    | error e => rfl
    | ok response =>
      exact absurd ((buildResponseFromPartsChecked_ok_iff ..).mp ⟨response, hresult⟩) hlong

end AstraApi.Response
