import AstraApi.Http.Batch
import Mathlib.Data.List.TakeWhile

/-!
# Progress of the batch loops

The loops end if each request that is handled takes at least one byte off the
remaining ones.  The fast path always does.  For a method without a body
`parse_http_request` adds the declared length to that of the head as machine
words, and the sum may be zero.
-/

namespace AstraApi.Http

open List
open AstraApi.Server

variable {T : Type*}

variable {data : Bytes} {parsed : ParsedHttpRequest}

/-! ## The fast path -/

theorem length_skipByte_le (b : Byte) (data : Bytes) : (skipByte b data).length ≤ data.length := by
  cases data with
  | nil => exact le_rfl
  | cons first rest =>
    simp only [skipByte]
    split
    · exact Nat.le_succ _
    · exact le_rfl

/-- What follows the line of a value. -/
def nextLine (afterName : Bytes) : Bytes :=
  skipByte lf (skipByte cr ((afterName.dropWhile fun b => decide (b = sp)).dropWhile isLineByte))

/-- The header loop has found the empty line or a field line. -/
theorem scanHeaders_cases {slots : ℕ} {tail : Bytes} {headers : List Header}
    (h : scanHeaders (slots + 1) data = some (headers, tail)) :
    (headers = [] ∧ (data = cr :: lf :: tail ∨ data = lf :: tail)) ∨
      ∃ name afterName more, (∀ b ∈ name, b ≠ colon ∧ b ≠ cr ∧ b ≠ lf) ∧
        data = name ++ colon :: afterName ∧
        headers = (name, (afterName.dropWhile fun b => decide (b = sp)).takeWhile isLineByte) ::
          more ∧
        scanHeaders slots (nextLine afterName) = some (more, tail) := by
  cases data with
  | nil => cases h
  | cons first rest =>
    simp only [scanHeaders] at h
    split at h
    · rename_i hempty
      cases h
      obtain ⟨after, hrest⟩ := head?_eq_some_iff.mp hempty.2
      exact .inl ⟨rfl, .inl (by rw [hempty.1, hrest]; rfl)⟩
    · split at h
      · rename_i hlf
        cases h
        exact .inl ⟨rfl, .inr (by rw [hlf])⟩
      · split at h
        · cases h
        · rename_i stop afterName hstop
          split at h
          · cases h
          · rename_i hcolon
            split at h
            · cases h
            · rename_i more tail' hnext
              cases h
              refine .inr ⟨_, afterName, more, ?_, ?_, rfl, hnext⟩
              · intro b hb
                simpa [isLineByte] using mem_takeWhile_imp hb
              · obtain rfl := not_not.mp hcolon
                rw [← hstop, takeWhile_append_dropWhile]

theorem length_nextLine_le (afterName : Bytes) : (nextLine afterName).length ≤ afterName.length := by
  let afterSpace := afterName.dropWhile fun b => decide (b = sp)
  calc
    (nextLine afterName).length ≤ (skipByte cr (afterSpace.dropWhile isLineByte)).length :=
      length_skipByte_le lf _
    _ ≤ (afterSpace.dropWhile isLineByte).length := length_skipByte_le _ _
    _ ≤ afterSpace.length := (dropWhile_suffix _).length_le
    _ ≤ afterName.length := (dropWhile_suffix _).length_le

/-- The header loop ends behind the place where it began. -/
theorem scanHeaders_length_lt {slots : ℕ} {tail : Bytes} {headers : List Header}
    (h : scanHeaders slots data = some (headers, tail)) : tail.length < data.length := by
  induction slots generalizing data headers with
  | zero => cases h
  | succ slots ih =>
    rcases scanHeaders_cases h with ⟨-, rfl | rfl⟩ | ⟨name, afterName, more, -, rfl, -, hnext⟩
    · simp
    · simp
    · have hlt := ih hnext
      have hle := length_nextLine_le afterName
      simp only [length_append, length_cons]
      omega

theorem scanRequest_consumed {isHead : Bool} {target : Bytes}
    (htarget : target.length ≤ data.length) (h : scanRequest isHead data target = some parsed) :
    0 < parsed.totalConsumed ∧ parsed.totalConsumed ≤ data.length := by
  simp only [scanRequest] at h
  split at h
  · split at h
    · cases h
    · rename_i headers tail hscan
      split at h
      · cases h
      · cases h
        have hlt := scanHeaders_length_lt hscan
        have hskip := length_skipByte_le lf
          ((target.dropWhile fun b => decide (b ≠ sp) && decide (b ≠ cr)).drop 10)
        have huri := (dropWhile_suffix (fun b => decide (b ≠ sp) && decide (b ≠ cr))
          (l := target)).length_le
        rw [length_drop] at hskip
        simp only
        omega
  · cases h

theorem fastParse_consumed (h : fastParse data = some parsed) :
    0 < parsed.totalConsumed ∧ parsed.totalConsumed ≤ data.length := by
  have hdrop (count : ℕ) : (data.drop count).length ≤ data.length := by
    rw [length_drop]
    exact Nat.sub_le _ _
  unfold fastParse at h
  split at h
  · exact scanRequest_consumed (hdrop 4) h
  · split at h
    · exact scanRequest_consumed (hdrop 5) h
    · cases h

/-! ## llhttp -/

/-- Where llhttp stopped. -/
def headerEnd (llhttp : Llhttp) (data : Bytes) : ℕ := (llhttp data).errorPos.getD data.length

def Paused (llhttp : Llhttp) (data : Bytes) : Prop :=
  (llhttp data).errno = .paused ∨ (llhttp data).errno = .pausedUpgrade

def PausesInside (llhttp : Llhttp) : Prop :=
  ∀ data, Paused llhttp data → 0 < headerEnd llhttp data ∧ headerEnd llhttp data ≤ data.length

/-- A request without a body for which the length of its head and its declared
length add up to a multiple of the word size. -/
def WrapsAround (llhttp : Llhttp) (data : Bytes) : Prop :=
  Paused llhttp data ∧ (record (llhttp data)).noBody = true ∧
    bodySkipLen (llhttp data) ≠ UInt64.ofNat (2 ^ 64 - 1) ∧ 0 < bodySkipLen (llhttp data) ∧
    2 ^ 64 ∣ headerEnd llhttp data + (bodySkipLen (llhttp data)).toNat

/-- `parse_http_request` once llhttp has paused. -/
theorem parseHttpRequest_of_paused {llhttp : Llhttp} (h : Paused llhttp data) :
    parseHttpRequest llhttp data =
      if (record (llhttp data)).noBody = true ∧
          bodySkipLen (llhttp data) ≠ UInt64.ofNat (2 ^ 64 - 1) ∧
          0 < bodySkipLen (llhttp data) then
        let totalNeeded := (headerEnd llhttp data + (bodySkipLen (llhttp data)).toNat) % 2 ^ 64
        if data.length < totalNeeded then .needMore
        else .request { record (llhttp data) with totalConsumed := totalNeeded }
      else .request { record (llhttp data) with totalConsumed := headerEnd llhttp data } := by
  rw [parseHttpRequest, ite_and]
  rcases h with herrno | herrno
  · rw [herrno]
    rfl
  · rw [herrno]
    rfl

theorem paused_of_request {llhttp : Llhttp}
    (h : parseHttpRequest llhttp data = .request parsed) : Paused llhttp data := by
  rw [parseHttpRequest] at h
  cases herrno : (llhttp data).errno with
  | ok | error => simp [herrno] at h
  | paused => exact .inl herrno
  | pausedUpgrade => exact .inr herrno

section Inside

variable {llhttp : Llhttp} (hinside : PausesInside llhttp)

include hinside

/-- A parsed request takes no more than there is, and at least one byte unless
the sum of its lengths wraps around to zero. -/
theorem parseHttpRequest_consumed (h : parseHttpRequest llhttp data = .request parsed) :
    parsed.totalConsumed ≤ data.length ∧
      (0 < parsed.totalConsumed ↔ ¬ WrapsAround llhttp data) := by
  have hpaused := paused_of_request h
  have hposition := hinside _ hpaused
  rw [parseHttpRequest_of_paused hpaused] at h
  split at h
  · rename_i hskip
    dsimp only at h
    split at h
    · cases h
    · rename_i henough
      cases h
      refine ⟨Nat.le_of_not_lt henough, ?_⟩
      rw [Nat.pos_iff_ne_zero, not_iff_not, ← Nat.dvd_iff_mod_eq_zero]
      constructor
      · intro hzero
        exact ⟨hpaused, hskip.1, hskip.2.1, hskip.2.2, hzero⟩
      · intro hwraps
        exact hwraps.2.2.2.2
  · rename_i hskip
    cases h
    refine ⟨hposition.2, iff_of_true hposition.1 ?_⟩
    intro hwraps
    exact hskip ⟨hwraps.2.1, hwraps.2.2.1, hwraps.2.2.2.1⟩

omit hinside in
/-- A sum of zero is never more than what is there. -/
theorem exists_request_of_wraps (h : WrapsAround llhttp data) :
    ∃ parsed, parseHttpRequest llhttp data = .request parsed ∧ parsed.totalConsumed = 0 := by
  obtain ⟨hpaused, hnoBody, hdeclared, hpositive, hzero⟩ := h
  have hmod := Nat.dvd_iff_mod_eq_zero.mp hzero
  refine ⟨{ record (llhttp data) with totalConsumed := 0 }, ?_, rfl⟩
  rw [parseHttpRequest_of_paused hpaused, if_pos ⟨hnoBody, hdeclared, hpositive⟩]
  dsimp only
  rw [hmod, if_neg (Nat.not_lt_zero _)]

theorem parseStep_consumed_le
    (h : parseStep llhttp data = .request parsed) : parsed.totalConsumed ≤ data.length := by
  rw [parseStep] at h
  split at h
  · rename_i hfast
    cases h
    exact (fastParse_consumed hfast).2
  · exact (parseHttpRequest_consumed hinside h).1

theorem parseStep_consumed_pos
    (h : parseStep llhttp data = .request parsed) (hwraps : ¬ WrapsAround llhttp data) :
    0 < parsed.totalConsumed := by
  rw [parseStep] at h
  split at h
  · rename_i hfast
    cases h
    exact (fastParse_consumed hfast).1
  · exact (parseHttpRequest_consumed hinside h).2.mpr hwraps

/-! ## The loops -/

omit hinside in
/-- What happens to a request that was parsed: it is answered at once (`none`) or
handed to Python. -/
structure RequestHandler (T : Type*) where
  answer : ParsedHttpRequest → Option T
  writes : ParsedHttpRequest → List Bytes
  errorResponse : ℕ → Bytes

def dispatchOneRequest (handler : RequestHandler T) : Dispatch T where
  result data :=
    match parseStep llhttp data with
    | .needMore => .incomplete
    | .error => .failed
    | .request parsed =>
      if parsed.bodyTooLarge then .failed
      else
        match handler.answer parsed with
        | none => .handled parsed.totalConsumed
        | some inner => .pair parsed.totalConsumed inner
  writes data :=
    match parseStep llhttp data with
    | .needMore => []
    | .error => [handler.errorResponse 400]
    | .request parsed =>
      if parsed.bodyTooLarge then [handler.errorResponse 413] else handler.writes parsed
  fits data := by
    split
    · exact Nat.zero_le _
    · exact Nat.zero_le _
    · rename_i parsed hparsed
      have hle := parseStep_consumed_le hinside hparsed
      split
      · exact Nat.zero_le _
      · split <;> exact hle

theorem handled_of_result {handler : RequestHandler T} {consumed : ℕ}
    (h : (dispatchOneRequest hinside handler).result data = .handled consumed) :
    ∃ parsed, parseStep llhttp data = .request parsed ∧ parsed.totalConsumed = consumed := by
  simp only [dispatchOneRequest] at h
  split at h
  · cases h
  · cases h
  · rename_i parsed hparsed
    split at h
    · cases h
    · split at h
      · cases h
        exact ⟨parsed, hparsed, rfl⟩
      · cases h

/-- All three batch functions return on a buffer with the given bytes, and the
offset stays inside the buffer. -/
def LoopsEnd (T : Type*) (data : Bytes) : Prop :=
  ∀ handler : RequestHandler T,
    (∃ fuel, (handleHttpBatch (dispatchOneRequest hinside handler) fuel data).isSome) ∧
    (∀ buffer : HttpConnectionBuffer, buffer.contents = data →
      ∃ fuel batch, handleHttpBatchV2 (dispatchOneRequest hinside handler) fuel buffer =
        some batch ∧ consumedBy (dispatchOneRequest hinside handler) batch.calls ≤ data.length) ∧
    ∀ (buffer : HttpConnectionBuffer) (chunk : Bytes), (buffer.append chunk).1 = true →
      (buffer.append chunk).2.contents = data →
      ∃ fuel batch, handleHttpAppendAndDispatch (dispatchOneRequest hinside handler) fuel buffer
        (some chunk) = some batch ∧
          consumedBy (dispatchOneRequest hinside handler) batch.calls ≤ data.length

theorem loopsEnd_of_not_wraps (h : ∀ k, ¬ WrapsAround llhttp (data.drop k)) :
    LoopsEnd hinside T data := by
  intro handler
  have hprogress : ∀ offset consumed,
      (dispatchOneRequest hinside handler).result (data.drop offset) = .handled consumed →
        0 < consumed := by
    intro offset consumed hhandled
    obtain ⟨parsed, hparsed, rfl⟩ := handled_of_result hinside hhandled
    exact parseStep_consumed_pos hinside hparsed (h _)
  have hbatch (buffer : HttpConnectionBuffer) (hcontents : buffer.contents = data) :
      ∃ fuel batch, handleHttpBatchV2 (dispatchOneRequest hinside handler) fuel buffer =
        some batch ∧ consumedBy (dispatchOneRequest hinside handler) batch.calls ≤ data.length := by
    have hsome := handleHttpBatchV2_isSome _ (hcontents.symm ▸ hprogress) (Nat.lt_succ_self _)
    obtain ⟨batch, heq⟩ := Option.isSome_iff_exists.mp hsome
    obtain ⟨-, hlength, -⟩ := handleHttpBatchV2_accounts _ heq
    rw [hcontents] at hlength
    exact ⟨_, batch, heq, by omega⟩
  refine ⟨⟨data.length + 1, ?_⟩, hbatch, ?_⟩
  · rw [handleHttpBatch, batchV1Loop_isSome]
    exact traverse_isSome hprogress (Nat.zero_le _) (by omega)
  · intro buffer chunk hsuccess hcontents
    obtain ⟨fuel, batch, heq, hle⟩ := hbatch _ hcontents
    refine ⟨fuel, batch, ?_, hle⟩
    rw [appendAndDispatch_eq_batch]
    simp only [hsuccess, if_true]
    exact heq

omit hinside in
/-- A handled request of no length is dispatched for ever. -/
theorem traverse_eq_none {dispatch : Dispatch T} {raw : Bytes} {offset : ℕ}
    (h : dispatch.result (raw.drop offset) = .handled 0) (fuel : ℕ) :
    traverse dispatch raw fuel offset = none := by
  induction fuel with
  | zero => rfl
  | succ fuel ih => simp [traverse, h, ih]

/-- On a buffer and everything behind one of its requests, the parser makes
progress and the batch functions return, exactly when no length wraps around. -/
theorem progress_iff (data : Bytes) :
    (∀ k, (∀ parsed, parseHttpRequest llhttp (data.drop k) = .request parsed →
        0 < parsed.totalConsumed ∧ parsed.totalConsumed ≤ (data.drop k).length) ∧
      LoopsEnd hinside T (data.drop k)) ↔
    ∀ k, ¬ WrapsAround llhttp (data.drop k) := by
  constructor
  · intro h k hwraps
    obtain ⟨parsed, hparsed, hzero⟩ := exists_request_of_wraps hwraps
    have hpos := ((h k).1 parsed hparsed).1
    omega
  · intro h k
    constructor
    · intro parsed hparsed
      have hconsumed := parseHttpRequest_consumed hinside hparsed
      exact ⟨hconsumed.2.mpr (h k), hconsumed.1⟩
    · apply loopsEnd_of_not_wraps hinside
      intro j
      rw [drop_drop]
      exact h _

end Inside

/-! ## Two requests -/

def optionsParser (request : Bytes) (contentLength : UInt64) : Llhttp := fun data =>
  if data = request then
    { errno := .paused
      errorPos := some request.length
      method := ascii "OPTIONS"
      url := ascii "/"
      headersComplete := some ⟨.options, true, false, false, contentLength⟩ }
  else { errno := .ok }

theorem optionsParser_pausesInside {request : Bytes} (h : request ≠ []) (contentLength : UInt64) :
    PausesInside (optionsParser request contentLength) := by
  intro data hpaused
  have hdata : data = request := by
    by_contra hne
    simp [Paused, optionsParser, hne] at hpaused
  subst hdata
  simpa [headerEnd, optionsParser] using length_pos_iff.mpr h

def plainRequest : Bytes := ascii "OPTIONS / HTTP/1.1\r\n\r\n"

theorem progress_plainRequest :
    ∃ hinside : PausesInside (optionsParser plainRequest 0),
      ∀ k, (∀ parsed, parseHttpRequest (optionsParser plainRequest 0)
          (plainRequest.drop k) = .request parsed →
            0 < parsed.totalConsumed ∧ parsed.totalConsumed ≤ (plainRequest.drop k).length) ∧
        LoopsEnd hinside ℕ (plainRequest.drop k) := by
  refine ⟨optionsParser_pausesInside (by decide) _, (progress_iff _ _).mpr ?_⟩
  intro k hwraps
  have hlength := hwraps.2.2.2.1
  by_cases hk : plainRequest.drop k = plainRequest
  · simp [bodySkipLen, optionsParser, hk] at hlength
  · simp [bodySkipLen, optionsParser, hk] at hlength

def wrappingRequest : Bytes :=
  ascii "OPTIONS / HTTP/1.1\r\nContent-Length: 18446744073709551556\r\n\r\n"

/-- No batch function returns when the first request is handled and has no length. -/
theorem batches_eq_none {dispatch : Dispatch T}
    (h : dispatch.result data = .handled 0) (fuel : ℕ) :
    handleHttpBatch dispatch fuel data = none ∧
      ∀ buffer : HttpConnectionBuffer, buffer.contents = data → 0 < buffer.size →
        handleHttpBatchV2 dispatch fuel buffer = none := by
  have htraverse : traverse dispatch data fuel 0 = none := traverse_eq_none h _
  constructor
  · rw [← Option.not_isSome_iff_eq_none, handleHttpBatch, batchV1Loop_isSome, htraverse]
    exact Bool.false_ne_true
  · intro buffer hcontents hsize
    rw [handleHttpBatchV2, if_neg hsize.ne', batchV2Loop_eq, hcontents, htraverse]
    rfl

/-- The request above is a request of no length, and no batch function returns
on a new buffer that received it. -/
theorem wrappingRequest_never_ends :
    ∃ hinside : PausesInside (optionsParser wrappingRequest 18446744073709551556),
      (∃ parsed, parseHttpRequest (optionsParser wrappingRequest 18446744073709551556)
        wrappingRequest = .request parsed ∧ parsed.totalConsumed = 0) ∧
      ∀ fuel, handleHttpBatch (dispatchOneRequest hinside ⟨fun _ => (none : Option ℕ), fun _ => [],
          fun _ => []⟩) fuel wrappingRequest = none ∧
        handleHttpBatchV2 (dispatchOneRequest hinside ⟨fun _ => (none : Option ℕ), fun _ => [],
          fun _ => []⟩) fuel (HttpConnectionBuffer.create.append wrappingRequest).2 = none ∧
        handleHttpAppendAndDispatch (dispatchOneRequest hinside ⟨fun _ => (none : Option ℕ),
          fun _ => [], fun _ => []⟩) fuel .create (some wrappingRequest) = none := by
  have hinside : PausesInside (optionsParser wrappingRequest 18446744073709551556) :=
    optionsParser_pausesInside (by decide) _
  have hparsed : ∃ parsed, parseHttpRequest (optionsParser wrappingRequest 18446744073709551556)
      wrappingRequest = .request parsed ∧ parsed.totalConsumed = 0 :=
    exists_request_of_wraps ⟨.inl (by decide), by decide, by decide, by decide, by decide⟩
  refine ⟨hinside, hparsed, fun fuel => ?_⟩
  have hhandled : (dispatchOneRequest hinside ⟨fun _ => (none : Option ℕ), fun _ => [],
      fun _ => []⟩).result wrappingRequest = .handled 0 := rfl
  have hbatches := batches_eq_none hhandled fuel
  have haccepted : HttpConnectionBuffer.create.size + wrappingRequest.length ≤
      HttpConnectionBuffer.maxCapacity := by
    decide
  obtain ⟨hsuccess, hvalid, hcontents⟩ := HttpConnectionBuffer.append_spec
    HttpConnectionBuffer.create_valid haccepted (fun _ _ => haccepted)
  have happend := hbatches.2 (HttpConnectionBuffer.create.append _).2 hcontents (by
    decide)
  refine ⟨hbatches.1, happend, ?_⟩
  rw [appendAndDispatch_eq_batch]
  exact happend

end AstraApi.Http
