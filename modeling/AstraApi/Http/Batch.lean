import AstraApi.Http.Request
import AstraApi.Server.ConnectionBuffer

/-!
# Batches of requests

Three functions dispatch the complete requests in a buffer one after the other:
`handle_http_batch`, which leaves it to the caller to consume the buffer,
`handle_http_batch_v2`, which consumes it, and
`handle_http_append_and_dispatch`, which also appends the data received.  Their
loops keep an offset into the bytes that were in the buffer at the start.
-/

namespace AstraApi.Http

open Option
open AstraApi.Server

variable {T : Type*}

/-- The results of `dispatch_one_request`: `True`, `None`, `False` or a pair.  A
request that was dispatched comes with `last_consumed`. -/
inductive Dispatched (T : Type*) where
  | handled (consumed : ℕ)
  | incomplete
  | failed
  | pair (consumed : ℕ) (inner : T)

def Dispatched.consumed : Dispatched T → ℕ
  | .handled consumed => consumed
  | .pair consumed _ => consumed
  | .incomplete => 0
  | .failed => 0

/-- A behaviour of `dispatch_one_request` as a function of the remaining bytes,
with what it writes to the transport.  It consumes only bytes that are there. -/
structure Dispatch (T : Type*) where
  result : Bytes → Dispatched T
  writes : Bytes → List Bytes
  fits : ∀ data, (result data).consumed ≤ data.length

/-- What a batch function returns to Python. -/
inductive Reply (T : Type*) where
  | code (value : ℤ)
  | payload (inner : T)

/-- A batch: the reply, the buffer after it, and the remaining bytes that each
call of `dispatch_one_request` was given. -/
structure Batch (T : Type*) where
  reply : Reply T
  buffer : HttpConnectionBuffer
  calls : List Bytes

def Batch.writes (dispatch : Dispatch T) (batch : Batch T) : List Bytes :=
  batch.calls.flatMap dispatch.writes

section Loops

variable (dispatch : Dispatch T)

/-- The loop of `handle_http_batch_v2`; `none` when the fuel runs out. -/
def batchV2Loop (buffer : HttpConnectionBuffer) : ℕ → ℕ → List Bytes → Option (Batch T)
  | 0, _, _ => none
  | fuel + 1, offset, calls =>
    let remaining := buffer.contents.drop offset
    let calls := calls ++ [remaining]
    match dispatch.result remaining with
    | .handled consumed => batchV2Loop buffer fuel (offset + consumed) calls
    | .incomplete =>
      if 0 < offset then
        let buffer := buffer.consume offset
        some ⟨.code (if 0 < buffer.size then 1 else 0), buffer, calls⟩
      else some ⟨.code (-1), buffer, calls⟩
    | .failed => some ⟨.code (-2), if 0 < offset then buffer.consume offset else buffer, calls⟩
    | .pair consumed inner => some ⟨.payload inner, buffer.consume (offset + consumed), calls⟩

def handleHttpBatchV2 (fuel : ℕ) (buffer : HttpConnectionBuffer) : Option (Batch T) :=
  if buffer.size = 0 then some ⟨.code (-1), buffer, []⟩
  else batchV2Loop dispatch buffer fuel 0 []

def appendLoop (buffer : HttpConnectionBuffer) (rawBase : Bytes) :
    ℕ → ℕ → List Bytes → Option (Batch T)
  | 0, _, _ => none
  | fuel + 1, offset, calls =>
    let calls := calls ++ [rawBase.drop offset]
    match dispatch.result (rawBase.drop offset) with
    | .handled consumed => appendLoop buffer rawBase fuel (offset + consumed) calls
    | .incomplete =>
      if 0 < offset then
        let after := buffer.consume offset
        if 0 < after.size then some ⟨.code 1, after, calls⟩ else some ⟨.code 0, after, calls⟩
      else some ⟨.code (-1), buffer, calls⟩
    | .failed =>
      if 0 < offset then some ⟨.code (-2), buffer.consume offset, calls⟩
      else some ⟨.code (-2), buffer, calls⟩
    | .pair consumed inner =>
      let totalConsumed := offset + consumed
      some ⟨.payload inner, buffer.consume totalConsumed, calls⟩

def handleHttpAppendAndDispatch (fuel : ℕ) (buffer : HttpConnectionBuffer) (data : Option Bytes) :
    Option (Batch T) :=
  let (appended, buffer) :=
    match data with
    | some data => buffer.append data
    | none => (true, buffer)
  if !appended then some ⟨.code (-3), buffer, []⟩
  else if buffer.size = 0 then some ⟨.code (-1), buffer, []⟩
  else appendLoop dispatch buffer buffer.contents fuel 0 []

/-- The result of `handle_http_batch`, which leaves the buffer as it is, and the
value of `last_consumed` after it. -/
structure BatchV1 (T : Type*) where
  result : Dispatched T
  lastConsumed : ℕ
  calls : List Bytes

/-- The loop of `handle_http_batch` over the bytes from its base offset on. -/
def batchV1Loop (raw : Bytes) : ℕ → ℕ → List Bytes → Option (BatchV1 T)
  | 0, _, _ => none
  | fuel + 1, offset, calls =>
    let calls := calls ++ [raw.drop offset]
    match dispatch.result (raw.drop offset) with
    | .handled consumed => batchV1Loop raw fuel (offset + consumed) calls
    | .incomplete => some ⟨if 0 < offset then .handled offset else .incomplete, offset, calls⟩
    | .failed => some ⟨.failed, offset, calls⟩
    | .pair consumed inner => some ⟨.pair (offset + consumed) inner, offset + consumed, calls⟩

def handleHttpBatch (fuel : ℕ) (raw : Bytes) : Option (BatchV1 T) :=
  batchV1Loop dispatch raw fuel 0 []

end Loops

/-! ## The common traversal -/

variable {fuel offset last : ℕ} {calls : List Bytes} {result : Dispatched T}

section Traversal

variable (dispatch : Dispatch T) (raw : Bytes)

def consumedBy (calls : List Bytes) : ℕ :=
  (calls.map fun call => (dispatch.result call).consumed).sum

/-- Dispatch from an offset on until a call is not simply handled: the calls,
the last offset and the last result. -/
inductive Traverses : ℕ → List Bytes → ℕ → Dispatched T → Prop
  | stop {offset : ℕ} (h : ∀ consumed, dispatch.result (raw.drop offset) ≠ .handled consumed) :
      Traverses offset [raw.drop offset] offset (dispatch.result (raw.drop offset))
  | next {offset consumed last : ℕ} {calls : List Bytes} {result : Dispatched T}
      (h : dispatch.result (raw.drop offset) = .handled consumed)
      (rest : Traverses (offset + consumed) calls last result) :
      Traverses offset (raw.drop offset :: calls) last result

/-- The traversal with fuel. -/
def traverse : ℕ → ℕ → Option (List Bytes × ℕ × Dispatched T)
  | 0, _ => none
  | fuel + 1, offset =>
    match dispatch.result (raw.drop offset) with
    | .handled consumed =>
      (traverse fuel (offset + consumed)).map fun (calls, last, result) =>
        (raw.drop offset :: calls, last, result)
    | result => some ([raw.drop offset], offset, result)

variable {dispatch raw}

theorem traverses_of_traverse (h : traverse dispatch raw fuel offset = some (calls, last, result)) :
    Traverses dispatch raw offset calls last result := by
  induction fuel generalizing offset calls with
  | zero => cases h
  | succ fuel ih =>
    rw [traverse] at h
    split at h
    · rename_i consumed hhandled
      obtain ⟨⟨rest, last', result'⟩, hrest, heq⟩ := map_eq_some_iff.mp h
      cases heq
      exact .next hhandled (ih hrest)
    · rename_i hother
      cases h
      exact .stop hother

/-- No byte is skipped and none is dispatched twice. -/
theorem Traverses.call_eq
    (h : Traverses dispatch raw offset calls last result) (i : ℕ) {call : Bytes}
    (hcall : calls[i]? = some call) :
    call = raw.drop (offset + consumedBy dispatch (calls.take i)) := by
  induction h generalizing i with
  | stop h =>
    cases i with
    | zero => simpa [consumedBy] using hcall.symm
    | succ i => simp at hcall
  | next h rest ih =>
    cases i with
    | zero => simpa [consumedBy] using hcall.symm
    | succ i =>
      have hrest := ih i (by simpa using hcall)
      simpa [consumedBy, h, Dispatched.consumed, Nat.add_assoc] using hrest

theorem Traverses.consumedBy_eq (h : Traverses dispatch raw offset calls last result) :
    offset + consumedBy dispatch calls = last + result.consumed := by
  induction h with
  | stop h => simp [consumedBy]
  | next h rest ih =>
    rw [← ih]
    simp [consumedBy, h, Dispatched.consumed, Nat.add_assoc]

variable (dispatch) in
theorem consumed_le_of_drop (offset : ℕ) (hoffset : offset ≤ raw.length) :
    offset + (dispatch.result (raw.drop offset)).consumed ≤ raw.length := by
  have hfits := dispatch.fits (raw.drop offset)
  rw [List.length_drop] at hfits
  omega

/-- The offset stays inside the buffer. -/
theorem Traverses.le_length
    (h : Traverses dispatch raw offset calls last result) (hoffset : offset ≤ raw.length) :
    last + result.consumed ≤ raw.length := by
  induction h with
  | stop h => exact consumed_le_of_drop _ _ hoffset
  | next h rest ih =>
    apply ih
    have hle := consumed_le_of_drop dispatch _ hoffset
    rwa [h] at hle

/-- Progress in every round makes the traversal end. -/
theorem traverse_isSome
    (hprogress : ∀ offset consumed, dispatch.result (raw.drop offset) = .handled consumed →
      0 < consumed) (hoffset : offset ≤ raw.length) (hfuel : raw.length < offset + fuel) :
    (traverse dispatch raw fuel offset).isSome := by
  induction fuel generalizing offset with
  | zero => omega
  | succ fuel ih =>
    rw [traverse]
    split
    · rename_i consumed hhandled
      have hle := consumed_le_of_drop dispatch _ hoffset
      rw [hhandled, Dispatched.consumed] at hle
      have hpos := hprogress _ _ hhandled
      rw [isSome_map]
      exact ih hle (by omega)
    · rfl

/-- What `handle_http_batch_v2` does where the traversal stops; it never stops at
a request that was handled. -/
def finishBatch (buffer : HttpConnectionBuffer) (calls : List Bytes) (last : ℕ) :
    Dispatched T → Batch T
  | .handled _ | .incomplete =>
    if 0 < last then
      ⟨.code (if 0 < (buffer.consume last).size then 1 else 0), buffer.consume last, calls⟩
    else ⟨.code (-1), buffer, calls⟩
  | .failed => ⟨.code (-2), if 0 < last then buffer.consume last else buffer, calls⟩
  | .pair consumed inner => ⟨.payload inner, buffer.consume (last + consumed), calls⟩

variable (dispatch)

theorem batchV2Loop_eq (buffer : HttpConnectionBuffer) (fuel offset : ℕ) (calls : List Bytes) :
    batchV2Loop dispatch buffer fuel offset calls =
      (traverse dispatch buffer.contents fuel offset).map fun (more, last, result) =>
        finishBatch buffer (calls ++ more) last result := by
  induction fuel generalizing offset calls with
  | zero => rfl
  | succ fuel ih =>
    rw [batchV2Loop, traverse]
    cases hresult : dispatch.result (buffer.contents.drop offset) with
    | handled consumed =>
      simp only [ih, Option.map_map]
      congr 1
      funext traversed
      simp
    | incomplete => simp only [map_some, finishBatch]; split <;> rfl
    | failed => rfl
    | pair consumed inner => rfl

theorem appendLoop_eq (buffer : HttpConnectionBuffer) (fuel offset : ℕ) (calls : List Bytes) :
    appendLoop dispatch buffer buffer.contents fuel offset calls =
      (traverse dispatch buffer.contents fuel offset).map fun (more, last, result) =>
        finishBatch buffer (calls ++ more) last result := by
  induction fuel generalizing offset calls with
  | zero => rfl
  | succ fuel ih =>
    rw [appendLoop, traverse]
    cases hresult : dispatch.result (buffer.contents.drop offset) with
    | handled consumed =>
      simp only [ih, Option.map_map]
      congr 1
      funext traversed
      simp
    | incomplete =>
      simp only [map_some, finishBatch]
      split
      · split <;> rfl
      · rfl
    | failed =>
      simp only [map_some, finishBatch]
      split <;> rfl
    | pair consumed inner => rfl

theorem batchV1Loop_isSome (raw : Bytes) (fuel offset : ℕ) (calls : List Bytes) :
    (batchV1Loop dispatch raw fuel offset calls).isSome =
      (traverse dispatch raw fuel offset).isSome := by
  induction fuel generalizing offset calls with
  | zero => rfl
  | succ fuel ih =>
    rw [batchV1Loop, traverse]
    cases dispatch.result (raw.drop offset) with
    | handled consumed => simp [ih]
    | incomplete => rfl
    | failed => rfl
    | pair consumed inner => rfl

theorem finishBatch_contents (buffer : HttpConnectionBuffer) (calls : List Bytes) (last : ℕ)
    (h : ∀ consumed, result ≠ .handled consumed) :
    (finishBatch buffer calls last result).buffer.contents =
      buffer.contents.drop (last + result.consumed) := by
  have whole : buffer.contents.drop 0 = buffer.contents := rfl
  cases result with
  | handled consumed => exact absurd rfl (h _)
  | incomplete | failed =>
    simp only [finishBatch, Dispatched.consumed, Nat.add_zero]
    split
    · exact buffer.contents_consume _
    · rename_i hzero
      rw [Nat.eq_zero_of_not_pos hzero, whole]
  | pair consumed inner => exact buffer.contents_consume _

theorem Traverses.not_handled {raw : Bytes} (h : Traverses dispatch raw offset calls last result)
    (consumed : ℕ) :
    result ≠ .handled consumed := by
  induction h with
  | stop h => exact h _
  | next _ _ ih => exact ih

theorem finishBatch_calls (buffer : HttpConnectionBuffer) (calls : List Bytes) (last : ℕ)
    (result : Dispatched T) : (finishBatch buffer calls last result).calls = calls := by
  cases result with
  | handled consumed => simp only [finishBatch]; split <;> rfl
  | incomplete => simp only [finishBatch]; split <;> rfl
  | failed => rfl
  | pair consumed inner => rfl

end Traversal

/-! ## Fused and separate dispatch -/

section Fused

variable (dispatch : Dispatch T)

def Batch.Accounts (before : Bytes) (batch : Batch T) : Prop :=
  batch.buffer.contents = before.drop (consumedBy dispatch batch.calls) ∧
    before.length = batch.buffer.contents.length + consumedBy dispatch batch.calls ∧
    ∀ i call, batch.calls[i]? = some call →
      call = before.drop (consumedBy dispatch (batch.calls.take i))

theorem handleHttpBatchV2_accounts {buffer : HttpConnectionBuffer} {batch : Batch T}
    (h : handleHttpBatchV2 dispatch fuel buffer = some batch) :
    batch.Accounts dispatch buffer.contents := by
  rw [handleHttpBatchV2] at h
  split at h
  · cases h
    simp [Batch.Accounts, consumedBy]
  · rw [batchV2Loop_eq] at h
    obtain ⟨⟨calls, last, result⟩, htraverse, hbatch⟩ := map_eq_some_iff.mp h
    simp only [List.nil_append] at hbatch
    subst hbatch
    have htraverses := traverses_of_traverse htraverse
    have hconsumed := htraverses.consumedBy_eq
    have hlength := htraverses.le_length (Nat.zero_le _)
    rw [Nat.zero_add] at hconsumed
    rw [Batch.Accounts, finishBatch_calls,
      finishBatch_contents _ _ _ (htraverses.not_handled _), ← hconsumed]
    refine ⟨rfl, ?_, ?_⟩
    · rw [List.length_drop]
      omega
    · intro i call hcall
      have heq := htraverses.call_eq i hcall
      rwa [Nat.zero_add] at heq

theorem appendAndDispatch_eq_batch (fuel : ℕ) (buffer : HttpConnectionBuffer)
    (data : Option Bytes) :
    let appended := match data with
      | some data => buffer.append data
      | none => (true, buffer)
    handleHttpAppendAndDispatch dispatch fuel buffer data =
      if appended.1 then handleHttpBatchV2 dispatch fuel appended.2
      else some ⟨.code (-3), buffer, []⟩ := by
  intro appended
  have hloop : appendLoop dispatch appended.2 appended.2.contents fuel 0 [] =
      batchV2Loop dispatch appended.2 fuel 0 [] := by
    rw [appendLoop_eq, batchV2Loop_eq]
  have hspelled : handleHttpAppendAndDispatch dispatch fuel buffer data =
      if !appended.1 then some ⟨.code (-3), appended.2, []⟩
      else if appended.2.size = 0 then some ⟨.code (-1), appended.2, []⟩
      else appendLoop dispatch appended.2 appended.2.contents fuel 0 [] := rfl
  have hrefused : appended.1 = false → appended.2 = buffer := by
    intro hfalse
    cases data with
    | none => cases hfalse
    | some data =>
      simp only [appended, HttpConnectionBuffer.append] at hfalse ⊢
      split at hfalse
      · rename_i hfull
        rw [if_pos hfull]
      · cases hfalse
  rw [hspelled, handleHttpBatchV2, hloop]
  cases hsuccess : appended.1 with
  | true => simp
  | false => simp [hrefused hsuccess]

theorem handleHttpBatchV2_isSome {buffer : HttpConnectionBuffer}
    (hprogress : ∀ offset consumed,
      dispatch.result (buffer.contents.drop offset) = .handled consumed → 0 < consumed)
    (hfuel : buffer.contents.length < fuel) :
    (handleHttpBatchV2 dispatch fuel buffer).isSome := by
  rw [handleHttpBatchV2]
  split
  · rfl
  · rw [batchV2Loop_eq, isSome_map]
    exact traverse_isSome hprogress (Nat.zero_le _) (by omega)

/-- Appending and dispatching in one call is the same as doing it in two. -/
theorem handleHttpAppendAndDispatch_eq (fuel : ℕ) (buffer : HttpConnectionBuffer)
    (data : Option Bytes) :
    let appended := match data with
      | some data => buffer.append data
      | none => (true, buffer)
    (handleHttpAppendAndDispatch dispatch fuel buffer data =
      if appended.1 then handleHttpBatchV2 dispatch fuel appended.2
      else some ⟨.code (-3), buffer, []⟩) ∧
    (∀ batch, handleHttpBatchV2 dispatch fuel appended.2 = some batch →
      batch.Accounts dispatch appended.2.contents) ∧
    ((∀ data consumed, dispatch.result data = .handled consumed → 0 < consumed) →
      appended.2.contents.length < fuel → (handleHttpBatchV2 dispatch fuel appended.2).isSome) := by
  intro appended
  refine ⟨appendAndDispatch_eq_batch _ _ _ _, ?_, ?_⟩
  · intro batch hbatch
    exact handleHttpBatchV2_accounts _ hbatch
  · intro hprogress hfuel
    apply handleHttpBatchV2_isSome _ _ hfuel
    intro offset consumed
    exact hprogress _ _

end Fused

end AstraApi.Http
