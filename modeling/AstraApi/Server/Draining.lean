import AstraApi.Http.Progress

/-!
# Draining after back-pressure

While writing is paused, `data_received` only buffers.  `resume_writing`
schedules `_drain_buf`, which calls `data_received` with an empty chunk and
schedules itself again as long as bytes remain.  The bytes that remain may be
the beginning of a request.

The application may behave differently in every callback; any of its writes may
make the transport pause the writing again.
-/

namespace AstraApi.Server.Draining

open List Option

variable {fuel : ℕ} {buffer : HttpConnectionBuffer}

/-- What `dispatch_one_request` hands to Python: `True` for an upgrade without a
route, an upgrade with or without an endpoint, or work for a task. -/
inductive Payload where
  | noRoute
  | webSocket (endpoint : Bool)
  | task

/-- The dispatcher during one callback.  No bytes are no request. -/
structure Behaviour extends Http.Dispatch Payload where
  incomplete_nil : result [] = .incomplete

structure Connection where
  buffer : HttpConnectionBuffer
  paused : Bool
  closing : Bool
  /-- The calls of `_drain_buf` that the event loop still has to make. -/
  scheduled : ℕ
  connected : Bool := true
  upgraded : Bool := false

/-- `transport.close()` and `_http_buf_clear(http_buf)`. -/
def Connection.dropped (conn : Connection) : Connection :=
  { conn with closing := true, buffer := conn.buffer.clear }

section Callbacks

variable (maxBodySize : ℕ) (behaviour : Behaviour)

/-- The loop of `data_received` over what the dispatcher hands to Python; `none`
when the fuel runs out. -/
def dispatchLoop (steps : ℕ) : ℕ → Connection → Payload → Option Connection
  | 0, _, _ => none
  | fuel + 1, conn, payload =>
    match payload with
    | .noRoute => some conn.dropped
    | .webSocket false => some conn.dropped
    | .webSocket true => some { conn with upgraded := true, buffer := conn.buffer.clear }
    | .task =>
      match Http.handleHttpBatchV2 behaviour.toDispatch steps conn.buffer with
      | none => none
      | some batch =>
        let conn := { conn with buffer := batch.buffer }
        match batch.reply with
        | .code value => if value = -2 then some conn.dropped else some conn
        | .payload inner => dispatchLoop steps fuel conn inner

/-- The body size check of `data_received`. -/
def tooLarge (size : ℕ) : Bool := 0 < maxBodySize && maxBodySize + 8192 < size

def dataReceived (fuel : ℕ) (conn : Connection) (data : Bytes) : Option Connection :=
  if conn.upgraded then some conn
  else if conn.paused then
    let (appended, buffer) := conn.buffer.append data
    some { conn with buffer := buffer, closing := conn.closing || conn.connected && !appended }
  else if !conn.connected then some conn
  else if tooLarge maxBodySize (conn.buffer.size + data.length) then
    some { conn with closing := true }
  else
    match Http.handleHttpAppendAndDispatch behaviour.toDispatch fuel conn.buffer (some data) with
    | none => none
    | some batch =>
      let conn := { conn with buffer := batch.buffer }
      match batch.reply with
      | .code value =>
        if value = -2 then some conn.dropped
        else if value = -3 then some { conn with closing := true }
        else some conn
      | .payload inner => dispatchLoop behaviour fuel fuel conn inner

/-- `_drain_buf`, and whether it has scheduled itself again.  `pauses` tells
whether the transport calls `pause_writing` because of a write. -/
def drainBuf (pauses : Bool) (fuel : ℕ) (conn : Connection) : Option (Bool × Connection) :=
  if conn.paused || conn.buffer.size == 0 then some (false, conn)
  else
    (dataReceived maxBodySize behaviour fuel conn []).map fun conn =>
      let conn := { conn with paused := conn.paused || pauses }
      if !conn.paused && decide (0 < conn.buffer.size) then
        (true, { conn with scheduled := conn.scheduled + 1 })
      else (false, conn)

end Callbacks

def Connection.resumeWriting (conn : Connection) : Connection :=
  let conn := { conn with paused := false }
  if 0 < conn.buffer.size ∧ conn.connected = true ∧ conn.closing = false then
    { conn with scheduled := conn.scheduled + 1 }
  else conn

def Connection.connectionLost (conn : Connection) : Connection :=
  { conn with connected := false, buffer := conn.buffer.clear }

def Connection.called (conn : Connection) : Connection :=
  { conn with scheduled := conn.scheduled - 1 }

section Runs

variable (maxBodySize : ℕ) (app : Set Behaviour)

/-- A call of `_drain_buf` that returns. -/
def Drains (conn : Connection) (again : Bool) (conn' : Connection) : Prop :=
  0 < conn.scheduled ∧ ∃ behaviour ∈ app, ∃ pauses fuel,
    drainBuf maxBodySize behaviour pauses fuel conn.called = some (again, conn')

/-- What may happen next on the connection while no bytes arrive. -/
inductive Turn : Connection → Bool → Connection → Prop
  | pauseWriting {conn : Connection} : Turn conn false { conn with paused := true }
  | resumeWriting {conn : Connection} : Turn conn false conn.resumeWriting
  | close {conn : Connection} : Turn conn false { conn with closing := true }
  | connectionLost {conn : Connection} : Turn conn false conn.connectionLost
  | drainBuf {conn conn' : Connection} {again : Bool} (h : Drains maxBodySize app conn again conn') :
      Turn conn again conn'

/-- The runs, with the number of times that a call has scheduled the next. -/
inductive Run (start : Connection) : ℕ → Connection → Prop
  | start : Run start 0 start
  | next {count : ℕ} {conn conn' : Connection} {again : Bool} (run : Run start count conn)
      (turn : Turn maxBodySize app conn again conn') : Run start (count + again.toNat) conn'

/-- Some behaviour of the application does not wait for more bytes. -/
def HoldsRequest (data : Bytes) : Prop :=
  data ≠ [] ∧ ∃ behaviour ∈ app, behaviour.result data ≠ .incomplete

/-- In every run each call returns, the number of reschedulings is bounded, a
call that schedules the next has consumed something, and one that does not
leaves no complete request unless writing is paused. -/
structure Ends (start : Connection) : Prop where
  returns {count : ℕ} {conn : Connection} (run : Run maxBodySize app start count conn)
    (hscheduled : 0 < conn.scheduled) (behaviour : Behaviour) (hmem : behaviour ∈ app)
    (pauses : Bool) :
    ∃ fuel, (drainBuf maxBodySize behaviour pauses fuel conn.called).isSome
  finite : ∃ bound, ∀ count conn, Run maxBodySize app start count conn → count ≤ bound
  productive {count : ℕ} {conn conn' : Connection} (run : Run maxBodySize app start count conn)
    (drain : Drains maxBodySize app conn true conn') : conn'.buffer.size < conn.buffer.size
  settled {count : ℕ} {conn conn' : Connection} (run : Run maxBodySize app start count conn)
    (drain : Drains maxBodySize app conn false conn') :
    conn'.paused = true ∨ ¬ HoldsRequest app conn'.buffer.contents

end Runs

/-! ## Requests that use up the bytes -/

/-- Dispatched one request after the other, the bytes are used up: behind the
last request nothing is left, or the connection stops to be one for requests. -/
inductive Clears (behaviour : Behaviour) : Bytes → Prop
  | empty : Clears behaviour []
  | failed {data : Bytes} (h : behaviour.result data = .failed) : Clears behaviour data
  | handled {data : Bytes} {consumed : ℕ} (h : behaviour.result data = .handled consumed)
      (rest : Clears behaviour (data.drop consumed)) : Clears behaviour data
  | task {data : Bytes} {consumed : ℕ} (h : behaviour.result data = .pair consumed .task)
      (rest : Clears behaviour (data.drop consumed)) : Clears behaviour data
  | ended {data : Bytes} {consumed : ℕ} {payload : Payload}
      (h : behaviour.result data = .pair consumed payload) (hpayload : payload ≠ .task) :
      Clears behaviour data

section Clears

variable {behaviour : Behaviour} {data : Bytes} {consumed : ℕ}

theorem clears_of_incomplete (h : behaviour.result data = .incomplete) :
    Clears behaviour data ↔ data = [] := by
  constructor
  · intro hclears
    cases hclears with
    | empty => rfl
    | failed h' => cases h.symm.trans h'
    | handled h' rest | task h' rest | ended h' rest => cases h.symm.trans h'
  · intro hempty
    rw [hempty]
    exact .empty

theorem clears_of_handled (h : behaviour.result data = .handled consumed) :
    Clears behaviour data ↔ Clears behaviour (data.drop consumed) := by
  constructor
  · intro hclears
    cases hclears with
    | empty =>
      rw [drop_nil]
      exact .empty
    | failed h' => cases h.symm.trans h'
    | handled h' rest =>
      cases h.symm.trans h'
      exact rest
    | task h' rest | ended h' rest => cases h.symm.trans h'
  · exact .handled h

theorem clears_of_pair {payload : Payload} (h : behaviour.result data = .pair consumed payload) :
    Clears behaviour data ↔ payload ≠ .task ∨ Clears behaviour (data.drop consumed) := by
  constructor
  · intro hclears
    cases hclears with
    | empty =>
      rw [drop_nil]
      exact .inr .empty
    | failed h' => cases h.symm.trans h'
    | handled h' rest => cases h.symm.trans h'
    | task h' rest =>
      cases h.symm.trans h'
      exact .inr rest
    | ended h' hpayload =>
      cases h.symm.trans h'
      exact .inl hpayload
  · intro hrest
    by_cases htask : payload = .task
    · subst htask
      exact .task h (hrest.resolve_left (not_not_intro rfl))
    · exact .ended h htask

/-- Where bytes are used up, every request takes some of them. -/
theorem Clears.consumed_pos (hclears : Clears behaviour data)
    (h : behaviour.result data = .handled consumed ∨
      behaviour.result data = .pair consumed .task) : 0 < consumed := by
  induction hclears generalizing consumed with
  | empty =>
    rcases h with h | h
    · cases behaviour.incomplete_nil.symm.trans h
    · cases behaviour.incomplete_nil.symm.trans h
  | failed h' =>
    rcases h with h | h
    · cases h'.symm.trans h
    · cases h'.symm.trans h
  | handled h' rest ih =>
    rcases h with h | h
    · cases h'.symm.trans h
      by_contra hzero
      obtain rfl := Nat.eq_zero_of_not_pos hzero
      exact hzero (ih (.inl h'))
    · cases h'.symm.trans h
  | task h' rest ih =>
    rcases h with h | h
    · cases h'.symm.trans h
    · cases h'.symm.trans h
      by_contra hzero
      obtain rfl := Nat.eq_zero_of_not_pos hzero
      exact hzero (ih (.inr h'))
  | ended h' hpayload =>
    rcases h with h | h
    · cases h'.symm.trans h
    · cases h'.symm.trans h
      exact absurd rfl hpayload

end Clears

/-! ## Batches -/

section Batches

variable {behaviour : Behaviour}

theorem clears_of_traverses {raw : Bytes} {offset last : ℕ} {calls : List Bytes}
    {result : Http.Dispatched Payload}
    (h : Http.Traverses behaviour.toDispatch raw offset calls last result) :
    result = behaviour.result (raw.drop last) ∧
      (Clears behaviour (raw.drop offset) ↔ Clears behaviour (raw.drop last)) := by
  induction h with
  | stop h => exact ⟨rfl, Iff.rfl⟩
  | next h rest ih =>
    refine ⟨ih.1, ?_⟩
    rw [clears_of_handled h, drop_drop]
    exact ih.2

theorem traverse_isSome_of_clears {raw : Bytes} {offset : ℕ}
    (hclears : Clears behaviour (raw.drop offset)) (hoffset : offset ≤ raw.length)
    (hfuel : raw.length < offset + fuel) :
    (Http.traverse behaviour.toDispatch raw fuel offset).isSome := by
  induction fuel generalizing offset with
  | zero => omega
  | succ fuel ih =>
    rw [Http.traverse]
    split
    · rename_i consumed hhandled
      have hle := Http.consumed_le_of_drop behaviour.toDispatch _ hoffset
      rw [hhandled, Http.Dispatched.consumed] at hle
      have hpos := hclears.consumed_pos (.inl hhandled)
      rw [clears_of_handled hhandled, drop_drop] at hclears
      rw [isSome_map]
      exact ih hclears hle (by omega)
    · rfl

/-- How a batch ends: it waits for more bytes, it has failed, or it hands
something to Python. -/
inductive Course (behaviour : Behaviour) (before : Bytes) : Http.Batch Payload → Prop
  | waiting {batch : Http.Batch Payload} {value : ℤ} (hreply : batch.reply = .code value)
      (hvalue : value ≠ -2 ∧ value ≠ -3)
      (hrest : behaviour.result batch.buffer.contents = .incomplete)
      (hclears : Clears behaviour before ↔ batch.buffer.contents = []) : Course behaviour before batch
  | failed {batch : Http.Batch Payload} (hreply : batch.reply = .code (-2))
      (hclears : Clears behaviour before) : Course behaviour before batch
  | handed {batch : Http.Batch Payload} {payload : Payload} (hreply : batch.reply = .payload payload)
      (hrest : payload = .task → Clears behaviour before →
        batch.buffer.contents.length < before.length)
      (hclears : Clears behaviour before ↔
        payload ≠ .task ∨ Clears behaviour batch.buffer.contents) : Course behaviour before batch

theorem contents_eq_nil (hvalid : buffer.Valid) :
    buffer.contents = [] ↔ buffer.size = 0 := by
  rw [← HttpConnectionBuffer.length_contents hvalid, length_eq_zero_iff]

theorem size_pos_of_contents (hvalid : buffer.Valid)
    (h : buffer.contents ≠ []) : 0 < buffer.size :=
  Nat.pos_of_ne_zero (mt (contents_eq_nil hvalid).mpr h)

theorem finishBatch_valid (hvalid : buffer.Valid)
    (calls : List Bytes) (last : ℕ) (result : Http.Dispatched Payload) :
    (Http.finishBatch buffer calls last result).buffer.Valid := by
  cases result with
  | handled consumed =>
    simp only [Http.finishBatch]
    split
    · exact HttpConnectionBuffer.consume_valid hvalid _
    · exact hvalid
  | incomplete | failed =>
    simp only [Http.finishBatch]
    split
    · exact HttpConnectionBuffer.consume_valid hvalid _
    · exact hvalid
  | pair consumed inner => exact HttpConnectionBuffer.consume_valid hvalid _

theorem finishBatch_incomplete (buffer : HttpConnectionBuffer) (calls : List Bytes) (last : ℕ) :
    ∃ value : ℤ,
      (Http.finishBatch buffer calls last (.incomplete : Http.Dispatched Payload)).reply =
        .code value ∧ value ≠ -2 ∧ value ≠ -3 := by
  simp only [Http.finishBatch]
  split
  · split
    · exact ⟨1, rfl, by decide⟩
    · exact ⟨0, rfl, by decide⟩
  · exact ⟨-1, rfl, by decide⟩

theorem handleHttpBatchV2_course {batch : Http.Batch Payload} (hvalid : buffer.Valid)
    (h : Http.handleHttpBatchV2 behaviour.toDispatch fuel buffer = some batch) :
    batch.buffer.Valid ∧ Course behaviour buffer.contents batch := by
  rw [Http.handleHttpBatchV2] at h
  split at h
  · rename_i hsize
    cases h
    have hnil := (contents_eq_nil hvalid).mpr hsize
    have hresult : behaviour.result buffer.contents = .incomplete := by
      rw [hnil]
      exact behaviour.incomplete_nil
    exact ⟨hvalid, .waiting rfl (by decide) hresult (clears_of_incomplete hresult)⟩
  · rw [Http.batchV2Loop_eq] at h
    obtain ⟨⟨calls, last, result⟩, htraverse, hbatch⟩ := map_eq_some_iff.mp h
    have htraverses := Http.traverses_of_traverse htraverse
    have hcontents := Http.finishBatch_contents buffer ([] ++ calls) last (htraverses.not_handled _)
    obtain ⟨hresult, hclears⟩ := clears_of_traverses htraverses
    have whole : buffer.contents.drop 0 = buffer.contents := rfl
    subst hbatch
    refine ⟨finishBatch_valid hvalid _ _ _, ?_⟩
    cases result with
    | handled consumed => exact absurd rfl (htraverses.not_handled _ _)
    | incomplete =>
      simp only [Http.Dispatched.consumed, Nat.add_zero] at hcontents
      obtain ⟨value, hreply, hvalue⟩ := finishBatch_incomplete _ _ _
      rw [clears_of_incomplete hresult.symm, ← hcontents] at hclears
      exact .waiting hreply hvalue (hcontents ▸ hresult.symm) hclears
    | failed => exact .failed rfl (hclears.mpr (.failed hresult.symm))
    | pair consumed payload =>
      rw [clears_of_pair hresult.symm, drop_drop] at hclears
      simp only [Http.Dispatched.consumed] at hcontents
      refine .handed rfl ?_ ?_
      · intro htask hbefore
        subst htask
        have hpos : 0 < consumed := by
          have hlast : Clears behaviour (buffer.contents.drop last) := by
            rw [clears_of_pair hresult.symm, drop_drop]
            exact hclears.mp hbefore
          exact hlast.consumed_pos (.inr hresult.symm)
        have hle := htraverses.le_length (Nat.zero_le _)
        simp only [Http.Dispatched.consumed] at hle
        rw [hcontents, length_drop]
        omega
      · rw [hcontents]
        exact hclears

theorem handleHttpBatchV2_isSome_of_clears
    (hclears : Clears behaviour buffer.contents) (hfuel : buffer.contents.length < fuel) :
    (Http.handleHttpBatchV2 behaviour.toDispatch fuel buffer).isSome := by
  rw [Http.handleHttpBatchV2]
  split
  · rfl
  · rw [Http.batchV2Loop_eq, isSome_map]
    apply traverse_isSome_of_clears _ (Nat.zero_le _) (by omega)
    exact hclears

end Batches

/-! ## One call of `data_received` -/

/-- What the dispatcher leaves behind: nothing, or the beginning of a request. -/
structure Processed (behaviour : Behaviour) (clears : Prop) (conn conn' : Connection) : Prop where
  valid : conn'.buffer.Valid
  scheduled : conn'.scheduled = conn.scheduled
  paused : conn'.paused = conn.paused
  connected : conn'.connected = conn.connected
  cleared : clears → conn'.buffer.contents = []
  waits : ¬ clears → conn'.upgraded = conn.upgraded ∧ conn'.buffer.contents ≠ [] ∧
    behaviour.result conn'.buffer.contents = .incomplete

section DataReceived

variable {maxBodySize : ℕ} {behaviour : Behaviour} {conn conn' : Connection}

/-- Whatever is in the buffer, an upgrade or a failure empties it. -/
theorem processed_dropped {clears : Prop} (hvalid : buffer.Valid)
    (hclears : clears) :
    Processed behaviour clears conn { conn with buffer := buffer }.dropped where
  valid := (HttpConnectionBuffer.clear_spec hvalid).1
  scheduled := rfl
  paused := rfl
  connected := rfl
  cleared _ := (HttpConnectionBuffer.clear_spec hvalid).2
  waits hnot := absurd hclears hnot

theorem processed_waiting {clears : Prop} {batch : Http.Batch Payload}
    (hvalid : batch.buffer.Valid)
    (hrest : behaviour.result batch.buffer.contents = .incomplete)
    (hclears : clears ↔ batch.buffer.contents = []) :
    Processed behaviour clears conn { conn with buffer := batch.buffer } where
  valid := hvalid
  scheduled := rfl
  paused := rfl
  connected := rfl
  cleared := hclears.mp
  waits hnot := ⟨rfl, mt hclears.mpr hnot, hrest⟩

theorem Processed.of_eq {before clears : Prop} {middle : Connection}
    (h : Processed behaviour before middle conn') (hclears : clears ↔ before)
    (hmiddle : middle = { conn with buffer := middle.buffer }) :
    Processed behaviour clears conn conn' where
  valid := h.valid
  scheduled := h.scheduled.trans (by rw [hmiddle])
  paused := h.paused.trans (by rw [hmiddle])
  connected := h.connected.trans (by rw [hmiddle])
  cleared hcleared := h.cleared (hclears.mp hcleared)
  waits hnot := by
    have hwaits := h.waits (mt hclears.mpr hnot)
    exact ⟨hwaits.1.trans (by rw [hmiddle]), hwaits.2⟩

theorem dispatchLoop_processed {steps : ℕ} {payload : Payload} (hvalid : conn.buffer.Valid)
    (h : dispatchLoop behaviour steps fuel conn payload = some conn') :
    Processed behaviour (payload ≠ .task ∨ Clears behaviour conn.buffer.contents) conn conn' := by
  induction fuel generalizing conn payload with
  | zero => cases h
  | succ fuel ih =>
    cases payload with
    | noRoute =>
      cases h
      exact processed_dropped hvalid (.inl (by simp))
    | webSocket endpoint =>
      cases endpoint with
      | false =>
        cases h
        exact processed_dropped hvalid (.inl (by simp))
      | true =>
        cases h
        have hspec := HttpConnectionBuffer.clear_spec hvalid
        exact ⟨hspec.1, rfl, rfl, rfl, fun _ => hspec.2, fun hnot => absurd (.inl (by simp)) hnot⟩
    | task =>
      rw [dispatchLoop] at h
      cases hbatch : Http.handleHttpBatchV2 behaviour.toDispatch steps conn.buffer with
      | none =>
        simp only [hbatch] at h
        cases h
      | some batch =>
        simp only [hbatch] at h
        obtain ⟨hvalid', hcourse⟩ := handleHttpBatchV2_course hvalid hbatch
        have honly : Payload.task ≠ .task ∨ Clears behaviour conn.buffer.contents ↔
            Clears behaviour conn.buffer.contents :=
          or_iff_right (not_not_intro rfl)
        cases hcourse with
        | waiting hreply hvalue hrest hclears =>
          simp only [hreply, if_neg hvalue.1] at h
          cases h
          exact processed_waiting hvalid' hrest (honly.trans hclears)
        | failed hreply hclears =>
          simp only [hreply, if_true] at h
          cases h
          exact processed_dropped hvalid' (honly.mpr hclears)
        | handed hreply hrest hclears =>
          simp only [hreply] at h
          exact (ih hvalid' h).of_eq (honly.trans hclears) rfl

theorem dispatchLoop_isSome {steps : ℕ} {payload : Payload} (hvalid : conn.buffer.Valid)
    (hpos : 0 < fuel)
    (htask : payload = .task → Clears behaviour conn.buffer.contents ∧
      conn.buffer.contents.length < steps ∧ conn.buffer.contents.length + 1 < fuel) :
    (dispatchLoop behaviour steps fuel conn payload).isSome := by
  induction fuel generalizing conn payload with
  | zero => cases hpos
  | succ fuel ih =>
    cases payload with
    | noRoute => rfl
    | webSocket endpoint => cases endpoint <;> rfl
    | task =>
      obtain ⟨hclears, hsteps, hfuel⟩ := htask rfl
      obtain ⟨batch, hbatch⟩ :=
        isSome_iff_exists.mp (handleHttpBatchV2_isSome_of_clears hclears hsteps)
      obtain ⟨hvalid', hcourse⟩ := handleHttpBatchV2_course hvalid hbatch
      rw [dispatchLoop]
      simp only [hbatch]
      cases hcourse with
      | waiting hreply hvalue hrest hrest' =>
        simp [hreply, if_neg hvalue.1]
      | failed hreply hrest => simp [hreply]
      | handed hreply hrest hafter =>
        simp only [hreply]
        apply ih hvalid' (by omega)
        intro htask'
        have hless := hrest htask' hclears
        have hleft := (hafter.mp hclears).resolve_left (not_not_intro htask')
        exact ⟨hleft, hless.trans hsteps, by simp only; omega⟩

/-- The connection is one for requests and has bytes to dispatch. -/
structure Ready (conn : Connection) : Prop where
  valid : conn.buffer.Valid
  running : conn.paused = false
  connected : conn.connected = true
  http : conn.upgraded = false

theorem append_nil {buffer : HttpConnectionBuffer} (hvalid : buffer.Valid) :
    (buffer.append []).1 = true ∧ (buffer.append []).2.Valid ∧
      (buffer.append []).2.contents = buffer.contents := by
  have hinside := hvalid.inside
  have hlimited := hvalid.limited
  have haccepted : buffer.size + ([] : Bytes).length ≤ HttpConnectionBuffer.maxCapacity := by
    rw [HttpConnectionBuffer.size, length_nil]
    omega
  have hroom : buffer.RoomFor ([] : Bytes).length := by
    intro _ _
    rw [length_nil]
    omega
  have hspec := HttpConnectionBuffer.append_spec hvalid haccepted hroom
  rwa [List.append_nil] at hspec

/-- With room for the bytes, an empty chunk only has the buffer dispatched. -/
theorem dataReceived_eq (hready : Ready conn) (hsize : tooLarge maxBodySize conn.buffer.size = false)
    (fuel : ℕ) :
    dataReceived maxBodySize behaviour fuel conn [] =
      match Http.handleHttpBatchV2 behaviour.toDispatch fuel (conn.buffer.append []).2 with
      | none => none
      | some batch =>
        let conn := { conn with buffer := batch.buffer }
        match batch.reply with
        | .code value =>
          if value = -2 then some conn.dropped
          else if value = -3 then some { conn with closing := true }
          else some conn
        | .payload inner => dispatchLoop behaviour fuel fuel conn inner := by
  rw [dataReceived, Http.appendAndDispatch_eq_batch]
  simp [hready.http, hready.running, hready.connected, hsize, (append_nil hready.valid).1]

theorem dataReceived_processed (hready : Ready conn)
    (hsize : tooLarge maxBodySize conn.buffer.size = false)
    (h : dataReceived maxBodySize behaviour fuel conn [] = some conn') :
    Processed behaviour (Clears behaviour conn.buffer.contents) conn conn' := by
  obtain ⟨-, hvalid, hcontents⟩ := append_nil hready.valid
  rw [dataReceived_eq hready hsize] at h
  rw [← hcontents]
  cases hbatch : Http.handleHttpBatchV2 behaviour.toDispatch fuel (conn.buffer.append []).2 with
  | none =>
    simp only [hbatch] at h
    cases h
  | some batch =>
    simp only [hbatch] at h
    obtain ⟨hvalid', hcourse⟩ := handleHttpBatchV2_course hvalid hbatch
    cases hcourse with
    | waiting hreply hvalue hrest hclears =>
      simp only [hreply, if_neg hvalue.1, if_neg hvalue.2] at h
      cases h
      exact processed_waiting hvalid' hrest hclears
    | failed hreply hclears =>
      simp only [hreply, if_true] at h
      cases h
      exact processed_dropped hvalid' hclears
    | handed hreply hrest hclears =>
      simp only [hreply] at h
      exact (dispatchLoop_processed hvalid' h).of_eq hclears rfl

theorem dataReceived_isSome (hready : Ready conn)
    (hsize : tooLarge maxBodySize conn.buffer.size = false)
    (hclears : Clears behaviour conn.buffer.contents) :
    ∃ fuel, (dataReceived maxBodySize behaviour fuel conn []).isSome := by
  obtain ⟨-, hvalid, hcontents⟩ := append_nil hready.valid
  refine ⟨conn.buffer.contents.length + 2, ?_⟩
  rw [dataReceived_eq hready hsize]
  rw [← hcontents] at hclears ⊢
  obtain ⟨batch, hbatch⟩ := isSome_iff_exists.mp
    (handleHttpBatchV2_isSome_of_clears hclears (Nat.lt_add_of_pos_right Nat.two_pos))
  obtain ⟨hvalid', hcourse⟩ := handleHttpBatchV2_course hvalid hbatch
  simp only [hbatch]
  cases hcourse with
  | waiting hreply hvalue hrest hrest' =>
    simp [hreply, if_neg hvalue.1, if_neg hvalue.2]
  | failed hreply hrest => simp [hreply]
  | handed hreply hrest hafter =>
    simp only [hreply]
    apply dispatchLoop_isSome hvalid' (by omega)
    intro htask
    have hless := hrest htask hclears
    have hleft := (hafter.mp hclears).resolve_left (not_not_intro htask)
    exact ⟨hleft, by simp only; omega, by simp only; omega⟩

end DataReceived

/-! ## Bytes that are used up -/

section Cleared

variable {maxBodySize : ℕ} {app : Set Behaviour} {data : Bytes}

/-- Either nothing is left, or nothing has been dispatched yet. -/
structure Cleared (data : Bytes) (conn : Connection) : Prop where
  valid : conn.buffer.Valid
  remaining : conn.buffer.contents = [] ∨
    conn.buffer.contents = data ∧ conn.connected = true ∧ conn.upgraded = false

theorem Cleared.resumeWriting {conn : Connection} (h : Cleared data conn) :
    Cleared data conn.resumeWriting := by
  unfold Connection.resumeWriting
  dsimp only
  split
  · exact ⟨h.valid, h.remaining⟩
  · exact ⟨h.valid, h.remaining⟩

theorem Cleared.ready {conn : Connection} (h : Cleared data conn)
    (hbusy : ¬ (conn.paused || conn.buffer.size == 0) = true) :
    Ready conn ∧ conn.buffer.contents = data ∧ conn.buffer.size = data.length := by
  rw [Bool.or_eq_true, not_or, Bool.not_eq_true] at hbusy
  have hfull : conn.buffer.contents ≠ [] := by
    rw [Ne, contents_eq_nil h.valid]
    simpa using hbusy.2
  obtain ⟨hcontents, hconnected, hhttp⟩ := h.remaining.resolve_left hfull
  refine ⟨⟨h.valid, hbusy.1, hconnected, hhttp⟩, hcontents, ?_⟩
  rw [← HttpConnectionBuffer.length_contents h.valid, hcontents]

theorem Cleared.called {conn : Connection} (h : Cleared data conn) : Cleared data conn.called :=
  ⟨h.valid, h.remaining⟩

variable {behaviour : Behaviour} (hsize : tooLarge maxBodySize data.length = false)
  (hclears : Clears behaviour data)

include hsize hclears

/-- A call never schedules the next and leaves nothing unless writing is paused. -/
theorem Cleared.drainBuf {conn conn' : Connection} (h : Cleared data conn) {pauses : Bool}
    {fuel : ℕ} {again : Bool}
    (hdrain : drainBuf maxBodySize behaviour pauses fuel conn = some (again, conn')) :
    again = false ∧ Cleared data conn' ∧ (conn'.paused = true ∨ conn'.buffer.contents = []) := by
  rw [Draining.drainBuf] at hdrain
  split at hdrain
  · rename_i hidle
    cases hdrain
    refine ⟨rfl, h, ?_⟩
    simpa [contents_eq_nil h.valid] using hidle
  · rename_i hbusy
    obtain ⟨hready, hcontents, hlength⟩ := h.ready hbusy
    obtain ⟨after, hafter, hresult⟩ := map_eq_some_iff.mp hdrain
    have hprocessed := dataReceived_processed hready (hlength.symm ▸ hsize) hafter
    have hempty : after.buffer.contents = [] := hprocessed.cleared (hcontents.symm ▸ hclears)
    have hnothing := (contents_eq_nil hprocessed.valid).mp hempty
    simp only [hnothing, Nat.lt_irrefl, decide_false, Bool.and_false, Bool.false_eq_true,
      if_false] at hresult
    cases hresult
    exact ⟨rfl, ⟨hprocessed.valid, .inl hempty⟩, .inr hempty⟩

theorem Cleared.returns {conn : Connection} (h : Cleared data conn) (pauses : Bool) :
    ∃ fuel, (Draining.drainBuf maxBodySize behaviour pauses fuel conn).isSome := by
  by_cases hidle : (conn.paused || conn.buffer.size == 0) = true
  · refine ⟨0, ?_⟩
    rw [Draining.drainBuf, if_pos hidle]
    rfl
  · obtain ⟨hready, hcontents, hlength⟩ := h.ready hidle
    have hroom : tooLarge maxBodySize conn.buffer.size = false := hlength.symm ▸ hsize
    obtain ⟨fuel, hsome⟩ := dataReceived_isSome hready hroom (hcontents.symm ▸ hclears)
    refine ⟨fuel, ?_⟩
    rw [Draining.drainBuf, if_neg hidle, isSome_map]
    exact hsome

end Cleared

section Ends

variable {maxBodySize : ℕ} {app : Set Behaviour} {start : Connection}

theorem Cleared.turn {data : Bytes} {conn conn' : Connection} {again : Bool}
    (hall : ∀ behaviour ∈ app, tooLarge maxBodySize data.length = false ∧ Clears behaviour data)
    (h : Cleared data conn) (hturn : Turn maxBodySize app conn again conn') :
    again = false ∧ Cleared data conn' := by
  cases hturn with
  | pauseWriting => exact ⟨rfl, h.valid, h.remaining⟩
  | resumeWriting => exact ⟨rfl, h.resumeWriting⟩
  | close => exact ⟨rfl, h.valid, h.remaining⟩
  | connectionLost =>
    have hspec := HttpConnectionBuffer.clear_spec h.valid
    exact ⟨rfl, hspec.1, .inl hspec.2⟩
  | drainBuf hdrains =>
    obtain ⟨-, behaviour, hmem, pauses, fuel, hdrain⟩ := hdrains
    have hspec := h.called.drainBuf (hall _ hmem).1 (hall _ hmem).2 hdrain
    exact ⟨hspec.1, hspec.2.1⟩

theorem Cleared.run {data : Bytes}
    (hall : ∀ behaviour ∈ app, tooLarge maxBodySize data.length = false ∧ Clears behaviour data)
    (hstart : Cleared data start) {count : ℕ} {conn : Connection}
    (hrun : Run maxBodySize app start count conn) : count = 0 ∧ Cleared data conn := by
  induction hrun with
  | start => exact ⟨rfl, hstart⟩
  | next run turn ih =>
    obtain ⟨hagain, hnext⟩ := ih.2.turn hall turn
    rw [hagain, ih.1]
    exact ⟨rfl, hnext⟩

theorem ends_of_clears (hstart : Cleared start.buffer.contents start)
    (hall : ∀ behaviour ∈ app, tooLarge maxBodySize start.buffer.contents.length = false ∧
      Clears behaviour start.buffer.contents) : Ends maxBodySize app start where
  returns run _ behaviour hmem pauses := by
    exact (hstart.run hall run).2.called.returns (hall _ hmem).1 (hall _ hmem).2 pauses
  finite := ⟨0, fun _ _ run => (hstart.run hall run).1.le⟩
  productive run drain := by
    cases ((hstart.run hall run).2.turn hall (.drainBuf drain)).1
  settled run drain := by
    obtain ⟨-, behaviour, hmem, pauses, fuel, hdrain⟩ := drain
    have hspec := (hstart.run hall run).2.called.drainBuf (hall _ hmem).1 (hall _ hmem).2 hdrain
    exact hspec.2.2.imp_right fun hempty hholds => hholds.1 hempty

theorem run_of_closing (hclosing : start.closing = true) (hscheduled : start.scheduled = 0)
    {count : ℕ} {conn : Connection} (hrun : Run maxBodySize app start count conn) :
    count = 0 ∧ conn.closing = true ∧ conn.scheduled = 0 := by
  induction hrun with
  | start => exact ⟨rfl, hclosing, hscheduled⟩
  | next run turn ih =>
    obtain ⟨hcount, hclosed, hnone⟩ := ih
    cases turn with
    | pauseWriting => exact ⟨hcount, hclosed, hnone⟩
    | resumeWriting =>
      have hresume (conn : Connection) (h : conn.closing = true) :
          conn.resumeWriting = { conn with paused := false } := by
        simp [Connection.resumeWriting, h]
      rw [hresume _ hclosed]
      exact ⟨hcount, hclosed, hnone⟩
    | close => exact ⟨hcount, rfl, hnone⟩
    | connectionLost => exact ⟨hcount, hclosed, hnone⟩
    | drainBuf hdrains => exact absurd hnone hdrains.1.ne'

theorem ends_of_closing (hclosing : start.closing = true) (hscheduled : start.scheduled = 0) :
    Ends maxBodySize app start where
  returns run hpos := absurd (run_of_closing hclosing hscheduled run).2.2 hpos.ne'
  finite := ⟨0, fun _ _ run => (run_of_closing hclosing hscheduled run).1.le⟩
  productive run drain := absurd (run_of_closing hclosing hscheduled run).2.2 drain.1.ne'
  settled run drain := absurd (run_of_closing hclosing hscheduled run).2.2 drain.1.ne'

end Ends

/-! ## Bytes that remain -/

section Stuck

variable {maxBodySize : ℕ} {behaviour : Behaviour} {conn conn' : Connection}

/-- A call is scheduled, bytes remain, and dispatching them takes none of them. -/
structure Stuck (maxBodySize : ℕ) (behaviour : Behaviour) (conn : Connection) : Prop where
  ready : Ready conn
  scheduled : 0 < conn.scheduled
  remaining : conn.buffer.contents ≠ []
  waits : tooLarge maxBodySize conn.buffer.size = true ∨
    behaviour.result conn.buffer.contents = .incomplete

theorem drainBuf_eq (hready : Ready conn) (hremaining : conn.buffer.contents ≠ []) (fuel : ℕ) :
    drainBuf maxBodySize behaviour false fuel conn.called =
      (dataReceived maxBodySize behaviour fuel conn.called []).map fun conn =>
        if !conn.paused && decide (0 < conn.buffer.size) then
          (true, { conn with scheduled := conn.scheduled + 1 })
        else (false, conn) := by
  have hsize := (size_pos_of_contents hready.valid hremaining).ne'
  have hbusy : ¬ (conn.called.paused || conn.called.buffer.size == 0) = true := by
    simp [Connection.called, hready.running, hsize]
  rw [drainBuf, if_neg hbusy]
  simp

/-- When `data_received` leaves something, the call has scheduled the next. -/
theorem stuck_of_processed {middle : Connection} (hready : Ready middle)
    (hremaining : middle.buffer.contents ≠ [])
    (hwaits : tooLarge maxBodySize middle.buffer.size = true ∨
      behaviour.result middle.buffer.contents = .incomplete) :
    (if !middle.paused && decide (0 < middle.buffer.size) then
        (true, { middle with scheduled := middle.scheduled + 1 })
      else (false, middle)) = (true, { middle with scheduled := middle.scheduled + 1 }) ∧
      Stuck maxBodySize behaviour { middle with scheduled := middle.scheduled + 1 } := by
  have hsize := size_pos_of_contents hready.valid hremaining
  constructor
  · simp [hready.running, hsize]
  · refine ⟨⟨hready.valid, hready.running, hready.connected, hready.http⟩, ?_, hremaining, hwaits⟩
    exact Nat.succ_pos _

/-- A call on bytes that are not used up schedules the next. -/
theorem drainBuf_stuck {again : Bool} (hready : Ready conn)
    (hremaining : conn.buffer.contents ≠ [])
    (hnot : ¬ (tooLarge maxBodySize conn.buffer.size = false ∧
      Clears behaviour conn.buffer.contents))
    (hdrain : drainBuf maxBodySize behaviour false fuel conn.called = some (again, conn')) :
    again = true ∧ Stuck maxBodySize behaviour conn' := by
  have hcalled : Ready conn.called :=
    ⟨hready.valid, hready.running, hready.connected, hready.http⟩
  rw [drainBuf_eq hready hremaining] at hdrain
  obtain ⟨middle, hmiddle, hresult⟩ := map_eq_some_iff.mp hdrain
  have hspec : Ready middle ∧ middle.buffer.contents ≠ [] ∧
      (tooLarge maxBodySize middle.buffer.size = true ∨
        behaviour.result middle.buffer.contents = .incomplete) := by
    cases hsize : tooLarge maxBodySize conn.buffer.size with
    | true =>
      have hrefused : dataReceived maxBodySize behaviour fuel conn.called [] =
          some { conn.called with closing := true } := by
        simp [dataReceived, Connection.called, hready.http, hready.running, hready.connected, hsize]
      cases hrefused.symm.trans hmiddle
      exact ⟨⟨hready.valid, hready.running, hready.connected, hready.http⟩, hremaining, .inl hsize⟩
    | false =>
      have hprocessed := dataReceived_processed hcalled hsize hmiddle
      have hwaits := hprocessed.waits fun hclears => hnot ⟨hsize, hclears⟩
      refine ⟨⟨hprocessed.valid, ?_, ?_, ?_⟩, hwaits.2.1, .inr hwaits.2.2⟩
      · exact hprocessed.paused.trans hready.running
      · exact hprocessed.connected.trans hready.connected
      · exact hwaits.1.trans hready.http
  obtain ⟨heq, hstuck⟩ := stuck_of_processed hspec.1 hspec.2.1 hspec.2.2
  rw [heq] at hresult
  cases hresult
  exact ⟨rfl, hstuck⟩

theorem Stuck.not_clears (h : Stuck maxBodySize behaviour conn) :
    ¬ (tooLarge maxBodySize conn.buffer.size = false ∧ Clears behaviour conn.buffer.contents) := by
  intro hclears
  rcases h.waits with hlarge | hincomplete
  · rw [hclears.1] at hlarge
    cases hlarge
  · exact h.remaining ((clears_of_incomplete hincomplete).mp hclears.2)

variable {app : Set Behaviour}

/-- The calls schedule each other for ever. -/
theorem Stuck.run (hmem : behaviour ∈ app) {start : Connection} (hends : Ends maxBodySize app start)
    (hrun : ∃ count, Run maxBodySize app start count conn)
    (h : Stuck maxBodySize behaviour conn) (count : ℕ) :
    ∃ conn more, Run maxBodySize app start more conn ∧ Stuck maxBodySize behaviour conn ∧
      count ≤ more := by
  induction count with
  | zero =>
    obtain ⟨count, hrun⟩ := hrun
    exact ⟨conn, count, hrun, h, Nat.zero_le _⟩
  | succ count ih =>
    obtain ⟨conn, more, hreached, hstuck, hle⟩ := ih
    obtain ⟨fuel, hsome⟩ := hends.returns hreached hstuck.scheduled _ hmem _
    obtain ⟨⟨again, conn'⟩, hdrain⟩ := isSome_iff_exists.mp hsome
    obtain ⟨rfl, hnext⟩ :=
      drainBuf_stuck hstuck.ready hstuck.remaining hstuck.not_clears hdrain
    refine ⟨conn', more + 1, ?_, hnext, Nat.succ_le_succ hle⟩
    exact hreached.next (.drainBuf ⟨hstuck.scheduled, behaviour, hmem, false, fuel, hdrain⟩)

end Stuck

/-! ## When the calls end -/

section Exact

variable {maxBodySize : ℕ} {app : Set Behaviour} {buffer : HttpConnectionBuffer}

/-- After a pause that is over, a call is scheduled unless the transport is closing. -/
theorem exists_resumed (hvalid : buffer.Valid) (hremaining : buffer.contents ≠ [])
    {paused closing : Bool} {scheduled : ℕ} (hopen : ¬ (closing = true ∧ scheduled = 0)) :
    ∃ conn, Run maxBodySize app { buffer, paused, closing, scheduled } 0 conn ∧
      Ready conn ∧ 0 < conn.scheduled ∧ conn.buffer = buffer := by
  let start : Connection := { buffer, paused, closing, scheduled }
  have hsize := size_pos_of_contents hvalid hremaining
  have hstart : Run maxBodySize app start 0 start := .start
  have hrun : Run maxBodySize app start 0 { start with paused := true }.resumeWriting :=
    (hstart.next .pauseWriting).next .resumeWriting
  refine ⟨_, hrun, ?_⟩
  cases closing with
  | false =>
    have heq : { start with paused := true }.resumeWriting =
        { start with paused := false, scheduled := scheduled + 1 } := by
      simp [Connection.resumeWriting, start, hsize]
    rw [heq]
    exact ⟨⟨hvalid, rfl, rfl, rfl⟩, Nat.succ_pos _, rfl⟩
  | true =>
    have heq : { start with paused := true }.resumeWriting = { start with paused := false } := by
      simp [Connection.resumeWriting]
    rw [heq]
    refine ⟨⟨hvalid, rfl, rfl, rfl⟩, ?_, rfl⟩
    exact Nat.pos_of_ne_zero fun hzero => hopen ⟨rfl, hzero⟩

theorem not_ends_of_not_clears (hvalid : buffer.Valid) {paused closing : Bool} {scheduled : ℕ}
    (hopen : ¬ (closing = true ∧ scheduled = 0)) {behaviour : Behaviour} (hmem : behaviour ∈ app)
    (hnot : ¬ (tooLarge maxBodySize buffer.size = false ∧ Clears behaviour buffer.contents)) :
    ¬ Ends maxBodySize app { buffer, paused, closing, scheduled } := by
  intro hends
  have hremaining : buffer.contents ≠ [] := by
    intro hempty
    apply hnot
    rw [(contents_eq_nil hvalid).mp hempty, hempty]
    exact ⟨by simp [tooLarge], .empty⟩
  have hresumed : ∃ conn, Run maxBodySize app { buffer, paused, closing, scheduled } 0 conn ∧
      Ready conn ∧ 0 < conn.scheduled ∧ conn.buffer = buffer :=
    exists_resumed hvalid hremaining hopen
  obtain ⟨conn, hrun, hready, hscheduled, hbuffer⟩ := hresumed
  rw [← hbuffer] at hremaining hnot
  obtain ⟨fuel, hsome⟩ := hends.returns hrun hscheduled _ hmem _
  obtain ⟨⟨again, conn'⟩, hdrain⟩ := isSome_iff_exists.mp hsome
  obtain ⟨rfl, hstuck⟩ := drainBuf_stuck hready hremaining hnot hdrain
  have hnext := hrun.next (.drainBuf ⟨hscheduled, behaviour, hmem, false, fuel, hdrain⟩)
  obtain ⟨bound, hbound⟩ := hends.finite
  obtain ⟨conn, more, hreached, -, hle⟩ := hstuck.run hmem hends ⟨_, hnext⟩ (bound + 1)
  have hmore := hbound _ _ hreached
  omega

/-- From any content of the buffer of an open connection, the calls of
`_drain_buf` end exactly when the bytes are not refused for their number and are
used up by the requests they begin with, whatever the application does; on a
closing connection none may be scheduled. -/
theorem ends_iff (hvalid : buffer.Valid) (paused closing : Bool) (scheduled : ℕ) :
    Ends maxBodySize app { buffer, paused, closing, scheduled } ↔
      (closing = true ∧ scheduled = 0) ∨
        ∀ behaviour ∈ app, tooLarge maxBodySize buffer.size = false ∧
          Clears behaviour buffer.contents := by
  constructor
  · intro hends
    by_contra hnot
    rw [not_or] at hnot
    apply hnot.2
    intro behaviour hmem
    by_contra hstuck
    exact not_ends_of_not_clears hvalid hnot.1 hmem hstuck hends
  · intro hcondition
    rcases hcondition with ⟨hclosing, hscheduled⟩ | hall
    · exact ends_of_closing hclosing hscheduled
    · apply ends_of_clears
      · exact ⟨hvalid, .inr ⟨rfl, rfl, rfl⟩⟩
      · rw [HttpConnectionBuffer.length_contents hvalid]
        exact hall

end Exact

/-! ## One request and the beginning of one -/

/-- llhttp when it never has enough. -/
def waitingParser : Http.Llhttp := fun _ => { errno := .ok }

theorem waitingParser_pausesInside : Http.PausesInside waitingParser := by
  intro data hpaused
  rcases hpaused with hpaused | hpaused
  · cases hpaused
  · cases hpaused

def answering : Behaviour where
  toDispatch := Http.dispatchOneRequest waitingParser_pausesInside
    { answer := fun _ => none, writes := fun _ => [], errorResponse := fun _ => [] }
  incomplete_nil := rfl

def received (data : Bytes) : HttpConnectionBuffer := (HttpConnectionBuffer.create.append data).2

theorem received_spec {data : Bytes} (h : data.length ≤ HttpConnectionBuffer.maxCapacity) :
    (received data).Valid ∧ (received data).contents = data := by
  have hsize : HttpConnectionBuffer.create.size + data.length ≤
      HttpConnectionBuffer.maxCapacity := by
    rw [show HttpConnectionBuffer.create.size = 0 from rfl, Nat.zero_add]
    exact h
  have hroom : HttpConnectionBuffer.create.RoomFor data.length := by
    intro _ _
    rw [show HttpConnectionBuffer.create.writePos = 0 from rfl, Nat.zero_add]
    exact h
  exact (HttpConnectionBuffer.append_spec HttpConnectionBuffer.create_valid hsize hroom).2

def wholeRequest : Bytes := ascii "GET / HTTP/1.1\r\n\r\n"

def beginning : Bytes := ascii "GET / HTTP/1.1\r\n"

theorem ends_wholeRequest :
    Ends 0 {answering}
      { buffer := received wholeRequest, paused := true, closing := false, scheduled := 0 } := by
  obtain ⟨hvalid, hcontents⟩ := received_spec (show wholeRequest.length ≤ _ by decide)
  apply (ends_iff hvalid _ _ 0).mpr
  right
  intro behaviour hmem
  obtain rfl := Set.mem_singleton_iff.mp hmem
  have hhandled : answering.result wholeRequest = .handled 18 := rfl
  exact ⟨rfl, .handled hhandled .empty⟩

/-- A client that stops in the middle of a request. -/
theorem not_ends_beginning :
    ¬ ∀ data, data.length ≤ HttpConnectionBuffer.maxCapacity → Ends 0 {answering}
        { buffer := received data, paused := true, closing := false, scheduled := 0 } := by
  intro hall
  have hlength : beginning.length ≤ HttpConnectionBuffer.maxCapacity := by decide
  obtain ⟨hvalid, hcontents⟩ := received_spec hlength
  apply not_ends_of_not_clears hvalid (by decide) (Set.mem_singleton _) _ (hall _ hlength)
  intro hclears
  have hincomplete : answering.result beginning = .incomplete := rfl
  exact absurd ((clears_of_incomplete hincomplete).mp hclears.2) (by decide)

end AstraApi.Server.Draining
