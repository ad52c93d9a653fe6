import AstraApi.WebSocket.Echo
import AstraApi.WebSocket.Queue

/-!
# The byte stream of a connection

`py_ws_handle_direct`, `py_ws_handle_and_feed`, `py_ws_handle_json_direct` and
`py_ws_echo_direct_fd_v2` append a chunk to the ring of one connection and take
complete frames off its front.  A run of such calls leaves no gap in the stream
exactly when each chunk fits into the ring.
-/

namespace AstraApi.WebSocket

open List Option
open Bytes Circular WsRingBuffer

/-! ## The parsing calls -/

/-- What the three parsing calls have read from a chunk. -/
inductive Received where
  | needMore
  | refused
  | parsed (result : ParseResult)

def wsReceive (state : WsConnectionState) (chunk : Bytes) : WsConnectionState × Received :=
  match state.ring.append chunk with
  | none => (state, .needMore)
  | some ring =>
    match ring.readableContiguous with
    | (ring, none) => ({ state with ring := ring }, .needMore)
    | (ring, some offset) =>
      let data := (ring.buffer.drop offset).take ring.readable
      let (parsed, assembler, data') :=
        wsParseFrames (data.length + 1) data state.assembler {}
      let ring := ring.overwrite offset data'
      let state := { state with ring := ring, assembler := assembler }
      if parsed.protocolError ≠ 0 then (state, .refused)
      else if parsed.totalConsumed = 0 ∧ parsed.frames = [] ∧ parsed.assembled = [] then
        (state, .needMore)
      else
        let frames := parsed.frames ++ parsed.assembled
        ({ state with
            ring := if 0 < parsed.totalConsumed then ring.consume parsed.totalConsumed
              else ring
            messagesIn := state.messagesIn + frames.length
            bytesIn := state.bytesIn + (frames.map fun message => message.2.length).sum },
          .parsed parsed)

def ParseResult.pong (result : ParseResult) : Option Bytes :=
  if result.pongBuf = [] then none else some result.pongBuf

theorem wsHandleDirect_eq (state : WsConnectionState) (chunk : Bytes) :
    wsHandleDirect state chunk = ((wsReceive state chunk).1,
      match (wsReceive state chunk).2 with
      | .needMore => none
      | .refused => some ([(.close, protocolErrorPayload)], none)
      | .parsed result => some (result.frames ++ result.assembled, result.pong)) := by
  unfold wsHandleDirect wsReceive
  cases state.ring.append chunk with
  | none => rfl
  | some ring =>
    cases hview : ring.readableContiguous with
    | mk ring view =>
      cases view with
      | none => simp [hview]
      | some offset =>
        simp only [hview]
        generalize (wsParseFrames _ _ _ _) = out
        by_cases herror : out.1.protocolError ≠ 0
        · simp [if_pos herror]
        · simp only [if_neg herror]
          by_cases hmore : out.1.totalConsumed = 0 ∧ out.1.frames = [] ∧ out.1.assembled = []
          · simp [if_pos hmore]
          · simp only [if_neg hmore]
            rfl

/-- The future of a receiver, if there is one, with its result, and the messages that
wait for the next receiver. -/
structure Channel where
  waiter : Option (Option Message) := none
  buffer : List Message := []

/-- Only a pending future takes a message. -/
def Channel.feed (channel : Channel) (message : Message) : Channel :=
  if channel.waiter = some none then { channel with waiter := some (some message) }
  else { channel with buffer := channel.buffer ++ [message] }

/-- The messages up to the first close frame, and the payload of that frame. -/
def untilClose : List Message → List Message × Option Bytes
  | [] => ([], none)
  | message :: messages =>
    if message.1 = .close then ([message], some message.2)
    else
      let (fed, close) := untilClose messages
      (message :: fed, close)

/-- `py_ws_handle_and_feed`: the pong bytes, the payload of a close frame and the
number of messages fed. -/
def wsHandleAndFeed (state : WsConnectionState) (chunk : Bytes) (channel : Channel) :
    WsConnectionState × Channel × Option (Option Bytes × Option Bytes × ℕ) :=
  let (state, received) := wsReceive state chunk
  match received with
  | .needMore => (state, channel, none)
  | .refused => (state, channel, some (none, some protocolErrorPayload, 0))
  | .parsed result =>
    let (inline, close) := untilClose result.frames
    let fed := if close.isNone then inline ++ result.assembled else inline
    (state, fed.foldl Channel.feed channel, some (result.pong, close, fed.length))

/-- A payload as `py_ws_handle_json_direct` hands it over. -/
inductive JsonPayload (J : Type*) where
  | json (value : J)
  | str (data : Bytes)
  | bytes (data : Bytes)

section Json

variable {J : Type*} (yyjsonParse : Bytes → Option J)

def jsonPayload (message : Message) : JsonPayload J :=
  if message.1 = .text ∧ 0 < message.2.length then
    match yyjsonParse message.2 with
    | some value => .json value
    | none => .str message.2
  else .bytes message.2

def wsHandleJsonDirect (state : WsConnectionState) (chunk : Bytes) :
    WsConnectionState × Option (List (WsOpcode × JsonPayload J) × Option Bytes) :=
  let (state, received) := wsReceive state chunk
  match received with
  | .needMore => (state, none)
  | .refused => (state, some ([(.close, .bytes protocolErrorPayload)], none))
  | .parsed result =>
    (state, some ((result.frames ++ result.assembled).map
      fun message => (message.1, jsonPayload yyjsonParse message), result.pong))

/-! ## Runs -/

inductive StreamCall where
  | direct (chunk : Bytes)
  | feed (chunk : Bytes) (channel : Channel)
  | json (chunk : Bytes)
  | echo (chunk : Bytes) (answers : List ℕ)

def StreamCall.chunk : StreamCall → Bytes
  | .direct chunk => chunk
  | .feed chunk _ => chunk
  | .json chunk => chunk
  | .echo chunk _ => chunk

/-- The state after a call, and whether the call reported a close to its caller. -/
def StreamCall.perform (state : DirectState) : StreamCall → DirectState × Bool
  | .direct chunk =>
    let (connection, result) := wsHandleDirect state.toWsConnectionState chunk
    ({ state with toWsConnectionState := connection },
      match result with
      | none => false
      | some (messages, _) => messages.any fun message => message.1 = .close)
  | .feed chunk channel =>
    let (connection, _, result) := wsHandleAndFeed state.toWsConnectionState chunk channel
    ({ state with toWsConnectionState := connection },
      match result with
      | none => false
      | some (_, close, _) => close.isSome)
  | .json chunk =>
    let (connection, result) := wsHandleJsonDirect yyjsonParse state.toWsConnectionState chunk
    ({ state with toWsConnectionState := connection },
      match result with
      | none => false
      | some (messages, _) => messages.any fun message => message.1 = .close)
  | .echo chunk answers =>
    let (_, reply, state) := wsEchoDirectFdV2 state chunk answers
    (state, match reply with
      | .closed _ => true
      | _ => false)

def arrived (ring : WsRingBuffer) (chunk : Bytes) : Bytes :=
  match ring.append chunk with
  | none => ring.contents
  | some ring => ring.contents

/-- A connection with the concatenation of its chunks, the bytes removed from its ring
as they had arrived there, and whether a close was reported. -/
structure StreamRun where
  state : DirectState := {}
  received : Bytes := []
  consumed : Bytes := []
  closed : Bool := false

def StreamRun.step (run : StreamRun) (call : StreamCall) : StreamRun :=
  let (state, closes) := call.perform yyjsonParse run.state
  let held := arrived run.state.ring call.chunk
  { state := state
    received := run.received ++ call.chunk
    consumed := run.consumed ++ held.take (held.length - state.ring.contents.length)
    closed := run.closed || closes }

def StreamRun.run (calls : List StreamCall) : StreamRun :=
  calls.foldl (StreamRun.step yyjsonParse) {}

end Json

/-- Nothing is missing between what was consumed and what is held. -/
def StreamRun.Intact (run : StreamRun) : Prop :=
  run.closed = true ∨ run.consumed ++ run.state.ring.contents = run.received

def StreamRun.Fits (run : StreamRun) (call : StreamCall) : Prop :=
  run.state.ring.contents.length + call.chunk.length ≤ maximumCapacity

/-! ## The parse loop -/

variable {data : Bytes} {frame : WsFrame} {call : StreamCall} {calls : List StreamCall}

/-- What one frame does to the loop: the run ends behind a close frame or before a
refused one, or goes on behind the frame. -/
theorem wsParseFrames_frame (fuel : ℕ) {consumed : ℕ}
    (hparse : wsParseFrame true false data = .frame frame consumed)
    (assembler : WsFragmentAssembler) (before : ParseResult) :
    ∃ seen, seen.length = consumed ∧
      ((∃ result assembler', result.protocolError = before.protocolError ∧
          result.totalConsumed = before.totalConsumed + consumed ∧
          wsParseFrames (fuel + 1) data assembler before =
            (result, assembler', seen ++ data.drop consumed)) ∨
        (∃ result assembler', result.protocolError ≠ 0 ∧
          result.totalConsumed = before.totalConsumed ∧
          wsParseFrames (fuel + 1) data assembler before =
            (result, assembler', seen ++ data.drop consumed)) ∨
        ∃ mid assembler', mid.protocolError = before.protocolError ∧
          mid.totalConsumed = before.totalConsumed + consumed ∧
          wsParseFrames (fuel + 1) data assembler before =
            ((wsParseFrames fuel (data.drop consumed) assembler' mid).1,
              (wsParseFrames fuel (data.drop consumed) assembler' mid).2.1,
              seen ++ (wsParseFrames fuel (data.drop consumed) assembler' mid).2.2)) := by
  obtain ⟨hconsumed, hle, hheader, -⟩ := wsParseFrame_lengths hparse
  have hseen : (data.take frame.headerLen ++ unmaskedPayload frame).length = consumed := by
    rw [length_append, length_take, length_unmaskedPayload]
    omega
  obtain ⟨b, bytes, rfl⟩ : ∃ b bytes, data = b :: bytes :=
    exists_cons_of_length_pos (by omega)
  use (b :: bytes).take frame.headerLen ++ unmaskedPayload frame, hseen
  simp only [wsParseFrames, hparse]
  split
  · refine .inr (.inr ⟨_, _, ?_, ?_, rfl⟩)
    · rfl
    · rfl
  · refine .inr (.inr ⟨_, _, ?_, ?_, rfl⟩)
    · rfl
    · rfl
  · refine .inl ⟨_, _, ?_, ?_, rfl⟩
    · rfl
    · rfl
  · split
    · split
      · refine .inr (.inl ⟨_, _, ?_, ?_, rfl⟩)
        · show (-1 : ℤ) ≠ 0
          decide
        · rfl
      · refine .inr (.inr ⟨_, _, ?_, ?_, rfl⟩)
        · rfl
        · rfl
      · split
        · refine .inr (.inr ⟨_, _, ?_, ?_, rfl⟩)
          · rfl
          · rfl
        · refine .inr (.inr ⟨_, _, ?_, ?_, rfl⟩)
          · rfl
          · rfl
    · refine .inr (.inr ⟨_, _, ?_, ?_, rfl⟩)
      · rfl
      · rfl

theorem wsParseFrames_needMore (hparse : wsParseFrame true false data = .needMore)
    (fuel : ℕ) (assembler : WsFragmentAssembler) (before : ParseResult) :
    wsParseFrames fuel data assembler before = (before, assembler, data) := by
  cases fuel with
  | zero => rfl
  | succ fuel =>
    cases data with
    | nil => rfl
    | cons b bytes => simp [wsParseFrames, hparse]

/-- The loop takes bytes off the front of its data; what follows them is unchanged
unless a frame is refused. -/
theorem wsParseFrames_scan (fuel : ℕ) (data : Bytes) (assembler : WsFragmentAssembler)
    (before : ParseResult) :
    ∃ taken, taken ≤ data.length ∧
      (wsParseFrames fuel data assembler before).1.totalConsumed = before.totalConsumed + taken ∧
      (wsParseFrames fuel data assembler before).2.2.length = data.length ∧
      ((wsParseFrames fuel data assembler before).1.protocolError = 0 →
        (wsParseFrames fuel data assembler before).2.2.drop taken = data.drop taken) := by
  induction fuel generalizing data assembler before with
  | zero => exact ⟨0, Nat.zero_le _, rfl, rfl, fun _ => rfl⟩
  | succ fuel ih =>
    cases hparse : wsParseFrame true false data with
    | needMore =>
      rw [wsParseFrames_needMore hparse]
      exact ⟨0, Nat.zero_le _, rfl, rfl, fun _ => rfl⟩
    | protocolError code =>
      have hout : wsParseFrames (fuel + 1) data assembler before =
          ({ before with protocolError := code }, assembler, data) := by
        cases data with
        | nil => cases hparse
        | cons b bytes => simp [wsParseFrames, hparse]
      rw [hout]
      exact ⟨0, Nat.zero_le _, rfl, rfl, fun _ => rfl⟩
    | frame frame consumed =>
      have hle := (wsParseFrame_lengths hparse).2.1
      obtain ⟨seen, hseen, hcase⟩ := wsParseFrames_frame _ hparse _ _
      have hlength : (seen ++ data.drop consumed).length = data.length := by
        rw [length_append, length_drop]
        omega
      rcases hcase with ⟨result, assembler', -, htotal, hout⟩ |
        ⟨result, assembler', herror, htotal, hout⟩ | ⟨mid, assembler', -, htotal, hout⟩
      · rw [hout]
        refine ⟨consumed, hle, htotal, hlength, ?_⟩
        intro _
        rw [← hseen, drop_left]
      · rw [hout]
        exact ⟨0, Nat.zero_le _, htotal, hlength, fun hnone => absurd hnone herror⟩
      · obtain ⟨taken, htaken, hmore, hbytes, hkept⟩ := ih (data.drop consumed) _ _
        rw [hout]
        rw [length_drop] at htaken hbytes
        refine ⟨consumed + taken, by omega, ?_, ?_, ?_⟩
        · rw [hmore, htotal]
          omega
        · rw [length_append, hbytes]
          omega
        · intro hnone
          calc (seen ++ (wsParseFrames fuel (data.drop consumed) assembler' mid).2.2).drop
                (consumed + taken)
              = ((wsParseFrames fuel (data.drop consumed) assembler' mid).2.2).drop taken := by
                rw [← hseen, ← drop_drop, drop_left]
            _ = (data.drop consumed).drop taken := hkept hnone
            _ = data.drop (consumed + taken) := drop_drop ..

theorem wsParseFrames_whole
    (hparse : wsParseFrame true false data = .frame frame data.length) (fuel : ℕ)
    (assembler : WsFragmentAssembler) :
    (wsParseFrames (fuel + 1) data assembler {}).1.protocolError ≠ 0 ∨
      (wsParseFrames (fuel + 1) data assembler {}).1.totalConsumed = data.length := by
  obtain ⟨seen, -, hcase⟩ := wsParseFrames_frame _ hparse _ {}
  rcases hcase with ⟨result, assembler', -, htotal, hout⟩ | ⟨result, assembler', herror, -, hout⟩ |
    ⟨mid, assembler', -, htotal, hout⟩
  · right
    rw [hout]
    exact htotal.trans (Nat.zero_add _)
  · left
    rw [hout]
    exact herror
  · right
    have hnothing : wsParseFrame true false (data.drop data.length) = .needMore := by
      rw [drop_length]
      rfl
    rw [hout, wsParseFrames_needMore hnothing]
    exact htotal.trans (Nat.zero_add _)

/-! ## One call -/

/-- What a parsing call does to the ring when its chunk fits. -/
theorem wsReceive_spec {state : WsConnectionState} {chunk : Bytes} (hvalid : state.ring.Valid)
    (hfits : state.ring.contents.length + chunk.length ≤ state.ring.maxCapacity) :
    let held := state.ring.contents ++ chunk
    let scan := wsParseFrames (held.length + 1) held state.assembler {}
    let out := wsReceive state chunk
    out.2 = .refused ∧ scan.1.protocolError ≠ 0 ∨ scan.1.protocolError = 0 ∧
        (out.2 = .needMore ∧ scan.1.frames = [] ∨ out.2 = .parsed scan.1) ∧
        out.1.ring.Valid ∧
        out.1.ring.maxCapacity = state.ring.maxCapacity ∧
        out.1.ring.contents = held.drop scan.1.totalConsumed ∧
        out.1.assembler = scan.2.1 := by
  intro held scan out
  obtain ⟨appended, happend⟩ := isSome_iff_exists.mp (append_isSome hvalid hfits)
  obtain ⟨hvalid₁, hcontents₁, hmax₁⟩ := append_spec hvalid happend
  rcases hview : appended.readableContiguous with ⟨ring, view⟩
  obtain ⟨hvalid₂, hcontents₂, hmax₂, hempty, hshows⟩ := readableContiguous_spec hvalid₁ hview
  have hheld : ring.contents = held := hcontents₂.trans hcontents₁
  cases view with
  | none =>
    have hnothing : held = [] := by
      rw [← hheld, hcontents₂]
      exact hempty rfl
    have hparse : wsParseFrame true false held = .needMore := by
      rw [hnothing]
      rfl
    right
    simp only [out, scan, wsReceive, happend, hview, wsParseFrames_needMore hparse]
    refine ⟨trivial, .inl ⟨trivial, trivial⟩, hvalid₂, hmax₂.trans hmax₁, ?_, trivial⟩
    rw [hheld, hnothing, drop_nil]
  | some offset =>
    have hdata : (ring.buffer.drop offset).take ring.readable = held := by
      rw [← (hshows offset rfl).contents_eq, hheld]
    simp only [out, wsReceive, happend, hview, hdata]
    obtain ⟨taken, htaken, htotal, hbytes, hkept⟩ :=
      wsParseFrames_scan _ held state.assembler {}
    have hlength : (wsParseFrames (held.length + 1) held state.assembler {}).2.2.length =
        ring.readable := by
      rw [hbytes, ← hheld, length_contents hvalid₂]
    obtain ⟨hvalid₃, hcontents₃⟩ := overwrite_spec hvalid₂ (hshows offset rfl) hlength
    have htaken' : scan.1.totalConsumed = taken := htotal.trans (Nat.zero_add taken)
    by_cases herror : scan.1.protocolError ≠ 0
    · left
      rw [if_pos herror]
      exact ⟨rfl, herror⟩
    · right
      have hkept' := hkept (not_not.mp herror)
      rw [if_neg herror]
      split
      · rename_i hnothing
        refine ⟨not_not.mp herror, .inl ⟨rfl, hnothing.2.1⟩, hvalid₃, hmax₂.trans hmax₁, ?_, rfl⟩
        have hzero : taken = 0 := htaken'.symm.trans hnothing.1
        rw [hzero, drop_zero, drop_zero] at hkept'
        rw [htaken', hzero, drop_zero]
        exact hcontents₃.trans hkept'
      · refine ⟨not_not.mp herror, .inr rfl, ?_⟩
        have hcount : scan.1.totalConsumed ≤ (ring.overwrite offset
            (wsParseFrames (held.length + 1) held state.assembler {}).2.2).contents.length := by
          rw [hcontents₃, hbytes, htaken']
          exact htaken
        obtain ⟨hvalid₄, hcontents₄⟩ := consume_spec hvalid₃ hcount
        rw [hcontents₃, htaken', hkept'] at hcontents₄
        split
        · refine ⟨hvalid₄, ?_, ?_, rfl⟩
          · unfold consume
            split <;> exact hmax₂.trans hmax₁
          · exact htaken' ▸ hcontents₄
        · rename_i hnone
          have hzero : taken = 0 := by omega
          rw [hzero, drop_zero, drop_zero] at hkept'
          refine ⟨hvalid₃, hmax₂.trans hmax₁, ?_, rfl⟩
          rw [htaken', hzero, drop_zero]
          exact hcontents₃.trans hkept'

/-! ## One call of the echo -/

theorem Splits.suffix {data rest : Bytes} {frames : List WsFrame} (h : Splits data frames rest) :
    rest <:+ data := by
  induction h with
  | nil data => exact suffix_rfl
  | cons _ _ ih => exact ih.trans (drop_suffix _ _)

theorem echoLoop_stop (fuel : ℕ) {echo : Echo}
    (h : echo.memory.view.length ≤ echo.totalConsumed) : echoLoop fuel echo = echo := by
  cases fuel with
  | zero => rfl
  | succ fuel =>
    rw [echoLoop, if_neg]
    intro hmore
    exact absurd hmore.1 (Nat.not_lt.mpr h)

theorem echoLoop_needMore {view : Bytes} (hparse : wsParseFrame true false view = .needMore)
    (fuel : ℕ) :
    echoLoop fuel { memory := ⟨[], view⟩ } = { memory := ⟨[], view⟩ } := by
  cases fuel with
  | zero => rfl
  | succ fuel =>
    rw [echoLoop]
    split
    · simp [hparse]
    · rfl

/-- A frame that fills the view is taken. -/
theorem echoLoop_whole {view : Bytes}
    (hparse : wsParseFrame true false view = .frame frame view.length) (fuel : ℕ) :
    (echoLoop (fuel + 1) { memory := ⟨[], view⟩ }).totalConsumed = view.length := by
  obtain ⟨hlength, -, hheader, -⟩ := wsParseFrame_lengths hparse
  have hmore : (0 : ℕ) < view.length ∧ ([] : List IoVec).length < maxWritevFrames * 2 - 1 :=
    ⟨by omega, by decide⟩
  rw [echoLoop, if_pos hmore]
  simp only [drop_zero, hparse]
  have hblit : (blit view frame.headerLen (unmaskedPayload frame)).length = view.length := by
    apply length_blit
    rw [length_unmaskedPayload]
    omega
  split
  · exact Nat.zero_add _
  · rw [echoLoop_stop]
    · exact Nat.zero_add _
    · exact (Nat.zero_add _).symm.le
  · rw [echoLoop_stop]
    · exact Nat.zero_add _
    · simp only [Echo.push, Nat.zero_add]
      exact hblit.le

section EchoFrames

variable (state : DirectState) {offset : ℕ} (hvalid : state.ring.Valid)
  (hshows : state.ring.Shows offset) (answers : List ℕ)
include hvalid hshows

theorem echoFrames_ring :
    (state.echoFrames offset answers).2.2.ring.Valid ∧
      (state.echoFrames offset answers).2.2.ring.maxCapacity = state.ring.maxCapacity ∧
      (state.echoFrames offset answers).2.2.ring.contents <:+ state.ring.contents := by
  simp only [DirectState.echoFrames]
  have hview := hshows.contents_eq
  generalize (state.ring.buffer.drop offset).take state.ring.readable = view at hview ⊢
  obtain ⟨more, hechoes⟩ := echoLoop_spec _ (Echoes.initial _)
  generalize echoLoop (view.length + 1) { memory := ⟨[], view⟩ } = echo at hechoes ⊢
  have hlength : echo.memory.view.length = state.ring.readable := by
    rw [hechoes.length_view, ← hview, length_contents hvalid]
  obtain ⟨hleft, hcontents, hmax⟩ :=
    overwrite_consume_spec hvalid hshows hlength hechoes.consumed_le
  refine ⟨hleft, hmax, ?_⟩
  rw [hcontents, hview]
  exact hechoes.splits.suffix

theorem echoFrames_needMore (hempty : state.outputPending = [])
    (hparse : wsParseFrame true false state.ring.contents = .needMore) :
    (state.echoFrames offset answers).2.1 = .done ∧
      (state.echoFrames offset answers).2.2.outputPending = [] ∧
      (state.echoFrames offset answers).2.2.ring.contents = state.ring.contents := by
  have hview := hshows.contents_eq
  have hlength := length_contents hvalid
  have hloop := echoLoop_needMore hparse (state.ring.contents.length + 1)
  have hwritten : writevLoop ⟨[], state.ring.contents⟩ answers [] = ([], []) := by
    cases answers with
    | nil => rfl
    | cons answer answers => rw [writevLoop, if_pos (.inl rfl)]
  simp only [DirectState.echoFrames, ← hview, hloop, hwritten, foldl_nil, if_true]
  obtain ⟨-, hcontents⟩ := overwrite_spec hvalid hshows hlength
  exact ⟨trivial, hempty, hcontents⟩

theorem echoFrames_whole (hparse : wsParseFrame true false state.ring.contents =
      .frame frame state.ring.contents.length) :
    (state.echoFrames offset answers).2.2.ring.contents = [] := by
  simp only [DirectState.echoFrames]
  have hview := hshows.contents_eq
  rw [hview] at hparse
  generalize (state.ring.buffer.drop offset).take state.ring.readable = view at hview hparse ⊢
  obtain ⟨more, hechoes⟩ := echoLoop_spec _ (Echoes.initial _)
  have hwhole := echoLoop_whole hparse view.length
  generalize echoLoop (view.length + 1) { memory := ⟨[], view⟩ } = echo at hechoes hwhole ⊢
  have hlength : echo.memory.view.length = state.ring.readable := by
    rw [hechoes.length_view, ← hview, length_contents hvalid]
  obtain ⟨-, hcontents, -⟩ :=
    overwrite_consume_spec hvalid hshows hlength hechoes.consumed_le
  rw [hcontents, hwhole, ← hechoes.length_view, drop_length]

end EchoFrames

/-- How a call of the echo goes on once the chunk is in the ring. -/
theorem wsEchoDirectFdV2_cases {state : DirectState} {chunk : Bytes}
    (hvalid : state.ring.Valid)
    (hfits : state.ring.contents.length + chunk.length ≤ state.ring.maxCapacity)
    (answers : List ℕ) :
    ∃ ring, ring.Valid ∧ ring.maxCapacity = state.ring.maxCapacity ∧
      ring.contents = state.ring.contents ++ chunk ∧
      ((∃ reply pending, (wsEchoDirectFdV2 state chunk answers).2 =
            (reply, { state with ring := ring, outputPending := pending }) ∧
          (ring.contents ≠ [] → state.outputPending ≠ []) ∧
          (state.outputPending = [] → reply = .done ∧ pending = [])) ∨
        ∃ offset answers', ring.Shows offset ∧ (wsEchoDirectFdV2 state chunk answers).2 =
            (DirectState.echoFrames { state with ring := ring, outputPending := [] } offset
              answers').2) := by
  obtain ⟨appended, happend⟩ := isSome_iff_exists.mp (append_isSome hvalid hfits)
  obtain ⟨hvalid₁, hcontents₁, hmax₁⟩ := append_spec hvalid happend
  rcases hview : appended.readableContiguous with ⟨ring, view⟩
  obtain ⟨hvalid₂, hcontents₂, hmax₂, hempty, hshows⟩ := readableContiguous_spec hvalid₁ hview
  refine ⟨ring, hvalid₂, hmax₂.trans hmax₁, hcontents₂.trans hcontents₁, ?_⟩
  simp only [wsEchoDirectFdV2, happend, hview]
  cases view with
  | none =>
    left
    refine ⟨.done, state.outputPending, rfl, ?_, ?_⟩
    · intro hne
      exact absurd (hcontents₂.trans (hempty rfl)) hne
    · intro hpending
      exact ⟨rfl, hpending⟩
  | some offset =>
    simp only
    by_cases hpending : state.outputPending = []
    · right
      rw [if_pos hpending]
      refine ⟨offset, answers, hshows _ rfl, ?_⟩
      rw [← hpending]
    · rw [if_neg hpending]
      by_cases hflushed : ((DirectState.writePending { state with ring := ring }
          (answers.headD 0)).2).outputPending = []
      · right
        simp only [if_pos hflushed]
        refine ⟨offset, answers.tail, hshows _ rfl, ?_⟩
        rw [← hflushed]
        rfl
      · left
        simp only [if_neg hflushed]
        exact ⟨.again, _, rfl, fun _ => hpending, fun h => absurd h hpending⟩

/-! ## One call of any kind -/

section Perform

variable {J : Type*} (yyjsonParse : Bytes → Option J)

structure Parses (state : DirectState) (call : StreamCall) : Prop where
  state_eq : (call.perform yyjsonParse state).1 =
    { state with
      toWsConnectionState := (wsReceive state.toWsConnectionState call.chunk).1 }
  needMore : (wsReceive state.toWsConnectionState call.chunk).2 = .needMore →
    (call.perform yyjsonParse state).2 = false
  refused : (wsReceive state.toWsConnectionState call.chunk).2 = .refused →
    (call.perform yyjsonParse state).2 = true
  parsed : ∀ result, (wsReceive state.toWsConnectionState call.chunk).2 = .parsed result →
    result.frames = [] → result.assembled = [] → (call.perform yyjsonParse state).2 = false

theorem parses_or_echoes (state : DirectState) (call : StreamCall) :
    Parses yyjsonParse state call ∨ ∃ chunk answers, call = .echo chunk answers := by
  cases call with
  | direct chunk =>
    left
    constructor
    · simp [StreamCall.perform, wsHandleDirect_eq, StreamCall.chunk]
    · intro hreceived
      simp only [StreamCall.chunk] at hreceived
      simp [StreamCall.perform, wsHandleDirect_eq, hreceived]
    · intro hreceived
      simp only [StreamCall.chunk] at hreceived
      simp [StreamCall.perform, wsHandleDirect_eq, hreceived]
    · intro result hreceived hframes hassembled
      simp only [StreamCall.chunk] at hreceived
      simp [StreamCall.perform, wsHandleDirect_eq, hreceived, hframes, hassembled]
  | feed chunk channel =>
    left
    constructor
    · simp only [StreamCall.perform, wsHandleAndFeed, StreamCall.chunk]
      split <;> rfl
    · intro hreceived
      simp only [StreamCall.chunk] at hreceived
      simp [StreamCall.perform, wsHandleAndFeed, hreceived]
    · intro hreceived
      simp only [StreamCall.chunk] at hreceived
      simp [StreamCall.perform, wsHandleAndFeed, hreceived]
    · intro result hreceived hframes hassembled
      simp only [StreamCall.chunk] at hreceived
      simp [StreamCall.perform, wsHandleAndFeed, hreceived, hframes, untilClose]
  | json chunk =>
    left
    constructor
    · simp only [StreamCall.perform, wsHandleJsonDirect, StreamCall.chunk]
      split <;> rfl
    · intro hreceived
      simp only [StreamCall.chunk] at hreceived
      simp [StreamCall.perform, wsHandleJsonDirect, hreceived]
    · intro hreceived
      simp only [StreamCall.chunk] at hreceived
      simp [StreamCall.perform, wsHandleJsonDirect, hreceived]
    · intro result hreceived hframes hassembled
      simp only [StreamCall.chunk] at hreceived
      simp [StreamCall.perform, wsHandleJsonDirect, hreceived, hframes, hassembled]
  | echo chunk answers => exact .inr ⟨chunk, answers, rfl⟩

/-- A chunk without room is not stored, and the call reports nothing. -/
theorem perform_of_full {state : DirectState}
    (hfull : state.ring.append call.chunk = none) :
    call.perform yyjsonParse state = (state, false) := by
  rcases parses_or_echoes yyjsonParse state call with hparses | ⟨chunk, answers, rfl⟩
  · have hreceive : wsReceive state.toWsConnectionState call.chunk =
        (state.toWsConnectionState, .needMore) := by
      simp [wsReceive, hfull]
    have hreported := hparses.needMore (congrArg _ hreceive)
    have hstate := hparses.state_eq
    rw [hreceive] at hstate
    exact Prod.ext hstate hreported
  · simp only [StreamCall.chunk] at hfull
    simp [StreamCall.perform, wsEchoDirectFdV2, hfull]

section Room

variable {state : DirectState} {call : StreamCall} (hvalid : state.ring.Valid)
  (hfits : state.ring.contents.length + call.chunk.length ≤ state.ring.maxCapacity)
include hvalid hfits

/-- A call reports a close, or takes bytes off the front of the ring. -/
theorem perform_spec :
    (call.perform yyjsonParse state).2 = true ∨ (call.perform yyjsonParse state).1.ring.Valid ∧
        (call.perform yyjsonParse state).1.ring.maxCapacity = state.ring.maxCapacity ∧
        (call.perform yyjsonParse state).1.ring.contents <:+ state.ring.contents ++ call.chunk := by
  rcases parses_or_echoes yyjsonParse state call with hparses | ⟨chunk, answers, rfl⟩
  · rw [hparses.state_eq]
    rcases wsReceive_spec hvalid hfits with ⟨hrefused, -⟩ | ⟨-, -, hkept, hmax, hcontents, -⟩
    · exact .inl (hparses.refused hrefused)
    · right
      refine ⟨hkept, hmax, ?_⟩
      rw [hcontents]
      exact drop_suffix _ _
  · right
    obtain ⟨ring, hring, hmax, hcontents, hcase⟩ := wsEchoDirectFdV2_cases hvalid hfits answers
    simp only [StreamCall.perform, StreamCall.chunk] at hcontents hcase ⊢
    rcases hcase with ⟨reply, pending, hout, -⟩ | ⟨offset, answers', hshows, hout⟩
    · simp only [hout, ← hcontents]
      exact ⟨hring, hmax, suffix_rfl⟩
    · have hechoed := echoFrames_ring
        { state with ring := ring, outputPending := [] } hring hshows answers'
      simp only [hout, ← hcontents, ← hmax]
      exact hechoed

variable (hpending : state.outputPending = [])
include hpending

/-- Before a frame is complete, nothing is consumed. -/
theorem perform_needMore
    (hparse : wsParseFrame true false (state.ring.contents ++ call.chunk) = .needMore) :
    (call.perform yyjsonParse state).2 = false ∧
      (call.perform yyjsonParse state).1.outputPending = [] ∧
      (call.perform yyjsonParse state).1.ring.contents = state.ring.contents ++ call.chunk := by
  rcases parses_or_echoes yyjsonParse state call with hparses | ⟨chunk, answers, rfl⟩
  · rw [hparses.state_eq]
    have hspec := wsReceive_spec hvalid hfits
    simp only [wsParseFrames_needMore hparse] at hspec
    rcases hspec with ⟨-, herror⟩ | ⟨-, hreceived, -, -, hcontents, -⟩
    · exact absurd rfl herror
    · refine ⟨?_, hpending, hcontents⟩
      rcases hreceived with ⟨hreceived, -⟩ | hreceived
      · exact hparses.needMore hreceived
      · exact hparses.parsed _ hreceived rfl rfl
  · obtain ⟨ring, hring, hmax, hcontents, hcase⟩ := wsEchoDirectFdV2_cases hvalid hfits answers
    simp only [StreamCall.perform, StreamCall.chunk] at hcontents hcase hparse ⊢
    rw [← hcontents] at hparse ⊢
    rcases hcase with ⟨reply, pending, hout, -, hdone⟩ | ⟨offset, answers', hshows, hout⟩
    · obtain ⟨rfl, rfl⟩ := hdone hpending
      simp only [hout]
      exact ⟨trivial, trivial, trivial⟩
    · obtain ⟨hreply, hnone, hsame⟩ := echoFrames_needMore
        { state with ring := ring, outputPending := [] } hring hshows answers' rfl hparse
      simp only [hout, hreply]
      exact ⟨trivial, hnone, hsame⟩

/-- A frame that fills the ring is consumed, or a close is reported. -/
theorem perform_whole (hparse : wsParseFrame true false (state.ring.contents ++ call.chunk) =
      .frame frame (state.ring.contents ++ call.chunk).length) :
    (call.perform yyjsonParse state).2 = true ∨
      (call.perform yyjsonParse state).1.ring.contents = [] := by
  rcases parses_or_echoes yyjsonParse state call with hparses | ⟨chunk, answers, rfl⟩
  · rw [hparses.state_eq]
    have hwhole := wsParseFrames_whole hparse
      (state.ring.contents ++ call.chunk).length state.assembler
    rcases wsReceive_spec hvalid hfits with ⟨hrefused, -⟩ | ⟨haccepted, -, -, -, hcontents, -⟩
    · exact .inl (hparses.refused hrefused)
    · right
      rw [hwhole.resolve_left (not_not.mpr haccepted), drop_length] at hcontents
      exact hcontents
  · right
    obtain ⟨ring, hring, hmax, hcontents, hcase⟩ := wsEchoDirectFdV2_cases hvalid hfits answers
    simp only [StreamCall.perform, StreamCall.chunk] at hcontents hcase hparse ⊢
    rw [← hcontents] at hparse
    rcases hcase with ⟨reply, pending, hout, hne, -⟩ | ⟨offset, answers', hshows, hout⟩
    · have hnil : ring.contents = [] := by
        by_contra hfilled
        exact hne hfilled hpending
      rw [hnil] at hparse
      cases hparse
    · simp only [hout]
      exact echoFrames_whole
        { state with ring := ring, outputPending := [] } hring hshows _ hparse

end Room

end Perform

/-! ## Every run -/

section Runs

variable {J : Type*} (yyjsonParse : Bytes → Option J)

/-- Every byte received was consumed or is held. -/
structure StreamRun.Stored (run : StreamRun) : Prop where
  valid : run.state.ring.Valid
  limit : run.state.ring.maxCapacity = maximumCapacity
  intact : run.consumed ++ run.state.ring.contents = run.received

theorem StreamRun.Stored.initial : ({} : StreamRun).Stored where
  valid := create_default.1
  limit := create_default.2.2
  intact := create_default.2.1

theorem StreamRun.Stored.fits {run : StreamRun} {call : StreamCall} (h : run.Stored)
    (hfits : run.Fits call) :
    run.state.ring.contents.length + call.chunk.length ≤ run.state.ring.maxCapacity := by
  rw [h.limit]
  exact hfits

theorem StreamRun.Stored.arrived_eq {run : StreamRun} (h : run.Stored)
    (hfits : run.Fits call) :
    arrived run.state.ring call.chunk = run.state.ring.contents ++ call.chunk := by
  obtain ⟨appended, happend⟩ :=
    isSome_iff_exists.mp (append_isSome h.valid (h.fits hfits))
  rw [arrived, happend]
  exact (append_spec h.valid happend).2.1

/-- A chunk that fits leaves no gap. -/
theorem StreamRun.Stored.step {run : StreamRun} {call : StreamCall} (h : run.Stored)
    (hfits : run.Fits call) :
    (run.step yyjsonParse call).closed = true ∨ (run.step yyjsonParse call).Stored := by
  rcases perform_spec yyjsonParse h.valid (h.fits hfits) with hclosed | ⟨hvalid, hmax, hsuffix⟩
  · left
    simp [StreamRun.step, hclosed]
  · right
    have htake : (run.state.ring.contents ++ call.chunk).take
        ((run.state.ring.contents ++ call.chunk).length -
          (call.perform yyjsonParse run.state).1.ring.contents.length) ++
        (call.perform yyjsonParse run.state).1.ring.contents =
          run.state.ring.contents ++ call.chunk := by
      obtain ⟨front, hfront⟩ := hsuffix
      rw [← hfront, length_append, Nat.add_sub_cancel, take_left]
    constructor
    · exact hvalid
    · exact hmax.trans h.limit
    · simp only [StreamRun.step, h.arrived_eq hfits]
      calc run.consumed ++ _ ++ (call.perform yyjsonParse run.state).1.ring.contents
          = run.consumed ++ (run.state.ring.contents ++ call.chunk) := by
            rw [append_assoc, htake]
        _ = run.received ++ call.chunk := by rw [← append_assoc, h.intact]

/-- A chunk that does not fit is lost, and no close is reported. -/
theorem StreamRun.Stored.not_intact_step {run : StreamRun} (h : run.Stored)
    (hopen : run.closed = false) (hfits : ¬ run.Fits call) :
    ¬ (run.step yyjsonParse call).Intact := by
  have hfull : run.state.ring.append call.chunk = none := by
    rw [← not_isSome_iff_eq_none, append_isSome_iff h.valid, h.limit]
    exact hfits
  have hbounded := h.valid.bounded
  have hlimited := h.valid.limited
  rw [← length_contents h.valid] at hbounded
  rw [h.limit] at hlimited
  have hlong : 0 < call.chunk.length := by
    by_contra hempty
    apply hfits
    unfold StreamRun.Fits
    omega
  simp only [StreamRun.Intact, StreamRun.step, perform_of_full _ hfull, arrived, hfull,
    hopen, Bool.or_false, Bool.false_eq_true, false_or, Nat.sub_self, take_zero,
    append_nil, h.intact]
  intro hsame
  have hlength := congrArg List.length hsame
  rw [length_append] at hlength
  omega

theorem run_snoc (before : List StreamCall) (call : StreamCall) :
    StreamRun.run yyjsonParse (before ++ [call]) =
      (StreamRun.run yyjsonParse before).step yyjsonParse call := by
  simp [StreamRun.run]

theorem closed_step {run : StreamRun} (hclosed : run.closed = true) (call : StreamCall) :
    (run.step yyjsonParse call).closed = true := by
  simp [StreamRun.step, hclosed]

/-- Each chunk fits that is passed before a close is reported. -/
def AllFit (calls : List StreamCall) : Prop :=
  ∀ before call, before ++ [call] <+: calls →
    (StreamRun.run yyjsonParse before).closed = true ∨
      (StreamRun.run yyjsonParse before).Fits call

theorem closed_or_stored (h : ∀ before call, before ++ [call] <+: calls →
      (StreamRun.run yyjsonParse before).Stored → (StreamRun.run yyjsonParse before).closed = true ∨
          (StreamRun.run yyjsonParse before).Fits call)
    (before : List StreamCall) (hbefore : before <+: calls) :
    (StreamRun.run yyjsonParse before).closed = true ∨
      (StreamRun.run yyjsonParse before).Stored := by
  induction before using List.reverseRecOn with
  | nil => exact .inr .initial
  | append_singleton before call ih =>
    rw [run_snoc]
    rcases ih ((prefix_append before [call]).trans hbefore) with hclosed | hstored
    · exact .inl (closed_step _ hclosed _)
    · rcases h before call hbefore hstored with hclosed | hfits
      · exact .inl (closed_step _ hclosed _)
      · exact hstored.step _ hfits

theorem intact_iff_allFit (calls : List StreamCall) :
    (∀ before, before <+: calls → (StreamRun.run yyjsonParse before).Intact) ↔
      AllFit yyjsonParse calls := by
  constructor
  · intro h
    have hfits : ∀ before call, before ++ [call] <+: calls →
        (StreamRun.run yyjsonParse before).Stored →
          (StreamRun.run yyjsonParse before).closed = true ∨
            (StreamRun.run yyjsonParse before).Fits call := by
      intro before call hbefore hstored
      by_cases hopen : (StreamRun.run yyjsonParse before).closed = true
      · exact .inl hopen
      · right
        by_contra hnot
        apply hstored.not_intact_step _ (Bool.eq_false_iff.mpr hopen) hnot
        rw [← run_snoc]
        exact h _ hbefore
    intro before call hbefore
    have hearlier := (prefix_append _ [call]).trans hbefore
    rcases closed_or_stored yyjsonParse hfits before hearlier with hclosed | hstored
    · exact .inl hclosed
    · exact hfits _ _ hbefore hstored
  · intro h before hbefore
    rcases closed_or_stored yyjsonParse (fun before call hmem _ => h before call hmem) before
      hbefore with hclosed | hstored
    · exact .inl hclosed
    · exact .inr hstored.intact

/-! ## One frame -/

theorem wsParseFrame_protocolError_append {requireMask allowRsv : Bool} {code : ℤ}
    (more : Bytes) (h : wsParseFrame requireMask allowRsv data = .protocolError code) :
    wsParseFrame requireMask allowRsv (data ++ more) = .protocolError code := by
  match data with
  | [] => cases h
  | [_] => cases h
  | b0 :: b1 :: rest =>
    simp only [cons_append, wsParseFrame] at h ⊢
    split at h
    · exact h
    · split at h
      · cases h
      · rename_i payloadLen pos hfield
        rw [lengthField_append _ hfield]
        split at h
        · rename_i hlong
          simp only [hlong, if_true]
          exact h
        · rename_i hlimit
          simp only [hlimit, if_false]
          split at h
          · rename_i hmask
            rw [if_pos hmask]
            exact h
          · split at h
            · cases h
            · split at h
              · split at h
                · cases h
                · cases h
              · split at h
                · cases h
                · cases h

theorem wsParseFrame_needMore_of_part {wire part more : Bytes}
    (hparse : wsParseFrame true false wire = .frame frame wire.length)
    (hwire : wire = part ++ more) (hmore : more ≠ []) :
    wsParseFrame true false part = .needMore := by
  cases hpart : wsParseFrame true false part with
  | needMore => rfl
  | protocolError code =>
    have hall := wsParseFrame_protocolError_append more hpart
    rw [← hwire, hparse] at hall
    cases hall
  | frame frame' consumed =>
    have hall := wsParseFrame_append more hpart
    rw [← hwire, hparse] at hall
    have hconsumed := (ParseOutcome.frame.inj hall).2
    have hle := (wsParseFrame_lengths hpart).2.1
    have hlength := length_pos_iff.mpr hmore
    have htotal := congrArg List.length hwire
    rw [length_append] at htotal
    omega

/-- Part of a frame is held, and nothing has been consumed. -/
structure StreamRun.Waiting (run : StreamRun) : Prop extends run.Stored where
  opened : run.closed = false
  untouched : run.consumed = []
  idle : run.state.outputPending = []

theorem StreamRun.Waiting.held {run : StreamRun} (h : run.Waiting) :
    run.state.ring.contents = run.received := by
  have hintact := h.intact
  rw [h.untouched, nil_append] at hintact
  exact hintact

theorem StreamRun.Waiting.step {run : StreamRun} {call : StreamCall} (h : run.Waiting)
    (hfits : run.Fits call)
    (hparse : wsParseFrame true false (run.received ++ call.chunk) = .needMore) :
    (run.step yyjsonParse call).Waiting := by
  rw [← h.held] at hparse
  obtain ⟨hopen, hidle, hcontents⟩ :=
    perform_needMore yyjsonParse h.valid (h.toStored.fits hfits) h.idle hparse
  have hclosed : (run.step yyjsonParse call).closed = false := by
    simp [StreamRun.step, hopen, h.opened]
  have hstored := (h.toStored.step yyjsonParse hfits).resolve_left (by simp [hclosed])
  refine ⟨hstored, hclosed, ?_, hidle⟩
  simp [StreamRun.step, h.toStored.arrived_eq hfits, hcontents, h.untouched]

/-- The chunk that completes a frame makes it consumed, or a close is reported. -/
theorem StreamRun.Waiting.complete {run : StreamRun}
    (h : run.Waiting) (hfits : run.Fits call)
    (hparse : wsParseFrame true false (run.received ++ call.chunk) =
      .frame frame (run.received ++ call.chunk).length) :
    (run.step yyjsonParse call).closed = true ∨ (run.step yyjsonParse call).Stored ∧
        (run.step yyjsonParse call).state.ring.contents = [] := by
  rw [← h.held] at hparse
  rcases h.toStored.step yyjsonParse hfits with hclosed | hstored
  · exact .inl hclosed
  · rcases perform_whole yyjsonParse h.valid (h.toStored.fits hfits) h.idle hparse with
      hclosed | hempty
    · left
      simp [StreamRun.step, hclosed]
    · exact .inr ⟨hstored, hempty⟩

theorem run_received (calls : List StreamCall) :
    (StreamRun.run yyjsonParse calls).received = calls.flatMap StreamCall.chunk := by
  induction calls using List.reverseRecOn with
  | nil => rfl
  | append_singleton before call ih =>
    rw [run_snoc, flatMap_append, ← ih]
    simp [StreamRun.step]

theorem exists_rest {before : List StreamCall}
    (hbefore : before ++ [call] <+: calls) :
    ∃ more, calls.flatMap StreamCall.chunk =
      ((StreamRun.run yyjsonParse before).received ++ call.chunk) ++ more := by
  obtain ⟨others, rfl⟩ := hbefore
  rw [run_received]
  simp

theorem waiting_or_consumed {wire : Bytes}
    (hparse : wsParseFrame true false wire = .frame frame wire.length)
    (hwire : calls.flatMap StreamCall.chunk = wire) (hfits : AllFit yyjsonParse calls)
    (before : List StreamCall) (hbefore : before <+: calls) :
    (StreamRun.run yyjsonParse before).closed = true ∨ (StreamRun.run yyjsonParse before).Waiting ∧
        (StreamRun.run yyjsonParse before).received ≠ wire ∨
      (StreamRun.run yyjsonParse before).Stored ∧
        (StreamRun.run yyjsonParse before).received = wire ∧
        (StreamRun.run yyjsonParse before).state.ring.contents = [] := by
  induction before using List.reverseRecOn with
  | nil =>
    right
    left
    refine ⟨⟨.initial, rfl, rfl, rfl⟩, ?_⟩
    rintro rfl
    cases hparse
  | append_singleton before call ih =>
    have hnow := hfits _ _ hbefore
    obtain ⟨more, hmore⟩ := exists_rest _ hbefore
    rw [hwire] at hmore
    have hreceived : ((StreamRun.run yyjsonParse before).step yyjsonParse call).received =
        (StreamRun.run yyjsonParse before).received ++ call.chunk := rfl
    rw [run_snoc, hreceived]
    rcases ih ((prefix_append before [call]).trans hbefore) with
      hclosed | ⟨hwaiting, hpart⟩ | ⟨hstored, hall, hempty⟩
    · exact .inl (closed_step _ hclosed _)
    · have hroom := hnow.resolve_left (by simp [hwaiting.opened])
      by_cases hnil : more = []
      · rw [hnil, append_nil] at hmore
        rw [hmore] at hparse
        rcases hwaiting.complete yyjsonParse hroom hparse with hclosed | ⟨hstored, hempty⟩
        · exact .inl hclosed
        · exact .inr (.inr ⟨hstored, hmore.symm, hempty⟩)
      · right
        left
        refine ⟨hwaiting.step _ hroom (wsParseFrame_needMore_of_part hparse hmore hnil), ?_⟩
        intro hall
        rw [hall] at hmore
        exact hnil (append_right_eq_self.mp hmore.symm)
    · have hchunk : call.chunk = [] := by
        rw [hall, append_assoc] at hmore
        exact (append_eq_nil_iff.mp (append_right_eq_self.mp hmore.symm)).1
      rcases hnow with hclosed | hroom
      · exact .inl (closed_step _ hclosed _)
      · rcases perform_spec yyjsonParse hstored.valid (hstored.fits hroom) with
          hclosed | ⟨-, -, hsuffix⟩
        · left
          simp [StreamRun.step, hclosed]
        · rcases hstored.step yyjsonParse hroom with hclosed | hstored'
          · exact .inl hclosed
          · right
            right
            rw [hempty, hchunk, append_nil] at hsuffix
            refine ⟨hstored', ?_, suffix_nil.mp hsuffix⟩
            rw [hchunk, append_nil]
            exact hall

theorem allFit_of_short (hshort : (calls.flatMap StreamCall.chunk).length ≤ maximumCapacity) :
    AllFit yyjsonParse calls := by
  have hfits : ∀ before call, before ++ [call] <+: calls →
      (StreamRun.run yyjsonParse before).Stored → (StreamRun.run yyjsonParse before).closed = true ∨
          (StreamRun.run yyjsonParse before).Fits call := by
    intro before call hbefore hstored
    obtain ⟨others, rfl⟩ := hbefore
    have hheld := congrArg List.length hstored.intact
    rw [run_received, length_append] at hheld
    simp only [flatMap_append, flatMap_cons, flatMap_nil, length_append, append_nil] at hshort
    unfold StreamRun.Fits
    omega
  intro before call hbefore
  rcases closed_or_stored yyjsonParse hfits before
    ((prefix_append before [call]).trans hbefore) with hclosed | hstored
  · exact .inl hclosed
  · exact hfits _ _ hbefore hstored

/-- A frame that is read without a gap fits into the ring. -/
theorem length_le_of_consumed {wire : Bytes}
    (hparse : wsParseFrame true false wire = .frame frame wire.length)
    (hwire : calls.flatMap StreamCall.chunk = wire) (hfits : AllFit yyjsonParse calls) :
    wire.length ≤ maximumCapacity := by
  by_contra hlong
  have hwaits : ∀ before, before <+: calls → (StreamRun.run yyjsonParse before).Waiting ∧
      (StreamRun.run yyjsonParse before).received ≠ wire := by
    intro before hbefore
    induction before using List.reverseRecOn with
    | nil =>
      refine ⟨⟨.initial, rfl, rfl, rfl⟩, ?_⟩
      rintro rfl
      cases hparse
    | append_singleton before call ih =>
      obtain ⟨hwaiting, -⟩ := ih ((prefix_append _ [call]).trans hbefore)
      have hroom := (hfits _ _ hbefore).resolve_left (by simp [hwaiting.opened])
      obtain ⟨more, hmore⟩ := exists_rest _ hbefore
      rw [hwire] at hmore
      have hpart : (StreamRun.run yyjsonParse before).received ++ call.chunk ≠ wire := by
        intro hall
        apply hlong
        rw [← hall, length_append, ← hwaiting.held]
        exact hroom
      have hnil : more ≠ [] := by
        rintro rfl
        exact hpart (hmore.trans (append_nil _)).symm
      rw [run_snoc]
      exact ⟨hwaiting.step _ hroom (wsParseFrame_needMore_of_part hparse hmore hnil), hpart⟩
  apply (hwaits _ prefix_rfl).2
  rw [run_received, hwire]

/-! ## The stream -/

/-- After every sequence of calls the bytes consumed and those held are the bytes
received, until a close is reported, exactly when each chunk fits into the ring; and a
frame that `ws_parse_frame` accepts can be parsed exactly when it fits. -/
theorem stream_intact_iff (calls : List StreamCall) :
    ((∀ before, before <+: calls → (StreamRun.run yyjsonParse before).Intact) ↔
      AllFit yyjsonParse calls) ∧
    ∀ wire frame, wsParseFrame true false wire = .frame frame wire.length →
      calls.flatMap StreamCall.chunk = wire →
      ((∀ before, before <+: calls → (StreamRun.run yyjsonParse before).Intact) ∧
          ((StreamRun.run yyjsonParse calls).closed = true ∨
            (StreamRun.run yyjsonParse calls).consumed = wire) ↔
        wire.length ≤ maximumCapacity) := by
  refine ⟨intact_iff_allFit _ _, ?_⟩
  intro wire frame hparse hwire
  constructor
  · rintro ⟨hintact, -⟩
    exact length_le_of_consumed _ hparse hwire ((intact_iff_allFit _ _).mp hintact)
  · intro hshort
    have hfits : AllFit yyjsonParse calls := by
      apply allFit_of_short
      rw [hwire]
      exact hshort
    refine ⟨(intact_iff_allFit _ _).mpr hfits, ?_⟩
    have hreceived : (StreamRun.run yyjsonParse calls).received = wire := by
      rw [run_received, hwire]
    rcases waiting_or_consumed yyjsonParse hparse hwire hfits calls prefix_rfl with
      hclosed | ⟨-, hpart⟩ | ⟨hstored, -, hempty⟩
    · exact .inl hclosed
    · exact absurd hreceived hpart
    · right
      have hintact := hstored.intact
      rw [hempty, append_nil, hreceived] at hintact
      exact hintact

end Runs

/-- A masked ping in two chunks is parsed. -/
theorem stream_intact_ping :
    (∀ before, before <+: [StreamCall.feed [0x89] {}, .json [0x80, 1, 2, 3, 4]] →
      (StreamRun.run (fun _ => (none : Option Unit)) before).Intact) ∧
    ((StreamRun.run (fun _ => (none : Option Unit))
        [.feed [0x89] {}, .json [0x80, 1, 2, 3, 4]]).closed = true ∨
      (StreamRun.run (fun _ => (none : Option Unit))
        [.feed [0x89] {}, .json [0x80, 1, 2, 3, 4]]).consumed = [0x89, 0x80, 1, 2, 3, 4]) :=
  ((stream_intact_iff _ [.feed [0x89] {}, .json [0x80, 1, 2, 3, 4]]).2 [0x89, 0x80, 1, 2, 3, 4]
    { fin := true, rsv := 0, opcode := .ping, masked := true, maskKey := [1, 2, 3, 4],
      payload := [], headerLen := 6 } (by decide) rfl).mpr (by decide)

/-- A binary frame of 20 MiB. -/
def largeFrame : ClientFrame where
  fin := true
  opcode := .binary
  key := ⟨[1, 2, 3, 4], length_oneKey⟩
  payload := List.replicate (20 * 1024 * 1024) 0

/-- The end of a large frame is dropped, even when it comes byte by byte. -/
theorem stream_gap_large : ¬ ∀ (calls before : List StreamCall), before <+: calls →
    (StreamRun.run (fun _ => (none : Option Unit)) before).Intact := by
  intro hall
  have hpayload : largeFrame.payload.length = 20 * 1024 * 1024 := length_replicate
  have hsize : largeFrame.payload.length ≤ maxFramePayload := by
    rw [hpayload]
    decide
  obtain ⟨headerLen, hparse, -⟩ := wsParseFrame_encode _ [] hsize
  rw [append_nil] at hparse
  have hfits := (intact_iff_allFit _ (largeFrame.encode.map fun b => .direct [b])).mp (hall _)
  have hwire : (largeFrame.encode.map fun b => StreamCall.direct [b]).flatMap StreamCall.chunk =
      largeFrame.encode := by
    rw [flatMap_map]
    exact flatMap_singleton' _
  have hshort := length_le_of_consumed _ hparse hwire hfits
  have hlong := length_payload_le_encode largeFrame
  have hmaximum : maximumCapacity < 20 * 1024 * 1024 := by decide
  omega

end AstraApi.WebSocket
