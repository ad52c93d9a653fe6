import AstraApi.WebSocket.EchoFrames

/-!
# Echoing into a buffer of fixed size

`ws_echo_frames_into_buffer` writes the responses into memory that its caller has
set aside, and leaves its loop when the next response does not fit.
`py_ws_echo_direct` sets aside a little more than the input takes.
-/

namespace AstraApi.WebSocket

open List
open Bytes Circular

/-! ## The echo loop -/

/-- The buffers, the positions in them and `EchoResult`. -/
structure EchoBuffer where
  data : Bytes
  outBuf : Bytes
  outPos : ℕ := 0
  totalConsumed : ℕ := 0
  /-- Offset and length of the payload of a close frame. -/
  close : Option (ℕ × ℕ) := none
  /-- The loop was left with a response that did not fit. -/
  full : Bool := false

/-- The loop of `ws_echo_frames_into_buffer`. -/
def echoBufferLoop (outCap : ℕ) : ℕ → EchoBuffer → EchoBuffer
  | 0, echo => echo
  | fuel + 1, echo =>
    if echo.totalConsumed < echo.data.length then
      match wsParseFrame true false (echo.data.drop echo.totalConsumed) with
      | .frame frame consumed =>
        let payloadAt := echo.totalConsumed + frame.headerLen
        let data := blit echo.data payloadAt (unmaskedPayload frame)
        match frame.opcode with
        | .close =>
          { echo with
            data := data
            totalConsumed := echo.totalConsumed + consumed
            close := some (payloadAt, frame.payload.length) }
        | .pong =>
          echoBufferLoop outCap fuel
            { echo with totalConsumed := echo.totalConsumed + consumed }
        | opcode =>
          let header := wsWriteFrameHeader (responseOpcode opcode) frame.payload.length true
          let frameTotal := header.length + frame.payload.length
          if outCap < echo.outPos + frameTotal then { echo with data := data, full := true }
          else
            let payload := (data.drop payloadAt).take frame.payload.length
            echoBufferLoop outCap fuel
              { echo with
                data := data
                outBuf := blit (blit echo.outBuf echo.outPos header)
                  (echo.outPos + header.length) payload
                outPos := echo.outPos + frameTotal
                totalConsumed := echo.totalConsumed + consumed }
      | _ => echo
    else echo

def wsEchoFramesIntoBuffer (outBuf : Bytes) (outCap : ℕ) (data : Bytes) : EchoBuffer :=
  echoBufferLoop outCap (data.length + 1) { data := data, outBuf := outBuf }

/-! ## The two loops side by side -/

/-- The loop that writes into `outBuf` is where the loop that appends is. -/
structure EchoBuffer.Mirrors (outBuf : Bytes) (direct : EchoBuffer) (grown : EchoFrames) :
    Prop where
  data : direct.data = grown.data
  outBuf : direct.outBuf = grown.out ++ outBuf.drop grown.out.length
  outPos : direct.outPos = grown.out.length
  totalConsumed : direct.totalConsumed = grown.totalConsumed
  close : direct.close = grown.close
  notFull : direct.full = false

/-- The output is not longer than the input it answers. -/
structure EchoFrames.Covered (echo : EchoFrames) : Prop where
  out_le : echo.out.length ≤ echo.totalConsumed
  consumed_le : echo.totalConsumed ≤ echo.data.length

/-- A response appended to the output. -/
def EchoFrames.respond (echo : EchoFrames) (frame : WsFrame) (consumed : ℕ) : EchoFrames :=
  let payloadAt := echo.totalConsumed + frame.headerLen
  let data := blit echo.data payloadAt (unmaskedPayload frame)
  { echo with
    data := data
    out := echo.out ++ wsWriteFrameHeader (responseOpcode frame.opcode) frame.payload.length true ++
      (data.drop payloadAt).take frame.payload.length
    totalConsumed := echo.totalConsumed + consumed }

section Step

variable {echo : EchoFrames} {frame : WsFrame} {consumed : ℕ}

theorem EchoFrames.Covered.skip (h : echo.Covered)
    (hparse : wsParseFrame true false (echo.data.drop echo.totalConsumed) = .frame frame consumed) :
    EchoFrames.Covered { echo with totalConsumed := echo.totalConsumed + consumed } := by
  obtain ⟨-, hle, -⟩ := wsParseFrame_lengths hparse
  have hconsumed := h.consumed_le
  rw [length_drop] at hle
  constructor
  · exact h.out_le.trans (Nat.le_add_right _ _)
  · simp only
    omega

theorem length_unmasked (h : echo.Covered)
    (hparse : wsParseFrame true false (echo.data.drop echo.totalConsumed) = .frame frame consumed) :
    (blit echo.data (echo.totalConsumed + frame.headerLen) (unmaskedPayload frame)).length =
      echo.data.length := by
  obtain ⟨hlength, hle, -⟩ := wsParseFrame_lengths hparse
  have hconsumed := h.consumed_le
  rw [length_drop] at hle
  apply length_blit
  rw [length_unmaskedPayload]
  omega

theorem length_respond (h : echo.Covered)
    (hparse : wsParseFrame true false (echo.data.drop echo.totalConsumed) = .frame frame consumed) :
    (echo.respond frame consumed).out.length =
      echo.out.length + (wsFrameHeaderSize frame.payload.length + frame.payload.length) := by
  obtain ⟨hlength, hle, -⟩ := wsParseFrame_lengths hparse
  have hdata := length_unmasked h hparse
  rw [length_drop] at hle
  simp only [EchoFrames.respond, length_append, length_wsWriteFrameHeader, length_take,
    length_drop, hdata]
  omega

theorem EchoFrames.Covered.respond (h : echo.Covered)
    (hparse : wsParseFrame true false (echo.data.drop echo.totalConsumed) = .frame frame consumed) :
    (echo.respond frame consumed).Covered := by
  obtain ⟨hlength, hle, -⟩ := wsParseFrame_lengths hparse
  have hheader := wsFrameHeaderSize_le_headerLen hparse
  have hconsumed := h.consumed_le
  have hout := h.out_le
  rw [length_drop] at hle
  constructor
  · rw [length_respond h hparse]
    simp only [EchoFrames.respond]
    omega
  · simp only [EchoFrames.respond, length_unmasked h hparse]
    omega

/-- Header and payload are copied to the end of what was written. -/
theorem EchoBuffer.Mirrors.respond {outBuf : Bytes} {direct : EchoBuffer}
    (h : direct.Mirrors outBuf echo) (hcovered : echo.Covered)
    (hparse : wsParseFrame true false (echo.data.drop echo.totalConsumed) = .frame frame consumed) :
    let payloadAt := echo.totalConsumed + frame.headerLen
    let data := blit echo.data payloadAt (unmaskedPayload frame)
    let header := wsWriteFrameHeader (responseOpcode frame.opcode) frame.payload.length true
    let payload := (data.drop payloadAt).take frame.payload.length
    EchoBuffer.Mirrors outBuf
      { direct with
        data := data
        outBuf := blit (blit direct.outBuf direct.outPos header) (direct.outPos + header.length)
          payload
        outPos := direct.outPos + (header.length + frame.payload.length)
        totalConsumed := echo.totalConsumed + consumed }
      (echo.respond frame consumed) := by
  intro payloadAt data header payload
  have hheader : header.length = wsFrameHeaderSize frame.payload.length :=
    length_wsWriteFrameHeader _ _ _
  have hout : (echo.respond frame consumed).out = echo.out ++ header ++ payload := rfl
  have hlength := length_respond hcovered hparse
  refine ⟨rfl, ?_, ?_, rfl, h.close, h.notFull⟩
  · have hwritten : blit direct.outBuf direct.outPos header =
        (echo.out ++ header) ++ (outBuf.drop echo.out.length).drop header.length := by
      rw [h.outBuf, h.outPos, blit_append]
    have hend : direct.outPos + header.length = (echo.out ++ header).length := by
      rw [h.outPos, length_append]
    simp only [hout]
    rw [hwritten, hend, blit_append, drop_drop, drop_drop]
    simp
  · rw [hlength, h.outPos, hheader]

end Step

/-- As long as the buffer has room for the input, the loops do the same. -/
theorem echoBufferLoop_mirrors (fuel : ℕ) {outBuf : Bytes} {outCap : ℕ}
    {direct : EchoBuffer} {grown : EchoFrames} (h : direct.Mirrors outBuf grown)
    (hcovered : grown.Covered) (hcap : grown.data.length ≤ outCap) :
    (echoBufferLoop outCap fuel direct).Mirrors outBuf (echoFramesLoop fuel grown) ∧
      (echoFramesLoop fuel grown).out.length ≤ grown.data.length := by
  induction fuel generalizing direct grown with
  | zero => exact ⟨h, hcovered.out_le.trans hcovered.consumed_le⟩
  | succ fuel ih =>
    have hstop := hcovered.out_le.trans hcovered.consumed_le
    rw [echoBufferLoop, echoFramesLoop, h.data, h.totalConsumed]
    split
    · cases hparse : wsParseFrame true false (grown.data.drop grown.totalConsumed) with
      | needMore => exact ⟨h, hstop⟩
      | protocolError code => exact ⟨h, hstop⟩
      | frame frame consumed =>
        have hdata := length_unmasked hcovered hparse
        have hanswered := hcovered.respond hparse
        have hresponse := h.respond hcovered hparse
        have hfits : ¬ outCap < direct.outPos +
            ((wsWriteFrameHeader (responseOpcode frame.opcode) frame.payload.length true).length +
              frame.payload.length) := by
          have hout := hanswered.out_le.trans hanswered.consumed_le
          rw [← hresponse.outPos] at hout
          simp only [EchoFrames.respond, hdata] at hout
          omega
        have hpush := ih hresponse hanswered (hdata.trans_le hcap)
        rw [show (grown.respond frame consumed).data.length = grown.data.length from hdata]
          at hpush
        cases hopcode : frame.opcode with
        | close =>
          simp only [hopcode]
          exact ⟨⟨rfl, h.outBuf, h.outPos, rfl, rfl, h.notFull⟩, hstop⟩
        | pong =>
          simp only [hopcode]
          exact ih ⟨rfl, h.outBuf, h.outPos, rfl, h.close, h.notFull⟩ (hcovered.skip hparse) hcap
        | _ =>
          simp only [hopcode] at hfits hpush ⊢
          rw [if_neg hfits]
          simp only [EchoFrames.respond, hopcode] at hpush
          exact hpush
    · exact ⟨h, hstop⟩

/-- The buffer that is set aside has room for every response. -/
theorem wsEchoFramesIntoBuffer_eq (outBuf data : Bytes) {outCap : ℕ} (hcap : data.length ≤ outCap) :
    let direct := wsEchoFramesIntoBuffer outBuf outCap data
    let grown := wsEchoFramesNogil data
    direct.outBuf = grown.out ++ outBuf.drop grown.out.length ∧
      direct.outPos = grown.out.length ∧ direct.outPos ≤ data.length ∧
      direct.totalConsumed = grown.totalConsumed ∧ direct.close = grown.close ∧
      direct.data = grown.data ∧ direct.full = false := by
  intro direct grown
  have hstart : EchoBuffer.Mirrors outBuf { data := data, outBuf := outBuf } { data := data } :=
    ⟨rfl, rfl, rfl, rfl, rfl, rfl⟩
  obtain ⟨hmirrors, hlength⟩ := echoBufferLoop_mirrors _ hstart ⟨le_rfl, Nat.zero_le _⟩ hcap
  exact ⟨hmirrors.outBuf, hmirrors.outPos, hmirrors.outPos.trans_le hlength,
    hmirrors.totalConsumed, hmirrors.close, hmirrors.data, hmirrors.notFull⟩

theorem wsEchoFramesIntoBuffer_note :
    let direct := wsEchoFramesIntoBuffer (List.replicate 7 0) 7 [0x89, 0x80, 1, 2, 3, 4]
    let grown := wsEchoFramesNogil [0x89, 0x80, 1, 2, 3, 4]
    direct.outBuf = grown.out ++ (List.replicate 7 0).drop grown.out.length ∧
      direct.outPos = grown.out.length ∧ direct.outPos ≤ 6 ∧
      direct.totalConsumed = grown.totalConsumed ∧ direct.close = grown.close ∧
      direct.data = grown.data ∧ direct.full = false :=
  wsEchoFramesIntoBuffer_eq _ [0x89, 0x80, 1, 2, 3, 4] (by decide)

/-! ## The caller -/

/-- `py_ws_echo_direct`: `none` for backpressure, else the bytes to send and the payload of
a close frame. -/
def wsEchoDirect (fresh : FreshMemory)
    (state : WsConnectionState) (chunk : Bytes) :
    WsConnectionState × Option (Option Bytes × Option Bytes) :=
  match state.ring.append chunk with
  | none => (state, none)
  | some ring =>
    match ring.readableContiguous with
    | (ring, none) => ({ state with ring := ring }, some (none, none))
    | (ring, some offset) =>
      let data := (ring.buffer.drop offset).take ring.readable
      let maxEchoSize := data.length + 64
      let echo := wsEchoFramesIntoBuffer (fresh maxEchoSize) maxEchoSize data
      let echoBytes := if echo.outPos = 0 then none else some (echo.outBuf.take echo.outPos)
      let closePayload := echo.close.map fun (payloadAt, len) =>
        (echo.data.drop payloadAt).take len
      let ring := ring.overwrite offset echo.data
      ({ state with
          ring := if 0 < echo.totalConsumed then ring.consume echo.totalConsumed else ring },
        some (echoBytes, closePayload))

/-- The caller returns what the growing echo makes of all that it holds. -/
theorem wsEchoDirect_eq (fresh : FreshMemory) {state : WsConnectionState} {chunk : Bytes}
    {appended : WsRingBuffer} (hvalid : state.ring.Valid)
    (happend : state.ring.append chunk = some appended) :
    let echo := wsEchoFramesNogil (state.ring.contents ++ chunk)
    (wsEchoDirect fresh state chunk).2 = some (if echo.out = [] then none else some echo.out,
        echo.close.map fun (payloadAt, len) => (echo.data.drop payloadAt).take len) := by
  intro echo
  obtain ⟨hvalid', hcontents, -⟩ := WsRingBuffer.append_spec hvalid happend
  rcases hview : appended.readableContiguous with ⟨ring, view⟩
  obtain ⟨-, hsame, -, hnone, hshows⟩ := WsRingBuffer.readableContiguous_spec hvalid' hview
  cases view with
  | none =>
    simp only [wsEchoDirect, happend, hview, echo, ← hcontents, hnone rfl]
    rfl
  | some offset =>
    let data := (ring.buffer.drop offset).take ring.readable
    let outBuf := (fresh (data.length + 64)).1
    have hdata : data = state.ring.contents ++ chunk :=
      ((hshows _ rfl).contents_eq.symm.trans hsame).trans hcontents
    have hstart : EchoBuffer.Mirrors outBuf { data := data, outBuf := outBuf } { data := data } :=
      ⟨rfl, rfl, rfl, rfl, rfl, rfl⟩
    have hmirrors : EchoBuffer.Mirrors outBuf
        (wsEchoFramesIntoBuffer outBuf (data.length + 64) data) (wsEchoFramesNogil data) :=
      (echoBufferLoop_mirrors _ hstart ⟨le_rfl, Nat.zero_le _⟩ (Nat.le_add_right _ 64)).1
    simp only [wsEchoDirect, happend, hview, hmirrors.outBuf, hmirrors.outPos, hmirrors.close,
      hmirrors.data, data, outBuf, take_left, length_eq_zero_iff, echo, ← hdata]

/-- The first bytes of a ping, held across the end of the buffer. -/
def wrappedRing : WsRingBuffer where
  buffer := 2 :: List.replicate 12 0 ++ [0x89, 0x83, 1]
  capacity := 2 ^ 4
  maxCapacity := 2 ^ 5
  readPos := 13
  writePos := 17

theorem wsEchoDirect_eq_wrapped :
    let echo := wsEchoFramesNogil (wrappedRing.contents ++ [3, 4, 98, 96, 98])
    (wsEchoDirect (fun size => ⟨List.replicate size 0, length_replicate⟩) { ring := wrappedRing }
        [3, 4, 98, 96, 98]).2 = some (if echo.out = [] then none else some echo.out,
          echo.close.map fun (payloadAt, len) => (echo.data.drop payloadAt).take len) :=
  wsEchoDirect_eq _ ⟨⟨4, rfl⟩, ⟨5, rfl⟩, rfl, by decide, by decide, by decide⟩ rfl

end AstraApi.WebSocket
