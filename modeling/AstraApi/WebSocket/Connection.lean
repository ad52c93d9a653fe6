import AstraApi.WebSocket.Frame
import AstraApi.WebSocket.RingBuffer

/-!
# One WebSocket connection

The state kept per connection is the ring buffer and the fragment assembler.
`wsParseFrames` is the loop over the readable bytes: it unmasks payloads in
place, answers pings, and collects single-frame messages and reassembled ones
in two separate lists.  `wsHandleDirect` is the whole step for one chunk of
received data.
-/

namespace AstraApi.WebSocket

open Bytes

/-- A message as the application receives it.  A text payload is handed over
as the string decoded with `surrogateescape`, which determines its bytes. -/
abbrev Message := WsOpcode × Bytes

structure WsFragmentAssembler where
  inProgress : Bool := false
  originalOpcode : WsOpcode := .continuation
  accumulated : Bytes := []
  deriving DecidableEq

inductive FeedResult where
  | incomplete
  | complete
  | protocolError
  deriving DecidableEq

namespace WsFragmentAssembler

def maxMessageSize : ℕ := 64 * 1024 * 1024

def reset (_ : WsFragmentAssembler) : WsFragmentAssembler := {}

def feed (assembler : WsFragmentAssembler) (fin : Bool) (opcode : WsOpcode) (payload : Bytes) :
    FeedResult × WsFragmentAssembler :=
  match opcode with
  | .continuation =>
    if !assembler.inProgress then (.protocolError, assembler)
    else
      let grown := { assembler with accumulated := assembler.accumulated ++ payload }
      if maxMessageSize < grown.accumulated.length then (.protocolError, grown.reset)
      else if fin then (.complete, grown)
      else (.incomplete, grown)
  | .text | .binary =>
    if assembler.inProgress then (.protocolError, assembler)
    else if !fin then
      (.incomplete, { inProgress := true, originalOpcode := opcode, accumulated := payload })
    else (.complete, assembler)
  | .close | .ping | .pong => (.complete, assembler)

end WsFragmentAssembler

structure ParseResult where
  frames : List Message := []
  assembled : List Message := []
  pongBuf : Bytes := []
  totalConsumed : ℕ := 0
  pongReceived : Bool := false
  protocolError : ℤ := 0

def ParseResult.advance (result : ParseResult) (consumed : ℕ) : ParseResult :=
  { result with totalConsumed := result.totalConsumed + consumed }

/-- `ws_parse_frames_nogil` on the bytes that are left.  Besides the result and
the assembler it returns these bytes with the payloads of the parsed frames
unmasked in place.  Every frame takes at least one byte, so fuel above the
number of bytes is never used up. -/
def wsParseFrames : ℕ → Bytes → WsFragmentAssembler → ParseResult →
    ParseResult × WsFragmentAssembler × Bytes
  | 0, data, assembler, result => (result, assembler, data)
  | _ + 1, [], assembler, result => (result, assembler, [])
  | fuel + 1, b :: bytes, assembler, result =>
    let data := b :: bytes
    match wsParseFrame true false data with
    | .needMore => (result, assembler, data)
    | .protocolError code => ({ result with protocolError := code }, assembler, data)
    | .frame frame consumed =>
      let payload :=
        if frame.masked && !frame.payload.isEmpty then xorMask frame.maskKey frame.payload
        else frame.payload
      let seen := data.take frame.headerLen ++ payload
      let rest := data.drop consumed
      let next (assembler : WsFragmentAssembler) (result : ParseResult) :
          ParseResult × WsFragmentAssembler × Bytes :=
        let (result', assembler', rest') :=
          wsParseFrames fuel rest assembler (result.advance consumed)
        (result', assembler', seen ++ rest')
      match frame.opcode with
      | .ping =>
        next assembler
          { result with
            pongBuf := result.pongBuf ++
              wsWriteFrameHeader .pong payload.length true ++ payload }
      | .pong => next assembler { result with pongReceived := true }
      | .close =>
        let closed : ParseResult :=
          { result with frames := result.frames ++ [(.close, payload)] }
        (closed.advance consumed, assembler, seen ++ rest)
      | opcode =>
        if opcode = .continuation ∨ frame.fin = false then
          match assembler.feed frame.fin opcode payload with
          | (.protocolError, assembler') =>
            ({ result with protocolError := -1 }, assembler', seen ++ rest)
          | (.incomplete, assembler') => next assembler' result
          | (.complete, assembler') =>
            if opcode = .continuation then
              next assembler'.reset
                { result with
                  assembled := result.assembled ++
                    [(assembler'.originalOpcode, assembler'.accumulated)]
                  frames := result.frames ++ [(opcode, payload)] }
            else
              next assembler' { result with frames := result.frames ++ [(opcode, payload)] }
        else next assembler { result with frames := result.frames ++ [(opcode, payload)] }

structure WsConnectionState where
  ring : WsRingBuffer := WsRingBuffer.create WsRingBuffer.defaultCapacity
    WsRingBuffer.maximumCapacity
  assembler : WsFragmentAssembler := {}
  messagesIn : ℕ := 0
  bytesIn : ℕ := 0

/-- The payload of the synthetic close frame, status code 1002. -/
def protocolErrorPayload : Bytes := [0x03, 0xEA]

/-- `py_ws_handle_direct`: the messages and the pong bytes of one chunk, or
`none`. -/
def wsHandleDirect (state : WsConnectionState) (chunk : Bytes) :
    WsConnectionState × Option (List Message × Option Bytes) :=
  match state.ring.append chunk with
  | none => (state, none)
  | some ring =>
    match ring.readableContiguous with
    | (ring, none) => ({ state with ring := ring }, none)
    | (ring, some offset) =>
      let data := (ring.buffer.drop offset).take ring.readable
      let (parsed, assembler, data') :=
        wsParseFrames (data.length + 1) data state.assembler {}
      let ring := ring.overwrite offset data'
      let state := { state with ring := ring, assembler := assembler }
      if parsed.protocolError ≠ 0 then
        (state, some ([(.close, protocolErrorPayload)], none))
      else if parsed.totalConsumed = 0 ∧ parsed.frames = [] ∧ parsed.assembled = [] then
        (state, none)
      else
        let frames := parsed.frames ++ parsed.assembled
        ({ state with
            ring := if 0 < parsed.totalConsumed then ring.consume parsed.totalConsumed
              else ring
            messagesIn := state.messagesIn + frames.length
            bytesIn := state.bytesIn + (frames.map fun message => message.2.length).sum },
          some (frames, if parsed.pongBuf = [] then none else some parsed.pongBuf))

/-- The frame lists returned for a sequence of chunks, one after the other. -/
def wsDelivered : WsConnectionState → List Bytes → List Message
  | _, [] => []
  | state, chunk :: chunks =>
    let (state', result) := wsHandleDirect state chunk
    (result.map Prod.fst).getD [] ++ wsDelivered state' chunks

end AstraApi.WebSocket
