import AstraApi.Lib.Memory
import AstraApi.WebSocket.Echo

/-!
# The scratch arrays of the direct echo

The parse loop of `py_ws_echo_direct_fd` and `py_ws_echo_direct_fd_v2` writes headers and
iovecs into two arrays of a fixed size, and its guard looks at the number of iovecs alone.
A header of ten bytes comes with two iovecs, so that the headers take at most five bytes for
each iovec.
-/

namespace AstraApi.WebSocket

open Option
open List hiding Vector
open Bytes Circular AstraApi.Memory WsRingBuffer

/-! ## The arrays -/

/-- `tl_hdr_buf` and `tl_iov`, which keep what earlier calls have written. -/
structure ScratchArrays where
  hdrBuf : Vector Byte (maxWritevFrames * 10)
  iov : Vector IoVec (maxWritevFrames * 2)

/-- The variables of the parse loop. -/
structure EchoScratch where
  arrays : ScratchArrays
  view : Bytes
  iovCount : ℕ := 0
  hdrOffset : ℕ := 0
  totalConsumed : ℕ := 0
  close : Option (ℕ × ℕ) := none

namespace EchoScratch

/-- An iovec at `iov_count`; `none` is a write outside of the array. -/
def pushIov (echo : EchoScratch) (iov : IoVec) : Option EchoScratch :=
  (put echo.arrays.iov echo.iovCount iov).map fun cells =>
    { echo with arrays := { echo.arrays with iov := cells }, iovCount := echo.iovCount + 1 }

def writeHeader (echo : EchoScratch) (header : Bytes) : Option EchoScratch :=
  (putAll echo.arrays.hdrBuf echo.hdrOffset header).map fun cells =>
    { echo with arrays := { echo.arrays with hdrBuf := cells } }

/-- The header of a response at `hdr_offset`, and its iovec. -/
def pushHeader (echo : EchoScratch) (header : Bytes) : Option EchoScratch := do
  let written ← echo.writeHeader header
  let pushed ← written.pushIov ⟨.header, echo.hdrOffset, header.length⟩
  return { pushed with hdrOffset := echo.hdrOffset + header.length }

def pushPayload (echo : EchoScratch) (payloadAt len : ℕ) : Option EchoScratch :=
  if 0 < len then echo.pushIov ⟨.ring, payloadAt, len⟩ else some echo

def push (echo : EchoScratch) (frame : WsFrame) (payloadAt consumed : ℕ) : Option EchoScratch := do
  let header := wsWriteFrameHeader (responseOpcode frame.opcode) frame.payload.length true
  let pushed ← EchoScratch.pushHeader
    { echo with view := blit echo.view payloadAt (unmaskedPayload frame) } header
  let pushed ← pushed.pushPayload payloadAt frame.payload.length
  return { pushed with totalConsumed := echo.totalConsumed + consumed }

/-- The parse loop with its arrays; `none` is a write outside of them, or no end. -/
def loop : ℕ → EchoScratch → Option EchoScratch
  | 0, _ => none
  | fuel + 1, echo =>
    if echo.totalConsumed < echo.view.length ∧ echo.iovCount < maxWritevFrames * 2 - 1 then
      match wsParseFrame true false (echo.view.drop echo.totalConsumed) with
      | .frame frame consumed =>
        let payloadAt := echo.totalConsumed + frame.headerLen
        match frame.opcode with
        | .close =>
          some
            { echo with
              view := blit echo.view payloadAt (unmaskedPayload frame)
              totalConsumed := echo.totalConsumed + consumed
              close := some (payloadAt, frame.payload.length) }
        | .pong => loop fuel { echo with totalConsumed := echo.totalConsumed + consumed }
        | _ => (echo.push frame payloadAt consumed).bind (loop fuel)
      | _ => some echo
    else some echo

end EchoScratch

/-! ## The calls up to the end of the loop -/

section Calls

variable (arrays : ScratchArrays)

def parseRing (ring : WsRingBuffer) (offset : ℕ) : Option EchoScratch :=
  let view := (ring.buffer.drop offset).take ring.readable
  EchoScratch.loop (view.length + 1) { arrays := arrays, view := view }

/-- `py_ws_echo_direct_fd` up to the end of its parse loop, if it comes to it. -/
def wsEchoDirectFdParse (ring : WsRingBuffer) (chunk : Bytes) : Option (Option EchoScratch) :=
  match ring.append chunk with
  | none => none
  | some ring =>
    match ring.readableContiguous with
    | (_, none) => none
    | (ring, some offset) => some (parseRing arrays ring offset)

/-- `py_ws_echo_direct_fd_v2` up to the end of its parse loop: pending output is written
before. -/
def wsEchoDirectFdV2Parse (state : DirectState) (chunk : Bytes) (answer : ℕ) :
    Option (Option EchoScratch) :=
  match state.ring.append chunk with
  | none => none
  | some ring =>
    match ring.readableContiguous with
    | (_, none) => none
    | (ring, some offset) =>
      if (state.writePending answer).2.outputPending = [] then
        some (parseRing arrays ring offset)
      else none

end Calls

/-! ## The counters -/

structure EchoScratch.Holds (scratch : EchoScratch) (echo : Echo) : Prop where
  hdrBuf : echo.memory.headers <+: scratch.arrays.hdrBuf.toList
  iov : echo.iovs <+: scratch.arrays.iov.toList
  view : scratch.view = echo.memory.view
  iovCount : scratch.iovCount = echo.iovs.length
  hdrOffset : scratch.hdrOffset = echo.memory.headers.length
  totalConsumed : scratch.totalConsumed = echo.totalConsumed
  close : scratch.close = echo.close

/-- The headers take at most five bytes for each iovec. -/
def Echo.HeadersShort (echo : Echo) : Prop := echo.memory.headers.length ≤ 5 * echo.iovs.length

theorem wsFrameHeaderSize_le (payloadLen : ℕ) : wsFrameHeaderSize payloadLen ≤ 10 := by
  unfold wsFrameHeaderSize
  split
  · decide
  · split <;> decide

theorem Echo.HeadersShort.push {echo : Echo} (h : echo.HeadersShort) (frame : WsFrame)
    (payloadAt consumed : ℕ) : (echo.push frame payloadAt consumed).HeadersShort := by
  unfold Echo.HeadersShort at h ⊢
  simp only [Echo.push, length_append, length_cons, length_wsWriteFrameHeader]
  by_cases hempty : 0 < frame.payload.length
  · have hsize := wsFrameHeaderSize_le frame.payload.length
    rw [if_pos hempty, length_singleton]
    omega
  · have hsize : wsFrameHeaderSize frame.payload.length = 2 := if_pos (by omega)
    omega

namespace EchoScratch

variable {scratch : EchoScratch} {echo : Echo}

theorem Holds.bounds (h : scratch.Holds echo) :
    scratch.iovCount ≤ 512 ∧ scratch.hdrOffset ≤ 2560 := by
  have hiov := h.iov.length_le
  have hhdr := h.hdrBuf.length_le
  rw [Vector.length_toList, maxWritevFrames] at hiov hhdr
  rw [h.iovCount, h.hdrOffset]
  exact ⟨hiov, hhdr⟩

theorem Holds.pushIov (h : scratch.Holds echo) (hroom : echo.iovs.length < maxWritevFrames * 2)
    (iov : IoVec) :
    ∃ cells, scratch.pushIov iov = some { scratch with
          arrays := { scratch.arrays with iov := cells }
          iovCount := scratch.iovCount + 1 } ∧
      echo.iovs ++ [iov] <+: cells.toList := by
  obtain ⟨cells, hput, hcells⟩ := put_filled _ h.iov hroom
  rw [← h.iovCount] at hput
  exact ⟨cells, by rw [EchoScratch.pushIov, hput]; rfl, hcells⟩

theorem Holds.pushHeader (h : scratch.Holds echo) (hroom : echo.iovs.length < maxWritevFrames * 2)
    {header : Bytes}
    (hheader : echo.memory.headers.length + header.length ≤ maxWritevFrames * 10) :
    ∃ scratch', scratch.pushHeader header = some scratch' ∧ scratch'.Holds
        { echo with
          memory := { echo.memory with headers := echo.memory.headers ++ header }
          iovs := echo.iovs ++ [⟨.header, echo.memory.headers.length, header.length⟩] } := by
  obtain ⟨hdrBuf, hput, hhdrBuf⟩ := putAll_filled _ h.hdrBuf hheader
  rw [← h.hdrOffset] at hput
  have hwrite : scratch.writeHeader header =
      some { scratch with arrays := { scratch.arrays with hdrBuf := hdrBuf } } := by
    rw [EchoScratch.writeHeader, hput]
    rfl
  have hwritten : EchoScratch.Holds
      { scratch with arrays := { scratch.arrays with hdrBuf := hdrBuf } } echo :=
    { h with hdrBuf := (prefix_append _ _).trans hhdrBuf }
  obtain ⟨cells, hpush, hcells⟩ :=
    hwritten.pushIov hroom ⟨.header, echo.memory.headers.length, header.length⟩
  rw [← h.hdrOffset] at hpush
  refine ⟨{ scratch with
        arrays := ⟨hdrBuf, cells⟩
        iovCount := scratch.iovCount + 1
        hdrOffset := scratch.hdrOffset + header.length }, ?_, ?_⟩
  · rw [EchoScratch.pushHeader, hwrite, bind_eq_bind, bind_some, hpush]
    rfl
  · exact
      { h with
        hdrBuf := hhdrBuf
        iov := hcells
        iovCount := by rw [length_append, length_singleton, h.iovCount]
        hdrOffset := by rw [length_append, h.hdrOffset] }

theorem Holds.pushPayload (h : scratch.Holds echo) (payloadAt len : ℕ)
    (hroom : 0 < len → echo.iovs.length < maxWritevFrames * 2) :
    ∃ scratch', scratch.pushPayload payloadAt len = some scratch' ∧ scratch'.Holds
        { echo with iovs := echo.iovs ++ if 0 < len then [⟨.ring, payloadAt, len⟩] else [] } := by
  by_cases hlen : 0 < len
  · obtain ⟨cells, hpush, hcells⟩ := h.pushIov (hroom hlen) ⟨.ring, payloadAt, len⟩
    rw [EchoScratch.pushPayload, if_pos hlen, if_pos hlen]
    refine ⟨_, hpush, ?_⟩
    exact
      { h with
        iov := hcells
        iovCount := by rw [length_append, length_singleton, h.iovCount] }
  · rw [EchoScratch.pushPayload, if_neg hlen, if_neg hlen, append_nil]
    exact ⟨scratch, rfl, h⟩

/-- One response: the guard leaves room for two iovecs, and the headers before it for ten
bytes. -/
theorem Holds.push (h : scratch.Holds echo) (hshort : echo.HeadersShort)
    (hguard : echo.iovs.length < maxWritevFrames * 2 - 1) (frame : WsFrame)
    (payloadAt consumed : ℕ) :
    ∃ scratch', scratch.push frame payloadAt consumed = some scratch' ∧
      scratch'.Holds (echo.push frame payloadAt consumed) := by
  have hroom : echo.iovs.length + 2 ≤ maxWritevFrames * 2 := by
    omega
  have hheaders : echo.memory.headers.length +
      (wsWriteFrameHeader (responseOpcode frame.opcode) frame.payload.length true).length ≤
        maxWritevFrames * 10 := by
    have hsize := wsFrameHeaderSize_le frame.payload.length
    rw [length_wsWriteFrameHeader]
    unfold Echo.HeadersShort at hshort
    omega
  have hunmasked : EchoScratch.Holds
      { scratch with view := blit scratch.view payloadAt (unmaskedPayload frame) }
      { echo with
        memory :=
          { echo.memory with view := blit echo.memory.view payloadAt (unmaskedPayload frame) } } :=
    { h with view := congrArg (blit · _ (unmaskedPayload _)) h.view }
  obtain ⟨withHeader, hheader, hheld⟩ :=
    hunmasked.pushHeader (show echo.iovs.length < _ by omega) hheaders
  obtain ⟨withPayload, hpayload, hheld⟩ := hheld.pushPayload payloadAt frame.payload.length
    (fun _ => by rw [length_append, length_singleton]; exact hroom)
  refine ⟨{ withPayload with totalConsumed := scratch.totalConsumed + consumed }, ?_, ?_⟩
  · rw [EchoScratch.push]
    simp only [bind_eq_bind, hheader, hpayload, bind_some]
    rfl
  · rw [append_assoc] at hheld
    exact { hheld with totalConsumed := congrArg (· + consumed) h.totalConsumed }

theorem loop_holds (fuel : ℕ) (h : scratch.Holds echo) (hshort : echo.HeadersShort)
    (hfuel : (echo.memory.view.drop echo.totalConsumed).length < fuel) :
    ∃ scratch', loop fuel scratch = some scratch' ∧ scratch'.Holds (echoLoop fuel echo) := by
  induction fuel generalizing scratch echo with
  | zero => omega
  | succ fuel ih =>
    rw [loop, echoLoop, h.view, h.totalConsumed, h.iovCount]
    split
    · next hguard =>
      cases hparse : wsParseFrame true false (echo.memory.view.drop echo.totalConsumed) with
      | needMore => exact ⟨scratch, rfl, h⟩
      | protocolError code => exact ⟨scratch, rfl, h⟩
      | frame frame consumed =>
        obtain ⟨hconsumed, hle, hheader, -⟩ := wsParseFrame_lengths hparse
        rw [length_drop] at hfuel hle
        have hview : (blit echo.memory.view (echo.totalConsumed + frame.headerLen)
            (unmaskedPayload frame)).length = echo.memory.view.length :=
          length_blit (by rw [length_unmaskedPayload]; omega)
        obtain ⟨pushed, hpush, hheld⟩ :=
          h.push hshort hguard.2 _ (echo.totalConsumed + frame.headerLen) consumed
        have hpushed := ih hheld (hshort.push frame _ _) (by
          simp only [Echo.push, length_drop, hview]
          omega)
        cases hopcode : frame.opcode with
        | close =>
          simp only [hopcode]
          refine ⟨_, rfl, ?_⟩
          exact
            { h with
              view := rfl
              iovCount := rfl
              totalConsumed := rfl
              close := rfl }
        | pong =>
          simp only [hopcode]
          have hnext : EchoScratch.Holds
              { scratch with
                view := echo.memory.view
                iovCount := echo.iovs.length
                totalConsumed := echo.totalConsumed + consumed }
              { echo with totalConsumed := echo.totalConsumed + consumed } :=
            { h with view := rfl, iovCount := rfl, totalConsumed := rfl }
          refine ih hnext hshort ?_
          show (echo.memory.view.drop (echo.totalConsumed + consumed)).length < fuel
          rw [length_drop]
          omega
        | _ =>
          simp only [hopcode, hpush, bind_some]
          exact hpushed
    · exact ⟨scratch, rfl, h⟩

end EchoScratch

theorem parseRing_bounds (arrays : ScratchArrays) (ring : WsRingBuffer) (offset : ℕ) :
    ∃ scratch, parseRing arrays ring offset = some scratch ∧
      scratch.iovCount ≤ 512 ∧ scratch.hdrOffset ≤ 2560 := by
  let view := (ring.buffer.drop offset).take ring.readable
  have hinitial : EchoScratch.Holds { arrays := arrays, view := view } { memory := ⟨[], view⟩ } :=
    ⟨List.nil_prefix, nil_prefix, rfl, rfl, rfl, rfl, rfl⟩
  obtain ⟨scratch, hloop, hheld⟩ := EchoScratch.loop_holds _ hinitial
    (Nat.zero_le _) (Nat.lt_succ_self _)
  exact ⟨scratch, hloop, hheld.bounds⟩

/-- Both calls stay inside of the arrays, whatever is in the ring and in the arrays. -/
theorem echoScratch_bounds (arrays : ScratchArrays) (state : DirectState) (chunk : Bytes)
    (answer : ℕ) :
    (∀ outcome ∈ wsEchoDirectFdParse arrays state.ring chunk, ∃ scratch, outcome = some scratch ∧
        scratch.iovCount ≤ 512 ∧ scratch.hdrOffset ≤ 2560) ∧
      ∀ outcome ∈ wsEchoDirectFdV2Parse arrays state chunk answer, ∃ scratch,
        outcome = some scratch ∧ scratch.iovCount ≤ 512 ∧ scratch.hdrOffset ≤ 2560 := by
  unfold wsEchoDirectFdParse wsEchoDirectFdV2Parse
  cases state.ring.append chunk with
  | none => exact ⟨fun _ h => (nomatch h), fun _ h => nomatch h⟩
  | some ring =>
    dsimp only
    cases hread : ring.readableContiguous with
    | mk ring start =>
      cases start with
      | none => exact ⟨fun _ h => (nomatch h), fun _ h => nomatch h⟩
      | some offset =>
        have hparse (outcome : Option _)
            (houtcome : outcome ∈ some (parseRing arrays ring offset)) :
            ∃ scratch, outcome = some scratch ∧
              scratch.iovCount ≤ 512 ∧ scratch.hdrOffset ≤ 2560 := by
          obtain rfl := mem_some.mp houtcome
          exact parseRing_bounds _ _ _
        refine ⟨hparse, ?_⟩
        dsimp only
        split
        · exact hparse
        · exact fun _ h => nomatch h

end AstraApi.WebSocket
