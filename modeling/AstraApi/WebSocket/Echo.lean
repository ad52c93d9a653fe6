import AstraApi.WebSocket.Codec
import AstraApi.WebSocket.Connection

/-!
# The echo path on a socket

`py_ws_echo_direct_fd_v2` echoes the frames of a connection straight to its
socket.  The response frames are described by iovecs that point into a scratch
buffer of headers and into the memory of the ring, where the payloads have been
unmasked in place.  What the socket does not take is copied into a pending buffer,
which is written before anything else by the next call or by
`py_ws_flush_pending`.
-/

namespace AstraApi.WebSocket

open List
open Bytes Circular Doubling WsRingBuffer

variable {data : Bytes} {frames : List WsFrame} {frame : WsFrame} {consumed : ℕ} {echo : Echo}
  {memory : Memory}

/-! ## Memory -/

inductive Region where
  | header
  | ring
  deriving DecidableEq

/-- An iovec points into one of two regions. -/
structure IoVec where
  region : Region
  base : ℕ
  len : ℕ

structure Memory where
  headers : Bytes
  view : Bytes

def IoVec.bytes (memory : Memory) (iov : IoVec) : Bytes :=
  match iov.region with
  | .header => (memory.headers.drop iov.base).take iov.len
  | .ring => (memory.view.drop iov.base).take iov.len

/-- What the iovecs stand for. -/
def gathered (memory : Memory) (iovs : List IoVec) : Bytes :=
  iovs.flatMap fun iov => iov.bytes memory

/-! ## Parsing -/

/-- The variables of the parse loop. -/
structure Echo where
  memory : Memory
  iovs : List IoVec := []
  totalConsumed : ℕ := 0
  /-- Offset and length of the payload of a close frame. -/
  close : Option (ℕ × ℕ) := none

def maxWritevFrames : ℕ := 256

def unmaskedPayload (frame : WsFrame) : Bytes :=
  if frame.masked && !frame.payload.isEmpty then xorMask frame.maskKey frame.payload
  else frame.payload

def responseOpcode (opcode : WsOpcode) : WsOpcode :=
  if opcode = .ping then .pong else opcode

def Echo.push (echo : Echo) (frame : WsFrame) (payloadAt consumed : ℕ) : Echo :=
  let header := wsWriteFrameHeader (responseOpcode frame.opcode) frame.payload.length true
  let headerIov : IoVec := ⟨.header, echo.memory.headers.length, header.length⟩
  let payloadIov : List IoVec :=
    if 0 < frame.payload.length then [⟨.ring, payloadAt, frame.payload.length⟩] else []
  { echo with
    memory :=
      { headers := echo.memory.headers ++ header
        view := blit echo.memory.view payloadAt (unmaskedPayload frame) }
    iovs := echo.iovs ++ headerIov :: payloadIov
    totalConsumed := echo.totalConsumed + consumed }

/-- The parse loop.  Every frame takes at least two bytes, so fuel above the number
of bytes is never used up. -/
def echoLoop : ℕ → Echo → Echo
  | 0, echo => echo
  | fuel + 1, echo =>
    if echo.totalConsumed < echo.memory.view.length ∧
        echo.iovs.length < maxWritevFrames * 2 - 1 then
      match wsParseFrame true false (echo.memory.view.drop echo.totalConsumed) with
      | .frame frame consumed =>
        let payloadAt := echo.totalConsumed + frame.headerLen
        match frame.opcode with
        | .close =>
          { echo with
            memory :=
              { echo.memory with
                view := blit echo.memory.view payloadAt (unmaskedPayload frame) }
            totalConsumed := echo.totalConsumed + consumed
            close := some (payloadAt, frame.payload.length) }
        | .pong =>
          echoLoop fuel { echo with totalConsumed := echo.totalConsumed + consumed }
        | _ => echoLoop fuel (echo.push frame payloadAt consumed)
      | _ => echo
    else echo

/-! ## Writing -/

/-- Step over the bytes that were written. -/
def advance : ℕ → List IoVec → List IoVec
  | _, [] => []
  | written, iov :: iovs =>
    if written = 0 then iov :: iovs
    else if iov.len ≤ written then advance (written - iov.len) iovs
    else { iov with base := iov.base + written, len := iov.len - written } :: iovs

/-- The write loop: the bytes that the socket took and the iovecs that are left.
The answers of the socket are the numbers of bytes it takes at most; zero, or no
further answer, is a failure. -/
def writevLoop (memory : Memory) : List ℕ → List IoVec → Bytes × List IoVec
  | [], iovs => ([], iovs)
  | answer :: answers, iovs =>
    if iovs = [] ∨ answer = 0 then ([], iovs)
    else
      let accepted := (gathered memory iovs).take answer
      let (more, left) := writevLoop memory answers (advance accepted.length iovs)
      (accepted ++ more, left)

structure DirectState extends WsConnectionState where
  outputPending : Bytes := []
  outputPendingCap : ℕ := 0

namespace DirectState

def bufferOutput (state : DirectState) (data : Bytes) : DirectState :=
  if data = [] then state
  else
    let needed := state.outputPending.length + data.length
    let newCap := if state.outputPendingCap = 0 then 4096 else state.outputPendingCap * 2
    { state with
      outputPending := state.outputPending ++ data
      outputPendingCap :=
        if state.outputPendingCap < needed then doubleUntil needed newCap needed
        else state.outputPendingCap }

def writePending (state : DirectState) (answer : ℕ) : Bytes × DirectState :=
  (state.outputPending.take answer,
    { state with outputPending := state.outputPending.drop answer })

end DirectState

/-- The results 0, -1 and 2 with the payload of a close frame. -/
inductive EchoReply where
  | done
  | again
  | closed (payload : Bytes)
  deriving DecidableEq

def wsFlushPending (state : DirectState) (answer : ℕ) : Bytes × EchoReply × DirectState :=
  if state.outputPending = [] then ([], .done, state)
  else
    let (accepted, state) := state.writePending answer
    (accepted, if state.outputPending = [] then .done else .again, state)

/-- The call with nothing pending: parse, write, keep what was not written, consume. -/
def DirectState.echoFrames (state : DirectState) (offset : ℕ) (answers : List ℕ) :
    Bytes × EchoReply × DirectState :=
  let view := (state.ring.buffer.drop offset).take state.ring.readable
  let echo := echoLoop (view.length + 1) { memory := ⟨[], view⟩ }
  let (accepted, left) := writevLoop echo.memory answers echo.iovs
  let ring := state.ring.overwrite offset echo.memory.view
  let buffered := left.foldl (fun state iov => state.bufferOutput (iov.bytes echo.memory)) state
  let reply :=
    match echo.close with
    | some (payloadAt, len) => .closed ((echo.memory.view.drop payloadAt).take len)
    | none => if left = [] then .done else .again
  (accepted, reply,
    { buffered with
      ring := if 0 < echo.totalConsumed then ring.consume echo.totalConsumed else ring })

/-- `py_ws_echo_direct_fd_v2` on a socket, with the bytes that the socket took. -/
def wsEchoDirectFdV2 (state : DirectState) (chunk : Bytes) (answers : List ℕ) :
    Bytes × EchoReply × DirectState :=
  match state.ring.append chunk with
  | none => ([], .done, state)
  | some ring =>
    match ring.readableContiguous with
    | (ring, none) => ([], .done, { state with ring := ring })
    | (ring, some offset) =>
      let state := { state with ring := ring }
      if state.outputPending = [] then state.echoFrames offset answers
      else
        let (flushed, state) := state.writePending (answers.headD 0)
        if state.outputPending = [] then
          let (accepted, reply, state) := state.echoFrames offset answers.tail
          (flushed ++ accepted, reply, state)
        else (flushed, .again, state)

/-! ## The stream of frames -/

/-- `frames` stand one after the other at the front of the bytes, and `rest` is what
follows them. -/
inductive Splits : Bytes → List WsFrame → Bytes → Prop
  | nil (data : Bytes) : Splits data [] data
  | cons {data : Bytes} {frame : WsFrame} {consumed : ℕ} {frames : List WsFrame} {rest : Bytes} :
      wsParseFrame true false data = .frame frame consumed →
        Splits (data.drop consumed) frames rest → Splits data (frame :: frames) rest

theorem Splits.append {data rest : Bytes} {frames : List WsFrame} (h : Splits data frames rest)
    (more : Bytes) : Splits (data ++ more) frames (rest ++ more) := by
  induction h with
  | nil data => exact .nil _
  | cons hparse _ ih =>
    have hle := (wsParseFrame_lengths hparse).2.1
    apply Splits.cons (wsParseFrame_append _ hparse)
    rw [drop_append_of_le_length hle]
    exact ih

theorem Splits.trans {middle rest : Bytes} {more : List WsFrame}
    (hleft : Splits data frames middle) (hright : Splits middle more rest) :
    Splits data (frames ++ more) rest := by
  induction hleft with
  | nil data => exact hright
  | cons hparse _ ih => exact .cons hparse (ih hright)

theorem Splits.length_le {rest : Bytes}
    (h : Splits data frames rest) : rest.length ≤ data.length := by
  induction h with
  | nil data => exact le_rfl
  | cons _ _ ih =>
    rw [length_drop] at ih
    exact ih.trans (Nat.sub_le _ _)

/-- What is left determines the frames that were taken. -/
theorem Splits.unique {rest : Bytes} {frames' : List WsFrame}
    (h : Splits data frames rest) (h' : Splits data frames' rest) : frames' = frames := by
  have shorter {data rest : Bytes} {frame : WsFrame} {consumed : ℕ} {frames : List _}
      (hparse : wsParseFrame true false data = .frame frame consumed)
      (hrest : Splits (data.drop consumed) frames rest) : rest.length < data.length := by
    have hlengths := wsParseFrame_lengths hparse
    have hle := hrest.length_le
    rw [length_drop] at hle
    omega
  induction h generalizing frames' with
  | nil data =>
    cases h' with
    | nil => rfl
    | cons hparse hrest => exact absurd (shorter hparse hrest) (lt_irrefl _)
  | cons hparse hrest ih =>
    cases h' with
    | nil => exact absurd (shorter hparse hrest) (lt_irrefl _)
    | cons hparse' hrest' =>
      obtain ⟨rfl, rfl⟩ := ParseOutcome.frame.inj (hparse.symm.trans hparse')
      rw [ih hrest']

/-- The response to a frame: a pong to a ping, data frames with their opcode, and
nothing to a close or a pong frame. -/
def response (frame : WsFrame) : Bytes :=
  match frame.opcode with
  | .close | .pong => []
  | .ping => wsBuildFrame .pong (unmaskedPayload frame) true
  | opcode => wsBuildFrame opcode (unmaskedPayload frame) true

theorem length_unmaskedPayload (frame : WsFrame) :
    (unmaskedPayload frame).length = frame.payload.length := by
  unfold unmaskedPayload
  split
  · exact length_xorMask _ _
  · rfl

theorem response_eq (hclose : frame.opcode ≠ .close)
    (hpong : frame.opcode ≠ .pong) :
    response frame = wsWriteFrameHeader (responseOpcode frame.opcode) frame.payload.length true ++
        unmaskedPayload frame := by
  rw [← length_unmaskedPayload]
  unfold response
  cases hopcode : frame.opcode with
  | close => exact absurd hopcode hclose
  | pong => exact absurd hopcode hpong
  | _ => rfl

/-- A response is not longer than the frame: the mask key is gone, and the length is
written in its shortest form. -/
theorem length_response_le (hparse : wsParseFrame true false data = .frame frame consumed) :
    (response frame).length ≤ consumed := by
  obtain ⟨hconsumed, -⟩ := wsParseFrame_lengths hparse
  have hheader := wsFrameHeaderSize_le_headerLen hparse
  by_cases hclose : frame.opcode = .close
  · simp [response, hclose]
  · by_cases hpong : frame.opcode = .pong
    · simp [response, hpong]
    · rw [response_eq hclose hpong, length_append, length_wsWriteFrameHeader,
        length_unmaskedPayload]
      omega

theorem Splits.length_response {data rest : Bytes} {frames : List WsFrame}
    (h : Splits data frames rest) :
    (frames.flatMap response).length + rest.length ≤ data.length := by
  induction h with
  | nil data => simp
  | cons hparse _ ih =>
    have hle := length_response_le hparse
    have hconsumed := (wsParseFrame_lengths hparse).2.1
    rw [length_drop] at ih
    rw [flatMap_cons, length_append]
    omega

/-! ## The parse loop -/

/-- The bytes of an iovec are there, and parsing on does not change them. -/
def IoVec.Within (memory : Memory) (consumed : ℕ) (iov : IoVec) : Prop :=
  match iov.region with
  | .header => iov.base + iov.len ≤ memory.headers.length
  | .ring => iov.base + iov.len ≤ consumed

/-- The loop has taken `frames` off the front of `data`. -/
structure Echoes (data : Bytes) (frames : List WsFrame) (echo : Echo) : Prop where
  splits : Splits data frames (echo.memory.view.drop echo.totalConsumed)
  length_view : echo.memory.view.length = data.length
  consumed_le : echo.totalConsumed ≤ echo.memory.view.length
  within : ∀ iov ∈ echo.iovs, iov.Within echo.memory echo.totalConsumed
  gathered_eq : gathered echo.memory echo.iovs = frames.flatMap response

theorem Echoes.unmask {data : Bytes} {frames : List WsFrame} {echo : Echo}
    (h : Echoes data frames echo) {frame : WsFrame} {consumed : ℕ}
    (hparse : wsParseFrame true false (echo.memory.view.drop echo.totalConsumed) =
      .frame frame consumed) :
    let payloadAt := echo.totalConsumed + frame.headerLen
    let view := blit echo.memory.view payloadAt (unmaskedPayload frame)
    view.length = echo.memory.view.length ∧
      echo.totalConsumed + consumed ≤ echo.memory.view.length ∧
      view.drop (echo.totalConsumed + consumed) =
        (echo.memory.view.drop echo.totalConsumed).drop consumed ∧
      ∀ more, ∀ iov ∈ echo.iovs,
        iov.bytes ⟨echo.memory.headers ++ more, view⟩ = iov.bytes echo.memory := by
  intro payloadAt view
  obtain ⟨hconsumed, hle, -⟩ := wsParseFrame_lengths hparse
  have hview := h.consumed_le
  have hpayload := length_unmaskedPayload frame
  rw [length_drop] at hle
  have hroom : payloadAt + (unmaskedPayload frame).length ≤ echo.memory.view.length := by
    omega
  refine ⟨length_blit hroom, by omega, ?_, ?_⟩
  · rw [drop_drop]
    apply drop_blit (by omega)
    omega
  · intro more iov hiov
    have hwithin := h.within _ hiov
    unfold IoVec.Within at hwithin
    unfold IoVec.bytes
    cases hregion : iov.region with
    | header =>
      simp only [hregion] at hwithin ⊢
      rw [drop_append_of_le_length (by omega), take_append_of_le_length]
      rw [length_drop]
      omega
    | ring =>
      simp only [hregion] at hwithin ⊢
      exact take_drop_blit_before (by omega) (hwithin.trans (Nat.le_add_right _ _))

theorem Echoes.snoc (h : Echoes data frames echo)
    (hparse : wsParseFrame true false (echo.memory.view.drop echo.totalConsumed) =
      .frame frame consumed) :
    Splits data (frames ++ [frame]) ((echo.memory.view.drop echo.totalConsumed).drop consumed) :=
  h.splits.trans (.cons hparse (.nil _))

theorem gathered_congr {memory' : Memory} {iovs : List IoVec}
    (h : ∀ iov ∈ iovs, iov.bytes memory = iov.bytes memory') :
    gathered memory iovs = gathered memory' iovs :=
  flatMap_congr h

theorem IoVec.Within.mono {memory' : Memory} {consumed' : ℕ} {iov : IoVec}
    (h : iov.Within memory consumed)
    (hheaders : memory.headers.length ≤ memory'.headers.length)
    (hconsumed : consumed ≤ consumed') : iov.Within memory' consumed' := by
  unfold IoVec.Within at h ⊢
  cases hregion : iov.region with
  | header =>
    rw [hregion] at h
    exact Nat.le_trans h hheaders
  | ring =>
    rw [hregion] at h
    exact Nat.le_trans h hconsumed

theorem Echoes.close {data : Bytes} {frames : List WsFrame} {echo : Echo}
    (h : Echoes data frames echo) {frame : WsFrame} {consumed : ℕ}
    (hparse : wsParseFrame true false (echo.memory.view.drop echo.totalConsumed) =
      .frame frame consumed) (hopcode : frame.opcode = .close) :
    let payloadAt := echo.totalConsumed + frame.headerLen
    Echoes data (frames ++ [frame])
      { echo with
        memory :=
          { echo.memory with view := blit echo.memory.view payloadAt (unmaskedPayload frame) }
        totalConsumed := echo.totalConsumed + consumed
        close := some (payloadAt, frame.payload.length) } := by
  intro payloadAt
  obtain ⟨hlength, hle, hrest, hkept⟩ := h.unmask hparse
  constructor
  · rw [hrest]
    exact h.snoc hparse
  · exact hlength.trans h.length_view
  · exact hle.trans_eq hlength.symm
  · intro iov hiov
    exact (h.within _ hiov).mono le_rfl (Nat.le_add_right _ _)
  · have hsame := hkept []
    rw [append_nil] at hsame
    have hnone : response frame = [] := by
      simp [response, hopcode]
    rw [gathered_congr hsame, h.gathered_eq]
    simp [hnone]

theorem Echoes.pong (h : Echoes data frames echo)
    (hparse : wsParseFrame true false (echo.memory.view.drop echo.totalConsumed) =
      .frame frame consumed) (hopcode : frame.opcode = .pong) :
    Echoes data (frames ++ [frame])
      { echo with totalConsumed := echo.totalConsumed + consumed } := by
  constructor
  · rw [← drop_drop]
    exact h.snoc hparse
  · exact h.length_view
  · exact (h.unmask hparse).2.1
  · intro iov hiov
    exact (h.within _ hiov).mono le_rfl (Nat.le_add_right _ _)
  · have hnone : response frame = [] := by
      simp [response, hopcode]
    simp [h.gathered_eq, hnone]

/-- The iovecs of a response. -/
theorem Echoes.push {data : Bytes} {frames : List WsFrame} {echo : Echo}
    (h : Echoes data frames echo) {frame : WsFrame} {consumed : ℕ}
    (hparse : wsParseFrame true false (echo.memory.view.drop echo.totalConsumed) =
      .frame frame consumed) (hclose : frame.opcode ≠ .close) (hpong : frame.opcode ≠ .pong) :
    Echoes data (frames ++ [frame])
      (echo.push frame (echo.totalConsumed + frame.headerLen) consumed) := by
  obtain ⟨hlength, hle, hrest, hkept⟩ := h.unmask hparse
  obtain ⟨hconsumed, -⟩ := wsParseFrame_lengths hparse
  have hresponse := response_eq hclose hpong
  constructor
  · simp only [Echo.push]
    rw [hrest]
    exact h.snoc hparse
  · exact hlength.trans h.length_view
  · exact hle.trans_eq hlength.symm
  · intro iov hiov
    simp only [Echo.push, mem_append, mem_cons] at hiov
    rcases hiov with hold | rfl | hpayload
    · apply (h.within _ hold).mono
      · simp [Echo.push]
      · exact Nat.le_add_right _ _
    · simp [IoVec.Within, Echo.push]
    · split at hpayload
      · obtain rfl := mem_singleton.mp hpayload
        simp only [IoVec.Within, Echo.push]
        omega
      · cases hpayload
  · have hpayload : ((blit echo.memory.view (echo.totalConsumed + frame.headerLen)
        (unmaskedPayload frame)).drop (echo.totalConsumed + frame.headerLen)).take
          frame.payload.length = unmaskedPayload frame := by
      rw [← length_unmaskedPayload]
      exact take_drop_blit (by omega)
    simp only [Echo.push, gathered, flatMap_append, flatMap_cons, flatMap_nil,
      append_nil, hresponse]
    congr 1
    · exact (gathered_congr (hkept _)).trans h.gathered_eq
    · congr 1
      · simp [IoVec.bytes]
      · split
        · simpa [IoVec.bytes] using hpayload
        · rename_i hempty
          have hnil := length_unmaskedPayload frame
          symm
          apply eq_nil_of_length_eq_zero
          omega

theorem echoLoop_spec (fuel : ℕ)
    (h : Echoes data frames echo) :
    ∃ more, Echoes data (frames ++ more) (echoLoop fuel echo) := by
  have hnone {frames : List _} {echo : Echo} (h : Echoes data frames echo) :
      ∃ more, Echoes data (frames ++ more) echo := by
    use []
    rw [append_nil]
    exact h
  induction fuel generalizing frames echo with
  | zero => exact hnone h
  | succ fuel ih =>
    simp only [echoLoop]
    split
    · split
      · rename_i frame consumed hparse
        have next {echo' : Echo} (h' : Echoes data (frames ++ [frame]) echo') :
            ∃ more, Echoes data (frames ++ more) (echoLoop fuel echo') := by
          obtain ⟨more, hmore⟩ := ih h'
          use frame :: more
          rw [← append_cons] at hmore
          exact hmore
        cases hopcode : frame.opcode with
        | close => exact ⟨[frame], h.close hparse hopcode⟩
        | pong => exact next (h.pong hparse hopcode)
        | _ =>
          apply next
          apply h.push hparse
          · rw [hopcode]
            decide
          · rw [hopcode]
            decide
      · exact hnone h
    · exact hnone h

theorem Echoes.initial (data : Bytes) : Echoes data [] { memory := ⟨[], data⟩ } :=
  ⟨.nil data, rfl, Nat.zero_le _, by simp, rfl⟩

/-! ## The write loop -/

theorem IoVec.Within.length_bytes {iov : IoVec}
    (h : iov.Within memory consumed) (hconsumed : consumed ≤ memory.view.length) :
    (iov.bytes memory).length = iov.len := by
  unfold IoVec.Within at h
  unfold IoVec.bytes
  cases hregion : iov.region with
  | header | ring =>
    rw [hregion] at h
    simp only [length_take, length_drop] at h ⊢
    omega

theorem IoVec.bytes_skip (memory : Memory) (iov : IoVec) (written : ℕ) :
    IoVec.bytes memory { iov with base := iov.base + written, len := iov.len - written } =
      (iov.bytes memory).drop written := by
  unfold IoVec.bytes
  cases iov.region <;> simp only [drop_take, drop_drop]

/-- Stepping over written bytes drops them from what the iovecs stand for. -/
theorem advance_spec (written : ℕ) {iovs : List IoVec}
    (hfits : ∀ iov ∈ iovs, (iov.bytes memory).length = iov.len) :
    gathered memory (advance written iovs) = (gathered memory iovs).drop written ∧
      ∀ iov ∈ advance written iovs, (iov.bytes memory).length = iov.len := by
  induction iovs generalizing written with
  | nil => simp [advance, gathered]
  | cons iov iovs ih =>
    have hiov := hfits _ mem_cons_self
    have hrest := fun iov' hmem => hfits iov' (mem_cons_of_mem _ hmem)
    simp only [advance]
    split
    · rename_i hzero
      rw [hzero]
      exact ⟨rfl, hfits⟩
    · split
      · rename_i hall
        obtain ⟨hgathered, hleft⟩ := ih _ hrest
        refine ⟨?_, hleft⟩
        rw [hgathered]
        simp only [gathered, flatMap_cons, drop_append, hiov]
        rw [drop_of_length_le (hiov.trans_le hall), nil_append]
      · rename_i hpart
        constructor
        · simp only [gathered, flatMap_cons]
          rw [IoVec.bytes_skip, drop_append_of_le_length (by omega)]
        · intro iov' hmem
          rcases mem_cons.mp hmem with rfl | hmem
          · rw [IoVec.bytes_skip, length_drop, hiov]
          · exact hrest _ hmem

/-- Whatever the socket takes, the rest is what the iovecs left over stand for. -/
theorem writevLoop_spec (answers : List ℕ) {iovs : List IoVec}
    (hfits : ∀ iov ∈ iovs, (iov.bytes memory).length = iov.len) :
    (writevLoop memory answers iovs).1 ++ gathered memory (writevLoop memory answers iovs).2 =
      gathered memory iovs := by
  induction answers generalizing iovs with
  | nil => rfl
  | cons answer answers ih =>
    simp only [writevLoop]
    split
    · rfl
    · obtain ⟨hgathered, hleft⟩ :=
        advance_spec _ hfits
      simp only [append_assoc]
      rw [ih hleft, hgathered, length_take, ← drop_eq_drop_min]
      exact take_append_drop _ _

namespace DirectState

theorem bufferOutput_outputPending (state : DirectState) (data : Bytes) :
    (state.bufferOutput data).outputPending = state.outputPending ++ data := by
  unfold bufferOutput
  split
  · rename_i hempty
    rw [hempty, append_nil]
  · rfl

theorem bufferOutput_fits {state : DirectState} (data : Bytes)
    (h : state.outputPending.length ≤ state.outputPendingCap) :
    (state.bufferOutput data).outputPending.length ≤ (state.bufferOutput data).outputPendingCap := by
  unfold bufferOutput
  split
  · exact h
  · simp only [length_append]
    split
    · apply le_doubleUntil
      · split <;> omega
      · omega
    · omega

theorem foldl_bufferOutput (memory : Memory) (left : List IoVec) (state : DirectState) :
    (left.foldl (fun state iov => state.bufferOutput (iov.bytes memory)) state).outputPending =
      state.outputPending ++ gathered memory left := by
  induction left generalizing state with
  | nil => simp [gathered]
  | cons iov left ih =>
    rw [foldl_cons, ih, bufferOutput_outputPending, append_assoc]
    rfl

theorem foldl_bufferOutput_fits (memory : Memory) (left : List IoVec) {state : DirectState}
    (h : state.outputPending.length ≤ state.outputPendingCap) :
    let state' := left.foldl (fun state iov => state.bufferOutput (iov.bytes memory)) state
    state'.outputPending.length ≤ state'.outputPendingCap := by
  induction left generalizing state with
  | nil => exact h
  | cons iov left ih => exact ih (bufferOutput_fits _ h)

end DirectState

/-! ## One call -/

/-- The ring is well formed, and the bytes the socket took with those pending are the
responses to the frames taken off the stream. -/
structure Echoed (state : DirectState) (arrived sent : Bytes) (frames : List WsFrame) : Prop where
  valid : state.ring.Valid
  splits : Splits arrived frames state.ring.contents
  delivered : sent ++ state.outputPending = frames.flatMap response
  fits : state.outputPending.length ≤ state.outputPendingCap

theorem Echoed.writePending {state : DirectState} {arrived sent : Bytes} {frames : List WsFrame}
    (h : Echoed state arrived sent frames) (answer : ℕ) :
    Echoed (state.writePending answer).2 arrived (sent ++ (state.writePending answer).1) frames := by
  refine ⟨h.valid, h.splits, ?_, ?_⟩
  · simp only [DirectState.writePending]
    rw [append_assoc, take_append_drop]
    exact h.delivered
  · simp only [DirectState.writePending, length_drop]
    exact (Nat.sub_le _ _).trans h.fits

theorem Echoed.wsFlushPending {state : DirectState} {arrived sent : Bytes}
    {frames : List WsFrame} (h : Echoed state arrived sent frames) (answer : ℕ) :
    Echoed (wsFlushPending state answer).2.2 arrived (sent ++ (wsFlushPending state answer).1)
      frames := by
  unfold WebSocket.wsFlushPending
  split
  · rw [append_nil]
    exact h
  · exact h.writePending _

/-- The ring once the consumed bytes of a view have been removed. -/
theorem overwrite_consume_spec {ring : WsRingBuffer} {offset : ℕ} (hvalid : ring.Valid)
    (hshows : ring.Shows offset) {view : Bytes} (hlength : view.length = ring.readable) {total : ℕ}
    (htotal : total ≤ view.length) :
    let written := ring.overwrite offset view
    let left := if 0 < total then written.consume total else written
    left.Valid ∧ left.contents = view.drop total ∧ left.maxCapacity = ring.maxCapacity := by
  intro written left
  obtain ⟨hwritten, hcontents⟩ := overwrite_spec hvalid hshows hlength
  simp only [left]
  split
  · have hfits : total ≤ written.contents.length := by
      rw [hcontents]
      exact htotal
    obtain ⟨hleft, hrest⟩ := consume_spec hwritten hfits
    rw [hcontents] at hrest
    refine ⟨hleft, hrest, ?_⟩
    unfold consume
    split <;> rfl
  · rename_i hzero
    have hnone : total = 0 := by omega
    rw [hnone, drop_zero]
    exact ⟨hwritten, hcontents, rfl⟩

theorem Echoed.echoFrames {state : DirectState} {arrived sent : Bytes} {frames : List WsFrame}
    (h : Echoed state arrived sent frames) (hempty : state.outputPending = []) {offset : ℕ}
    (hshows : state.ring.Shows offset) (answers : List ℕ) :
    ∃ more, Echoed (state.echoFrames offset answers).2.2 arrived
      (sent ++ (state.echoFrames offset answers).1) (frames ++ more) := by
  simp only [DirectState.echoFrames]
  have hview := hshows.contents_eq
  generalize (state.ring.buffer.drop offset).take state.ring.readable = view at hview ⊢
  obtain ⟨more, hechoes⟩ := echoLoop_spec _ (Echoes.initial _)
  rw [nil_append] at hechoes
  generalize echoLoop (view.length + 1) { memory := ⟨[], view⟩ } = echo at hechoes ⊢
  have hlength : echo.memory.view.length = state.ring.readable := by
    rw [hechoes.length_view, ← hview, length_contents h.valid]
  obtain ⟨hvalid, hcontents, -⟩ :=
    overwrite_consume_spec h.valid hshows hlength hechoes.consumed_le
  have hfits : ∀ iov ∈ echo.iovs, (iov.bytes echo.memory).length = iov.len := by
    intro iov hiov
    exact (hechoes.within _ hiov).length_bytes hechoes.consumed_le
  have hwritten := writevLoop_spec answers hfits
  generalize writevLoop echo.memory answers echo.iovs = written at hwritten ⊢
  use more
  constructor
  · exact hvalid
  · have hsplits := h.splits
    rw [hview] at hsplits
    rw [hcontents]
    exact hsplits.trans hechoes.splits
  · have hsent := h.delivered
    rw [hempty, append_nil] at hsent
    rw [DirectState.foldl_bufferOutput, hempty, nil_append]
    calc sent ++ written.1 ++ gathered echo.memory written.2
        = sent ++ (written.1 ++ gathered echo.memory written.2) := append_assoc ..
      _ = frames.flatMap response ++ more.flatMap response := by
          rw [hwritten, hechoes.gathered_eq, hsent]
      _ = (frames ++ more).flatMap response := flatMap_append.symm
  · exact DirectState.foldl_bufferOutput_fits _ _ h.fits

theorem Echoed.wsEchoDirectFdV2 {state : DirectState} {arrived sent : Bytes}
    {frames : List WsFrame} (h : Echoed state arrived sent frames) (chunk : Bytes)
    (answers : List ℕ) :
    ∃ more, Echoed (wsEchoDirectFdV2 state chunk answers).2.2
      (if (state.ring.append chunk).isSome then arrived ++ chunk else arrived)
      (sent ++ (wsEchoDirectFdV2 state chunk answers).1) (frames ++ more) := by
  have hnone {state : DirectState} {arrived sent : Bytes} (h : Echoed state arrived sent frames) :
      ∃ more, Echoed state arrived sent (frames ++ more) := by
    use []
    rw [append_nil]
    exact h
  unfold WebSocket.wsEchoDirectFdV2
  cases happend : state.ring.append chunk with
  | none =>
    simp only [append_nil]
    exact hnone h
  | some ring =>
    obtain ⟨hvalid, hcontents, -⟩ := append_spec h.valid happend
    simp only [Option.isSome_some, if_true]
    split
    · rename_i ring' hread
      obtain ⟨hvalid', hcontents', -⟩ := readableContiguous_spec hvalid hread
      rw [append_nil]
      apply hnone
      refine ⟨hvalid', ?_, h.delivered, h.fits⟩
      rw [hcontents', hcontents]
      exact h.splits.append _
    · rename_i ring' offset hread
      obtain ⟨hvalid', hcontents', -, -, hshows⟩ := readableContiguous_spec hvalid hread
      have harrived : Echoed { state with ring := ring' } (arrived ++ chunk) sent frames := by
        refine ⟨hvalid', ?_, h.delivered, h.fits⟩
        rw [hcontents', hcontents]
        exact h.splits.append _
      split
      · rename_i hempty
        exact harrived.echoFrames hempty (hshows _ rfl) _
      · have hflushed := harrived.writePending (answers.headD 0)
        split
        · rename_i hempty
          rw [← append_assoc]
          exact hflushed.echoFrames hempty (hshows _ rfl) _
        · exact hnone hflushed

/-! ## Every run -/

inductive DirectCall where
  | echo (chunk : Bytes) (answers : List ℕ)
  | flush (answer : ℕ)

/-- The connection, the bytes appended to its ring so far, and the bytes the socket has
taken. -/
structure DirectRun where
  state : DirectState := {}
  arrived : Bytes := []
  sent : Bytes := []

def DirectRun.step (run : DirectRun) : DirectCall → DirectRun
  | .echo chunk answers =>
    let (accepted, _, state) := wsEchoDirectFdV2 run.state chunk answers
    { state := state
      arrived := if (run.state.ring.append chunk).isSome then run.arrived ++ chunk
        else run.arrived
      sent := run.sent ++ accepted }
  | .flush answer =>
    let (accepted, _, state) := wsFlushPending run.state answer
    { run with state := state, sent := run.sent ++ accepted }

theorem Echoed.step {run : DirectRun} {frames : List WsFrame}
    (h : Echoed run.state run.arrived run.sent frames) (call : DirectCall) :
    ∃ more, Echoed (run.step call).state (run.step call).arrived (run.step call).sent
      (frames ++ more) := by
  cases call with
  | echo chunk answers => exact h.wsEchoDirectFdV2 _ _
  | flush answer =>
    use []
    rw [append_nil]
    exact h.wsFlushPending _

theorem Echoed.foldl_step {run : DirectRun}
    (h : Echoed run.state run.arrived run.sent frames) (calls : List DirectCall) :
    ∃ more, Echoed (calls.foldl DirectRun.step run).state (calls.foldl DirectRun.step run).arrived
      (calls.foldl DirectRun.step run).sent (frames ++ more) := by
  induction calls generalizing run frames with
  | nil =>
    use []
    rw [append_nil]
    exact h
  | cons call calls ih =>
    obtain ⟨first, hfirst⟩ := h.step _
    obtain ⟨more, hmore⟩ := ih hfirst
    use first ++ more
    rw [← append_assoc]
    exact hmore

theorem Echoed.initial :
    Echoed ({} : DirectRun).state ({} : DirectRun).arrived ({} : DirectRun).sent [] := by
  constructor
  · exact create_default.1
  · exact .nil []
  · rfl
  · exact le_rfl

/-- No byte of the echo is lost, duplicated or reordered: after every sequence of calls,
what the socket has taken, followed by what is pending, is the responses to the frames
removed from the ring, which are all frames that arrived up to what the ring still
holds. -/
theorem sent_append_outputPending (calls : List DirectCall) :
    let run := calls.foldl DirectRun.step {}
    ∃ frames, (∀ frames', Splits run.arrived frames' run.state.ring.contents ↔ frames' = frames) ∧
      run.sent ++ run.state.outputPending = frames.flatMap response := by
  intro run
  obtain ⟨frames, h⟩ := Echoed.initial.foldl_step _
  use frames
  constructor
  · intro frames'
    constructor
    · intro hsplits
      exact h.splits.unique hsplits
    · intro hsame
      rw [hsame]
      exact h.splits
  · exact h.delivered

end AstraApi.WebSocket
