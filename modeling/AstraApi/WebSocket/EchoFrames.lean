import AstraApi.Lib.Fragments
import AstraApi.WebSocket.Delivery
import AstraApi.WebSocket.Echo

/-!
# Echoing frame by frame

`ws_echo_frames_nogil` unmasks the frames of a buffer in place and appends a
response to each to an output.  The header of a response is written with the
default of its last argument, so that every response is a final frame.  What
the output means is decided by a client, which puts messages together from
frames.
-/

namespace AstraApi.WebSocket

open List
open Bytes Circular Fragments

/-! ## The echo loop -/

/-- The buffer, the output and `EchoResult`. -/
structure EchoFrames where
  data : Bytes
  out : Bytes := []
  totalConsumed : ℕ := 0
  /-- Offset and length of the payload of a close frame. -/
  close : Option (ℕ × ℕ) := none

/-- The loop of `ws_echo_frames_nogil`.  Every frame takes at least two bytes, so
fuel above the number of bytes is never used up. -/
def echoFramesLoop : ℕ → EchoFrames → EchoFrames
  | 0, echo => echo
  | fuel + 1, echo =>
    if echo.totalConsumed < echo.data.length then
      match wsParseFrame true false (echo.data.drop echo.totalConsumed) with
      | .frame frame consumed =>
        let payloadAt := echo.totalConsumed + frame.headerLen
        let data := blit echo.data payloadAt (unmaskedPayload frame)
        match frame.opcode with
        | .close =>
          { echo with
            data := data
            totalConsumed := echo.totalConsumed + consumed
            close := some (payloadAt, frame.payload.length) }
        | .pong => echoFramesLoop fuel { echo with totalConsumed := echo.totalConsumed + consumed }
        | opcode =>
          let header := wsWriteFrameHeader (responseOpcode opcode) frame.payload.length true
          let payload := (data.drop payloadAt).take frame.payload.length
          echoFramesLoop fuel
            { echo with
              data := data
              out := echo.out ++ header ++ payload
              totalConsumed := echo.totalConsumed + consumed }
      | _ => echo
    else echo

def wsEchoFramesNogil (data : Bytes) : EchoFrames := echoFramesLoop (data.length + 1) { data := data }

/-! ## A client -/

/-- The frames that bytes consist of.  A server does not mask, and without an
extension the reserved bits are zero. -/
def readServerFrames : ℕ → Bytes → Option (List WsFrame)
  | _, [] => some []
  | 0, _ :: _ => none
  | fuel + 1, b :: rest =>
    match wsParseFrame false true (b :: rest) with
    | .frame frame consumed =>
      if frame.masked || frame.rsv != 0 then none
      else (readServerFrames fuel ((b :: rest).drop consumed)).map fun frames => frame :: frames
    | _ => none

def WsOpcode.isControl : WsOpcode → Bool
  | .close | .ping | .pong => true
  | _ => false

def isProper (frame : WsFrame) : Bool :=
  !frame.opcode.isControl || frame.fin && decide (frame.payload.length ≤ 125)

def pieceOf (frame : WsFrame) : Option (Piece WsOpcode Byte) :=
  match frame.opcode with
  | .text => some (.first .text frame.fin frame.payload)
  | .binary => some (.first .binary frame.fin frame.payload)
  | .continuation => some (.next frame.fin frame.payload)
  | _ => none

/-- The messages that a client reads from the bytes of a server; `none` when it
has to fail the connection. -/
def clientMessages (data : Bytes) : Option (List Message) :=
  match readServerFrames data.length data with
  | none => none
  | some frames => if frames.all isProper then reassemble none (frames.filterMap pieceOf) else none

/-- What the protocol asks of a frame by itself. -/
def ClientFrame.Proper (frame : ClientFrame) : Prop :=
  frame.payload.length < 2 ^ 63 ∧ (frame.opcode.isControl = true → frame.payload.length ≤ 125)

/-! ## The output -/

/-- Opcode and payload of the responses. -/
def echoed : List ClientFrame → List Message
  | [] => []
  | frame :: frames =>
    if maxFramePayload < frame.payload.length then []
    else if frame.opcode = .pong then echoed frames
    else (responseOpcode frame.opcode, frame.payload) :: echoed frames

def echoBytes (response : Message) : Bytes := wsBuildFrame response.1 response.2 true

theorem wsParseFrame_tooLarge (frame : ClientFrame) (rest : Bytes)
    (hlarge : maxFramePayload < frame.payload.length) (hlength : frame.payload.length < 2 ^ 63) :
    wsParseFrame true false (frame.encode ++ rest) = .protocolError (-1) := by
  have hfits : (xorMask frame.key.1 frame.payload).length < 256 ^ 8 := by
    rw [length_xorMask]
    exact hlength.trans (by norm_num)
  obtain ⟨short, extension, hshort, hheader, hfield, -⟩ :=
    exists_frameHeader frame.opcode frame.fin true hfits
  obtain ⟨hlow, hbit⟩ := secondByte_fields short hshort true
  rw [length_xorMask] at hfield
  rw [encode_eq, hheader]
  simp [wsParseFrame, ofNibble_firstByte, hlow, hfield, if_pos hlarge]

theorem echoFramesLoop_frame (fuel : ℕ) {echo : EchoFrames} {frame : ClientFrame} {rest : Bytes}
    (hclose : frame.opcode ≠ .close) (hsize : frame.payload.length ≤ maxFramePayload)
    (hdata : echo.data.drop echo.totalConsumed = frame.encode ++ rest) :
    ∃ data, data.drop (echo.totalConsumed + frame.encode.length) = rest ∧
      echoFramesLoop (fuel + 1) echo = echoFramesLoop fuel
          { echo with
            data := data
            out := echo.out ++ if frame.opcode = .pong then []
              else echoBytes (responseOpcode frame.opcode, frame.payload)
            totalConsumed := echo.totalConsumed + frame.encode.length } := by
  obtain ⟨headerLen, hparse, hheader⟩ := wsParseFrame_encode _ _ hsize
  have hlength := congrArg List.length hdata
  rw [length_drop, length_append] at hlength
  have hpos := length_encode_pos frame
  have hmore : echo.totalConsumed < echo.data.length := by omega
  have hunmasked : unmaskedPayload ⟨frame.fin, 0, frame.opcode, true, frame.key.1,
      xorMask frame.key.1 frame.payload, headerLen⟩ = frame.payload :=
    unmask_payload _
  have hroom : echo.totalConsumed + headerLen ≤ echo.data.length := by omega
  have hbehind : (blit echo.data (echo.totalConsumed + headerLen) frame.payload).drop
      (echo.totalConsumed + frame.encode.length) = rest := by
    rw [drop_blit hroom (by omega), ← drop_drop, hdata, drop_left]
  have hpayload : ((blit echo.data (echo.totalConsumed + headerLen) frame.payload).drop
      (echo.totalConsumed + headerLen)).take frame.payload.length = frame.payload :=
    take_drop_blit hroom
  rw [← hdata] at hparse
  rw [echoFramesLoop, if_pos hmore]
  simp only [hparse, hunmasked, length_xorMask, hpayload]
  have hwritten (opcode : WsOpcode) : echo.out ++
      wsWriteFrameHeader (responseOpcode opcode) frame.payload.length true ++ frame.payload =
        echo.out ++ echoBytes (responseOpcode opcode, frame.payload) := by
    rw [append_assoc]
    rfl
  cases hopcode : frame.opcode with
  | close => exact absurd hopcode hclose
  | pong =>
    refine ⟨echo.data, ?_, by simp⟩
    rw [← drop_drop, hdata, drop_left]
  | continuation | text | binary | ping => exact ⟨_, hbehind, by simp only [hwritten]; rfl⟩

/-- The output is the responses one after the other. -/
theorem echoFramesLoop_out {fuel : ℕ} {echo : EchoFrames} {frames : List ClientFrame}
    (hframes : ∀ frame ∈ frames, frame.opcode ≠ .close ∧ frame.Proper)
    (hdata : echo.data.drop echo.totalConsumed = encodeAll frames)
    (hfuel : (encodeAll frames).length < fuel) :
    (echoFramesLoop fuel echo).out = echo.out ++ (echoed frames).flatMap echoBytes := by
  induction frames generalizing fuel echo with
  | nil =>
    have hend : ¬ echo.totalConsumed < echo.data.length := by
      rw [Nat.not_lt]
      exact drop_eq_nil_iff.mp hdata
    cases fuel with
    | zero => simp [echoFramesLoop, echoed]
    | succ fuel => simp [echoFramesLoop, echoed, if_neg hend]
  | cons frame frames ih =>
    obtain ⟨hclose, hlength, -⟩ := hframes _ mem_cons_self
    have hcons : encodeAll (frame :: frames) = frame.encode ++ encodeAll frames := rfl
    rw [hcons] at hdata hfuel
    rw [length_append] at hfuel
    have hpos := length_encode_pos frame
    cases fuel with
    | zero => omega
    | succ fuel =>
      by_cases hlarge : maxFramePayload < frame.payload.length
      · have hrefused := wsParseFrame_tooLarge _ (encodeAll frames) hlarge hlength
        rw [echoed, if_pos hlarge, echoFramesLoop, hdata, hrefused]
        simp
      · obtain ⟨data, hdrop, hloop⟩ :=
          echoFramesLoop_frame _ hclose (Nat.le_of_not_lt hlarge) hdata
        rw [hloop, ih (fun other hother => hframes _ (mem_cons_of_mem _ hother)) hdrop
          (by omega), echoed, if_neg hlarge]
        split
        · rw [append_nil]
        · rw [flatMap_cons, append_assoc]

/-! ## What the client makes of it -/

/-- A frame as the client reads it. -/
def serverFrame (response : Message) : WsFrame where
  fin := true
  rsv := 0
  opcode := response.1
  masked := false
  maskKey := [0, 0, 0, 0]
  payload := response.2
  headerLen := wsFrameHeaderSize response.2.length

theorem wsParseFrame_echoBytes {response : Message} (hsize : response.2.length ≤ maxFramePayload)
    (rest : Bytes) :
    wsParseFrame false true (echoBytes response ++ rest) =
      .frame (serverFrame response) (echoBytes response).length := by
  have hnone : false = true → false = true := id
  have hkey : ([] : Bytes).length = maskLength false := rfl
  have hparse := wsParseFrame_wire _ true hnone response.1 true hkey hsize rest
  rw [← wsBuildFrame_eq] at hparse
  exact hparse

theorem readServerFrames_flatMap {responses : List Message} {fuel : ℕ}
    (hsize : ∀ response ∈ responses, response.2.length ≤ maxFramePayload)
    (hfuel : (responses.flatMap echoBytes).length ≤ fuel) :
    readServerFrames fuel (responses.flatMap echoBytes) = some (responses.map serverFrame) := by
  induction responses generalizing fuel with
  | nil => simp [readServerFrames]
  | cons response responses ih =>
    have hparse := wsParseFrame_echoBytes (hsize _ mem_cons_self) (responses.flatMap echoBytes)
    have hlengths := wsParseFrame_lengths hparse
    rw [flatMap_cons] at hfuel ⊢
    rw [length_append] at hfuel
    obtain ⟨b, bytes, hbytes⟩ :
        ∃ b bytes, echoBytes response ++ responses.flatMap echoBytes = b :: bytes :=
      exists_cons_of_length_pos (by omega)
    cases fuel with
    | zero => omega
    | succ fuel =>
      have hrest := ih (fun other hother => hsize _ (mem_cons_of_mem _ hother))
        (show _ ≤ fuel by omega)
      rw [hbytes] at hparse ⊢
      rw [readServerFrames, hparse]
      simp only [serverFrame, Bool.false_or, bne_self_eq_false, Bool.false_eq_true, if_false]
      rw [← hbytes, drop_left, hrest]
      rfl

theorem echoed_proper {frames : List ClientFrame}
    (hframes : ∀ frame ∈ frames, frame.opcode ≠ .close ∧ frame.Proper) :
    ∀ response ∈ echoed frames, response.2.length ≤ maxFramePayload ∧
      isProper (serverFrame response) = true := by
  induction frames with
  | nil =>
    intro response hresponse
    cases hresponse
  | cons frame frames ih =>
    have hrest := ih fun other hother => hframes _ (mem_cons_of_mem _ hother)
    obtain ⟨hclose, -, hshort⟩ := hframes _ mem_cons_self
    intro response hresponse
    rw [echoed] at hresponse
    split at hresponse
    · cases hresponse
    · rename_i hlarge
      split at hresponse
      · exact hrest _ hresponse
      · rcases mem_cons.mp hresponse with hhead | htail
        · subst hhead
          refine ⟨Nat.le_of_not_lt hlarge, ?_⟩
          cases hopcode : frame.opcode with
          | ping | pong =>
            have hlength := hshort (by rw [hopcode]; rfl)
            simp [isProper, serverFrame, hlength]
          | close => exact absurd hopcode hclose
          | continuation => rfl
          | text => rfl
          | binary => rfl
        · exact hrest _ htail

/-- The pieces of messages among the responses. -/
def echoedPieces (frames : List ClientFrame) : List (Piece WsOpcode Byte) :=
  ((echoed frames).map serverFrame).filterMap pieceOf

theorem clientMessages_echoed {frames : List ClientFrame}
    (hframes : ∀ frame ∈ frames, frame.opcode ≠ .close ∧ frame.Proper) :
    clientMessages (wsEchoFramesNogil (encodeAll frames)).out =
      reassemble none (echoedPieces frames) := by
  have hout : (wsEchoFramesNogil (encodeAll frames)).out = (echoed frames).flatMap echoBytes := by
    rw [wsEchoFramesNogil, echoFramesLoop_out hframes rfl (Nat.lt_succ_self _)]
    rfl
  have hproper := echoed_proper hframes
  have hread := readServerFrames_flatMap (fun response hmem => (hproper _ hmem).1) le_rfl
  have hall : ((echoed frames).map serverFrame).all isProper = true := by
    rw [all_map, all_eq_true]
    exact fun response hmem => (hproper _ hmem).2
  rw [clientMessages, hout, hread]
  simp only [hall, if_true]
  rfl

section Pieces

variable (frame : ClientFrame) (frames : List ClientFrame)

theorem echoedPieces_large (hlarge : maxFramePayload < frame.payload.length) :
    echoedPieces (frame :: frames) = [] := by
  rw [echoedPieces, echoed, if_pos hlarge]
  rfl

theorem echoedPieces_first (hsize : frame.payload.length ≤ maxFramePayload)
    (hopcode : frame.opcode = .text ∨ frame.opcode = .binary) :
    echoedPieces (frame :: frames) =
      .first frame.opcode true frame.payload :: echoedPieces frames := by
  rw [echoedPieces, echoed, if_neg (Nat.not_lt.mpr hsize)]
  rcases hopcode with hopcode | hopcode
  · rw [hopcode]
    rfl
  · rw [hopcode]
    rfl

theorem echoedPieces_continuation (hsize : frame.payload.length ≤ maxFramePayload)
    (hopcode : frame.opcode = .continuation) :
    echoedPieces (frame :: frames) = .next true frame.payload :: echoedPieces frames := by
  rw [echoedPieces, echoed, if_neg (Nat.not_lt.mpr hsize), hopcode]
  rfl

theorem echoedPieces_controls {controls : List Control}
    (hcontrols : ∀ control ∈ controls, control.payload.length ≤ maxFramePayload) :
    echoedPieces (controls.map Control.frame ++ frames) = echoedPieces frames := by
  induction controls with
  | nil => rfl
  | cons control controls ih =>
    have hrest := ih fun other hother => hcontrols _ (mem_cons_of_mem _ hother)
    have hsize : ¬ maxFramePayload < control.frame.payload.length :=
      Nat.not_lt.mpr (hcontrols _ mem_cons_self)
    rw [map_cons, cons_append, echoedPieces, echoed, if_neg hsize, ← hrest]
    cases hpong : control.isPong with
    | true =>
      have hopcode : control.frame.opcode = .pong := by simp [Control.frame, hpong]
      rw [if_pos hopcode]
      rfl
    | false =>
      have hopcode : control.frame.opcode = .ping := by simp [Control.frame, hpong]
      rw [hopcode]
      rfl

end Pieces

/-! ## Transmissions -/

def ProperTransmission (messages : List Sent) (trailing : List Control) : Prop :=
  ∀ frame ∈ transmissionFrames messages trailing, frame.Proper

theorem transmissionFrames_cons (sent : Sent) (messages : List Sent) (trailing : List Control) :
    transmissionFrames (sent :: messages) trailing = sent.first.controls.map Control.frame ++
        sent.first.frame sent.opcode sent.rest.isEmpty ::
          (continuationFrames sent.rest ++ transmissionFrames messages trailing) := by
  simp [transmissionFrames, Sent.frames, Fragment.frames]

theorem not_close_of_mem {messages : List Sent} {trailing : List Control} {frame : ClientFrame}
    (hmem : frame ∈ transmissionFrames messages trailing) : frame.opcode ≠ .close := by
  have hcontrols {controls : List _} (hmem : frame ∈ controls.map Control.frame) :
      frame.opcode ≠ .close := by
    obtain ⟨control, -, rfl⟩ := mem_map.mp hmem
    cases hpong : control.isPong <;> simp [Control.frame, hpong]
  have hcontinuations (rest : List _) (hmem : frame ∈ continuationFrames rest) :
      frame.opcode ≠ .close := by
    induction rest with
    | nil => cases hmem
    | cons fragment rest ih =>
      rw [continuationFrames, Fragment.frames, mem_append, mem_append, mem_singleton] at hmem
      rcases hmem with (hmem | hmem) | hmem
      · exact hcontrols hmem
      · subst hmem
        simp [Fragment.frame]
      · exact ih hmem
  induction messages with
  | nil => exact hcontrols hmem
  | cons sent messages ih =>
    rw [transmissionFrames_cons, mem_append, mem_cons, mem_append] at hmem
    rcases hmem with hmem | hmem | hmem | hmem
    · exact hcontrols hmem
    · subst hmem
      cases hbinary : sent.isBinary <;> simp [Fragment.frame, Sent.opcode, hbinary]
    · exact hcontinuations _ hmem
    · exact ih hmem

theorem controls_le {controls : List Control} {frames : List ClientFrame}
    (hproper : ∀ frame ∈ controls.map Control.frame ++ frames, frame.Proper) :
    ∀ control ∈ controls, control.payload.length ≤ maxFramePayload := by
  intro control hmem
  have hframe := hproper _ (mem_append_left _ (mem_map_of_mem hmem))
  have hcontrol : control.frame.opcode.isControl = true := by
    cases hpong : control.isPong <;> simp [Control.frame, WsOpcode.isControl, hpong]
  have hshort := hframe.2 hcontrol
  have hlimit : 125 ≤ maxFramePayload := by decide
  exact hshort.trans hlimit

/-- Behind the first frame of a message the responses go wrong unless it is the
only one. -/
theorem reassemble_continuations_ne {fragment : Fragment} {rest : List Fragment}
    {more : List ClientFrame} (kind : WsOpcode) (data : Bytes) (messages : List Message)
    (hproper : ∀ frame ∈ continuationFrames (fragment :: rest) ++ more, frame.Proper) :
    ((reassemble none (echoedPieces (continuationFrames (fragment :: rest) ++ more))).map
        fun heard => (kind, data) :: heard) ≠
      some ((kind, data ++ ((fragment :: rest).map Fragment.payload).flatten) :: messages) := by
  have hframes : continuationFrames (fragment :: rest) ++ more =
      fragment.controls.map Control.frame ++
        fragment.frame .continuation rest.isEmpty :: (continuationFrames rest ++ more) := by
    simp [continuationFrames, Fragment.frames]
  rw [hframes] at hproper ⊢
  rw [echoedPieces_controls _ (controls_le hproper)]
  by_cases hlarge : maxFramePayload < fragment.payload.length
  · rw [echoedPieces_large _ _ hlarge]
    intro heq
    have hdata : data = data ++ ((fragment :: rest).map Fragment.payload).flatten :=
      congrArg Prod.snd (List.cons.inj (Option.some.inj heq)).1
    have hlength := congrArg List.length hdata
    simp only [map_cons, flatten_cons, length_append] at hlength
    omega
  · rw [echoedPieces_continuation _ _ (Nat.le_of_not_lt hlarge) rfl]
    intro heq
    cases heq

theorem reassemble_echoed_iff (messages : List Sent) (trailing : List Control)
    (hproper : ProperTransmission messages trailing) :
    reassemble none (echoedPieces (transmissionFrames messages trailing)) =
        some (messages.map Sent.message) ↔
      ∀ sent ∈ messages, sent.rest = [] ∧ sent.first.payload.length ≤ maxFramePayload := by
  induction messages with
  | nil =>
    have hall : ∀ frame ∈ trailing.map Control.frame ++ [], frame.Proper := by
      rw [append_nil]
      exact hproper
    have hpieces := echoedPieces_controls [] (controls_le hall)
    rw [append_nil] at hpieces
    rw [transmissionFrames, flatMap_nil, nil_append, hpieces]
    simp [echoedPieces, echoed, reassemble]
  | cons sent messages ih =>
    rw [ProperTransmission, transmissionFrames_cons] at hproper
    have hafter : ∀ frame ∈ continuationFrames sent.rest ++ transmissionFrames messages trailing,
        frame.Proper := by
      intro frame hmem
      exact hproper _ (mem_append_right _ (mem_cons_of_mem _ hmem))
    rw [transmissionFrames_cons, echoedPieces_controls _ (controls_le hproper), map_cons,
      forall_mem_cons]
    by_cases hlarge : maxFramePayload < sent.first.payload.length
    · rw [echoedPieces_large _ _ hlarge]
      apply iff_of_false
      · intro heq
        cases heq
      · intro hall
        exact absurd hall.1.2 (Nat.not_le.mpr hlarge)
    · have hsize := Nat.le_of_not_lt hlarge
      have hopcode : sent.opcode = .text ∨ sent.opcode = .binary := by
        cases hbinary : sent.isBinary <;> simp [Sent.opcode]
      have hpieces : echoedPieces (sent.first.frame sent.opcode sent.rest.isEmpty ::
          (continuationFrames sent.rest ++ transmissionFrames messages trailing)) =
        cut sent.opcode sent.first.payload [] ++
          echoedPieces (continuationFrames sent.rest ++ transmissionFrames messages trailing) :=
        echoedPieces_first _ _ hsize hopcode
      rw [hpieces, reassemble_cut, flatten_nil, append_nil]
      cases hrest : sent.rest with
      | nil =>
        rw [hrest] at hafter
        have hmessage : sent.message = (sent.opcode, sent.first.payload) := by
          simp [Sent.message, hrest]
        rw [← ih hafter, hmessage]
        simp [continuationFrames, hsize]
      | cons fragment rest =>
        rw [hrest] at hafter
        apply iff_of_false
        · rw [Sent.message, hrest]
          exact reassemble_continuations_ne _ _ _ hafter
        · intro hall
          cases hall.1.1

/-- The echo of a transmission reads as the messages that were sent exactly when
every message was sent in one frame, of at most the size that is accepted. -/
theorem echo_reads_iff (messages : List Sent) (trailing : List Control)
    (hproper : ProperTransmission messages trailing) :
    clientMessages (wsEchoFramesNogil (encodeAll (transmissionFrames messages trailing))).out =
        some (messages.map Sent.message) ↔
      ∀ sent ∈ messages, sent.rest = [] ∧ sent.first.payload.length ≤ maxFramePayload := by
  have hframes : ∀ frame ∈ transmissionFrames messages trailing,
      frame.opcode ≠ .close ∧ frame.Proper :=
    fun frame hmem => ⟨not_close_of_mem hmem, hproper _ hmem⟩
  rw [clientMessages_echoed hframes]
  exact reassemble_echoed_iff _ _ hproper

/-! ## A message in one piece and one in two -/

def oneKey : MaskKey := ⟨[1, 2, 3, 4], length_oneKey⟩

def wholeMessage : Sent where
  isBinary := false
  first := { controls := [⟨false, oneKey, ascii "p"⟩], key := oneKey, payload := ascii "hi" }
  rest := []

def splitMessage : Sent where
  isBinary := false
  first := { controls := [], key := oneKey, payload := ascii "h" }
  rest := [{ controls := [], key := oneKey, payload := ascii "i" }]

theorem echo_reads_wholeMessage :
    ProperTransmission [wholeMessage] [] ∧
      clientMessages (wsEchoFramesNogil (encodeAll (transmissionFrames [wholeMessage] []))).out =
        some [(.text, ascii "hi")] := by
  have hproper : ProperTransmission [wholeMessage] [] := by
    unfold ProperTransmission ClientFrame.Proper
    decide
  refine ⟨hproper, (echo_reads_iff [wholeMessage] [] hproper).mpr ?_⟩
  intro sent hmem
  obtain rfl := mem_singleton.mp hmem
  exact ⟨rfl, by decide⟩

/-- The second frame of the echo continues no message. -/
theorem echo_splitMessage :
    ¬ ∀ (messages : List Sent) (trailing : List Control), ProperTransmission messages trailing →
      clientMessages (wsEchoFramesNogil (encodeAll (transmissionFrames messages trailing))).out =
        some (messages.map Sent.message) := by
  intro hall
  have hproper : ProperTransmission [splitMessage] [] := by
    unfold ProperTransmission ClientFrame.Proper
    decide
  have hreads := hall [splitMessage] [] hproper
  have hout : clientMessages
      (wsEchoFramesNogil (encodeAll (transmissionFrames [splitMessage] []))).out = none := by
    decide
  cases hreads

end AstraApi.WebSocket
