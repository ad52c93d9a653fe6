import AstraApi.WebSocket.Connection

/-!
# Delivery of WebSocket messages

A client sends messages, each cut into frames, with control frames anywhere
between frames, and the bytes arrive in chunks of any sizes.  The chunks decide
only how the frames are grouped into calls; what is delivered for a group is
determined frame by frame.  A message sent as one frame is delivered once.  A
fragmented message is delivered reassembled, and its last fragment is delivered
as well, ahead of all reassembled messages of the same call.
-/

namespace AstraApi.WebSocket

open List
open Bytes WsRingBuffer

/-! ## What a client sends -/

abbrev MaskKey := { key : Bytes // key.length = 4 }

/-- A ping or pong between two frames. -/
structure Control where
  isPong : Bool
  key : MaskKey
  payload : Bytes

def Control.frame (control : Control) : ClientFrame :=
  { fin := true
    opcode := if control.isPong then .pong else .ping
    key := control.key
    payload := control.payload }

/-- One piece of a message and the control frames sent before it. -/
structure Fragment where
  controls : List Control
  key : MaskKey
  payload : Bytes

/-- A text or binary message and the way it is cut into frames. -/
structure Sent where
  isBinary : Bool
  first : Fragment
  rest : List Fragment

def Sent.opcode (sent : Sent) : WsOpcode := if sent.isBinary then .binary else .text

def Sent.message (sent : Sent) : Message :=
  (sent.opcode, sent.first.payload ++ (sent.rest.map Fragment.payload).flatten)

def Fragment.frame (fragment : Fragment) (opcode : WsOpcode) (fin : Bool) : ClientFrame :=
  { fin := fin, opcode := opcode, key := fragment.key, payload := fragment.payload }

def Fragment.frames (fragment : Fragment) (opcode : WsOpcode) (fin : Bool) : List ClientFrame :=
  fragment.controls.map Control.frame ++ [fragment.frame opcode fin]

def continuationFrames : List Fragment → List ClientFrame
  | [] => []
  | fragment :: rest => fragment.frames .continuation rest.isEmpty ++ continuationFrames rest

def Sent.frames (sent : Sent) : List ClientFrame :=
  sent.first.frames sent.opcode sent.rest.isEmpty ++ continuationFrames sent.rest

def transmissionFrames (messages : List Sent) (trailing : List Control) : List ClientFrame :=
  messages.flatMap Sent.frames ++ trailing.map Control.frame

def encodeAll (frames : List ClientFrame) : Bytes := frames.flatMap ClientFrame.encode

/-! ## What one frame delivers -/

def absorb (assembler : WsFragmentAssembler) (frame : ClientFrame) :
    WsFragmentAssembler × List Message × List Message :=
  match frame.opcode with
  | .ping | .pong | .close => (assembler, [], [])
  | .text | .binary =>
    if frame.fin then (assembler, [(frame.opcode, frame.payload)], [])
    else
      ({ inProgress := true, originalOpcode := frame.opcode, accumulated := frame.payload },
        [], [])
  | .continuation =>
    if frame.fin then
      ({}, [(.continuation, frame.payload)],
        [(assembler.originalOpcode, assembler.accumulated ++ frame.payload)])
    else
      ({ assembler with accumulated := assembler.accumulated ++ frame.payload }, [], [])

def absorbAll : WsFragmentAssembler → List ClientFrame →
    WsFragmentAssembler × List Message × List Message
  | assembler, [] => (assembler, [], [])
  | assembler, frame :: frames =>
    let (assembler', single, whole) := absorb assembler frame
    let (assembler'', singles, wholes) := absorbAll assembler' frames
    (assembler'', single ++ singles, whole ++ wholes)

/-- Frames the connection accepts without a protocol error. -/
def Legal : WsFragmentAssembler → List ClientFrame → Prop
  | _, [] => True
  | assembler, frame :: frames =>
    frame.payload.length ≤ maxFramePayload ∧
      (match frame.opcode with
      | .ping | .pong => True
      | .close => False
      | .text | .binary => frame.fin = true ∨ assembler.inProgress = false
      | .continuation =>
        assembler.inProgress = true ∧
          assembler.accumulated.length + frame.payload.length ≤
            WsFragmentAssembler.maxMessageSize) ∧
      Legal (absorb assembler frame).1 frames

theorem absorbAll_append (assembler : WsFragmentAssembler) (left right : List ClientFrame) :
    absorbAll assembler (left ++ right) = ((absorbAll (absorbAll assembler left).1 right).1,
        (absorbAll assembler left).2.1 ++ (absorbAll (absorbAll assembler left).1 right).2.1,
        (absorbAll assembler left).2.2 ++ (absorbAll (absorbAll assembler left).1 right).2.2) := by
  induction left generalizing assembler with
  | nil => simp [absorbAll]
  | cons frame left ih => simp [absorbAll, ih]

variable {assembler : WsFragmentAssembler}

theorem Legal.append {left right : List ClientFrame}
    (hlegal : Legal assembler (left ++ right)) :
    Legal assembler left ∧ Legal (absorbAll assembler left).1 right := by
  induction left generalizing assembler with
  | nil => exact ⟨trivial, hlegal⟩
  | cons frame left ih =>
    obtain ⟨hsize, hkind, hrest⟩ := hlegal
    obtain ⟨hleft, hright⟩ := ih hrest
    exact ⟨⟨hsize, hkind, hleft⟩, hright⟩

theorem encodeAll_append (left right : List ClientFrame) :
    encodeAll (left ++ right) = encodeAll left ++ encodeAll right := by
  simp [encodeAll]

/-! ## The parse loop -/

/-- What the loop returns for complete legal frames followed by an incomplete
rest. -/
structure Parsed (assembler : WsFragmentAssembler) (frames : List ClientFrame) (rest : Bytes)
    (before : ParseResult) (out : ParseResult × WsFragmentAssembler × Bytes) : Prop where
  singles : out.1.frames = before.frames ++ (absorbAll assembler frames).2.1
  wholes : out.1.assembled = before.assembled ++ (absorbAll assembler frames).2.2
  consumed : out.1.totalConsumed = before.totalConsumed + (encodeAll frames).length
  noError : out.1.protocolError = before.protocolError
  assembler : out.2.1 = (absorbAll assembler frames).1
  length_bytes : out.2.2.length = (encodeAll frames ++ rest).length
  left : out.2.2.drop (encodeAll frames).length = rest

theorem unmask_payload (frame : ClientFrame) :
    (if true && !(xorMask frame.key.1 frame.payload).isEmpty then
      xorMask frame.key.1 (xorMask frame.key.1 frame.payload)
    else xorMask frame.key.1 frame.payload) = frame.payload := by
  rw [xorMask_xorMask]
  cases hpayload : frame.payload with
  | nil => simp
  | cons b bytes => simp [xorMask]

theorem wsParseFrames_step (fuel : ℕ) {frame : ClientFrame}
    {frames : List ClientFrame} (tail : Bytes) (before : ParseResult)
    (hlegal : Legal assembler (frame :: frames)) :
    ∃ mid seen, mid.frames = before.frames ++ (absorb assembler frame).2.1 ∧
      mid.assembled = before.assembled ++ (absorb assembler frame).2.2 ∧
      mid.totalConsumed = before.totalConsumed + frame.encode.length ∧
      mid.protocolError = before.protocolError ∧
      seen.length = frame.encode.length ∧
      wsParseFrames (fuel + 1) (frame.encode ++ tail) assembler before =
        ((wsParseFrames fuel tail (absorb assembler frame).1 mid).1,
          (wsParseFrames fuel tail (absorb assembler frame).1 mid).2.1,
          seen ++ (wsParseFrames fuel tail (absorb assembler frame).1 mid).2.2) := by
  obtain ⟨hsize, hkind, _⟩ := hlegal
  obtain ⟨headerLen, hparse, hheader⟩ := wsParseFrame_encode _ _ hsize
  have hpos := length_encode_pos frame
  have hseen : ((frame.encode ++ tail).take headerLen ++ frame.payload).length =
      frame.encode.length := by
    simp only [length_append, length_take]
    omega
  have htail : (frame.encode ++ tail).drop frame.encode.length = tail := drop_left
  obtain ⟨b, bytes, hdata⟩ : ∃ b bytes, frame.encode ++ tail = b :: bytes :=
    exists_cons_of_length_pos (by simp only [length_append]; omega)
  rw [hdata] at hparse hseen htail ⊢
  simp only [wsParseFrames, hparse, unmask_payload, htail]
  obtain ⟨fin, opcode, key, payload⟩ := frame
  cases opcode with
  | ping | pong =>
    refine ⟨_, _, ?_, ?_, ?_, ?_, hseen, rfl⟩ <;> simp [absorb, ParseResult.advance]
  | close => exact absurd hkind id
  | text | binary =>
    cases fin with
    | true =>
      refine ⟨_, _, ?_, ?_, ?_, ?_, hseen, rfl⟩ <;> simp [absorb, ParseResult.advance]
    | false =>
      have hidle : assembler.inProgress = false := by simpa using hkind
      simp only [WsFragmentAssembler.feed, hidle]
      refine ⟨_, _, ?_, ?_, ?_, ?_, hseen, rfl⟩ <;> simp [absorb, ParseResult.advance]
  | continuation =>
    obtain ⟨hbusy, hroom⟩ := hkind
    obtain ⟨inProgress, original, accumulated⟩ := assembler
    obtain rfl : inProgress = true := hbusy
    have hfits : ¬ WsFragmentAssembler.maxMessageSize < (accumulated ++ payload).length := by
      rw [length_append]
      exact Nat.not_lt.mpr hroom
    cases fin with
    | true | false =>
      simp only [WsFragmentAssembler.feed, if_neg hfits]
      refine ⟨_, _, ?_, ?_, ?_, ?_, hseen, rfl⟩ <;> simp [absorb, ParseResult.advance]

theorem wsParseFrames_spec {fuel : ℕ}
    {frames : List ClientFrame} {rest : Bytes} (before : ParseResult)
    (hlegal : Legal assembler frames)
    (hfuel : (encodeAll frames ++ rest).length < fuel)
    (hrest : wsParseFrame true false rest = .needMore) :
    Parsed assembler frames rest before
      (wsParseFrames fuel (encodeAll frames ++ rest) assembler before) := by
  induction frames generalizing fuel assembler before with
  | nil =>
    obtain ⟨fuel, rfl⟩ : ∃ k, fuel = k + 1 := ⟨fuel - 1, by omega⟩
    have hout : wsParseFrames (fuel + 1) (encodeAll [] ++ rest) assembler before =
        (before, assembler, rest) := by
      cases rest with
      | nil => rfl
      | cons b rest =>
        show wsParseFrames _ (b :: rest) _ _ = _
        simp [wsParseFrames, hrest]
    rw [hout]
    exact ⟨by simp [absorbAll], by simp [absorbAll], by simp [encodeAll], rfl, rfl,
      by simp [encodeAll], by simp [encodeAll]⟩
  | cons frame frames ih =>
    obtain ⟨fuel, rfl⟩ : ∃ k, fuel = k + 1 := ⟨fuel - 1, by omega⟩
    have hcons : encodeAll (frame :: frames) = frame.encode ++ encodeAll frames := by
      simp [encodeAll]
    have hpos := length_encode_pos frame
    obtain ⟨mid, seen, hsingles, hwholes, hconsumed, herror, hseen, hstep⟩ :=
      wsParseFrames_step _ _ _ hlegal
    have hshort : (encodeAll frames ++ rest).length < fuel := by
      rw [hcons, append_assoc, length_append] at hfuel
      omega
    have hrun := ih mid hlegal.2.2 hshort
    rw [hcons, append_assoc, hstep]
    refine ⟨?_, ?_, ?_, hrun.noError.trans herror, hrun.assembler, ?_, ?_⟩
    · rw [hrun.singles, hsingles, append_assoc]
      rfl
    · rw [hrun.wholes, hwholes, append_assoc]
      rfl
    · rw [hrun.consumed, hconsumed, hcons, length_append]
      omega
    · have hlength := hrun.length_bytes
      simp only [length_append, hcons] at hlength ⊢
      omega
    · rw [hcons, length_append, ← hseen, ← drop_drop, drop_left]
      exact hrun.left

/-! ## One call -/

/-- A prefix of the stream is a number of complete frames and an incomplete
rest. -/
theorem exists_cut {frames : List ClientFrame} {bytes : Bytes}
    (hlegal : Legal assembler frames) (hbytes : bytes <+: encodeAll frames) :
    ∃ done todo rest, frames = done ++ todo ∧ bytes = encodeAll done ++ rest ∧
      wsParseFrame true false rest = .needMore := by
  induction frames generalizing assembler bytes with
  | nil =>
    obtain rfl : bytes = [] := by simpa [encodeAll] using hbytes
    exact ⟨[], [], [], rfl, rfl, rfl⟩
  | cons frame frames ih =>
    have hcons : encodeAll (frame :: frames) = frame.encode ++ encodeAll frames := by
      simp [encodeAll]
    rcases Nat.lt_or_ge bytes.length frame.encode.length with hless | hmore
    · have hpart : bytes <+: frame.encode :=
        prefix_of_prefix_length_le hbytes (prefix_append _ _) hless.le
      exact ⟨[], frame :: frames, bytes, rfl, rfl, wsParseFrame_partial _ hlegal.1 hpart hless⟩
    · obtain ⟨rest, rfl⟩ :=
        prefix_of_prefix_length_le (prefix_append _ _) hbytes hmore
      have hrest : rest <+: encodeAll frames := (prefix_append_right_inj _).1 hbytes
      obtain ⟨done, todo, left, rfl, rfl, hleft⟩ := ih hlegal.2.2 hrest
      exact ⟨frame :: done, todo, left, rfl, by simp [encodeAll], hleft⟩

structure Holds (state : WsConnectionState) (assembler : WsFragmentAssembler) (rest : Bytes) :
    Prop where
  valid : state.ring.Valid
  limit : state.ring.maxCapacity = maximumCapacity
  contents : state.ring.contents = rest
  assembler : state.assembler = assembler

/-- What a call returns to the caller. -/
def returned (result : Option (List Message × Option Bytes)) : List Message :=
  (result.map Prod.fst).getD []

theorem wsHandleDirect_spec {state : WsConnectionState}
    {held chunk : Bytes} {frames : List ClientFrame} (hholds : Holds state assembler held)
    (hlegal : Legal assembler frames) (hbytes : held ++ chunk <+: encodeAll frames)
    (hlimit : (encodeAll frames).length ≤ maximumCapacity) :
    ∃ done todo rest, frames = done ++ todo ∧ held ++ chunk = encodeAll done ++ rest ∧
      wsParseFrame true false rest = .needMore ∧
      Holds (wsHandleDirect state chunk).1 (absorbAll assembler done).1 rest ∧
      returned (wsHandleDirect state chunk).2 =
        (absorbAll assembler done).2.1 ++ (absorbAll assembler done).2.2 := by
  obtain ⟨hvalid, hmax, hcontents, hassembler⟩ := hholds
  have hroom : (state.ring.append chunk).isSome := by
    apply append_isSome hvalid
    rw [hcontents, hmax, ← length_append]
    exact hbytes.length_le.trans hlimit
  obtain ⟨appended, happend⟩ := Option.isSome_iff_exists.mp hroom
  obtain ⟨hvalid₁, hcontents₁, hmax₁⟩ := append_spec hvalid happend
  rw [hcontents] at hcontents₁
  rcases hview : appended.readableContiguous with ⟨ring, view⟩
  obtain ⟨hvalid₂, hcontents₂, hmax₂, hempty, hshows⟩ :=
    readableContiguous_spec hvalid₁ hview
  rw [hcontents₁] at hcontents₂ hempty
  have hmaximum : ring.maxCapacity = maximumCapacity := by rw [hmax₂, hmax₁, hmax]
  cases view with
  | none =>
    simp only [wsHandleDirect, happend, hview]
    refine ⟨[], frames, [], rfl, ?_, rfl, ⟨hvalid₂, hmaximum, ?_, hassembler⟩, rfl⟩
    · simpa [encodeAll] using hempty rfl
    · rw [hcontents₂, hempty rfl]
  | some offset =>
    obtain ⟨done, todo, rest, hframes, hcut, hrest⟩ := exists_cut hlegal hbytes
    rw [hframes] at hlegal
    have hdata : (ring.buffer.drop offset).take ring.readable = encodeAll done ++ rest := by
      rw [← (hshows offset rfl).contents_eq, hcontents₂, hcut]
    have hlength : (encodeAll done ++ rest).length = ring.readable := by
      rw [← hcut, ← hcontents₂, length_contents hvalid₂]
    have hparsed := wsParseFrames_spec {} hlegal.append.1
      (Nat.lt_succ_self (encodeAll _ ++ rest).length) hrest
    refine ⟨done, todo, rest, hframes, hcut, hrest, ?_⟩
    simp only [wsHandleDirect, happend, hview, hdata, hassembler]
    generalize wsParseFrames ((encodeAll done ++ rest).length + 1) (encodeAll done ++ rest)
      assembler {} = out at hparsed ⊢
    obtain ⟨hvalid₃, hcontents₃⟩ := overwrite_spec hvalid₂ (hshows _ rfl)
      (hparsed.length_bytes.trans hlength)
    have hleft := hparsed.left
    have hconsumed : out.1.totalConsumed = (encodeAll done).length := by
      simpa using hparsed.consumed
    have hzero : out.1.protocolError = 0 := hparsed.noError
    rw [if_neg (by simp [hzero])]
    split
    · rename_i hnothing
      obtain ⟨hnone, hsingles, hwholes⟩ := hnothing
      rw [← hconsumed, hnone, drop_zero] at hleft
      refine ⟨⟨hvalid₃, hmaximum, hcontents₃.trans hleft, hparsed.assembler⟩, ?_⟩
      have hsingles' := hparsed.singles
      have hwholes' := hparsed.wholes
      rw [hsingles] at hsingles'
      rw [hwholes] at hwholes'
      simpa [returned] using ⟨by simpa using hsingles'.symm, by simpa using hwholes'.symm⟩
    · refine ⟨?_, ?_⟩
      · have hfits : out.1.totalConsumed ≤ (ring.overwrite offset out.2.2).contents.length := by
          rw [hcontents₃, hparsed.length_bytes, hconsumed, length_append]
          omega
        obtain ⟨hvalid₄, hcontents₄⟩ := consume_spec hvalid₃ hfits
        rw [hcontents₃, hconsumed, hleft] at hcontents₄
        split
        · refine ⟨hvalid₄, ?_, ?_, hparsed.assembler⟩
          · unfold consume
            split <;> exact hmaximum
          · rw [← hconsumed] at hcontents₄
            exact hcontents₄
        · rename_i hnone
          have hnone' : out.1.totalConsumed = 0 := by omega
          rw [← hconsumed, hnone', drop_zero] at hleft
          exact ⟨hvalid₃, hmaximum, hcontents₃.trans hleft, hparsed.assembler⟩
      · rw [returned, Option.map_some, Option.getD_some, hparsed.singles, hparsed.wholes]
        rfl

/-! ## A run of calls -/

def deliverGroups : WsFragmentAssembler → List (List ClientFrame) → List Message
  | _, [] => []
  | assembler, group :: groups =>
    (absorbAll assembler group).2.1 ++ (absorbAll assembler group).2.2 ++
      deliverGroups (absorbAll assembler group).1 groups

/-- The chunks decide only how the frames are grouped into calls. -/
theorem wsDelivered_eq_groups {state : WsConnectionState}
    {held : Bytes} {frames : List ClientFrame} {chunks : List Bytes}
    (hholds : Holds state assembler held) (hlegal : Legal assembler frames)
    (hstream : held ++ chunks.flatten = encodeAll frames)
    (hlimit : (encodeAll frames).length ≤ maximumCapacity)
    (hheld : wsParseFrame true false held = .needMore) :
    ∃ groups, groups.flatten = frames ∧
      wsDelivered state chunks = deliverGroups assembler groups := by
  induction chunks generalizing state assembler held frames with
  | nil =>
    cases frames with
    | nil => exact ⟨[], rfl, rfl⟩
    | cons frame frames =>
      obtain ⟨headerLen, hparse, _⟩ := wsParseFrame_encode _ _ hlegal.1
      have hbytes : held = frame.encode ++ encodeAll frames := by
        simpa [encodeAll] using hstream
      rw [← hbytes, hheld] at hparse
      simp at hparse
  | cons chunk chunks ih =>
    have hbytes : held ++ chunk <+: encodeAll frames := by
      rw [← hstream, flatten_cons, ← append_assoc]
      exact prefix_append _ _
    obtain ⟨done, todo, rest, rfl, hcut, hrest, hholds', hreturned⟩ :=
      wsHandleDirect_spec hholds hlegal hbytes hlimit
    have hstream' : rest ++ chunks.flatten = encodeAll todo := by
      rw [flatten_cons, ← append_assoc, hcut, encodeAll_append, append_assoc] at hstream
      exact append_cancel_left hstream
    have hlimit' : (encodeAll todo).length ≤ maximumCapacity := by
      rw [encodeAll_append, length_append] at hlimit
      omega
    obtain ⟨groups, hgroups, hrun⟩ := ih hholds' hlegal.append.2 hstream' hlimit' hrest
    refine ⟨done :: groups, by simp [hgroups], ?_⟩
    simp only [wsDelivered, deliverGroups]
    congr 1

theorem length_deliverGroups (assembler : WsFragmentAssembler)
    (groups : List (List ClientFrame)) :
    (deliverGroups assembler groups).length = (absorbAll assembler groups.flatten).2.1.length +
        (absorbAll assembler groups.flatten).2.2.length := by
  induction groups generalizing assembler with
  | nil => rfl
  | cons group groups ih =>
    simp only [deliverGroups, flatten_cons, absorbAll_append, length_append, ih]
    omega

/-- Without reassembled messages the calls deliver the frames in order. -/
theorem deliverGroups_of_noWhole
    {groups : List (List ClientFrame)} (hnone : (absorbAll assembler groups.flatten).2.2 = []) :
    deliverGroups assembler groups = (absorbAll assembler groups.flatten).2.1 := by
  induction groups generalizing assembler with
  | nil => rfl
  | cons group groups ih =>
    simp only [flatten_cons, absorbAll_append, append_eq_nil_iff] at hnone
    simp [deliverGroups, absorbAll_append, hnone.1, ih hnone.2]

/-! ## Transmissions -/

theorem absorb_control (assembler : WsFragmentAssembler) (control : Control) :
    absorb assembler control.frame = (assembler, [], []) := by
  cases hpong : control.isPong <;> simp [absorb, Control.frame, hpong]

theorem absorbAll_controls (assembler : WsFragmentAssembler) (controls : List Control) :
    absorbAll assembler (controls.map Control.frame) = (assembler, [], []) := by
  induction controls with
  | nil => rfl
  | cons control controls ih => simp [absorbAll, absorb_control, ih]

theorem absorbAll_fragment (assembler : WsFragmentAssembler) (fragment : Fragment)
    (opcode : WsOpcode) (fin : Bool) :
    absorbAll assembler (fragment.frames opcode fin) =
      absorb assembler (fragment.frame opcode fin) := by
  rw [Fragment.frames, absorbAll_append, absorbAll_controls]
  simp [absorbAll]

/-- The continuation frames complete the message and deliver the last fragment
a second time. -/
theorem absorbAll_continuation (original : WsOpcode) (accumulated : Bytes)
    {fragments : List Fragment} {last : Fragment} (hlast : fragments.getLast? = some last) :
    absorbAll { inProgress := true, originalOpcode := original, accumulated := accumulated }
        (continuationFrames fragments) =
      ({}, [(.continuation, last.payload)],
        [(original, accumulated ++ (fragments.map Fragment.payload).flatten)]) := by
  induction fragments generalizing accumulated with
  | nil => simp at hlast
  | cons fragment rest ih =>
    rw [continuationFrames, absorbAll_append, absorbAll_fragment]
    cases rest with
    | nil =>
      obtain rfl : fragment = last := by simpa using hlast
      simp [absorb, absorbAll, continuationFrames, Fragment.frame]
    | cons next rest =>
      have hlast' : (next :: rest).getLast? = some last := by simpa using hlast
      simp [absorb, Fragment.frame, ih _ hlast']

def Sent.singles (sent : Sent) : List Message :=
  match sent.rest.getLast? with
  | none => [sent.message]
  | some last => [(.continuation, last.payload)]

def Sent.wholes (sent : Sent) : List Message :=
  if sent.rest = [] then [] else [sent.message]

theorem absorbAll_sent (sent : Sent) :
    absorbAll {} sent.frames = ({}, sent.singles, sent.wholes) := by
  obtain ⟨isBinary, first, rest⟩ := sent
  rw [Sent.frames, absorbAll_append, absorbAll_fragment]
  cases rest with
  | nil =>
    cases isBinary <;>
      simp [absorb, absorbAll, continuationFrames, Fragment.frame, Sent.singles, Sent.wholes,
        Sent.message, Sent.opcode]
  | cons next rest =>
    obtain ⟨last, hlast⟩ : ∃ last, (next :: rest).getLast? = some last :=
      ⟨_, getLast?_cons⟩
    have hrest := fun opcode => absorbAll_continuation opcode first.payload hlast
    cases isBinary <;>
      simp [absorb, Fragment.frame, Sent.singles, Sent.wholes, Sent.message, Sent.opcode, hrest,
        hlast]

theorem absorbAll_transmission (messages : List Sent) (trailing : List Control) :
    absorbAll {} (transmissionFrames messages trailing) =
      ({}, messages.flatMap Sent.singles, messages.flatMap Sent.wholes) := by
  unfold transmissionFrames
  induction messages with
  | nil => simp [absorbAll_controls]
  | cons sent messages ih =>
    rw [flatMap_cons, append_assoc, absorbAll_append, absorbAll_sent, ih]
    rfl

/-! ### Transmissions are legal -/

theorem legal_append {left right : List ClientFrame}
    (hleft : Legal assembler left) (hright : Legal (absorbAll assembler left).1 right) :
    Legal assembler (left ++ right) := by
  induction left generalizing assembler with
  | nil => exact hright
  | cons frame left ih => exact ⟨hleft.1, hleft.2.1, ih hleft.2.2 hright⟩

theorem legal_controls (assembler : WsFragmentAssembler) {controls : List Control}
    (hsize : (encodeAll (controls.map Control.frame)).length ≤ maximumCapacity) :
    Legal assembler (controls.map Control.frame) := by
  induction controls with
  | nil => trivial
  | cons control controls ih =>
    have hpayload := length_payload_le_encode control.frame
    simp only [map_cons, encodeAll, flatMap_cons, length_append] at hsize
    have hrest := ih (by unfold encodeAll; omega)
    refine ⟨?_, ?_, ?_⟩
    · have hbound : maximumCapacity ≤ maxFramePayload := by decide
      omega
    · cases hpong : control.isPong <;> simp [Control.frame, hpong]
    · rw [absorb_control]
      exact hrest

theorem legal_singleton {frame : ClientFrame}
    (hsize : frame.encode.length ≤ maximumCapacity)
    (hkind : match frame.opcode with
      | .ping | .pong => True
      | .close => False
      | .text | .binary => frame.fin = true ∨ assembler.inProgress = false
      | .continuation =>
        assembler.inProgress = true ∧ assembler.accumulated.length + frame.payload.length ≤
            WsFragmentAssembler.maxMessageSize) :
    Legal assembler [frame] := by
  have hpayload := length_payload_le_encode frame
  have hbound : maximumCapacity ≤ maxFramePayload := by decide
  exact ⟨by omega, hkind, trivial⟩

theorem encodeAll_fragment (fragment : Fragment) (opcode : WsOpcode) (fin : Bool) :
    encodeAll (fragment.frames opcode fin) =
      encodeAll (fragment.controls.map Control.frame) ++ (fragment.frame opcode fin).encode := by
  simp [Fragment.frames, encodeAll]

theorem legal_continuation (original : WsOpcode) {accumulated : Bytes}
    {fragments : List Fragment}
    (hsize : accumulated.length + (encodeAll (continuationFrames fragments)).length ≤
      maximumCapacity) :
    Legal { inProgress := true, originalOpcode := original, accumulated := accumulated }
      (continuationFrames fragments) := by
  induction fragments generalizing accumulated with
  | nil => trivial
  | cons fragment rest ih =>
    have hpayload := length_payload_le_encode (fragment.frame .continuation rest.isEmpty)
    have hframe : (fragment.frame .continuation rest.isEmpty).payload = fragment.payload := rfl
    have hbound : maximumCapacity ≤ WsFragmentAssembler.maxMessageSize := by decide
    rw [hframe] at hpayload
    rw [continuationFrames, encodeAll_append, encodeAll_fragment] at hsize
    simp only [length_append] at hsize
    refine legal_append (legal_append (legal_controls _ (by omega)) ?_) ?_
    · rw [absorbAll_controls]
      refine legal_singleton (by omega) ⟨rfl, ?_⟩
      rw [hframe]
      simp only
      omega
    · rw [absorbAll_fragment]
      cases rest with
      | nil => trivial
      | cons next rest =>
        have hgrown : (accumulated ++ fragment.payload).length +
            (encodeAll (continuationFrames (next :: rest))).length ≤ maximumCapacity := by
          rw [length_append]
          omega
        exact ih hgrown

theorem legal_sent {sent : Sent} (hsize : (encodeAll sent.frames).length ≤ maximumCapacity) :
    Legal {} sent.frames := by
  obtain ⟨isBinary, first, rest⟩ := sent
  generalize hopcode : Sent.opcode ⟨isBinary, first, rest⟩ = opcode
  have hkind : opcode = .text ∨ opcode = .binary := by
    rw [← hopcode]
    cases isBinary
    · exact .inl rfl
    · exact .inr rfl
  have hframes : Sent.frames ⟨isBinary, first, rest⟩ =
      first.frames opcode rest.isEmpty ++ continuationFrames rest := by
    rw [Sent.frames, hopcode]
  have hpayload := length_payload_le_encode (first.frame opcode rest.isEmpty)
  have hframe : (first.frame opcode rest.isEmpty).payload = first.payload := rfl
  rw [hframe] at hpayload
  rw [hframes, encodeAll_append, encodeAll_fragment] at hsize
  simp only [length_append] at hsize
  rw [hframes]
  refine legal_append (legal_append (legal_controls _ (by omega)) ?_) ?_
  · rw [absorbAll_controls]
    refine legal_singleton (by omega) ?_
    rcases hkind with rfl | rfl <;> exact .inr rfl
  · rw [absorbAll_fragment]
    cases rest with
    | nil => trivial
    | cons next rest =>
      have hopen : (absorb {} (first.frame opcode (next :: rest).isEmpty)).1 =
          { inProgress := true, originalOpcode := opcode, accumulated := first.payload } := by
        rcases hkind with rfl | rfl <;> rfl
      rw [hopen]
      exact legal_continuation _ (by omega)

theorem legal_transmission {messages : List Sent} {trailing : List Control}
    (hsize : (encodeAll (transmissionFrames messages trailing)).length ≤ maximumCapacity) :
    Legal {} (transmissionFrames messages trailing) := by
  unfold transmissionFrames at hsize ⊢
  induction messages with
  | nil => exact legal_controls {} (by simpa using hsize)
  | cons sent messages ih =>
    rw [flatMap_cons, append_assoc, encodeAll_append, length_append] at hsize
    rw [flatMap_cons, append_assoc]
    refine legal_append (legal_sent (by omega)) ?_
    rw [absorbAll_sent]
    exact ih (by omega)

/-! ## Exactly-once delivery -/

theorem holds_initial : Holds {} {} [] :=
  ⟨create_default.1, create_default.2.2, create_default.2.1, rfl⟩

section Transmission

variable {messages : List Sent} {trailing : List Control} {chunks : List Bytes}

theorem exists_groups_of_stream
    (hstream : chunks.flatten = encodeAll (transmissionFrames messages trailing))
    (hlimit : chunks.flatten.length ≤ maximumCapacity) :
    ∃ groups, groups.flatten = transmissionFrames messages trailing ∧
      wsDelivered {} chunks = deliverGroups {} groups := by
  rw [hstream] at hlimit
  exact wsDelivered_eq_groups holds_initial (legal_transmission hlimit) (by simpa using hstream)
    hlimit rfl

theorem length_singles (messages : List Sent) :
    (messages.flatMap Sent.singles).length = messages.length := by
  induction messages with
  | nil => rfl
  | cons sent messages ih =>
    have hone : sent.singles.length = 1 := by
      unfold Sent.singles
      split <;> rfl
    rw [flatMap_cons, length_append, hone, ih, length_cons]
    omega

theorem length_wsDelivered
    (hstream : chunks.flatten = encodeAll (transmissionFrames messages trailing))
    (hlimit : chunks.flatten.length ≤ maximumCapacity) :
    (wsDelivered {} chunks).length =
      messages.length + (messages.flatMap Sent.wholes).length := by
  obtain ⟨groups, hgroups, hrun⟩ := exists_groups_of_stream hstream hlimit
  rw [hrun, length_deliverGroups, hgroups, absorbAll_transmission, length_singles]

theorem singles_of_unfragmented (hsingle : ∀ sent ∈ messages, sent.rest = []) :
    messages.flatMap Sent.singles = messages.map Sent.message := by
  induction messages with
  | nil => rfl
  | cons sent messages ih =>
    have hone : sent.singles = [sent.message] := by
      simp [Sent.singles, hsingle _ _]
    rw [flatMap_cons, hone, ih fun other hmem => hsingle _ (by simp [hmem])]
    rfl

theorem wholes_eq_nil_iff :
    messages.flatMap Sent.wholes = [] ↔ ∀ sent ∈ messages, sent.rest = [] := by
  rw [flatMap_eq_nil_iff]
  refine forall₂_congr fun sent _ => ?_
  simp [Sent.wholes]

end Transmission

/-- The delivered list is exactly the list of messages if and only if no
message was fragmented, whatever the control frames and the chunks. -/
theorem wsDelivered_eq_messages_iff (messages : List Sent) (trailing : List Control)
    (chunks : List Bytes)
    (hstream : chunks.flatten = encodeAll (transmissionFrames messages trailing))
    (hlimit : chunks.flatten.length ≤ maximumCapacity) :
    wsDelivered {} chunks = messages.map Sent.message ↔ ∀ sent ∈ messages, sent.rest = [] := by
  constructor
  · intro hdelivered
    have hlength := length_wsDelivered hstream hlimit
    rw [hdelivered, length_map] at hlength
    rw [← wholes_eq_nil_iff, ← length_eq_zero_iff]
    omega
  · intro hsingle
    obtain ⟨groups, hgroups, hrun⟩ := exists_groups_of_stream hstream hlimit
    have hnone : (absorbAll {} groups.flatten).2.2 = [] := by
      rw [hgroups, absorbAll_transmission]
      exact wholes_eq_nil_iff.2 hsingle
    rw [hrun, deliverGroups_of_noWhole hnone, hgroups, absorbAll_transmission]
    exact singles_of_unfragmented hsingle

/-- The text `ab` sent as two frames. -/
def fragmentedText : Sent where
  isBinary := false
  first := { controls := [], key := ⟨[1, 2, 3, 4], rfl⟩, payload := ascii "a" }
  rest := [{ controls := [], key := ⟨[5, 6, 7, 8], rfl⟩, payload := ascii "b" }]

theorem wsDelivered_eq_messages_iff_fragmentedText :
    wsDelivered {} [encodeAll (transmissionFrames [fragmentedText] [])] =
        [fragmentedText].map Sent.message ↔ ∀ sent ∈ [fragmentedText], sent.rest = [] :=
  wsDelivered_eq_messages_iff [fragmentedText] [] _ (by simp) (by decide +kernel)

/-- A fragmented message is not delivered exactly once. -/
theorem wsDelivered_ne_messages : ¬ ∀ messages trailing chunks,
    chunks.flatten = encodeAll (transmissionFrames messages trailing) →
      chunks.flatten.length ≤ maximumCapacity →
        wsDelivered {} chunks = messages.map Sent.message := by
  intro hall
  have hstream : [encodeAll (transmissionFrames [fragmentedText] [])].flatten =
      encodeAll (transmissionFrames [fragmentedText] []) := by simp
  have hlimit : [encodeAll (transmissionFrames [fragmentedText] [])].flatten.length ≤
      maximumCapacity := by decide +kernel
  have hlength := length_wsDelivered hstream hlimit
  rw [hall [fragmentedText] [] _ hstream hlimit] at hlength
  simp [fragmentedText, Sent.wholes] at hlength

end AstraApi.WebSocket
