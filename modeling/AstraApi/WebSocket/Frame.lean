import AstraApi.Lib.Bytes

/-!
# WebSocket frames

The frame codec of the WebSocket layer.  `wsParseFrame` reads one frame from the
front of a buffer and distinguishes a frame that is still incomplete from one
that breaks the protocol; `wsWriteFrameHeader` writes the header of a server
frame.  A client frame is the same header with the mask bit set, the mask key
and the masked payload.
-/

namespace AstraApi.WebSocket

open List
open Bytes

variable {payloadLen short pos consumed : ℕ} {rest data : Bytes} {allowRsv requireMask : Bool}
  {frame : WsFrame}

inductive WsOpcode where
  | continuation
  | text
  | binary
  | close
  | ping
  | pong
  deriving DecidableEq

def WsOpcode.code : WsOpcode → Byte
  | .continuation => 0x0
  | .text => 0x1
  | .binary => 0x2
  | .close => 0x8
  | .ping => 0x9
  | .pong => 0xA

def WsOpcode.ofNibble (nibble : Byte) : Option WsOpcode :=
  if nibble = 0x0 then some .continuation
  else if nibble = 0x1 then some .text
  else if nibble = 0x2 then some .binary
  else if nibble = 0x8 then some .close
  else if nibble = 0x9 then some .ping
  else if nibble = 0xA then some .pong
  else none

structure WsFrame where
  fin : Bool
  rsv : Byte
  opcode : WsOpcode
  masked : Bool
  maskKey : Bytes
  payload : Bytes
  headerLen : ℕ
  deriving DecidableEq

/-- The result of `ws_parse_frame`: more bytes are needed, a protocol error
with its negative code, or a frame and the number of bytes it takes. -/
inductive ParseOutcome where
  | needMore
  | protocolError (code : ℤ)
  | frame (parsed : WsFrame) (consumed : ℕ)
  deriving DecidableEq

def maxFramePayload : ℕ := 64 * 1024 * 1024

/-- The payload length and the position after the length field.  `rest` is the
buffer after the two fixed bytes. -/
def lengthField (short : ℕ) (rest : Bytes) : Option (ℕ × ℕ) :=
  if short = 126 then
    if rest.length < 2 then none else some (toBigEndian (rest.take 2), 4)
  else if short = 127 then
    if rest.length < 8 then none else some (toBigEndian (rest.take 8), 10)
  else some (short, 2)

def wsParseFrame (requireMask allowRsv : Bool) (data : Bytes) : ParseOutcome :=
  match data with
  | b0 :: b1 :: rest =>
    let fin := b0 &&& 0x80 != 0
    let rsv := (b0 >>> 4) &&& 0x07
    let masked := b1 &&& 0x80 != 0
    match WsOpcode.ofNibble (b0 &&& 0x0F) with
    | none => .protocolError (-3)
    | some opcode =>
      match lengthField (b1 &&& 0x7F).toNat rest with
      | none => .needMore
      | some (payloadLen, pos) =>
        if maxFramePayload < payloadLen then .protocolError (-1)
        else if requireMask && !masked then .protocolError (-2)
        else if masked && decide (data.length < pos + 4) then .needMore
        else
          let headerLen := if masked then pos + 4 else pos
          if data.length < headerLen + payloadLen then .needMore
          else
            .frame
              { fin := fin
                rsv := if allowRsv then rsv else 0
                opcode := opcode
                masked := masked
                maskKey := if masked then (data.drop pos).take 4 else [0, 0, 0, 0]
                payload := (data.drop headerLen).take payloadLen
                headerLen := headerLen }
              (headerLen + payloadLen)
  | _ => .needMore

def wsFrameHeaderSize (payloadLen : ℕ) : ℕ :=
  if payloadLen < 126 then 2 else if payloadLen ≤ 0xFFFF then 4 else 10

def firstByte (opcode : WsOpcode) (fin : Bool) : Byte :=
  (if fin then 0x80 else 0x00) ||| opcode.code

def wsWriteFrameHeader (opcode : WsOpcode) (payloadLen : ℕ) (fin : Bool) : Bytes :=
  if payloadLen < 126 then [firstByte opcode fin, UInt8.ofNat payloadLen]
  else if payloadLen ≤ 0xFFFF then [firstByte opcode fin, 126] ++ ofBigEndian 2 payloadLen
  else [firstByte opcode fin, 127] ++ ofBigEndian 8 payloadLen

def setMaskBit : Bytes → Bytes
  | b0 :: b1 :: rest => b0 :: (b1 ||| 0x80) :: rest
  | header => header

structure ClientFrame where
  fin : Bool
  opcode : WsOpcode
  key : { key : Bytes // key.length = 4 }
  payload : Bytes

def ClientFrame.encode (frame : ClientFrame) : Bytes :=
  setMaskBit (wsWriteFrameHeader frame.opcode frame.payload.length frame.fin) ++
    frame.key.1 ++ xorMask frame.key.1 frame.payload

/-! ## The header -/

theorem ofNibble_firstByte (opcode : WsOpcode) (fin : Bool) :
    WsOpcode.ofNibble (firstByte opcode fin &&& 0x0F) = some opcode := by
  cases opcode <;> cases fin <;> decide

theorem fin_firstByte (opcode : WsOpcode) (fin : Bool) :
    (firstByte opcode fin &&& 0x80 != 0) = fin := by
  cases opcode <;> cases fin <;> decide

theorem rsv_firstByte (opcode : WsOpcode) (fin : Bool) :
    (firstByte opcode fin >>> 4) &&& 0x07 = 0 := by
  cases opcode <;> cases fin <;> decide

def secondByte (short : ℕ) (masked : Bool) : Byte :=
  if masked then UInt8.ofNat short ||| 0x80 else UInt8.ofNat short

theorem secondByte_fields : ∀ short < 128, ∀ masked,
    (secondByte short masked &&& 0x7F).toNat = short ∧
      (secondByte short masked &&& 0x80 != 0) = masked := by
  decide +kernel

def frameHeader (opcode : WsOpcode) (payloadLen : ℕ) (fin masked : Bool) : Bytes :=
  if masked then setMaskBit (wsWriteFrameHeader opcode payloadLen fin)
  else wsWriteFrameHeader opcode payloadLen fin

def maskLength (masked : Bool) : ℕ := if masked then 4 else 0

theorem length_wsWriteFrameHeader (opcode : WsOpcode) (payloadLen : ℕ) (fin : Bool) :
    (wsWriteFrameHeader opcode payloadLen fin).length = wsFrameHeaderSize payloadLen := by
  unfold wsWriteFrameHeader wsFrameHeaderSize
  split
  · rfl
  · split <;> simp

@[simp]
theorem length_setMaskBit (header : Bytes) : (setMaskBit header).length = header.length := by
  match header with
  | [] => rfl
  | [_] => rfl
  | _ :: _ :: _ => rfl

theorem length_frameHeader (opcode : WsOpcode) (payloadLen : ℕ) (fin masked : Bool) :
    (frameHeader opcode payloadLen fin masked).length = wsFrameHeaderSize payloadLen := by
  unfold frameHeader
  split <;> simp [length_wsWriteFrameHeader]

/-- The shape of a header: two bytes and an extension that holds a length which
does not fit into the second one. -/
theorem exists_frameHeader (opcode : WsOpcode) (fin masked : Bool)
    (hfits : payloadLen < 256 ^ 8) :
    ∃ short extension, short < 128 ∧ frameHeader opcode payloadLen fin masked =
        firstByte opcode fin :: secondByte short masked :: extension ∧
      (∀ rest, lengthField short (extension ++ rest) = some (payloadLen, extension.length + 2)) ∧
      ∀ part, part.length < extension.length → lengthField short part = none := by
  have shape (short : ℕ) (extension : Bytes) (h : wsWriteFrameHeader opcode payloadLen fin =
        firstByte opcode fin :: UInt8.ofNat short :: extension) :
      frameHeader opcode payloadLen fin masked =
        firstByte opcode fin :: secondByte short masked :: extension := by
    cases masked <;> simp [frameHeader, secondByte, setMaskBit, h]
  unfold wsWriteFrameHeader at shape
  split at shape
  · rename_i hshort
    refine ⟨payloadLen, [], by omega, shape _ _ rfl, ?_, ?_⟩
    · intro rest
      rw [lengthField, if_neg (by omega), if_neg (by omega)]
      rfl
    · intro part hpart
      simp at hpart
  · split at shape
    · rename_i hmedium
      refine ⟨126, ofBigEndian 2 _, by norm_num, shape _ _ rfl, ?_, ?_⟩
      · intro rest
        rw [lengthField, if_pos rfl, if_neg (by simp; omega), take_left' (length_ofBigEndian 2 _),
          toBigEndian_ofBigEndian (by omega)]
        simp
      · intro part hpart
        rw [length_ofBigEndian] at hpart
        rw [lengthField, if_pos rfl, if_pos hpart]
    · refine ⟨127, ofBigEndian 8 _, by norm_num, shape _ _ rfl, ?_, ?_⟩
      · intro rest
        rw [lengthField, if_neg (by norm_num), if_pos rfl, if_neg (by simp),
          take_left' (length_ofBigEndian 8 _), toBigEndian_ofBigEndian hfits]
        simp
      · intro part hpart
        rw [length_ofBigEndian] at hpart
        rw [lengthField, if_neg (by norm_num), if_pos rfl, if_pos hpart]

/-! ## Round trip -/

section RoundTrip

variable (requireMask allowRsv : Bool) {masked : Bool} (hmask : requireMask = true → masked = true)

include hmask

theorem wsParseFrame_header (opcode : WsOpcode) (fin : Bool) (hshort : short < 128)
    (hlength : lengthField short rest = some (payloadLen, pos))
    (hsize : payloadLen ≤ maxFramePayload) :
    wsParseFrame requireMask allowRsv (firstByte opcode fin :: secondByte short masked :: rest) =
      if rest.length + 2 < pos + maskLength masked + payloadLen then .needMore
      else
        .frame
          { fin := fin
            rsv := 0
            opcode := opcode
            masked := masked
            maskKey := if masked then ((firstByte opcode fin :: secondByte short masked ::
              rest).drop pos).take 4 else [0, 0, 0, 0]
            payload := ((firstByte opcode fin :: secondByte short masked :: rest).drop
              (pos + maskLength masked)).take payloadLen
            headerLen := pos + maskLength masked }
          (pos + maskLength masked + payloadLen) := by
  obtain ⟨hlow, hbit⟩ := secondByte_fields _ hshort masked
  have hrequire : (requireMask && !masked) = false := by
    cases requireMask <;> cases masked <;> simp_all
  simp only [wsParseFrame, ofNibble_firstByte, fin_firstByte, rsv_firstByte, hlow, hbit, hlength,
    length_cons, hrequire, Bool.false_eq_true, if_false, ite_self,
    if_neg (show ¬ maxFramePayload < payloadLen by omega)]
  cases masked with
  | true =>
    simp only [maskLength, Bool.true_and, decide_eq_true_eq, if_true]
    by_cases hkey : rest.length + 1 + 1 < pos + 4
    · rw [if_pos hkey, if_pos (by omega)]
    · rw [if_neg hkey]
  | false => simp [maskLength]

variable (opcode : WsOpcode) (fin : Bool) {key body : Bytes}
  (hkey : key.length = maskLength masked) (hsize : body.length ≤ maxFramePayload)

include hkey hsize

theorem wsParseFrame_wire (rest : Bytes) :
    wsParseFrame requireMask allowRsv
        (frameHeader opcode body.length fin masked ++ key ++ body ++ rest) =
      .frame
        { fin := fin
          rsv := 0
          opcode := opcode
          masked := masked
          maskKey := if masked then key else [0, 0, 0, 0]
          payload := body
          headerLen := wsFrameHeaderSize body.length + maskLength masked }
        (frameHeader opcode body.length fin masked ++ key ++ body).length := by
  have hfits : body.length < 256 ^ 8 :=
    hsize.trans_lt (by unfold maxFramePayload; norm_num)
  obtain ⟨short, extension, hshort, hheader, hlength, -⟩ :=
    exists_frameHeader opcode fin masked hfits
  have hextension : extension.length + 2 = wsFrameHeaderSize body.length := by
    rw [← length_frameHeader, hheader]
    rfl
  have hbytes : frameHeader opcode body.length fin masked ++ key ++ body ++ rest =
      firstByte opcode fin :: secondByte short masked ::
        (extension ++ (key ++ (body ++ rest))) := by
    simp [hheader]
  have htotal : (frameHeader opcode body.length fin masked ++ key ++ body).length =
      extension.length + 2 + maskLength masked + body.length := by
    simp only [hheader, length_append, length_cons, hkey]
  have hafter : ∀ tail : Bytes,
      (firstByte opcode fin :: secondByte short masked :: (extension ++ tail)).drop
        (extension.length + 2) = tail := by
    intro tail
    simp
  have henough : ¬ (extension ++ (key ++ (body ++ rest))).length + 2 <
      extension.length + 2 + maskLength masked + body.length := by
    simp only [length_append, hkey]
    omega
  rw [hbytes, wsParseFrame_header _ _ hmask _ _ hshort (hlength _) hsize, if_neg henough,
    htotal, hafter, ← hextension, ← drop_drop, hafter, drop_left' hkey, take_left]
  cases masked with
  | true => rw [if_pos rfl, if_pos rfl, take_left' (show key.length = 4 from hkey)]
  | false => rfl

theorem wsParseFrame_cut {part : Bytes}
    (hpart : part <+: frameHeader opcode body.length fin masked ++ key ++ body)
    (hproper : part.length < (frameHeader opcode body.length fin masked ++ key ++ body).length) :
    wsParseFrame requireMask allowRsv part = .needMore := by
  have hfits : body.length < 256 ^ 8 :=
    hsize.trans_lt (by unfold maxFramePayload; norm_num)
  obtain ⟨short, extension, hshort, hheader, hlength, hcut⟩ :=
    exists_frameHeader opcode fin masked hfits
  have hbytes : frameHeader opcode body.length fin masked ++ key ++ body =
      firstByte opcode fin :: secondByte short masked :: (extension ++ (key ++ body)) := by
    simp [hheader]
  rw [hbytes] at hpart hproper
  match part with
  | [] => rfl
  | [_] => rfl
  | b0 :: b1 :: rest =>
    obtain ⟨hb0, htail⟩ := cons_prefix_cons.mp hpart
    obtain ⟨hb1, hrest⟩ := cons_prefix_cons.mp htail
    rw [hb0, hb1]
    rcases Nat.lt_or_ge rest.length extension.length with hless | hmore
    · obtain ⟨hlow, -⟩ := secondByte_fields _ hshort masked
      simp [wsParseFrame, ofNibble_firstByte, hlow, hcut _ hless]
    · obtain ⟨tail, rfl⟩ : ∃ tail, rest = extension ++ tail := by
        obtain ⟨tail, htail⟩ := prefix_of_prefix_length_le (prefix_append _ _) hrest hmore
        exact ⟨tail, htail.symm⟩
      rw [wsParseFrame_header _ _ hmask _ _ hshort (hlength _) hsize, if_pos]
      simp only [length_cons, length_append, hkey] at hproper ⊢
      omega

end RoundTrip

theorem encode_eq (frame : ClientFrame) :
    frame.encode = frameHeader frame.opcode (xorMask frame.key.1 frame.payload).length frame.fin
      true ++ frame.key.1 ++ xorMask frame.key.1 frame.payload := by
  rw [length_xorMask]
  rfl

theorem wsParseFrame_encode (frame : ClientFrame) (rest : Bytes)
    (hsize : frame.payload.length ≤ maxFramePayload) :
    ∃ headerLen, wsParseFrame true false (frame.encode ++ rest) = .frame
        { fin := frame.fin
          rsv := 0
          opcode := frame.opcode
          masked := true
          maskKey := frame.key.1
          payload := xorMask frame.key.1 frame.payload
          headerLen := headerLen }
        frame.encode.length ∧ headerLen + frame.payload.length = frame.encode.length := by
  have hmasked : (xorMask frame.key.1 frame.payload).length ≤ maxFramePayload := by
    rwa [length_xorMask]
  have hparse := wsParseFrame_wire true false (fun _ => rfl) frame.opcode frame.fin
    (show frame.key.1.length = maskLength true from frame.key.2) hmasked rest
  rw [← encode_eq] at hparse
  refine ⟨_, hparse, ?_⟩
  rw [encode_eq, length_append, length_append, length_frameHeader, frame.key.2, length_xorMask]
  rfl

/-- Any proper prefix of a client frame asks for more bytes. -/
theorem wsParseFrame_partial (frame : ClientFrame) {part : Bytes}
    (hsize : frame.payload.length ≤ maxFramePayload) (hpart : part <+: frame.encode)
    (hproper : part.length < frame.encode.length) :
    wsParseFrame true false part = .needMore := by
  have hmasked : (xorMask frame.key.1 frame.payload).length ≤ maxFramePayload := by
    rwa [length_xorMask]
  rw [encode_eq] at hpart hproper
  exact wsParseFrame_cut _ _ (fun _ => rfl) _ _ frame.key.2 hmasked hpart hproper

theorem length_encode_pos (frame : ClientFrame) : 0 < frame.encode.length := by
  have hkey := frame.key.2
  simp only [ClientFrame.encode, length_append, hkey]
  omega

theorem length_payload_le_encode (frame : ClientFrame) :
    frame.payload.length ≤ frame.encode.length := by
  simp only [ClientFrame.encode, length_append, length_xorMask]
  omega

/-! ## What a parsed frame takes -/

theorem lengthField_append (more : Bytes)
    (h : lengthField short rest = some (payloadLen, pos)) :
    lengthField short (rest ++ more) = some (payloadLen, pos) := by
  unfold lengthField at h ⊢
  simp only [length_append]
  split at h
  · rename_i hshort
    split at h
    · cases h
    · rename_i hlength
      rw [if_pos hshort, if_neg (by omega), take_append_of_le_length (by omega)]
      exact h
  · rename_i hshort
    rw [if_neg hshort]
    split at h
    · rename_i hlong
      split at h
      · cases h
      · rename_i hlength
        rw [if_pos hlong, if_neg (by omega), take_append_of_le_length (by omega)]
        exact h
    · rename_i hlong
      rw [if_neg hlong]
      exact h

theorem lengthField_pos_bounds
    (h : lengthField short rest = some (payloadLen, pos)) : 2 ≤ pos ∧ pos ≤ 10 := by
  unfold lengthField at h
  split at h
  · split at h
    · cases h
    · cases h
      norm_num
  · split at h
    · split at h
      · cases h
      · cases h
        norm_num
    · cases h
      norm_num

/-- The frame that `ws_parse_frame` reports once it has passed every test. -/
def parsedFrame (allowRsv : Bool) (b0 b1 : Byte) (data : Bytes) (opcode : WsOpcode)
    (payloadLen pos : ℕ) : WsFrame :=
  let masked := b1 &&& 0x80 != 0
  let headerLen := if masked then pos + 4 else pos
  { fin := b0 &&& 0x80 != 0
    rsv := if allowRsv then (b0 >>> 4) &&& 0x07 else 0
    opcode := opcode
    masked := masked
    maskKey := if masked then (data.drop pos).take 4 else [0, 0, 0, 0]
    payload := (data.drop headerLen).take payloadLen
    headerLen := headerLen }

theorem parsedFrame_append {b0 b1 : Byte} {opcode : WsOpcode} (more : Bytes)
    (h : (parsedFrame allowRsv b0 b1 data opcode payloadLen pos).headerLen + payloadLen ≤
      data.length) :
    parsedFrame allowRsv b0 b1 (data ++ more) opcode payloadLen pos =
      parsedFrame allowRsv b0 b1 data opcode payloadLen pos := by
  simp only [parsedFrame] at h ⊢
  congr 1
  · split
    · rename_i hmasked
      rw [if_pos hmasked] at h
      rw [drop_append_of_le_length (by omega), take_append_of_le_length]
      rw [length_drop]
      omega
    · rfl
  · rw [drop_append_of_le_length (by omega), take_append_of_le_length]
    rw [length_drop]
    omega

theorem wsParseFrame_eq_frame_iff {b0 b1 : Byte}
    (hdata : data = b0 :: b1 :: rest) :
    wsParseFrame requireMask allowRsv data = .frame frame consumed ↔ ∃ opcode payloadLen pos,
        WsOpcode.ofNibble (b0 &&& 0x0F) = some opcode ∧
        lengthField (b1 &&& 0x7F).toNat rest = some (payloadLen, pos) ∧
        payloadLen ≤ maxFramePayload ∧
        (requireMask && !(b1 &&& 0x80 != 0)) = false ∧
        frame = parsedFrame allowRsv b0 b1 data opcode payloadLen pos ∧
        consumed = frame.headerLen + payloadLen ∧ consumed ≤ data.length := by
  have hparse : wsParseFrame requireMask allowRsv data =
      match WsOpcode.ofNibble (b0 &&& 0x0F) with
      | none => .protocolError (-3)
      | some opcode =>
        match lengthField (b1 &&& 0x7F).toNat rest with
        | none => .needMore
        | some (payloadLen, pos) =>
          let frame := parsedFrame allowRsv b0 b1 data opcode payloadLen pos
          if maxFramePayload < payloadLen then .protocolError (-1)
          else if requireMask && !(b1 &&& 0x80 != 0) then .protocolError (-2)
          else if b1 &&& 0x80 != 0 && decide (data.length < pos + 4) then .needMore
          else if data.length < frame.headerLen + payloadLen then .needMore
          else .frame frame (frame.headerLen + payloadLen) := by
    rw [hdata]
    rfl
  rw [hparse]
  cases WsOpcode.ofNibble (b0 &&& 0x0F) with
  | none => simp
  | some opcode =>
    cases lengthField (b1 &&& 0x7F).toNat rest with
    | none => simp
    | some field =>
      obtain ⟨payloadLen, pos⟩ := field
      have hkey : (b1 &&& 0x80 != 0 && decide (data.length < pos + 4)) = true → data.length <
            (parsedFrame allowRsv b0 b1 data opcode payloadLen pos).headerLen + payloadLen := by
        intro hshort
        obtain ⟨hmasked, hlength⟩ := Bool.and_eq_true_iff.mp hshort
        have hlength := of_decide_eq_true hlength
        simp only [parsedFrame, hmasked, if_true]
        omega
      dsimp only
      constructor
      · intro h
        split at h
        · cases h
        · split at h
          · cases h
          · split at h
            · cases h
            · split at h
              · cases h
              · rename_i hlimit hmask _ hlength
                obtain ⟨rfl, rfl⟩ := ParseOutcome.frame.inj h
                exact ⟨opcode, payloadLen, pos, rfl, rfl, Nat.le_of_not_lt hlimit,
                  Bool.eq_false_iff.mpr hmask, rfl, rfl, Nat.le_of_not_lt hlength⟩
      · rintro ⟨_, _, _, hopcode, hfield, hlimit, hmask, rfl, rfl, hlength⟩
        obtain rfl := Option.some.inj hopcode
        obtain ⟨rfl, rfl⟩ := Prod.mk.inj (Option.some.inj hfield)
        rw [if_neg (Nat.not_lt.mpr hlimit), if_neg (Bool.eq_false_iff.mp hmask), if_neg,
          if_neg (Nat.not_lt.mpr hlength)]
        intro hshort
        exact Nat.not_lt.mpr hlength (hkey hshort)

theorem wsParseFrame_append (more : Bytes)
    (h : wsParseFrame requireMask allowRsv data = .frame frame consumed) :
    wsParseFrame requireMask allowRsv (data ++ more) = .frame frame consumed := by
  match data with
  | [] => cases h
  | [_] => cases h
  | b0 :: b1 :: rest =>
    obtain ⟨opcode, payloadLen, pos, hopcode, hfield, hlimit, hmask, hframe, hconsumed, hle⟩ :=
      (wsParseFrame_eq_frame_iff rfl).mp h
    have hdata : (b0 :: b1 :: rest) ++ more = b0 :: b1 :: (rest ++ more) := rfl
    apply (wsParseFrame_eq_frame_iff hdata).mpr
    refine ⟨opcode, payloadLen, pos, hopcode, lengthField_append _ hfield, hlimit, hmask, ?_,
      hconsumed, ?_⟩
    · rw [hconsumed, hframe] at hle
      rw [parsedFrame_append _ hle]
      exact hframe
    · rw [length_append]
      omega

theorem lengthField_of_append {more : Bytes}
    (h : lengthField short (rest ++ more) = some (payloadLen, pos)) (hpos : pos ≤ rest.length + 2) :
    lengthField short rest = some (payloadLen, pos) := by
  cases hrest : lengthField short rest with
  | some field =>
    have hfield : lengthField short (rest ++ more) = some field := lengthField_append _ hrest
    rw [h] at hfield
    exact hfield.symm
  | none =>
    simp only [lengthField, length_append] at h hrest
    split at h
    · rename_i hshort
      split at h
      · cases h
      · cases h
        simp only [hshort, if_true, ite_eq_left_iff, reduceCtorEq, imp_false, not_not] at hrest
        omega
    · rename_i hshort
      rw [if_neg hshort] at hrest
      split at h
      · rename_i hlong
        split at h
        · cases h
        · cases h
          simp only [hlong, if_true, ite_eq_left_iff, reduceCtorEq, imp_false, not_not] at hrest
          omega
      · rename_i hlong
        rw [if_neg hlong] at hrest
        cases hrest

theorem wsParseFrame_of_append {more : Bytes}
    (h : wsParseFrame requireMask allowRsv (data ++ more) = .frame frame consumed)
    (hle : consumed ≤ data.length) :
    wsParseFrame requireMask allowRsv data = .frame frame consumed := by
  match data with
  | [] =>
    obtain rfl : consumed = 0 := Nat.le_zero.mp hle
    match more with
    | [] => cases h
    | [_] => cases h
    | b0 :: b1 :: rest =>
      obtain ⟨_, _, pos, -, hfield, -, -, hframe, hconsumed, -⟩ :=
        (wsParseFrame_eq_frame_iff rfl).mp h
      have hlower := (lengthField_pos_bounds hfield).1
      rw [hframe] at hconsumed
      simp only [parsedFrame] at hconsumed
      split at hconsumed <;> omega
  | [b0] =>
    match more with
    | [] => cases h
    | b1 :: rest =>
      have hdata : [b0] ++ b1 :: rest = b0 :: b1 :: rest := rfl
      obtain ⟨_, _, pos, -, hfield, -, -, hframe, hconsumed, -⟩ :=
        (wsParseFrame_eq_frame_iff hdata).mp h
      have hlower := (lengthField_pos_bounds hfield).1
      rw [hframe] at hconsumed
      simp only [parsedFrame, length_singleton] at hconsumed hle
      split at hconsumed <;> omega
  | b0 :: b1 :: rest =>
    have hdata : (b0 :: b1 :: rest) ++ more = b0 :: b1 :: (rest ++ more) := rfl
    obtain ⟨opcode, payloadLen, pos, hopcode, hfield, hlimit, hmask, hframe, hconsumed, -⟩ :=
      (wsParseFrame_eq_frame_iff hdata).mp h
    have hheader : pos ≤ frame.headerLen := by
      rw [hframe]
      simp only [parsedFrame]
      split <;> omega
    have hpos : pos ≤ rest.length + 2 := by
      simp only [length_cons] at hle
      omega
    apply (wsParseFrame_eq_frame_iff rfl).mpr
    refine ⟨opcode, payloadLen, pos, hopcode, lengthField_of_append hfield hpos, hlimit, hmask, ?_,
      hconsumed, hle⟩
    rw [hconsumed, hframe] at hle
    rw [hframe]
    exact parsedFrame_append _ hle

/-- The bytes that a frame takes. -/
theorem wsParseFrame_lengths (h : wsParseFrame requireMask allowRsv data = .frame frame consumed) :
    consumed = frame.headerLen + frame.payload.length ∧ consumed ≤ data.length ∧
      2 ≤ frame.headerLen ∧ frame.headerLen ≤ 14 ∧ frame.payload.length ≤ maxFramePayload := by
  match data with
  | [] => cases h
  | [_] => cases h
  | b0 :: b1 :: rest =>
    obtain ⟨opcode, payloadLen, pos, -, hfield, hlimit, -, hframe, hconsumed, hle⟩ :=
      (wsParseFrame_eq_frame_iff rfl).mp h
    obtain ⟨hlower, hupper⟩ := lengthField_pos_bounds hfield
    have hheader : pos ≤ frame.headerLen ∧ frame.headerLen ≤ pos + 4 := by
      rw [hframe]
      simp only [parsedFrame]
      split <;> omega
    have hpayload : frame.payload.length = payloadLen := by
      rw [hconsumed, hframe] at hle
      rw [hframe]
      simp only [parsedFrame, length_take, length_drop] at hle ⊢
      omega
    omega

/-- A length field is at least as long as the shortest one for its value. -/
theorem wsFrameHeaderSize_le_pos (hshort : short < 128)
    (h : lengthField short rest = some (payloadLen, pos)) : wsFrameHeaderSize payloadLen ≤ pos := by
  have hlength : toBigEndian (rest.take 2) < 256 ^ (rest.take 2).length := toBigEndian_lt _
  have hword : (rest.take 2).length ≤ 2 := length_take_le 2 _
  have hpow := Nat.pow_le_pow_right (show 0 < 256 by norm_num) hword
  unfold lengthField at h
  unfold wsFrameHeaderSize
  split at h
  · split at h
    · cases h
    · cases h
      split <;> (try split) <;> omega
  · split at h
    · split at h
      · cases h
      · cases h
        split <;> (try split) <;> omega
    · cases h
      rw [if_pos (by omega)]

theorem wsFrameHeaderSize_le_headerLen
    (h : wsParseFrame requireMask allowRsv data = .frame frame consumed) :
    wsFrameHeaderSize frame.payload.length ≤ frame.headerLen := by
  match data with
  | [] => cases h
  | [_] => cases h
  | b0 :: b1 :: rest =>
    obtain ⟨opcode, payloadLen, pos, -, hfield, -, -, hframe, hconsumed, hle⟩ :=
      (wsParseFrame_eq_frame_iff rfl).mp h
    have hlow : (b1 &&& 0x7F).toNat < 128 := by
      exact Nat.lt_succ_of_le Nat.and_le_right
    have hsize := wsFrameHeaderSize_le_pos hlow hfield
    have hheader : pos ≤ frame.headerLen := by
      rw [hframe]
      simp only [parsedFrame]
      split <;> omega
    have hpayload : frame.payload.length = payloadLen := by
      rw [hconsumed, hframe] at hle
      rw [hframe]
      simp only [parsedFrame, length_take, length_drop] at hle ⊢
      omega
    rw [hpayload]
    exact hsize.trans hheader

theorem length_oneKey : ([1, 2, 3, 4] : Bytes).length = 4 := rfl

end AstraApi.WebSocket
