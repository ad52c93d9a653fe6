import AstraApi.WebSocket.EchoFrames

/-!
# The frames that the loop accepts

`ws_parse_frames_nogil` takes frames of any shape that a client can put on the wire:
with reserved bits and opcodes, without a mask, with the length in any of its three
forms.  Some rules of the protocol are checked by `ws_parse_frame`, some by the
fragment assembler, which only sees continuation frames and first fragments.
-/

namespace AstraApi.WebSocket

open List hiding after
open Bytes

/-! ## Frames on the wire -/

/-- The length stands in the second byte, or in two or eight bytes behind it. -/
inductive LengthForm where
  | short
  | medium
  | long
  deriving DecidableEq

namespace LengthForm

def limit : LengthForm → ℕ
  | short => 126
  | medium => 256 ^ 2
  | long => 256 ^ 8

def code : LengthForm → ℕ → ℕ
  | short, payloadLen => payloadLen
  | medium, _ => 126
  | long, _ => 127

def extension : LengthForm → ℕ → Bytes
  | short, _ => []
  | medium, payloadLen => ofBigEndian 2 payloadLen
  | long, payloadLen => ofBigEndian 8 payloadLen

def minimal (payloadLen : ℕ) : LengthForm :=
  if payloadLen < 126 then short else if payloadLen < 256 ^ 2 then medium else long

variable {form : LengthForm} {payloadLen : ℕ}

theorem code_lt (hfits : payloadLen < form.limit) : form.code payloadLen < 128 := by
  cases form with
  | short => exact hfits.trans (by decide)
  | medium => exact (show 126 < 128 by decide)
  | long => exact (show 127 < 128 by decide)

theorem lengthField_extension (hfits : payloadLen < form.limit) (rest : Bytes) :
    lengthField (form.code payloadLen) (form.extension payloadLen ++ rest) =
      some (payloadLen, (form.extension payloadLen).length + 2) := by
  cases form with
  | short =>
    have hshort : payloadLen < 126 := hfits
    show lengthField payloadLen _ = some (payloadLen, 2)
    rw [lengthField, if_neg (by omega), if_neg (by omega)]
  | medium =>
    show lengthField 126 (ofBigEndian 2 _ ++ rest) = some (payloadLen, (ofBigEndian 2 _).length + 2)
    rw [lengthField, if_pos rfl, if_neg (by simp; omega),
      take_left' (length_ofBigEndian 2 _), toBigEndian_ofBigEndian hfits,
      length_ofBigEndian]
  | long =>
    show lengthField 127 (ofBigEndian 8 _ ++ rest) = some (payloadLen, (ofBigEndian 8 _).length + 2)
    rw [lengthField, if_neg (by decide), if_pos rfl, if_neg (by simp),
      take_left' (length_ofBigEndian 8 _), toBigEndian_ofBigEndian hfits,
      length_ofBigEndian]

end LengthForm

/-- A frame on the wire, with its payload before masking. -/
structure RawFrame where
  fin : Bool
  rsv : Fin 8
  opcode : Fin 16
  form : LengthForm
  key : Option { key : Bytes // key.length = 4 }
  payload : Bytes
  fits : payload.length < form.limit

namespace RawFrame

variable (frame : RawFrame)

def wsOpcode : Option WsOpcode := WsOpcode.ofNibble (UInt8.ofNat frame.opcode)

def firstByte : Byte :=
  UInt8.ofNat ((if frame.fin then 0x80 else 0) + frame.rsv * 0x10 + frame.opcode)

/-- Mask key and payload. -/
def body : Bytes :=
  match frame.key with
  | some key => key.1 ++ xorMask key.1 frame.payload
  | none => frame.payload

def encode : Bytes :=
  frame.firstByte :: secondByte (frame.form.code frame.payload.length) frame.key.isSome ::
    (frame.form.extension frame.payload.length ++ frame.body)

theorem firstByte_fields :
    (frame.firstByte &&& 0x80 != 0) = frame.fin ∧
      WsOpcode.ofNibble (frame.firstByte &&& 0x0F) = frame.wsOpcode := by
  have hfields : ∀ (fin : Bool) (rsv : Fin 8) (opcode : Fin 16),
      (UInt8.ofNat ((if fin then 0x80 else 0) + rsv * 0x10 + opcode) &&& 0x80 != 0) = fin ∧
        UInt8.ofNat ((if fin then 0x80 else 0) + rsv * 0x10 + opcode) &&& 0x0F =
          UInt8.ofNat opcode := by
    decide +kernel
  obtain ⟨hfin, hnibble⟩ := hfields _ _ _
  exact ⟨hfin, congrArg _ hnibble⟩

theorem length_body :
    frame.body.length = maskLength frame.key.isSome + frame.payload.length := by
  unfold body
  cases frame.key with
  | none => simp [maskLength]
  | some key => simp [maskLength, key.2]

/-- A frame of a client, as the parser reads it. -/
def parsed (opcode : WsOpcode) (key : { key : Bytes // key.length = 4 }) : WsFrame where
  fin := frame.fin
  rsv := 0
  opcode := opcode
  masked := true
  maskKey := key.1
  payload := xorMask key.1 frame.payload
  headerLen := (frame.form.extension frame.payload.length).length + 2 + 4

theorem wsParseFrame_encode (rest : Bytes) :
    wsParseFrame true false (frame.encode ++ rest) =
      match frame.wsOpcode with
      | none => .protocolError (-3)
      | some opcode =>
        if maxFramePayload < frame.payload.length then .protocolError (-1)
        else match frame.key with
          | none => .protocolError (-2)
          | some key => .frame (frame.parsed opcode key) frame.encode.length := by
  obtain ⟨hfin, hnibble⟩ := frame.firstByte_fields
  obtain ⟨hlow, hbit⟩ := secondByte_fields _ (LengthForm.code_lt frame.fits) frame.key.isSome
  have hlength := LengthForm.lengthField_extension frame.fits (frame.body ++ rest)
  have hbytes : frame.encode ++ rest =
      frame.firstByte :: secondByte (frame.form.code frame.payload.length) frame.key.isSome ::
        (frame.form.extension frame.payload.length ++ (frame.body ++ rest)) := by
    rw [encode, cons_append, cons_append, append_assoc]
  have htotal : frame.encode.length =
      (frame.form.extension frame.payload.length).length + 2 + frame.body.length := by
    rw [encode, length_cons, length_cons, length_append]
    omega
  have hbody := frame.length_body
  rw [hbytes]
  simp only [wsParseFrame, hfin, hnibble, hlow, hbit, hlength]
  cases frame.wsOpcode with
  | none => rfl
  | some opcode =>
    simp only
    by_cases hlarge : maxFramePayload < frame.payload.length
    · rw [if_pos hlarge, if_pos hlarge]
    · rw [if_neg hlarge, if_neg hlarge]
      cases hkey : frame.key with
      | none => rfl
      | some key =>
        have hsize : frame.body.length = 4 + frame.payload.length := by
          rw [hbody, hkey]
          rfl
        have hraw : frame.body = key.1 ++ xorMask key.1 frame.payload := by
          rw [body, hkey]
        have hafter (tail : Bytes) : (frame.firstByte ::
            secondByte (frame.form.code frame.payload.length) true ::
              (frame.form.extension frame.payload.length ++ tail)).drop
                ((frame.form.extension frame.payload.length).length + 2) = tail := by
          simp
        have hlen : (frame.firstByte :: secondByte (frame.form.code frame.payload.length) true ::
            (frame.form.extension frame.payload.length ++ (frame.body ++ rest))).length =
              (frame.form.extension frame.payload.length).length + 2 + 4 +
                frame.payload.length + rest.length := by
          simp only [length_cons, length_append, hsize]
          omega
        simp only [Option.isSome_some, Bool.not_true, Bool.and_false, Bool.false_eq_true,
          if_false, Bool.true_and, decide_eq_true_eq, if_true]
        rw [hlen, if_neg (by omega), if_neg (by omega), hafter, ← drop_drop, hafter, hraw,
          append_assoc, take_left' key.2, drop_left' key.2, parsed, htotal, hsize,
          take_left' (length_xorMask key.1 _), Nat.add_assoc _ 4]

/-! ## The rules of the protocol -/

/-- What the protocol asks of a frame of a client by itself. -/
structure WellFormed : Prop where
  known : frame.wsOpcode.isSome
  masked : frame.key.isSome
  minimal : frame.form = .minimal frame.payload.length
  size_le : frame.payload.length ≤ maxFramePayload
  control : ∀ opcode, frame.wsOpcode = some opcode → opcode.isControl = true →
    frame.fin = true ∧ frame.payload.length ≤ 125

/-- The frames up to the first close frame obey the protocol.  `pending` is the number of
bytes of the message that is under way. -/
def Lawful : Option ℕ → List RawFrame → Prop
  | _, [] => True
  | pending, frame :: frames =>
    frame.WellFormed ∧
      match frame.wsOpcode with
      | some .close => True
      | some .continuation =>
        ∃ size, pending = some size ∧
          size + frame.payload.length ≤ WsFragmentAssembler.maxMessageSize ∧
            Lawful (if frame.fin then none else some (size + frame.payload.length)) frames
      | some .text | some .binary =>
        pending = none ∧ Lawful (if frame.fin then none else some frame.payload.length) frames
      | _ => Lawful pending frames

/-! ## The checks of the loop -/

def Refused (pending : Option ℕ) : Prop :=
  frame.wsOpcode = none ∨ maxFramePayload < frame.payload.length ∨ frame.key = none ∨
    (frame.wsOpcode = some .continuation ∧
      ∀ size ∈ pending, WsFragmentAssembler.maxMessageSize < size + frame.payload.length) ∨
    ((frame.wsOpcode = some .text ∨ frame.wsOpcode = some .binary) ∧ frame.fin = false ∧
      pending ≠ none)

instance (pending : Option ℕ) : Decidable (frame.Refused pending) :=
  inferInstanceAs (Decidable (_ ∨ _ ∨ _ ∨ _ ∧ (∀ size ∈ pending, _) ∨ _ ∧ _ ∧ _))

/-- The bytes under way after the frame.  A final text or binary frame does not reach the
assembler. -/
def after (pending : Option ℕ) : Option ℕ :=
  match frame.wsOpcode with
  | some .continuation =>
    if frame.fin then none else pending.map fun size => size + frame.payload.length
  | some .text | some .binary => if frame.fin then pending else some frame.payload.length
  | _ => pending

/-- The rules that nothing checks: the shortest form of a length, whole and short control
frames, no other message inside a fragmented one. -/
structure Careful (pending : Option ℕ) : Prop where
  minimal : frame.form = .minimal frame.payload.length
  control : ∀ opcode, frame.wsOpcode = some opcode → opcode.isControl = true →
    frame.fin = true ∧ frame.payload.length ≤ 125
  alone : frame.wsOpcode = some .text ∨ frame.wsOpcode = some .binary → frame.fin = true →
    pending = none

end RawFrame

open RawFrame

def RefusedIn : Option ℕ → List RawFrame → Prop
  | _, [] => False
  | pending, frame :: frames =>
    frame.Refused pending ∨
      frame.wsOpcode ≠ some .close ∧ RefusedIn (frame.after pending) frames

/-- A property of all frames before the first refused one, up to the first close frame. -/
def ForHandled (P : Option ℕ → RawFrame → Prop) : Option ℕ → List RawFrame → Prop
  | _, [] => True
  | pending, frame :: frames =>
    ¬ frame.Refused pending →
      P pending frame ∧
        (frame.wsOpcode ≠ some .close → ForHandled P (frame.after pending) frames)

/-- A ping that can be answered. -/
def ShortPing (frame : RawFrame) : Prop :=
  frame.wsOpcode = some .ping → frame.payload.length ≤ 125

theorem RawFrame.wellFormed_iff (frame : RawFrame) (pending : Option ℕ) :
    frame.WellFormed ∧
        (frame.wsOpcode = some .text ∨ frame.wsOpcode = some .binary → frame.fin = true →
          pending = none) ↔
      (frame.wsOpcode ≠ none ∧ frame.payload.length ≤ maxFramePayload ∧ frame.key ≠ none) ∧
        frame.Careful pending := by
  constructor
  · rintro ⟨hwell, halone⟩
    exact ⟨⟨Option.isSome_iff_ne_none.mp hwell.known, hwell.size_le,
      Option.isSome_iff_ne_none.mp hwell.masked⟩, hwell.minimal, hwell.control, halone⟩
  · rintro ⟨⟨hknown, hsize, hmasked⟩, hcareful⟩
    exact ⟨⟨Option.isSome_iff_ne_none.mpr hknown, Option.isSome_iff_ne_none.mpr hmasked,
      hcareful.minimal, hsize, hcareful.control⟩, hcareful.alone⟩

theorem lawful_cons (pending : Option ℕ) (frame : RawFrame) (frames : List RawFrame) :
    Lawful pending (frame :: frames) ↔ ¬ frame.Refused pending ∧ frame.Careful pending ∧
        (frame.wsOpcode ≠ some .close → Lawful (frame.after pending) frames) := by
  have hwell := frame.wellFormed_iff pending
  have hrefused : ¬ frame.Refused pending ↔
      (frame.wsOpcode ≠ none ∧ frame.payload.length ≤ maxFramePayload ∧ frame.key ≠ none) ∧
        (frame.wsOpcode = some .continuation → ∃ size, pending = some size ∧
          size + frame.payload.length ≤ WsFragmentAssembler.maxMessageSize) ∧
        (frame.wsOpcode = some .text ∨ frame.wsOpcode = some .binary → frame.fin = false →
          pending = none) := by
    simp only [Refused]
    push Not
    tauto
  rw [hrefused, Lawful, after]
  cases hopcode : frame.wsOpcode with
  | none =>
    apply iff_of_false
    · rintro ⟨h, -⟩
      have hknown := h.known
      rw [hopcode] at hknown
      cases hknown
    · simp
  | some opcode =>
    simp only [hopcode] at hwell ⊢
    cases opcode with
    | continuation | text | binary =>
      cases hfin : frame.fin <;> cases pending <;> simp [hfin] at hwell ⊢ <;> tauto
    | close | ping | pong =>
      simp at hwell ⊢
      tauto

/-- The stream is lawful if the checks and the unchecked rules both let it pass. -/
theorem lawful_iff (pending : Option ℕ) (frames : List RawFrame) :
    Lawful pending frames ↔ ¬ RefusedIn pending frames ∧
        ForHandled (fun pending frame => frame.Careful pending) pending frames := by
  induction frames generalizing pending with
  | nil => exact iff_of_true trivial ⟨id, trivial⟩
  | cons frame frames ih =>
    rw [lawful_cons, RefusedIn, ForHandled, ih]
    tauto

/-! ## A run of the loop -/

def WsFragmentAssembler.pending (assembler : WsFragmentAssembler) : Option ℕ :=
  if assembler.inProgress then some assembler.accumulated.length else none

def RawFrame.encodeAll (frames : List RawFrame) : Bytes := frames.flatMap RawFrame.encode

def pings : Option ℕ → List RawFrame → List Bytes
  | _, [] => []
  | pending, frame :: frames =>
    if frame.Refused pending then []
    else
      (if frame.wsOpcode = some .ping then [frame.payload] else []) ++
        if frame.wsOpcode = some .close then [] else pings (frame.after pending) frames

section Loop

variable (fuel : ℕ) {frame : RawFrame} (rest : Bytes) (assembler : WsFragmentAssembler)
  (before : ParseResult)

theorem parsed_payload (opcode : WsOpcode) (key : { key : Bytes // key.length = 4 }) :
    unmaskedPayload (frame.parsed opcode key) = frame.payload :=
  unmask_payload ⟨frame.fin, opcode, key, frame.payload⟩

/-- What the loop makes of a frame: it refuses it, ends behind it, or goes on. -/
inductive Round (frame : RawFrame) (assembler : WsFragmentAssembler) (before run : ParseResult)
    (next : WsFragmentAssembler → ParseResult → ParseResult) : Prop
  | refused (hrefused : frame.Refused assembler.pending) (herror : run.protocolError ≠ 0)
      (hpongs : run.pongBuf = before.pongBuf)
  | closed (htaken : ¬ frame.Refused assembler.pending) (hclose : frame.wsOpcode = some .close)
      (herror : run.protocolError = before.protocolError) (hpongs : run.pongBuf = before.pongBuf)
  | more {assembler' : WsFragmentAssembler} {mid : ParseResult}
      (htaken : ¬ frame.Refused assembler.pending) (hopen : frame.wsOpcode ≠ some .close)
      (hpending : assembler'.pending = frame.after assembler.pending)
      (herror : mid.protocolError = before.protocolError)
      (hpongs : mid.pongBuf = before.pongBuf ++
        (if frame.wsOpcode = some .ping then [frame.payload] else []).flatMap
          fun payload => echoBytes (.pong, payload))
      (hnext : run = next assembler' mid)

theorem refused_iff {opcode : WsOpcode} {key : { key : Bytes // key.length = 4 }}
    (hopcode : frame.wsOpcode = some opcode) (hsize : ¬ maxFramePayload < frame.payload.length)
    (hkey : frame.key = some key) (pending : Option ℕ) :
    frame.Refused pending ↔ (opcode = .continuation ∧
        ∀ size ∈ pending, WsFragmentAssembler.maxMessageSize < size + frame.payload.length) ∨
      ((opcode = .text ∨ opcode = .binary) ∧ frame.fin = false ∧ pending ≠ none) := by
  simp [Refused, hopcode, hkey, hsize]

theorem wsParseFrames_round :
    Round frame assembler before
      (wsParseFrames (fuel + 1) (frame.encode ++ rest) assembler before).1
      fun assembler' mid => (wsParseFrames fuel rest assembler' mid).1 := by
  have hparse := frame.wsParseFrame_encode rest
  have htail : (frame.encode ++ rest).drop frame.encode.length = rest := drop_left
  obtain ⟨b, bytes, hdata⟩ : ∃ b bytes, frame.encode ++ rest = b :: bytes := ⟨_, _, rfl⟩
  rw [hdata] at hparse htail ⊢
  cases hopcode : frame.wsOpcode with
  | none =>
    simp only [hopcode] at hparse
    simp only [wsParseFrames, hparse]
    exact .refused (Or.inl hopcode) (show (-3 : ℤ) ≠ 0 by decide) rfl
  | some opcode =>
    simp only [hopcode] at hparse
    by_cases hlarge : maxFramePayload < frame.payload.length
    · rw [if_pos hlarge] at hparse
      simp only [wsParseFrames, hparse]
      exact .refused (Or.inr (Or.inl hlarge)) (show (-1 : ℤ) ≠ 0 by decide) rfl
    · rw [if_neg hlarge] at hparse
      cases hkey : frame.key with
      | none =>
        simp only [hkey] at hparse
        simp only [wsParseFrames, hparse]
        exact .refused (Or.inr (Or.inr (Or.inl hkey))) (show (-2 : ℤ) ≠ 0 by decide) rfl
      | some key =>
        have hpayload := @parsed_payload frame opcode key
        simp only [hkey] at hparse
        simp only [unmaskedPayload] at hpayload
        simp only [wsParseFrames, hparse, htail, hpayload]
        simp only [parsed]
        have hrefused := refused_iff hopcode hlarge hkey assembler.pending
        cases opcode with
        | ping =>
          refine .more (by simp [hrefused]) (by simp [hopcode]) ?_ ?_ ?_ rfl
          · simp [after, hopcode]
          · rfl
          · simp only [ParseResult.advance, hopcode, if_true, flatMap_singleton]
            rw [append_assoc]
            rfl
        | pong =>
          refine .more (by simp [hrefused]) (by simp [hopcode]) ?_ ?_ ?_ rfl
          · simp [after, hopcode]
          · rfl
          · simp [ParseResult.advance, hopcode]
        | close => exact .closed (by simp [hrefused]) hopcode rfl rfl
        | continuation =>
          obtain ⟨inProgress, original, accumulated⟩ := assembler
          simp only [true_or, if_true, WsFragmentAssembler.feed]
          cases inProgress with
          | false =>
            refine .refused (hrefused.mpr ?_) (show (-1 : ℤ) ≠ 0 by decide) rfl
            simp [WsFragmentAssembler.pending]
          | true =>
            have hpending : WsFragmentAssembler.pending ⟨true, original, accumulated⟩ =
                some accumulated.length := rfl
            simp only [hpending, Option.mem_def, Option.some.injEq, forall_eq', true_and,
              reduceCtorEq, or_self, false_and, or_false] at hrefused
            simp only [Bool.not_true, Bool.false_eq_true, if_false, length_append]
            by_cases hroom : WsFragmentAssembler.maxMessageSize <
                accumulated.length + frame.payload.length
            · simp only [if_pos hroom]
              exact .refused (hrefused.mpr hroom) (show (-1 : ℤ) ≠ 0 by decide) rfl
            · simp only [if_neg hroom]
              cases hfin : frame.fin with
              | true =>
                refine .more (mt hrefused.mp hroom) (by simp [hopcode]) ?_ ?_ ?_ rfl
                · simp only [after, hopcode, hfin, if_true]
                  rfl
                · rfl
                · simp [ParseResult.advance, hopcode]
              | false =>
                refine .more (mt hrefused.mp hroom) (by simp [hopcode]) ?_ ?_ ?_ rfl
                · simp [after, hopcode, hfin, WsFragmentAssembler.pending]
                · rfl
                · simp [ParseResult.advance, hopcode]
        | text | binary =>
          simp only [reduceCtorEq, false_or]
          cases hfin : frame.fin with
          | true =>
            refine .more (by simp [hrefused, hfin]) (by simp [hopcode]) ?_ ?_ ?_ rfl
            · simp [after, hopcode, hfin]
            · rfl
            · simp [ParseResult.advance, hopcode]
          | false =>
            obtain ⟨inProgress, original, accumulated⟩ := assembler
            cases inProgress with
            | true =>
              refine .refused (hrefused.mpr ?_) (show (-1 : ℤ) ≠ 0 by decide) rfl
              simp [hfin, WsFragmentAssembler.pending]
            | false =>
              refine .more (mt hrefused.mp ?_) (by simp [hopcode]) ?_ ?_ ?_ rfl
              · simp [WsFragmentAssembler.pending]
              · simp [after, hopcode, hfin, WsFragmentAssembler.pending]
              · rfl
              · simp [ParseResult.advance, hopcode]

end Loop

theorem wsParseFrames_encodeAll {fuel : ℕ} {frames : List RawFrame}
    (hfuel : (RawFrame.encodeAll frames).length < fuel) (assembler : WsFragmentAssembler)
    {before : ParseResult} (hzero : before.protocolError = 0) :
    let run := (wsParseFrames fuel (RawFrame.encodeAll frames) assembler before).1
    (run.protocolError ≠ 0 ↔ RefusedIn assembler.pending frames) ∧ run.pongBuf = before.pongBuf ++
        (pings assembler.pending frames).flatMap fun payload => echoBytes (.pong, payload) := by
  induction frames generalizing fuel assembler before with
  | nil =>
    intro run
    have hrun : run = before := by
      cases fuel <;> rfl
    rw [hrun]
    exact ⟨iff_of_false (not_not.mpr hzero) id, (append_nil _).symm⟩
  | cons frame frames ih =>
    cases fuel with
    | zero => omega
    | succ fuel =>
      have hcons : RawFrame.encodeAll (frame :: frames) =
          frame.encode ++ RawFrame.encodeAll frames := rfl
      have hpos : 0 < frame.encode.length := Nat.succ_pos _
      rw [hcons, length_append] at hfuel
      intro run
      rw [RefusedIn, pings]
      have hround := @wsParseFrames_round fuel frame (RawFrame.encodeAll frames) assembler before
      rw [← hcons] at hround
      cases hround with
      | refused hrefused herror hpongs =>
        rw [if_pos hrefused, flatMap_nil, append_nil]
        exact ⟨iff_of_true herror (Or.inl hrefused), hpongs⟩
      | closed htaken hclose herror hpongs =>
        rw [if_neg htaken, if_neg (by simp [hclose]), if_pos hclose]
        refine ⟨iff_of_false (not_not.mpr (herror.trans hzero)) ?_, by simpa using hpongs⟩
        simp [htaken, hclose]
      | more htaken hopen hpending herror hpongs hnext =>
        obtain ⟨hrest, hrestPongs⟩ := ih (show _ < fuel by omega) _ (herror.trans hzero)
        rw [hpending] at hrest hrestPongs
        rw [if_neg htaken, if_neg hopen, flatMap_append, ← append_assoc, ← hpongs, ← hrestPongs]
        simp only [run, hnext, htaken, false_or]
        exact ⟨hrest.trans (and_iff_right hopen).symm, trivial⟩

/-! ## The pongs -/

/-- A client takes all of the bytes as control frames that are whole and short. -/
def PongsProper (pongBuf : Bytes) : Prop :=
  ∃ pongs, readServerFrames pongBuf.length pongBuf = some pongs ∧
    ∀ pong ∈ pongs, isProper pong = true

theorem isProper_pong (payload : Bytes) :
    isProper (serverFrame (.pong, payload)) = true ↔ payload.length ≤ 125 := by
  show (!true || true && decide (payload.length ≤ 125)) = true ↔ payload.length ≤ 125
  rw [Bool.not_true, Bool.false_or, Bool.true_and, decide_eq_true_eq]

theorem pongsProper_iff {payloads : List Bytes}
    (hsize : ∀ payload ∈ payloads, payload.length ≤ maxFramePayload) :
    PongsProper (payloads.flatMap fun payload => echoBytes (.pong, payload)) ↔
      ∀ payload ∈ payloads, payload.length ≤ 125 := by
  have hresponses : (payloads.flatMap fun payload => echoBytes (.pong, payload)) =
      (payloads.map fun payload => ((.pong, payload) : Message)).flatMap echoBytes := by
    rw [flatMap_map]
  have hread := @readServerFrames_flatMap (payloads.map fun payload => ((.pong, payload) : Message))
    (payloads.flatMap fun payload => echoBytes (.pong, payload)).length
    (by simpa using hsize) (by rw [hresponses])
  rw [← hresponses] at hread
  simp only [PongsProper, hread, Option.some.injEq, exists_eq_left', mem_map,
    forall_exists_index, and_imp, forall_apply_eq_imp_iff₂, isProper_pong]

theorem length_le_of_mem_pings {pending : Option ℕ} {frames : List RawFrame} :
    ∀ payload ∈ pings pending frames, payload.length ≤ maxFramePayload := by
  induction frames generalizing pending with
  | nil =>
    intro payload hmem
    cases hmem
  | cons frame frames ih =>
    intro payload hmem
    rw [pings] at hmem
    split at hmem
    · cases hmem
    · rename_i htaken
      rcases mem_append.mp hmem with hhead | htail
      · split at hhead
        · rw [mem_singleton.mp hhead]
          exact Nat.le_of_not_lt fun hlarge => htaken (Or.inr (Or.inl hlarge))
        · cases hhead
      · split at htail
        · cases htail
        · exact ih _ htail

theorem pings_short_iff (pending : Option ℕ) (frames : List RawFrame) :
    (∀ payload ∈ pings pending frames, payload.length ≤ 125) ↔
      ForHandled (fun _ frame => ShortPing frame) pending frames := by
  induction frames generalizing pending with
  | nil => exact iff_of_true (fun _ hmem => absurd hmem not_mem_nil) trivial
  | cons frame frames ih =>
    rw [pings, ForHandled, ← ih, ShortPing]
    by_cases hrefused : frame.Refused pending
    · simp [hrefused]
    · by_cases hclose : frame.wsOpcode = some .close
      · simp [hrefused, hclose]
      · by_cases hping : frame.wsOpcode = some .ping
        · simp [hrefused, hping]
        · simp [hrefused, hclose, hping]

/-- The loop accepts the lawful streams and answers them lawfully if and only if a check
refuses the stream or no unchecked rule is broken, and no long ping is answered. -/
theorem frameLoop_lawful_iff (frames : List RawFrame) :
    let data := RawFrame.encodeAll frames
    let run := (wsParseFrames (data.length + 1) data {} {}).1
    ((run.protocolError = 0 ↔ Lawful none frames) ∧ PongsProper run.pongBuf) ↔
      (RefusedIn none frames ∨
          ForHandled (fun pending frame => frame.Careful pending) none frames) ∧
        ForHandled (fun _ frame => ShortPing frame) none frames := by
  intro data run
  obtain ⟨herror, hpongs⟩ := @wsParseFrames_encodeAll (data.length + 1) frames
    (Nat.lt_succ_self _) {} {} rfl
  have hpending : WsFragmentAssembler.pending {} = none := rfl
  have hproper : PongsProper run.pongBuf ↔
      ForHandled (fun _ frame => ShortPing frame) none frames := by
    rw [← pings_short_iff, ← pongsProper_iff length_le_of_mem_pings]
    rw [hpending] at hpongs
    rw [hpongs, nil_append]
  have haccepted : run.protocolError = 0 ↔ ¬ RefusedIn none frames :=
    (not_iff_comm.mp herror).symm
  rw [hproper, lawful_iff, haccepted]
  tauto

instance RawFrame.neZero : NeZero 8 := ⟨by decide⟩

def letter (fin : Bool) (b : Byte) : RawFrame where
  fin := fin
  rsv := 0
  opcode := 1
  form := .short
  key := some ⟨[1, 2, 3, 4], length_oneKey⟩
  payload := [b]
  fits := show 1 < 126 by decide

/-- A whole message inside a fragmented one is accepted. -/
theorem frameLoop_interleaved : ¬ ∀ frames : List RawFrame,
    let data := RawFrame.encodeAll frames
    let run := (wsParseFrames (data.length + 1) data {} {}).1
    (run.protocolError = 0 ↔ Lawful none frames) ∧ PongsProper run.pongBuf := by
  intro hall
  have haccepted : (wsParseFrames 15 (RawFrame.encodeAll [letter false 97, letter true 98])
      {} {}).1.protocolError = 0 := by
    decide
  have hlawful := (hall [letter _ 97, letter _ 98]).1.mp haccepted
  obtain ⟨-, -, -, hpending, -⟩ := hlawful
  cases hpending

end AstraApi.WebSocket
