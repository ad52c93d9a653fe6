import AstraApi.Lib.Circular
import AstraApi.Lib.Text
import AstraApi.WebSocket.Codec

/-!
# Sending

A `CppWebSocket` writes the frames of its sends to the transport.  Between `cork` and
`uncork` they are kept in a buffer, from which runs of raw entries are built in one
call; JSON frames are built when they are sent.  A second queue is for the sends of one
tick of the event loop.
-/

namespace AstraApi.WebSocket

open List
open Bytes Circular

/-! ## Frame builders -/

section Builders

variable (fresh : FreshMemory)

/-- `py_ws_build_frame_bytes`.  A large payload is copied without the interpreter lock. -/
def wsBuildFrameBytes (opcode : WsOpcode) (payload : Bytes) : Bytes :=
  let hdrSize := wsFrameHeaderSize payload.length
  let out := (fresh (hdrSize + payload.length)).1
  blit (blit out 0 (wsWriteFrameHeader opcode payload.length true)) hdrSize payload

/-- The second pass of `py_ws_build_frames_batch`. -/
def batchStep (out : Bytes × ℕ) (item : WsOpcode × Bytes) : Bytes × ℕ :=
  let header := wsWriteFrameHeader item.1 item.2.length true
  (blit (blit out.1 out.2 header) (out.2 + header.length) item.2,
    out.2 + header.length + item.2.length)

/-- The first pass adds up the sizes. -/
def wsBuildFramesBatch (items : List (WsOpcode × Bytes)) : Bytes :=
  let totalSize := (items.map fun item => wsFrameHeaderSize item.2.length + item.2.length).sum
  (items.foldl batchStep ((fresh totalSize).1, 0)).1

end Builders

def buildFramePy (opcode : WsOpcode) (payload : Bytes) : Bytes :=
  let plen := payload.length
  let header := [0x80 ||| opcode.code]
  let header :=
    if plen < 126 then header ++ [UInt8.ofNat plen]
    else if plen ≤ 0xFFFF then header ++ [126] ++ ofBigEndian 2 plen
    else header ++ [127] ++ ofBigEndian 8 plen
  header ++ payload

/-- The frame that `close` sends; `none` when building it raises. -/
def closeFrame (fresh : FreshMemory) (code : ℤ)
    (reason : Option Text) : Option Bytes :=
  let (code, reason) :=
    if code = 1006 then ((1000 : ℤ), some (plainText "1006:" ++ reason.getD [])) else (code, reason)
  let payload := [UInt8.ofNat (code / 256 % 256).toNat, UInt8.ofNat (code % 256).toNat]
  match reason with
  | none | some [] =>
    if -2 ^ 63 ≤ code ∧ code < 2 ^ 63 then some (wsBuildFrameBytes fresh .close payload) else none
  | some (c :: text) =>
    if 0 ≤ code ∧ code < 2 ^ 16 then
      (Text.utf8 (c :: text)).map fun bytes => buildFramePy .close (payload ++ bytes)
    else none

/-! ## The socket -/

/-- The fields of a `CppWebSocket` that its sends use, and what it has written. -/
structure SendSocket where
  closed : Bool := false
  corked : Bool := false
  corkBuf : List (Option WsOpcode × Bytes) := []
  pendingSends : List (WsOpcode × Bytes) := []
  flushScheduled : Bool := false
  written : List Bytes := []

inductive SendCall (J : Type*) where
  | sendText (data : Text ⊕ Bytes)
  | sendBytes (data : Bytes)
  | sendJson (data : J) (text : Bool)
  | cork
  | uncork
  | close (code : ℤ) (reason : Option Text)
  | flushPending

def textPayload : Text ⊕ Bytes → Option Bytes
  | .inl text => text.utf8
  | .inr bytes => some bytes

def jsonOpcode (text : Bool) : WsOpcode := if text then .text else .binary

namespace SendSocket

variable {J : Type*} (fresh : FreshMemory)
  (buildJsonFrame : J → WsOpcode → Option Bytes)

def write (ws : SendSocket) (data : Bytes) : SendSocket :=
  { ws with written := ws.written ++ [data] }

def queueSend (ws : SendSocket) (opcode : WsOpcode) (payload : Bytes) : SendSocket :=
  if !ws.flushScheduled ∧ ws.pendingSends = [] then
    ws.write (wsBuildFrameBytes fresh opcode payload)
  else { ws with pendingSends := ws.pendingSends ++ [(opcode, payload)], flushScheduled := true }

def flushPending (ws : SendSocket) : SendSocket :=
  let ws := { ws with flushScheduled := false }
  match ws.pendingSends with
  | [] => ws
  | [(opcode, payload)] =>
    { ws.write (wsBuildFrameBytes fresh opcode payload) with pendingSends := [] }
  | pending => { ws.write (wsBuildFramesBatch fresh pending) with pendingSends := [] }

def rawWrites (rawEntries : List (WsOpcode × Bytes)) : List Bytes :=
  if rawEntries = [] then [] else [wsBuildFramesBatch fresh rawEntries]

/-- The loop of `_flush_cork`.  An entry without an opcode is a frame already. -/
def corkWrites : List (Option WsOpcode × Bytes) → List (WsOpcode × Bytes) → List Bytes
  | [], rawEntries => rawWrites fresh rawEntries
  | (none, payload) :: entries, rawEntries =>
    rawWrites fresh rawEntries ++ payload :: corkWrites entries []
  | (some opcode, payload) :: entries, rawEntries =>
    corkWrites entries (rawEntries ++ [(opcode, payload)])

def flushCork (ws : SendSocket) : SendSocket :=
  if ws.corkBuf = [] then ws
  else { ws with written := ws.written ++ corkWrites fresh ws.corkBuf [], corkBuf := [] }

def sendRaw (ws : SendSocket) (opcode : WsOpcode) (payload : Bytes) : SendSocket :=
  if ws.corked then { ws with corkBuf := ws.corkBuf ++ [(some opcode, payload)] }
  else ws.queueSend fresh opcode payload

/-- `send_json` with `_ws_build_json_frame`. -/
def sendFrame (ws : SendSocket) (frame : Bytes) : SendSocket :=
  if ws.corked then { ws with corkBuf := ws.corkBuf ++ [(none, frame)] } else ws.write frame

def close (ws : SendSocket) (code : ℤ) (reason : Option Text) : SendSocket :=
  if ws.closed then ws
  else
    let ws := { ws with closed := true }
    let ws := if ws.corked then ws.flushCork fresh else ws
    let ws := if ws.pendingSends = [] then ws else ws.flushPending fresh
    match closeFrame fresh code reason with
    | none => ws
    | some frame => ws.write frame

/-- A call.  A send on a closed socket raises, and so does one whose data has no bytes. -/
def step (ws : SendSocket) : SendCall J → SendSocket
  | .sendText data =>
    if ws.closed then ws
    else match textPayload data with
      | none => ws
      | some payload => ws.sendRaw fresh .text payload
  | .sendBytes data => if ws.closed then ws else ws.sendRaw fresh .binary data
  | .sendJson data text =>
    if ws.closed then ws
    else match buildJsonFrame data (jsonOpcode text) with
      | none => ws
      | some frame => ws.sendFrame frame
  | .cork => { ws with corked := true }
  | .uncork => { ws.flushCork fresh with corked := false }
  | .close code reason => ws.close fresh code reason
  | .flushPending => ws.flushPending fresh

end SendSocket

/-! ## The builders agree -/

section Builders

variable (fresh : FreshMemory)

theorem blit_header_payload (out header payload : Bytes) :
    blit (blit out 0 header) header.length payload =
      header ++ payload ++ out.drop (header.length + payload.length) := by
  have hheader : blit out 0 header = header ++ out.drop header.length := blit_append [] _ _
  rw [hheader, blit_append, drop_drop]

theorem wsBuildFrameBytes_eq (opcode : WsOpcode) (payload : Bytes) :
    wsBuildFrameBytes fresh opcode payload = wsBuildFrame opcode payload true := by
  have hheader := length_wsWriteFrameHeader opcode payload.length true
  have hsize := (fresh (wsFrameHeaderSize payload.length + payload.length)).2
  rw [wsBuildFrameBytes, ← hheader] at *
  rw [blit_header_payload, drop_of_length_le (by omega), append_nil]
  rfl

theorem buildFramePy_eq (opcode : WsOpcode) (payload : Bytes) :
    buildFramePy opcode payload = wsBuildFrame opcode payload true := by
  have hfirst : 0x80 ||| opcode.code = firstByte opcode true := rfl
  unfold buildFramePy wsBuildFrame wsWriteFrameHeader
  simp only [hfirst]
  split
  · rfl
  · split <;> rfl

/-- The size that the first pass adds up. -/
def batchSize (items : List (WsOpcode × Bytes)) : ℕ :=
  (items.map fun item => wsFrameHeaderSize item.2.length + item.2.length).sum

theorem foldl_batchStep (items : List (WsOpcode × Bytes)) (done rest : Bytes) :
    (items.foldl batchStep (done ++ rest, done.length)).1 =
      done ++ (items.flatMap fun item => wsBuildFrame item.1 item.2 true) ++
        rest.drop (batchSize items) := by
  induction items generalizing done rest with
  | nil =>
    simp [batchSize]
  | cons item items ih =>
    have hheader := length_wsWriteFrameHeader item.1 item.2.length true
    have hstep : batchStep (done ++ rest, done.length) item =
        (done ++ wsBuildFrame item.1 item.2 true ++
            rest.drop (wsFrameHeaderSize item.2.length + item.2.length),
          (done ++ wsBuildFrame item.1 item.2 true).length) := by
      have hend : done.length + (wsWriteFrameHeader item.1 item.2.length true).length =
          (done ++ wsWriteFrameHeader item.1 item.2.length true).length := by
        rw [length_append]
      simp only [batchStep, blit_append]
      rw [hend, blit_append, drop_drop, wsBuildFrame, ← append_assoc, hheader]
      simp [Nat.add_assoc]
    calc ((item :: items).foldl batchStep (done ++ rest, done.length)).1
        = (items.foldl batchStep (done ++ wsBuildFrame item.1 item.2 true ++
            rest.drop (wsFrameHeaderSize item.2.length + item.2.length),
              (done ++ wsBuildFrame item.1 item.2 true).length)).1 := by
          rw [foldl_cons, hstep]
      _ = done ++ wsBuildFrame item.1 item.2 true ++
            (items.flatMap fun item => wsBuildFrame item.1 item.2 true) ++
              (rest.drop (wsFrameHeaderSize item.2.length + item.2.length)).drop
                (batchSize items) := ih _ _
      _ = done ++ ((item :: items).flatMap fun item => wsBuildFrame item.1 item.2 true) ++
            rest.drop (batchSize (item :: items)) := by
          rw [drop_drop, flatMap_cons, batchSize, batchSize, map_cons, sum_cons, append_assoc done]

theorem wsBuildFramesBatch_eq (items : List (WsOpcode × Bytes)) :
    wsBuildFramesBatch fresh items =
      items.flatMap fun item => wsBuildFrameBytes fresh item.1 item.2 := by
  have hbatch := foldl_batchStep items [] (fresh (batchSize items)).1
  have hsize := (fresh (batchSize items)).2
  rw [drop_of_length_le hsize.le, append_nil, nil_append, nil_append, length_nil] at hbatch
  simp only [wsBuildFrameBytes_eq]
  exact hbatch

end Builders

/-! ## The order of the sends -/

section Order

variable {J : Type*} (fresh : FreshMemory) (buildJsonFrame : J → WsOpcode → Option Bytes)

def entryFrame : Option WsOpcode × Bytes → Bytes
  | (none, frame) => frame
  | (some opcode, payload) => wsBuildFrameBytes fresh opcode payload

/-- A status code and a reason in a close frame.  The code fills two bytes, and with a reason it
has to fit them. -/
def closePayload (code : ℤ) (reason : Text) : Option Bytes :=
  if reason = [] then
    if -2 ^ 63 ≤ code ∧ code < 2 ^ 63 then some (ofBigEndian 2 (code % 2 ^ 16).toNat) else none
  else if 0 ≤ code ∧ code < 2 ^ 16 then reason.utf8.map (ofBigEndian 2 code.toNat ++ ·)
  else none

/-- The frames of the sends in the order of the calls, and the close frame behind them.  The
status code 1006 is not sent, but told in the reason. -/
def sendFrames : List (SendCall J) → List Bytes
  | [] => []
  | .sendText (.inl text) :: calls =>
    (text.utf8.map fun bytes => wsBuildFrame .text bytes true).toList ++ sendFrames calls
  | .sendText (.inr bytes) :: calls => wsBuildFrame .text bytes true :: sendFrames calls
  | .sendBytes data :: calls => wsBuildFrame .binary data true :: sendFrames calls
  | .sendJson data text :: calls =>
    (buildJsonFrame data (jsonOpcode text)).toList ++ sendFrames calls
  | .close code reason :: _ =>
    let payload :=
      if code = 1006 then closePayload 1000 (plainText "1006:" ++ reason.getD [])
      else closePayload code (reason.getD [])
    (payload.map fun bytes => wsBuildFrame .close bytes true).toList
  | _ :: calls => sendFrames calls

theorem ofBigEndian_two (value : ℕ) :
    ofBigEndian 2 value = [UInt8.ofNat (value / 256 % 256), UInt8.ofNat (value % 256)] := by
  have hlow (n : ℕ) : UInt8.ofNat (n % 256) = UInt8.ofNat n := UInt8.ofNat_mod_size
  rw [hlow, hlow]
  rfl

theorem closeFrame_of_ne {code : ℤ} (hcode : code ≠ 1006) (reason : Option Text) :
    closeFrame fresh code reason =
      (closePayload code (reason.getD [])).map fun bytes => wsBuildFrame .close bytes true := by
  have hlow : [UInt8.ofNat (code / 256 % 256).toNat, UInt8.ofNat (code % 256).toNat] =
      ofBigEndian 2 (code % 2 ^ 16).toNat := by
    have hhigh : (code % 2 ^ 16).toNat / 256 % 256 = (code / 256 % 256).toNat := by omega
    have hrest : (code % 2 ^ 16).toNat % 256 = (code % 256).toNat := by omega
    rw [ofBigEndian_two, hhigh, hrest]
  have hempty : closeFrame fresh code none =
      (closePayload code []).map fun bytes => wsBuildFrame .close bytes true := by
    simp only [closeFrame, closePayload, if_neg hcode, if_true, hlow, wsBuildFrameBytes_eq]
    split <;> rfl
  rcases reason with _ | _ | ⟨c, text⟩
  · exact hempty
  · have hsame : closeFrame fresh code (some []) = closeFrame fresh code none := by
      simp only [closeFrame, if_neg hcode]
    exact hsame.trans hempty
  · simp only [closeFrame, closePayload, if_neg hcode, hlow, Option.getD_some, cons_ne_nil, if_false]
    split
    · rename_i hfits
      rw [Int.emod_eq_of_lt hfits.1 hfits.2, Option.map_map]
      simp only [buildFramePy_eq]
      rfl
    · rfl

theorem closeFrame_eq (code : ℤ) (reason : Option Text) :
    closeFrame fresh code reason =
      (if code = 1006 then closePayload 1000 (plainText "1006:" ++ reason.getD [])
        else closePayload code (reason.getD [])).map fun bytes => wsBuildFrame .close bytes true := by
  split
  · rename_i hcode
    rw [hcode]
    have hnormal : (1000 : ℤ) ≠ 1006 := by decide
    exact closeFrame_of_ne fresh hnormal (some (plainText "1006:" ++ reason.getD []))
  · rename_i hcode
    exact closeFrame_of_ne fresh hcode reason

theorem rawWrites_flatten (rawEntries : List (WsOpcode × Bytes)) :
    (SendSocket.rawWrites fresh rawEntries).flatten =
      rawEntries.flatMap fun item => wsBuildFrameBytes fresh item.1 item.2 := by
  rw [SendSocket.rawWrites]
  split
  · rename_i hempty
    rw [hempty]
    rfl
  · rw [flatten_singleton, wsBuildFramesBatch_eq]

theorem corkWrites_flatten (entries : List (Option WsOpcode × Bytes))
    (rawEntries : List (WsOpcode × Bytes)) :
    (SendSocket.corkWrites fresh entries rawEntries).flatten =
      (rawEntries.flatMap fun item => wsBuildFrameBytes fresh item.1 item.2) ++
        entries.flatMap (entryFrame fresh) := by
  induction entries generalizing rawEntries with
  | nil =>
    rw [SendSocket.corkWrites, rawWrites_flatten, flatMap_nil, append_nil]
  | cons entry entries ih =>
    obtain ⟨opcode, payload⟩ := entry
    cases opcode with
    | none =>
      rw [SendSocket.corkWrites, flatten_append, rawWrites_flatten, flatten_cons, ih,
        flatMap_nil, nil_append, flatMap_cons]
      rfl
    | some opcode =>
      rw [SendSocket.corkWrites, ih, flatMap_append, flatMap_singleton, append_assoc, flatMap_cons]
      rfl

def SendSocket.sent (ws : SendSocket) : Bytes :=
  ws.written.flatten ++ ws.corkBuf.flatMap (entryFrame fresh)

/-- Nothing is ever queued for the next tick, and the cork buffer is empty unless the socket
is open and corked. -/
structure SendSocket.Ordered (ws : SendSocket) : Prop where
  notScheduled : ws.flushScheduled = false
  nonePending : ws.pendingSends = []
  kept : ws.corkBuf ≠ [] → ws.corked = true ∧ ws.closed = false

namespace SendSocket

variable {fresh buildJsonFrame} {ws : SendSocket}

theorem sent_of_nil (h : ws.corkBuf = []) : ws.sent fresh = ws.written.flatten := by
  rw [sent, h, flatMap_nil, append_nil]

theorem Ordered.corkBuf_nil (h : ws.Ordered) (hcork : ws.corked = false ∨ ws.closed = true) :
    ws.corkBuf = [] := by
  by_contra hkept
  obtain ⟨hcorked, hopen⟩ := h.kept hkept
  rcases hcork with hcork | hclosed
  · rw [hcork] at hcorked
    cases hcorked
  · rw [hclosed] at hopen
    cases hopen

theorem sent_write (h : ws.corkBuf = []) (data : Bytes) :
    (ws.write data).sent fresh = ws.sent fresh ++ data := by
  rw [sent_of_nil h, sent_of_nil (show (ws.write data).corkBuf = [] from h), write,
    flatten_append, flatten_singleton]

theorem flushCork_spec (ws : SendSocket) :
    (ws.flushCork fresh).corkBuf = [] ∧ (ws.flushCork fresh).sent fresh = ws.sent fresh ∧
      (ws.flushCork fresh).closed = ws.closed ∧
        (ws.flushCork fresh).flushScheduled = ws.flushScheduled ∧
          (ws.flushCork fresh).pendingSends = ws.pendingSends := by
  unfold flushCork
  split
  · rename_i hempty
    exact ⟨hempty, rfl, rfl, rfl, rfl⟩
  · refine ⟨rfl, ?_, rfl, rfl, rfl⟩
    rw [sent_of_nil rfl, flatten_append, corkWrites_flatten, flatMap_nil, nil_append, sent]

theorem Ordered.queueSend (h : ws.Ordered) (opcode : WsOpcode) (payload : Bytes) :
    ws.queueSend fresh opcode payload = ws.write (wsBuildFrameBytes fresh opcode payload) := by
  have hdirect : !ws.flushScheduled ∧ ws.pendingSends = [] := by
    rw [h.notScheduled]
    exact ⟨rfl, h.nonePending⟩
  rw [SendSocket.queueSend, if_pos hdirect]

theorem Ordered.flushPending (h : ws.Ordered) : ws.flushPending fresh = ws := by
  obtain ⟨closed, corked, corkBuf, pendingSends, flushScheduled, written⟩ := ws
  obtain rfl : flushScheduled = false := h.notScheduled
  obtain rfl : pendingSends = [] := h.nonePending
  rfl

theorem Ordered.sendFrame (h : ws.Ordered) (hopen : ws.closed = false) (frame : Bytes) :
    (ws.sendFrame frame).Ordered ∧ (ws.sendFrame frame).sent fresh = ws.sent fresh ++ frame ∧
      (ws.sendFrame frame).closed = false := by
  unfold SendSocket.sendFrame
  split
  · rename_i hcorked
    refine ⟨⟨h.notScheduled, h.nonePending, fun _ => ⟨hcorked, hopen⟩⟩, ?_, hopen⟩
    rw [sent, flatMap_append, flatMap_singleton, ← append_assoc]
    rfl
  · rename_i huncorked
    have hempty := h.corkBuf_nil (Or.inl (Bool.eq_false_iff.mpr huncorked))
    exact ⟨⟨h.notScheduled, h.nonePending, fun hkept => absurd hempty hkept⟩,
      sent_write hempty _, hopen⟩

theorem Ordered.sendRaw (h : ws.Ordered) (hopen : ws.closed = false) (opcode : WsOpcode)
    (payload : Bytes) :
    (ws.sendRaw fresh opcode payload).Ordered ∧ (ws.sendRaw fresh opcode payload).sent fresh =
        ws.sent fresh ++ wsBuildFrame opcode payload true ∧
      (ws.sendRaw fresh opcode payload).closed = false := by
  rw [← wsBuildFrameBytes_eq fresh]
  unfold SendSocket.sendRaw
  split
  · rename_i hcorked
    refine ⟨⟨h.notScheduled, h.nonePending, fun _ => ⟨hcorked, hopen⟩⟩, ?_, hopen⟩
    rw [sent, flatMap_append, flatMap_singleton, ← append_assoc]
    rfl
  · rename_i huncorked
    have hempty := h.corkBuf_nil (Or.inl (Bool.eq_false_iff.mpr huncorked))
    rw [h.queueSend]
    exact ⟨⟨h.notScheduled, h.nonePending, fun hkept => absurd hempty hkept⟩,
      sent_write hempty _, hopen⟩

theorem Ordered.close (h : ws.Ordered) (hopen : ws.closed = false) (code : ℤ)
    (reason : Option Text) :
    (ws.close fresh code reason).Ordered ∧ (ws.close fresh code reason).sent fresh =
        ws.sent fresh ++ ((closeFrame fresh code reason).toList).flatten ∧
      (ws.close fresh code reason).closed = true := by
  have hflushed : ∃ flushed : SendSocket, flushed =
      (if ws.corked then SendSocket.flushCork fresh { ws with closed := true }
        else { ws with closed := true }) ∧
      flushed.Ordered ∧ flushed.corkBuf = [] ∧ flushed.sent fresh = ws.sent fresh ∧
        flushed.closed = true := by
    refine ⟨_, rfl, ?_⟩
    split
    · obtain ⟨hempty, hsent, hclosed, hscheduled, hpending⟩ :=
        @flushCork_spec fresh { ws with closed := true }
      exact ⟨⟨hscheduled.trans h.notScheduled, hpending.trans h.nonePending,
        fun hkept => absurd hempty hkept⟩, hempty, hsent, hclosed⟩
    · rename_i huncorked
      have hempty := h.corkBuf_nil (Or.inl (Bool.eq_false_iff.mpr huncorked))
      exact ⟨⟨h.notScheduled, h.nonePending, fun hkept => absurd hempty hkept⟩, hempty, rfl, rfl⟩
  obtain ⟨flushed, hflushed, hordered, hempty, hsent, hclosed⟩ := hflushed
  simp only [SendSocket.close, hopen, Bool.false_eq_true, if_false, ← hflushed,
    hordered.nonePending, if_true]
  cases closeFrame fresh code reason with
  | none => exact ⟨hordered, by rw [hsent]; simp, hclosed⟩
  | some frame =>
    refine ⟨⟨hordered.notScheduled, hordered.nonePending, fun hkept => absurd hempty hkept⟩, ?_,
      hclosed⟩
    rw [sent_write hempty, hsent]
    simp

/-- What will have been written after the calls. -/
def due (fresh : FreshMemory) (buildJsonFrame : J → WsOpcode → Option Bytes) (ws : SendSocket)
    (calls : List (SendCall J)) : Bytes :=
  ws.sent fresh ++ if ws.closed then [] else (sendFrames buildJsonFrame calls).flatten

theorem due_closed (h : ws.closed = true) (calls : List (SendCall J)) :
    due fresh buildJsonFrame ws calls = ws.sent fresh := by
  rw [due, h, if_pos rfl, append_nil]

theorem due_open (h : ws.closed = false) (calls : List (SendCall J)) :
    due fresh buildJsonFrame ws calls =
      ws.sent fresh ++ (sendFrames buildJsonFrame calls).flatten := by
  rw [due, h, if_neg Bool.false_ne_true]

/-- A call that does not send anything. -/
theorem Ordered.quiet {ws' : SendSocket} (hordered : ws'.Ordered)
    (hsent : ws'.sent fresh = ws.sent fresh) (hclosed : ws'.closed = ws.closed)
    {call : SendCall J} {calls : List (SendCall J)}
    (hframes : ws.closed = false → sendFrames buildJsonFrame (call :: calls) =
      sendFrames buildJsonFrame calls) :
    ws'.Ordered ∧
      due fresh buildJsonFrame ws' calls = due fresh buildJsonFrame ws (call :: calls) := by
  refine ⟨hordered, ?_⟩
  cases hopen : ws.closed with
  | true => rw [due_closed hopen, due_closed (hclosed.trans hopen), hsent]
  | false => rw [due_open hopen, due_open (hclosed.trans hopen), hsent, hframes hopen]

theorem Ordered.sends {ws' : SendSocket} (hopen : ws.closed = false) {frame : Bytes}
    (h : ws'.Ordered ∧ ws'.sent fresh = ws.sent fresh ++ frame ∧ ws'.closed = false)
    {call : SendCall J} {calls : List (SendCall J)}
    (hframes : sendFrames buildJsonFrame (call :: calls) =
      frame :: sendFrames buildJsonFrame calls) :
    ws'.Ordered ∧
      due fresh buildJsonFrame ws' calls = due fresh buildJsonFrame ws (call :: calls) := by
  refine ⟨h.1, ?_⟩
  rw [due_open hopen, due_open h.2.2, h.2.1, hframes, flatten_cons, append_assoc]

/-- No call loses, repeats or moves a frame. -/
theorem Ordered.step (h : ws.Ordered) (call : SendCall J) (calls : List (SendCall J)) :
    (ws.step fresh buildJsonFrame call).Ordered ∧
      due fresh buildJsonFrame (ws.step fresh buildJsonFrame call) calls =
        due fresh buildJsonFrame ws (call :: calls) := by
  have hsame {call : SendCall J} (hframes : ws.closed = false →
      sendFrames _ _ = sendFrames _ _) :
      ws.Ordered ∧
        due fresh buildJsonFrame ws calls = due fresh buildJsonFrame ws (call :: calls) :=
    h.quiet rfl rfl hframes
  cases call with
  | sendText data =>
    rw [SendSocket.step]
    split
    · rename_i hclosed
      exact hsame fun hopen => absurd (hopen.symm.trans hclosed) Bool.false_ne_true
    · rename_i hopen
      have hopen := Bool.eq_false_iff.mpr hopen
      cases data with
      | inl text =>
        simp only [textPayload]
        cases hpayload : text.utf8 with
        | none => exact hsame fun _ => by rw [sendFrames, hpayload]; rfl
        | some payload =>
          exact Ordered.sends hopen (h.sendRaw hopen .text _) (by rw [sendFrames, hpayload]; rfl)
      | inr bytes => exact Ordered.sends hopen (h.sendRaw hopen .text _) rfl
  | sendBytes data =>
    rw [SendSocket.step]
    split
    · rename_i hclosed
      exact hsame fun hopen => absurd (hopen.symm.trans hclosed) Bool.false_ne_true
    · rename_i hopen
      have hopen := Bool.eq_false_iff.mpr hopen
      exact Ordered.sends hopen (h.sendRaw hopen .binary _) rfl
  | sendJson data text =>
    rw [SendSocket.step]
    split
    · rename_i hclosed
      exact hsame fun hopen => absurd (hopen.symm.trans hclosed) Bool.false_ne_true
    · rename_i hopen
      have hopen := Bool.eq_false_iff.mpr hopen
      cases hframe : buildJsonFrame data (jsonOpcode text) with
      | none => exact hsame fun _ => by rw [sendFrames, hframe]; rfl
      | some frame =>
        exact Ordered.sends hopen (h.sendFrame hopen _) (by rw [sendFrames, hframe]; rfl)
  | cork =>
    have hordered : SendSocket.Ordered { ws with corked := true } :=
      ⟨h.notScheduled, h.nonePending, fun hkept => ⟨rfl, (h.kept hkept).2⟩⟩
    exact hordered.quiet rfl rfl fun _ => rfl
  | uncork =>
    obtain ⟨hempty, hsent, hclosed, hscheduled, hpending⟩ := @flushCork_spec fresh ws
    have hordered : SendSocket.Ordered { ws.flushCork fresh with corked := false } :=
      ⟨hscheduled.trans h.notScheduled, hpending.trans h.nonePending,
        fun hkept => absurd hempty hkept⟩
    exact hordered.quiet hsent hclosed fun _ => rfl
  | close code reason =>
    cases hopen : ws.closed with
    | true =>
      rw [SendSocket.step, SendSocket.close, if_pos hopen]
      exact hsame fun hfalse => absurd (hfalse.symm.trans hopen) Bool.false_ne_true
    | false =>
      obtain ⟨hordered, hsent, hclosed⟩ := @Ordered.close fresh ws h hopen code reason
      refine ⟨hordered, ?_⟩
      rw [SendSocket.step, due_closed hclosed, due_open hopen, hsent, closeFrame_eq]
      rfl
  | flushPending =>
    rw [SendSocket.step, h.flushPending]
    exact hsame fun _ => rfl

theorem Ordered.run (h : ws.Ordered) (calls : List (SendCall J)) :
    (calls.foldl (SendSocket.step fresh buildJsonFrame) ws).Ordered ∧
      (calls.foldl (SendSocket.step fresh buildJsonFrame) ws).sent fresh =
        due fresh buildJsonFrame ws calls := by
  induction calls generalizing ws with
  | nil =>
    refine ⟨h, ?_⟩
    rw [due, foldl_nil]
    split <;> simp [sendFrames]
  | cons call calls ih =>
    obtain ⟨hnext, hdue⟩ := @Ordered.step J fresh buildJsonFrame ws h call calls
    obtain ⟨hordered, hsent⟩ := ih hnext
    exact ⟨hordered, hsent.trans hdue⟩

end SendSocket

/-- What is sent leaves in the order of the calls, once each, and the builders agree. -/
theorem sends_in_order :
    (∀ calls : List (SendCall J),
      let ws := calls.foldl (SendSocket.step fresh buildJsonFrame) {}
      ws.corked = false ∨ ws.closed = true →
        ws.written.flatten = (sendFrames buildJsonFrame calls).flatten) ∧
    (∀ items, wsBuildFramesBatch fresh items =
      items.flatMap fun item => wsBuildFrameBytes fresh item.1 item.2) ∧
    ∀ opcode payload, wsBuildFrameBytes fresh opcode payload = buildFramePy opcode payload := by
  refine ⟨?_, wsBuildFramesBatch_eq _, ?_⟩
  · intro calls ws hcork
    have hstart : SendSocket.Ordered {} := ⟨rfl, rfl, fun hkept => absurd rfl hkept⟩
    obtain ⟨hordered, hsent⟩ := @SendSocket.Ordered.run J fresh buildJsonFrame {} hstart calls
    rw [SendSocket.sent_of_nil (hordered.corkBuf_nil hcork)] at hsent
    exact hsent
  · intro opcode payload
    rw [wsBuildFrameBytes_eq, buildFramePy_eq]

end Order

def zeroMemory : FreshMemory := fun size => ⟨List.replicate size 0, length_zeros size⟩

def corkedCalls : List (SendCall Bytes) :=
  [.sendText (.inl (plainText "a")), .cork, .sendBytes [1, 2], .sendJson (ascii "[]") true,
    .sendText (.inr [98]), .uncork, .flushPending, .close 1000 none]

theorem sends_in_order_corked :
    (corkedCalls.foldl (SendSocket.step zeroMemory fun data opcode =>
        some (wsBuildFrame opcode data true)) {}).written.flatten =
      (sendFrames (fun data opcode => some (wsBuildFrame opcode data true))
        corkedCalls).flatten :=
  (sends_in_order _ fun data opcode => some _).1 corkedCalls (Or.inl (by decide))

end AstraApi.WebSocket
