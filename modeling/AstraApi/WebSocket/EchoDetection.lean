import AstraApi.WebSocket.Stream
import AstraApi.Lib.Text

/-!
# Echo detection

`send_text` and `send_json` compare what an endpoint sends with what it received
last; on a match they hand the connection over to a loop in C++ that sends every
frame back.  The constructor switches this detection off, with a counter of -1, and
no method switches it on: the counter changes only where it is not negative.
-/

namespace AstraApi.WebSocket

open Bytes

/-- The values of `_ws_handler`. -/
inductive FrameHandler where
  | frames
  | json
  | echo
  | echoFd
  deriving DecidableEq

def FrameHandler.echoes : FrameHandler → Bool
  | .echo | .echoFd => true
  | .frames | .json => false

/-- What the interpreter and the C++ module bring: JSON values with their identity,
the call `ws_echo_direct`, and whether the socket has a descriptor. -/
structure WsRuntime (J : Type*) where
  yyjsonParse : Bytes → Option J
  /-- `ws_parse_json`; `none` when it raises. -/
  parseJson : Bytes → Option J
  isNone : J → Bool
  /-- The bytes of a value that is a string. -/
  asString : J → Option Bytes
  serializeJson : J → Option Bytes
  same : J → J → Bool
  echoDirect : DirectState → Bytes → DirectState × Option (Option Bytes × Option Bytes)
  hasFd : Bool

structure CppWebSocket (J : Type*) where
  connection : DirectState
  handler : FrameHandler := .frames
  channel : List (WsOpcode × JsonPayload J) := []
  echoDetectCount : ℤ := -1
  lastReceived : Option Text := none
  lastReceivedJson : Option J := none
  closed : Bool := false
  written : List Bytes := []

/-- What an endpoint asks of its connection. -/
inductive EndpointCall (J : Type*) where
  | receiveText
  | receiveJson
  | sendText (data : Text)
  | sendJson (data : J)
  | disableEchoDetection

inductive EndpointAnswer (J : Type*) where
  | text (data : Bytes)
  | json (value : J)
  | done
  | raised

/-- The next call of an endpoint, after the answers to its calls; `none` when it has
returned. -/
abbrev WsEndpoint (J : Type*) := List (EndpointAnswer J) → Option (EndpointCall J)

section Socket

variable {J : Type*} (runtime : WsRuntime J)

namespace CppWebSocket

def write (socket : CppWebSocket J) (data : Bytes) : CppWebSocket J :=
  { socket with written := socket.written ++ [data] }

def writeSome (socket : CppWebSocket J) : Option Bytes → CppWebSocket J
  | none => socket
  | some data => socket.write data

def sendCloseResponse (socket : CppWebSocket J) (payload : Bytes) : CppWebSocket J :=
  let code := if 2 ≤ payload.length then payload.take 2 else ofBigEndian 2 1000
  socket.write (wsBuildFrame .close code true)

def resetRing (socket : CppWebSocket J) : CppWebSocket J :=
  { socket with
    connection := { socket.connection with
      ring := socket.connection.ring.reset
      assembler := socket.connection.assembler.reset } }

def feedFrame (socket : CppWebSocket J) (frame : WsOpcode × JsonPayload J) : CppWebSocket J :=
  { socket with channel := socket.channel ++ [frame] }

/-- What `py_ws_handle_and_feed` puts into the channel. -/
def fedPayload (message : Message) : JsonPayload J :=
  if message.1 = .text then .str message.2 else .bytes message.2

/-- A close frame, or a protocol error, that `_handle_ws_frames` was told about. -/
def closeFrames (socket : CppWebSocket J) (payload : Bytes) (framesFed : ℕ) : CppWebSocket J :=
  let closing :=
    if socket.closed then socket
    else
      let socket := { socket with closed := true }
      if framesFed = 0 then socket.feedFrame (.close, .bytes payload) else socket
  (closing.sendCloseResponse payload).resetRing

def handleWsFrames (socket : CppWebSocket J) (data : Bytes) : CppWebSocket J :=
  let (connection, fed, result) :=
    wsHandleAndFeed socket.connection.toWsConnectionState data {}
  let socket :=
    { socket with
      connection := { socket.connection with toWsConnectionState := connection }
      channel := socket.channel ++ fed.buffer.map fun message => (message.1, fedPayload message) }
  match result with
  | none => socket
  | some (pong, none, _) => socket.writeSome pong
  | some (pong, some payload, framesFed) =>
    (socket.writeSome pong).closeFrames payload framesFed

def feedFrames (socket : CppWebSocket J) : List (WsOpcode × JsonPayload J) → CppWebSocket J
  | [] => socket
  | (opcode, payload) :: frames =>
    let socket := socket.feedFrame (opcode, payload)
    if opcode = .close then
      match payload with
      | .bytes data | .str data => (socket.sendCloseResponse data).resetRing
      | .json _ => socket
    else socket.feedFrames frames

def handleWsFramesJson (socket : CppWebSocket J) (data : Bytes) : CppWebSocket J :=
  let (connection, result) :=
    wsHandleJsonDirect runtime.yyjsonParse socket.connection.toWsConnectionState data
  let socket :=
    { socket with connection := { socket.connection with toWsConnectionState := connection } }
  match result with
  | none => socket
  | some (frames, pong) => (socket.writeSome pong).feedFrames frames

def closeEcho (socket : CppWebSocket J) (payload : Bytes) : CppWebSocket J :=
  ({ socket with closed := true }.feedFrame (.close, .bytes payload)).sendCloseResponse payload

def handleWsFramesEcho (socket : CppWebSocket J) (data : Bytes) : CppWebSocket J :=
  let (connection, result) := runtime.echoDirect socket.connection data
  let socket := { socket with connection := connection }
  match result with
  | none => socket
  | some (echo, none) => socket.writeSome echo
  | some (echo, some payload) => (socket.writeSome echo).closeEcho payload

def handleWsFramesEchoFd (socket : CppWebSocket J) (data : Bytes) (answers : List ℕ) :
    CppWebSocket J :=
  let (accepted, reply, connection) := wsEchoDirectFdV2 socket.connection data answers
  let socket := { socket with connection := connection }.write accepted
  match reply with
  | .closed payload => socket.closeEcho payload
  | .done | .again => socket

def dataReceived (socket : CppWebSocket J) (data : Bytes) (answers : List ℕ) : CppWebSocket J :=
  match socket.handler with
  | .frames => socket.handleWsFrames data
  | .json => socket.handleWsFramesJson runtime data
  | .echo => socket.handleWsFramesEcho runtime data
  | .echoFd => socket.handleWsFramesEchoFd data answers

def flushWsEchoPending (socket : CppWebSocket J) (answer : ℕ) : CppWebSocket J :=
  let (accepted, _, connection) := wsFlushPending socket.connection answer
  { socket with connection := connection }.write accepted

def disableEchoDetection (socket : CppWebSocket J) : CppWebSocket J :=
  { socket with echoDetectCount := -1 }

/-- A match: the connection goes over to an echo handler. -/
def matched (socket : CppWebSocket J) : CppWebSocket J :=
  if 1 ≤ socket.echoDetectCount + 1 then
    { socket with
      handler := if runtime.hasFd then .echoFd else .echo
      echoDetectCount := -1 }
  else { socket with echoDetectCount := socket.echoDetectCount + 1 }

def detectText (socket : CppWebSocket J) (data : Text) : CppWebSocket J :=
  if 0 ≤ socket.echoDetectCount then
    let detected :=
      if socket.lastReceived = some data then socket.matched runtime
      else { socket with echoDetectCount := 0 }
    { detected with lastReceived := none }
  else socket

def detectJson (socket : CppWebSocket J) (data : J) : CppWebSocket J :=
  match socket.lastReceivedJson with
  | none => socket
  | some last =>
    if 0 ≤ socket.echoDetectCount then
      let detected :=
        if runtime.same data last then socket.matched runtime
        else { socket with echoDetectCount := 0 }
      { detected with lastReceivedJson := none }
    else socket

def sendText (detection : Bool) (socket : CppWebSocket J) (data : Text) :
    CppWebSocket J × EndpointAnswer J :=
  if socket.closed then (socket, .raised)
  else
    let socket := if detection then socket.detectText runtime data else socket
    match data.utf8 with
    | none => (socket, .raised)
    | some payload => (socket.write (wsBuildFrame .text payload true), .done)

def sendJson (detection : Bool) (socket : CppWebSocket J) (data : J) :
    CppWebSocket J × EndpointAnswer J :=
  if socket.closed then (socket, .raised)
  else
    let socket := if detection then socket.detectJson runtime data else socket
    match runtime.serializeJson data with
    | none => (socket, .raised)
    | some payload => (socket.write (wsBuildFrame .text payload true), .done)

/-- `receive_text` with a message; a parsed value has no `decode`. -/
def receiveText (socket : CppWebSocket J) (frame : WsOpcode × JsonPayload J) :
    CppWebSocket J × EndpointAnswer J :=
  if frame.1 = .close then ({ socket with closed := true }, .raised)
  else
    match frame.2 with
    | .str data => (socket, .text data)
    | .bytes data => (socket, if (Text.ofUtf8 data).isSome then .text data else .raised)
    | .json value =>
      match runtime.asString value with
      | some data => (socket, .text data)
      | none => (socket, .raised)

/-- Remember a value for the detection of `send_json`. -/
def received (socket : CppWebSocket J) : Option J → CppWebSocket J × EndpointAnswer J
  | none => (socket, .raised)
  | some value =>
    ({ socket with lastReceivedJson := if runtime.isNone value then none else some value },
      .json value)

/-- `receive_json` with a message; a string is parsed. -/
def receiveJson (socket : CppWebSocket J) (frame : WsOpcode × JsonPayload J) :
    CppWebSocket J × EndpointAnswer J :=
  if frame.1 = .close then ({ socket with closed := true }, .raised)
  else
    match frame.2 with
    | .str data | .bytes data => socket.received runtime (runtime.parseJson data)
    | .json value =>
      match runtime.asString value with
      | some data => socket.received runtime (runtime.parseJson data)
      | none => socket.received runtime (some value)

end CppWebSocket

/-! ## Runs -/

structure WsSession (J : Type*) where
  socket : CppWebSocket J
  answers : List (EndpointAnswer J) := []

/-- What happens on a connection: a chunk arrives, the endpoint makes its next call,
pending output is flushed, or echo detection is disabled. -/
inductive SocketEvent where
  | data (chunk : Bytes) (answers : List ℕ)
  | endpoint
  | flush (answer : ℕ)
  | disableEchoDetection
  deriving DecidableEq

namespace WsSession

def answer (session : WsSession J) (result : CppWebSocket J × EndpointAnswer J) : WsSession J :=
  { socket := result.1, answers := session.answers ++ [result.2] }

/-- The next message for a receiver; without one it keeps waiting. -/
def take (session : WsSession J)
    (receive : CppWebSocket J → WsOpcode × JsonPayload J → CppWebSocket J × EndpointAnswer J) :
    WsSession J :=
  match session.socket.channel with
  | [] => session
  | frame :: channel => session.answer (receive { session.socket with channel := channel } frame)

def call (detection : Bool) (session : WsSession J) : EndpointCall J → WsSession J
  | .receiveText => session.take (CppWebSocket.receiveText runtime)
  | .receiveJson =>
    -- the handler changes before the receiver waits
    { session with socket := { session.socket with handler := .json } }.take
      (CppWebSocket.receiveJson runtime)
  | .sendText data => session.answer (session.socket.sendText runtime detection data)
  | .sendJson data => session.answer (session.socket.sendJson runtime detection data)
  | .disableEchoDetection => session.answer (session.socket.disableEchoDetection, .done)

def step (detection : Bool) (endpoint : WsEndpoint J) (session : WsSession J) :
    SocketEvent → WsSession J
  | .data chunk answers =>
    { session with socket := session.socket.dataReceived runtime chunk answers }
  | .endpoint =>
    match endpoint session.answers with
    | none => session
    | some call => session.call runtime detection call
  | .flush answer => { session with socket := session.socket.flushWsEchoPending answer }
  | .disableEchoDetection => { session with socket := session.socket.disableEchoDetection }

def run (detection : Bool) (endpoint : WsEndpoint J) (connection : DirectState)
    (events : List SocketEvent) : WsSession J :=
  events.foldl (step runtime detection endpoint) { socket := { connection } }

end WsSession

/-! ## Detection stays off -/

namespace CppWebSocket

structure Undetected (socket : CppWebSocket J) : Prop where
  off : socket.echoDetectCount = -1
  handler : socket.handler.echoes = false

theorem detectText_of_off {socket : CppWebSocket J} (h : socket.echoDetectCount = -1)
    (data : Text) : socket.detectText runtime data = socket := by
  rw [detectText, h, if_neg (by decide)]

theorem detectJson_of_off {socket : CppWebSocket J} (h : socket.echoDetectCount = -1) (data : J) :
    socket.detectJson runtime data = socket := by
  rw [detectJson]
  cases socket.lastReceivedJson with
  | none => rfl
  | some last => simp [h]

theorem disableEchoDetection_of_off {socket : CppWebSocket J} (h : socket.echoDetectCount = -1) :
    socket.disableEchoDetection = socket := by
  rw [disableEchoDetection, ← h]

/-- The fields that decide about echoing. -/
def Alike (left right : CppWebSocket J) : Prop :=
  left.echoDetectCount = right.echoDetectCount ∧ left.handler = right.handler

theorem Undetected.congr {left right : CppWebSocket J} (h : right.Undetected)
    (halike : left.Alike right) : left.Undetected :=
  ⟨halike.1.trans h.off, by rw [halike.2]; exact h.handler⟩

theorem Alike.trans {left middle right : CppWebSocket J} (h : left.Alike middle)
    (h' : middle.Alike right) : left.Alike right :=
  ⟨h.1.trans h'.1, h.2.trans h'.2⟩

theorem writeSome_alike (socket : CppWebSocket J) (data : Option Bytes) :
    (socket.writeSome data).Alike socket := by
  cases data <;> exact ⟨rfl, rfl⟩

theorem feedFrames_alike (socket : CppWebSocket J) (frames : List (WsOpcode × JsonPayload J)) :
    (socket.feedFrames frames).Alike socket := by
  induction frames generalizing socket with
  | nil => exact ⟨rfl, rfl⟩
  | cons frame frames ih =>
    cases frame with
    | mk opcode payload =>
      simp only [feedFrames]
      split
      · cases payload <;> exact ⟨rfl, rfl⟩
      · exact (ih _).trans ⟨rfl, rfl⟩

theorem closeFrames_alike (socket : CppWebSocket J) (payload : Bytes) (framesFed : ℕ) :
    (socket.closeFrames payload framesFed).Alike socket := by
  simp only [closeFrames]
  split
  · exact ⟨rfl, rfl⟩
  · split <;> exact ⟨rfl, rfl⟩

theorem handleWsFrames_alike (socket : CppWebSocket J) (data : Bytes) :
    (socket.handleWsFrames data).Alike socket := by
  simp only [handleWsFrames]
  generalize wsHandleAndFeed socket.connection.toWsConnectionState data {} = out
  match out.2.2 with
  | none => exact ⟨rfl, rfl⟩
  | some (pong, none, framesFed) => exact (writeSome_alike _ _).trans ⟨rfl, rfl⟩
  | some (pong, some _, framesFed) =>
    exact (closeFrames_alike _ _ _).trans ((writeSome_alike _ _).trans ⟨rfl, rfl⟩)

theorem handleWsFramesJson_alike (socket : CppWebSocket J) (data : Bytes) :
    (socket.handleWsFramesJson runtime data).Alike socket := by
  simp only [handleWsFramesJson]
  generalize wsHandleJsonDirect runtime.yyjsonParse socket.connection.toWsConnectionState data = out
  cases out.2 with
  | none => exact ⟨rfl, rfl⟩
  | some result =>
    exact (feedFrames_alike _ _).trans ((writeSome_alike _ _).trans ⟨rfl, rfl⟩)

theorem Undetected.dataReceived {socket : CppWebSocket J} (h : socket.Undetected) (data : Bytes)
    (answers : List ℕ) : (socket.dataReceived runtime data answers).Undetected := by
  have hhandler := h.handler
  rw [CppWebSocket.dataReceived]
  cases hcase : socket.handler with
  | frames => exact h.congr (handleWsFrames_alike _ _)
  | json => exact h.congr (handleWsFramesJson_alike _ _ _)
  | echo | echoFd =>
    rw [hcase] at hhandler
    cases hhandler

theorem sendText_detection {socket : CppWebSocket J} (h : socket.Undetected) (data : Text) :
    socket.sendText runtime true data = socket.sendText runtime false data := by
  simp [sendText, detectText_of_off _ h.off]

theorem sendJson_detection {socket : CppWebSocket J} (h : socket.Undetected) (data : J) :
    socket.sendJson runtime true data = socket.sendJson runtime false data := by
  simp [sendJson, detectJson_of_off _ h.off]

theorem Undetected.sendText {socket : CppWebSocket J} (h : socket.Undetected) (data : Text) :
    (socket.sendText runtime false data).1.Undetected := by
  simp only [CppWebSocket.sendText]
  split
  · exact h
  · split <;> exact ⟨h.off, h.handler⟩

theorem Undetected.sendJson {socket : CppWebSocket J} (h : socket.Undetected) (data : J) :
    (socket.sendJson runtime false data).1.Undetected := by
  simp only [CppWebSocket.sendJson]
  split
  · exact h
  · split <;> exact ⟨h.off, h.handler⟩

theorem Undetected.receiveText {socket : CppWebSocket J} (h : socket.Undetected)
    (frame : WsOpcode × JsonPayload J) : (socket.receiveText runtime frame).1.Undetected := by
  simp only [CppWebSocket.receiveText]
  split
  · exact ⟨h.off, h.handler⟩
  · cases frame.2 with
    | str data | bytes data => exact h
    | json value => cases hstring : runtime.asString value <;> simpa [hstring] using h

theorem Undetected.received {socket : CppWebSocket J} (h : socket.Undetected) (value : Option J) :
    (socket.received runtime value).1.Undetected := by
  cases value with
  | none => exact h
  | some value => exact ⟨h.off, h.handler⟩

theorem Undetected.receiveJson {socket : CppWebSocket J} (h : socket.Undetected)
    (frame : WsOpcode × JsonPayload J) : (socket.receiveJson runtime frame).1.Undetected := by
  simp only [CppWebSocket.receiveJson]
  split
  · exact ⟨h.off, h.handler⟩
  · cases frame.2 with
    | str data | bytes data => exact h.received _ _
    | json value =>
      simp only
      cases runtime.asString value <;> exact h.received _ _

end CppWebSocket

namespace WsSession

open CppWebSocket

theorem take_undetected {session : WsSession J} (h : session.socket.Undetected)
    {receive : CppWebSocket J → WsOpcode × JsonPayload J → CppWebSocket J × EndpointAnswer J}
    (hreceive : ∀ socket : CppWebSocket J, socket.Undetected →
      ∀ frame, (receive socket frame).1.Undetected) : (session.take receive).socket.Undetected := by
  rw [take]
  cases session.socket.channel with
  | nil => exact h
  | cons frame channel =>
    exact hreceive { session.socket with channel := channel } ⟨h.off, h.handler⟩ _

theorem call_detection {session : WsSession J} (h : session.socket.Undetected)
    (call : EndpointCall J) :
    session.call runtime true call = session.call runtime false call := by
  cases call with
  | sendText data =>
    simp [WsSession.call, sendText_detection _ h]
  | sendJson data =>
    simp [WsSession.call, sendJson_detection _ h]
  | receiveText | receiveJson | disableEchoDetection => rfl

theorem call_undetected {session : WsSession J} (h : session.socket.Undetected)
    (call : EndpointCall J) : (session.call runtime false call).socket.Undetected := by
  cases call with
  | sendText data => exact h.sendText _ _
  | sendJson data => exact h.sendJson _ _
  | receiveText => exact take_undetected h fun socket hsocket => hsocket.receiveText _
  | receiveJson =>
    apply take_undetected
    · exact ⟨h.off, rfl⟩
    · exact fun socket hsocket => hsocket.receiveJson _
  | disableEchoDetection => exact ⟨rfl, h.handler⟩

variable (endpoint : WsEndpoint J)

theorem step_detection {session : WsSession J} (h : session.socket.Undetected)
    (event : SocketEvent) :
    session.step runtime true endpoint event = session.step runtime false endpoint event := by
  cases event with
  | endpoint =>
    simp only [step]
    cases endpoint session.answers with
    | none => rfl
    | some call => exact call_detection _ h _
  | data chunk answers | flush answer | disableEchoDetection => rfl

theorem step_undetected {session : WsSession J} (h : session.socket.Undetected)
    (event : SocketEvent) :
    (session.step runtime false endpoint event).socket.Undetected := by
  cases event with
  | data chunk answers => exact h.dataReceived _ _ _
  | endpoint =>
    simp only [step]
    cases endpoint session.answers with
    | none => exact h
    | some call => exact call_undetected _ h _
  | flush answer => exact ⟨h.off, h.handler⟩
  | disableEchoDetection => exact ⟨rfl, h.handler⟩

theorem step_disable {session : WsSession J} (h : session.socket.Undetected) (detection : Bool) :
    session.step runtime detection endpoint .disableEchoDetection = session := by
  rw [step, disableEchoDetection_of_off h.off]

/-- Over any events, neither the detection nor its being disabled makes a
difference. -/
theorem foldl_undetected {session : WsSession J} (h : session.socket.Undetected)
    (events : List SocketEvent) :
    (events.foldl (step runtime true endpoint) session).socket.Undetected ∧
      events.foldl (step runtime true endpoint) session =
        (events.filter (· ≠ .disableEchoDetection)).foldl (step runtime false endpoint) session := by
  induction events generalizing session with
  | nil => exact ⟨h, rfl⟩
  | cons event events ih =>
    by_cases hdisable : event = .disableEchoDetection
    · subst hdisable
      rw [List.foldl_cons, step_disable _ _ h]
      simpa using ih h
    · rw [List.foldl_cons, step_detection _ _ h]
      have hrest := ih (step_undetected runtime endpoint h event)
      simpa [hdisable] using hrest

end WsSession

/-- Echo detection makes no difference to a connection: what it writes does not
depend on whether or when detection is disabled, it is what a connection without
detection writes, and the endpoint is never replaced. -/
theorem echoDetection_transparent (endpoint : WsEndpoint J) (connection : DirectState)
    (events : List SocketEvent) :
    let session := WsSession.run runtime true endpoint connection events
    let undisturbed := events.filter (· ≠ .disableEchoDetection)
    session = WsSession.run runtime true endpoint connection undisturbed ∧
      session = WsSession.run runtime false endpoint connection undisturbed ∧
        session.socket.handler.echoes = false := by
  have hstart : (⟨{ connection := connection }, []⟩ : WsSession J).socket.Undetected := ⟨rfl, rfl⟩
  have hrun := WsSession.foldl_undetected runtime endpoint hstart events
  have hfiltered := WsSession.foldl_undetected runtime endpoint hstart
    (events.filter (· ≠ .disableEchoDetection))
  rw [List.filter_filter] at hfiltered
  simp only [Bool.and_self] at hfiltered
  exact ⟨hrun.2.trans hfiltered.2.symm, hrun.2, hrun.1.handler⟩

end Socket

end AstraApi.WebSocket
