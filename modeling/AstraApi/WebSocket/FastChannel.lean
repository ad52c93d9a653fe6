import AstraApi.WebSocket.EchoDetection
import AstraApi.WebSocket.Refusal
import Mathlib

/-!
# The message channel

`_WsFastChannel` between three producers and one consumer: `py_ws_handle_and_feed` with
the clean-up of `_handle_ws_frames`, `_feed_frames`, and `feed` put frames into a future
or a deque, and `get` takes them out.  Only `feed` counts the bytes that it stores and
looks at the high-water marks.
-/

namespace AstraApi.WebSocket

open List
open Bytes

variable {J : Type*}

abbrev Frame (J : Type*) := WsOpcode × JsonPayload J

/-- A message with the payload that `py_ws_handle_and_feed` makes of it. -/
def asFrame (message : Message) : Frame J := (message.1, CppWebSocket.fedPayload message)

/-- The states of an `asyncio` future. -/
inductive Future (A : Type*) where
  | pending
  | finished (result : A)
  | cancelled

/-- The consumer is outside `get`, or its `get` awaits a future; the task may have been
cancelled after the future had its result. -/
inductive Consumer where
  | idle
  | awaits (future : ℕ) (mustCancel : Bool)
  deriving DecidableEq

/-- A channel, the futures that `get` has created, and whether its transport reads.
All frames that were fed and all that `get` returned are kept for the statements. -/
structure FastChannel (J : Type*) where
  futures : List (Future (Frame J)) := []
  waiter : Option ℕ := none
  buffer : List (Frame J) := []
  paused : Bool := false
  totalBytes : ℤ := 0
  reading : Bool := true
  consumer : Consumer := .idle
  delivered : List (Frame J) := []
  returned : List (Frame J) := []

namespace FastChannel

def highWater : ℕ := 256
def lowWater : ℕ := 64
def byteHighWater : ℕ := 8388608
def byteLowWater : ℕ := 2097152

/-- The future `_waiter`, if its result is not yet set. -/
def pendingWaiter (channel : FastChannel J) : Option ℕ :=
  channel.waiter.filter fun future =>
    match channel.futures[future]? with
    | some .pending => true
    | _ => false

def setResult (channel : FastChannel J) (future : ℕ) (frame : Frame J) : FastChannel J :=
  { channel with
    futures := channel.futures.set future (.finished frame)
    delivered := channel.delivered ++ [frame] }

def append (channel : FastChannel J) (frame : Frame J) : FastChannel J :=
  { channel with
    buffer := channel.buffer ++ [frame]
    delivered := channel.delivered ++ [frame] }

/-- The feeding loops of `py_ws_handle_and_feed`; the waiter is looked at once. -/
def feedDirect (channel : FastChannel J) : Option ℕ → List (Frame J) → FastChannel J
  | _, [] => channel
  | some future, frame :: frames => (channel.setResult future frame).feedDirect none frames
  | none, frame :: frames => (channel.append frame).feedDirect none frames

/-- The loop of `_feed_frames`, which ends behind a close frame. -/
def feedFrames (channel : FastChannel J) : Option ℕ → List (Frame J) → FastChannel J
  | _, [] => channel
  | some future, frame :: frames =>
    let channel := { channel.setResult future frame with waiter := none }
    if frame.1 = .close then channel else channel.feedFrames none frames
  | none, frame :: frames =>
    let channel := channel.append frame
    if frame.1 = .close then channel else channel.feedFrames none frames

variable (length : JsonPayload J → ℕ)

def payloadLengths (frames : List (Frame J)) : ℕ := (frames.map fun frame => length frame.2).sum

/-- `feed`; `length` is `len` for `bytes`, `str` and `bytearray`, and 0 for any other
type. -/
def feed (channel : FastChannel J) (frame : Frame J) : FastChannel J :=
  match channel.pendingWaiter with
  | some future => { channel.setResult future frame with waiter := none }
  | none =>
    let channel := { channel.append frame with totalBytes := channel.totalBytes + length frame.2 }
    if channel.paused = false ∧
        (highWater ≤ channel.buffer.length ∨ (byteHighWater : ℤ) ≤ channel.totalBytes) then
      { channel with paused := true, reading := false }
    else channel

/-- `get`, up to its first suspension. -/
def get (channel : FastChannel J) : FastChannel J :=
  match channel.buffer with
  | [] =>
    { channel with
      futures := channel.futures ++ [.pending]
      waiter := some channel.futures.length
      consumer := .awaits channel.futures.length false }
  | frame :: rest =>
    let channel :=
      { channel with
        waiter := channel.pendingWaiter
        buffer := rest
        totalBytes := channel.totalBytes - length frame.2
        returned := channel.returned ++ [frame] }
    if channel.paused = true ∧ channel.buffer.length ≤ lowWater ∧
        channel.totalBytes ≤ (byteLowWater : ℤ) then
      { channel with paused := false, reading := true }
    else channel

/-- The consumer's task goes on once its future is done. -/
def wake (channel : FastChannel J) : FastChannel J :=
  match channel.consumer with
  | .idle => channel
  | .awaits future mustCancel =>
    match channel.futures[future]? with
    | some (.finished frame) =>
      if mustCancel then { channel with consumer := .idle }
      else { channel with consumer := .idle, returned := channel.returned ++ [frame] }
    | some .cancelled => { channel with consumer := .idle }
    | some .pending | none => channel

/-- `task.cancel()` while the task is in `get`: a pending future is cancelled, otherwise
`CancelledError` is raised in place of the result. -/
def cancel (channel : FastChannel J) : FastChannel J :=
  match channel.consumer with
  | .idle => channel
  | .awaits future _ =>
    match channel.futures[future]? with
    | some .pending => { channel with futures := channel.futures.set future .cancelled }
    | _ => { channel with consumer := .awaits future true }

end FastChannel

/-! ## Runs -/

/-- A connection with its channel; `closed` is the flag of the `CppWebSocket`. -/
structure ChannelSession (J : Type*) where
  connection : WsConnectionState := {}
  channel : FastChannel J := {}
  closed : Bool := false

inductive ChannelEvent (J : Type*) where
  /-- `_handle_ws_frames` -/
  | frames (chunk : Bytes)
  /-- `_handle_ws_frames_json` -/
  | json (chunk : Bytes)
  /-- `feed_frame` -/
  | feed (frame : Frame J)
  | get
  | wake
  | cancel

namespace ChannelSession

variable (yyjsonParse : Bytes → Option J) (length : JsonPayload J → ℕ)

def resetRing (session : ChannelSession J) : ChannelSession J :=
  { session with
    connection := { session.connection with
      ring := session.connection.ring.reset
      assembler := session.connection.assembler.reset } }

/-- The messages that `py_ws_handle_and_feed` feeds, and the payload of a close. -/
def fed (result : ParseResult) : List (Frame J) × Option Bytes :=
  let (inline, close) := untilClose result.frames
  ((if close.isNone then inline ++ result.assembled else inline).map asFrame, close)

/-- A close frame, or a protocol error, that `_handle_ws_frames` was told about. -/
def closeFrames (session : ChannelSession J) (payload : Bytes) (framesFed : ℕ) : ChannelSession J :=
  let closing :=
    if session.closed then session
    else
      { session with
        closed := true
        channel :=
          if framesFed = 0 then session.channel.feed length (.close, .bytes payload)
          else session.channel }
  closing.resetRing

def handleWsFrames (session : ChannelSession J) (chunk : Bytes) : ChannelSession J :=
  let (connection, received) := wsReceive session.connection chunk
  let session := { session with connection := connection }
  match received with
  | .needMore => session
  | .refused => session.closeFrames length protocolErrorPayload 0
  | .parsed result =>
    let (frames, close) : List (Frame J) × Option Bytes := fed result
    let channel := session.channel.feedDirect session.channel.pendingWaiter frames
    -- the clean-up of a waiter that has its result
    let channel := if frames = [] then channel else { channel with waiter := channel.pendingWaiter }
    let session := { session with channel := channel }
    match close with
    | none => session
    | some payload => session.closeFrames length payload frames.length

def handleWsFramesJson (session : ChannelSession J) (chunk : Bytes) : ChannelSession J :=
  let (connection, result) := wsHandleJsonDirect yyjsonParse session.connection chunk
  let session := { session with connection := connection }
  match result with
  | none => session
  | some (frames, _) =>
    let session :=
      { session with channel := session.channel.feedFrames session.channel.pendingWaiter frames }
    if frames.any fun frame => frame.1 = .close then session.resetRing else session

def step (session : ChannelSession J) : ChannelEvent J → ChannelSession J
  | .frames chunk => session.handleWsFrames length chunk
  | .json chunk => session.handleWsFramesJson yyjsonParse chunk
  | .feed frame => { session with channel := session.channel.feed length frame }
  | .get =>
    -- the one consumer calls it again when it has returned
    if session.channel.consumer = .idle then
      { session with channel := session.channel.get length }
    else session
  | .wake => { session with channel := session.channel.wake }
  | .cancel => { session with channel := session.channel.cancel }

def run (events : List (ChannelEvent J)) : ChannelSession J :=
  events.foldl (step yyjsonParse length) {}

end ChannelSession

/-! ## What a channel is for -/

namespace FastChannel

/-- The result that the consumer's task will be given. -/
def inFlight (channel : FastChannel J) : List (Frame J) :=
  match channel.consumer with
  | .awaits future false =>
    match channel.futures[future]? with
    | some (.finished frame) => [frame]
    | _ => []
  | _ => []

variable (length : JsonPayload J → ℕ)

def Overfull (channel : FastChannel J) : Prop :=
  highWater ≤ channel.buffer.length ∨ byteHighWater ≤ payloadLengths length channel.buffer

def Drained (channel : FastChannel J) : Prop :=
  channel.buffer.length ≤ lowWater ∧ payloadLengths length channel.buffer ≤ byteLowWater

instance : DecidablePred (Overfull (J := J) length) := fun _ => inferInstanceAs (Decidable (_ ∨ _))

instance : DecidablePred (Drained (J := J) length) := fun _ => inferInstanceAs (Decidable (_ ∧ _))

/-- Whether reading should be paused: from a high-water mark on until both low-water
marks are met. -/
def mark (marked : Bool) (channel : FastChannel J) : Bool :=
  if channel.Overfull length then true else if channel.Drained length then false else marked

/-- Every frame that was fed is returned, on its way or stored, in the order of the
feeding; the stored bytes are counted; and the transport is paused as it should be. -/
structure Correct (channel : FastChannel J) (marked : Bool) : Prop where
  fifo : channel.delivered = channel.returned ++ channel.inFlight ++ channel.buffer
  counted : channel.totalBytes = payloadLengths length channel.buffer
  paused : channel.paused = marked
  reading : channel.reading = !marked

/-- A pending future is the one that the consumer awaits, and nothing is stored. -/
def Wired (channel : FastChannel J) : Prop :=
  ∀ future, channel.futures[future]? = some .pending →
    channel.consumer = .awaits future false ∧ channel.waiter = some future ∧ channel.buffer = []

/-- The marks at which `mark` was right before. -/
def Marks (channel : FastChannel J) (marked : Bool) : Prop :=
  (marked = false → ¬ channel.Overfull length) ∧ (marked = true → ¬ channel.Drained length)

/-! ## One action -/

variable {length} {channel channel' : FastChannel J} {marked : Bool}

theorem not_drained_of_overfull (h : channel.Overfull length) : ¬ channel.Drained length := by
  intro hdrained
  simp only [Overfull, Drained, highWater, lowWater, byteHighWater, byteLowWater] at h hdrained
  omega

theorem marks_mark (marked : Bool) (channel : FastChannel J) :
    channel.Marks length (channel.mark length marked) := by
  simp only [Marks, mark]
  by_cases hover : channel.Overfull length
  · simp [hover, not_drained_of_overfull hover]
  · by_cases hdrained : channel.Drained length
    · simp [hover, hdrained]
    · simp [hover, hdrained]

theorem Marks.mark_eq (h : channel.Marks length marked) (hbuffer : channel'.buffer = channel.buffer) :
    channel'.mark length marked = marked := by
  have hover : channel'.Overfull length ↔ channel.Overfull length := by simp [Overfull, hbuffer]
  have hdrained : channel'.Drained length ↔ channel.Drained length := by simp [Drained, hbuffer]
  cases marked with
  | false => simp [mark, hover, h.1 rfl]
  | true => simp [mark, hdrained, h.2 rfl]

theorem payloadLengths_append (left right : List (Frame J)) :
    payloadLengths length (left ++ right) = payloadLengths length left + payloadLengths length right := by
  simp [payloadLengths]

theorem pendingWaiter_eq_some {future : ℕ} :
    channel.pendingWaiter = some future ↔
      channel.waiter = some future ∧ channel.futures[future]? = some .pending := by
  simp only [pendingWaiter, Option.filter_eq_some_iff]
  constructor
  · intro ⟨hwaiter, hpending⟩
    refine ⟨hwaiter, ?_⟩
    split at hpending
    · assumption
    · cases hpending
  · intro ⟨hwaiter, hpending⟩
    exact ⟨hwaiter, by rw [hpending]⟩

theorem Wired.not_pending (h : channel.Wired) (hnone : channel.pendingWaiter = none) (future : ℕ) :
    channel.futures[future]? ≠ some .pending := by
  intro hpending
  have hsome := pendingWaiter_eq_some.mpr ⟨(h _ hpending).2.1, hpending⟩
  rw [hnone] at hsome
  cases hsome

/-- What the producers do to the frames: the first one may go into the future. -/
structure Puts (channel channel' : FastChannel J) (frames stored : List (Frame J)) : Prop where
  delivered : channel'.delivered = channel.delivered ++ frames
  returned : channel'.returned = channel.returned
  consumer : channel'.consumer = channel.consumer
  buffer : channel'.buffer = channel.buffer ++ stored
  futures :
    (frames = stored ∧ channel'.futures = channel.futures ∧
        ((frames = [] ∧ channel'.waiter = channel.waiter) ∨ channel.pendingWaiter = none)) ∨
      ∃ future frame, channel.pendingWaiter = some future ∧ frames = frame :: stored ∧
        channel'.futures = channel.futures.set future (.finished frame)

theorem Puts.wired {frames stored : List (Frame J)} (h : channel.Puts channel' frames stored)
    (hwired : channel.Wired) : channel'.Wired := by
  intro future hpending
  rcases h.futures with ⟨rfl, hfutures, hcase⟩ | ⟨awaited, frame, hwaiter, -, hfutures⟩
  · rw [hfutures] at hpending
    rcases hcase with ⟨hnil, hsame⟩ | hnone
    · obtain ⟨hconsumer, hwaiter, hbuffer⟩ := hwired _ hpending
      refine ⟨h.consumer.trans hconsumer, hsame.trans hwaiter, ?_⟩
      rw [h.buffer, hbuffer, hnil, append_nil]
    · exact absurd hpending (hwired.not_pending hnone _)
  · obtain ⟨hsome, hawaited⟩ := pendingWaiter_eq_some.mp hwaiter
    rw [hfutures, getElem?_set] at hpending
    split at hpending
    · split at hpending
      · cases hpending
      · cases hpending
    · rename_i hother
      have hboth := (hwired _ hpending).1.symm.trans (hwired _ hawaited).1
      exact absurd (Consumer.awaits.inj hboth).1.symm hother

theorem Puts.fifo {frames stored : List (Frame J)} (h : channel.Puts channel' frames stored)
    (hwired : channel.Wired)
    (hfifo : channel.delivered = channel.returned ++ channel.inFlight ++ channel.buffer) :
    channel'.delivered = channel'.returned ++ channel'.inFlight ++ channel'.buffer := by
  rw [h.delivered, h.returned, h.buffer, hfifo]
  rcases h.futures with ⟨rfl, hfutures, -⟩ | ⟨awaited, frame, hwaiter, rfl, hfutures⟩
  · simp only [inFlight, h.consumer, hfutures, append_assoc]
  · obtain ⟨hsome, hawaited⟩ := pendingWaiter_eq_some.mp hwaiter
    obtain ⟨hconsumer, -, hbuffer⟩ := hwired _ hawaited
    have hbound := (List.getElem?_eq_some_iff.mp hawaited).1
    simp only [inFlight, h.consumer, hconsumer, hfutures, hawaited, hbuffer,
      getElem?_set_self hbound]
    simp

theorem Correct.same (h : channel.Correct length marked) (hmarks : channel.Marks length marked) :
    channel.Correct length (channel.mark length marked) := by
  rw [hmarks.mark_eq rfl]
  exact h

theorem Correct.of_mark (expected : Bool) (hmark : channel.mark length marked = expected)
    (hfifo : channel.delivered = channel.returned ++ channel.inFlight ++ channel.buffer)
    (hcounted : channel.totalBytes = payloadLengths length channel.buffer)
    (hpaused : channel.paused = expected) (hreading : channel.reading = !expected) :
    channel.Correct length (channel.mark length marked) := by
  rw [hmark]
  exact ⟨hfifo, hcounted, hpaused, hreading⟩

/-- What is stored without `feed` is not counted and pauses nothing. -/
theorem correct_puts_iff {frames stored : List (Frame J)} (hwired : channel.Wired)
    (h : channel.Correct length marked) (hmarks : channel.Marks length marked)
    (hputs : channel.Puts channel' frames stored) (htotal : channel'.totalBytes = channel.totalBytes)
    (hpaused : channel'.paused = channel.paused) (hreading : channel'.reading = channel.reading) :
    channel'.Correct length (channel'.mark length marked) ↔ payloadLengths length stored = 0 ∧
        (stored = [] ∨ channel.paused = true ∨ channel.buffer.length + stored.length < highWater) := by
  have hlength : channel'.buffer.length = channel.buffer.length + stored.length := by
    rw [hputs.buffer, length_append]
  have hbytes : payloadLengths length channel'.buffer =
      payloadLengths length channel.buffer + payloadLengths length stored := by
    rw [hputs.buffer, payloadLengths_append]
  have hcounted : channel'.totalBytes = payloadLengths length channel'.buffer ↔
      payloadLengths length stored = 0 := by
    rw [htotal, h.counted, hbytes]
    omega
  have hmark (hnone : payloadLengths length stored = 0) : channel'.mark length marked = marked ↔
        stored = [] ∨ channel.paused = true ∨
          channel.buffer.length + stored.length < highWater := by
    cases hmarked : marked with
    | true =>
      rw [hmarked] at hmarks h
      have hnot := hmarks.2 rfl
      have hnot' : ¬ channel'.Drained length := by
        simp only [Drained, hlength, hbytes] at hnot ⊢
        omega
      simp [mark, hnot', h.paused]
    | false =>
      rw [hmarked] at hmarks h
      have hnot := hmarks.1 rfl
      simp only [Overfull, not_or, not_le] at hnot
      have hover : channel'.Overfull length ↔
          highWater ≤ channel.buffer.length + stored.length := by
        simp only [Overfull, hlength, hbytes, hnone]
        omega
      have hnil : stored = [] → channel.buffer.length + stored.length < highWater := by
        intro hnil
        rw [hnil]
        exact hnot.1
      simp only [mark, hover, h.paused, Bool.false_eq_true, false_or]
      by_cases hfull : highWater ≤ channel.buffer.length + stored.length
      · simp only [hfull, if_true, Bool.true_eq_false, false_iff, not_or, not_lt, and_true]
        exact fun hempty => absurd (hnil hempty) (Nat.not_lt.mpr hfull)
      · simp only [hfull, if_false, ite_self, true_iff]
        exact .inr (Nat.lt_of_not_le hfull)
  constructor
  · intro hcorrect
    have hnone := hcounted.mp hcorrect.counted
    have hsame := hcorrect.paused
    rw [hpaused, h.paused] at hsame
    exact ⟨hnone, (hmark hnone).mp hsame.symm⟩
  · intro ⟨hnone, hroom⟩
    have hsame := (hmark hnone).mpr hroom
    rw [hsame]
    exact ⟨hputs.fifo hwired h.fifo, hcounted.mpr hnone, hpaused.trans h.paused,
      hreading.trans h.reading⟩

theorem feed_wired (hwired : channel.Wired) (frame : Frame J) : (channel.feed length frame).Wired := by
  have hputs : ∃ stored, channel.Puts (channel.feed length frame) [frame] stored := by
    simp only [feed]
    cases hwaiter : channel.pendingWaiter with
    | some future =>
      exact ⟨[], rfl, rfl, rfl, (append_nil _).symm, .inr ⟨future, frame, hwaiter, rfl, rfl⟩⟩
    | none =>
      simp only
      split
      · exact ⟨[frame], rfl, rfl, rfl, rfl, .inl ⟨rfl, rfl, .inr hwaiter⟩⟩
      · exact ⟨[frame], rfl, rfl, rfl, rfl, .inl ⟨rfl, rfl, .inr hwaiter⟩⟩
  obtain ⟨stored, hputs⟩ := hputs
  exact hputs.wired hwired

theorem Correct.feed (hwired : channel.Wired) (h : channel.Correct length marked)
    (hmarks : channel.Marks length marked) (frame : Frame J) :
    (channel.feed length frame).Correct length ((channel.feed length frame).mark length marked) := by
  simp only [FastChannel.feed]
  cases hwaiter : channel.pendingWaiter with
  | some future =>
    have hputs : channel.Puts { channel.setResult future frame with waiter := none } [frame] [] :=
      ⟨rfl, rfl, rfl, (append_nil _).symm, .inr ⟨future, frame, hwaiter, rfl, rfl⟩⟩
    exact (correct_puts_iff hwired h hmarks hputs rfl rfl rfl).mpr ⟨rfl, .inl rfl⟩
  | none =>
    have hputs : channel.Puts (channel.append frame) [frame] [frame] :=
      ⟨rfl, rfl, rfl, rfl, .inl ⟨rfl, rfl, .inr hwaiter⟩⟩
    have hfifo := hputs.fifo hwired h.fifo
    have hbytes : payloadLengths length (channel.append frame).buffer =
        payloadLengths length channel.buffer + length frame.2 := by
      rw [hputs.buffer, payloadLengths_append]
      simp [payloadLengths]
    have hcounted : channel.totalBytes + length frame.2 =
        payloadLengths length (channel.append frame).buffer := by
      rw [hbytes, h.counted]
      omega
    have hover : (channel.append frame).Overfull length ↔
        highWater ≤ (channel.append frame).buffer.length ∨
          (byteHighWater : ℤ) ≤ channel.totalBytes + length frame.2 := by
      rw [hcounted, Overfull, Nat.cast_le]
    have hlength : (channel.append frame).buffer.length = channel.buffer.length + 1 := by
      rw [hputs.buffer, length_append, length_singleton]
    have hpaused : (channel.append frame).paused = marked := h.paused
    have hreading : (channel.append frame).reading = !marked := h.reading
    simp only
    generalize hstored : channel.append frame = stored at *
    split
    · rename_i hcondition
      have hmark : stored.mark length marked = true := if_pos (hover.mpr hcondition.2)
      exact .of_mark true hmark hfifo hcounted rfl rfl
    · rename_i hcondition
      have hmark : stored.mark length marked = marked := by
        cases hmarked : marked with
        | true =>
          rw [hmarked] at hmarks
          have hnot := hmarks.2 rfl
          have hnot' : ¬ stored.Drained length := by
            simp only [Drained, hlength, hbytes] at hnot ⊢
            omega
          simp [mark, hnot']
        | false =>
          rw [hmarked] at hpaused
          have hnot : ¬ stored.Overfull length := fun hfull =>
            hcondition ⟨hpaused, hover.mp hfull⟩
          simp [mark, hnot]
      exact .of_mark marked hmark hfifo hcounted hpaused hreading

theorem get_wired (hwired : channel.Wired) (hidle : channel.consumer = .idle) :
    (channel.get length).Wired := by
  have hnone : ∀ future : ℕ, channel.futures[future]? ≠ some .pending := by
    intro future hpending
    have hawaits := (hwired _ hpending).1
    rw [hidle] at hawaits
    cases hawaits
  simp only [FastChannel.get]
  split
  · rename_i hempty
    intro future hpending
    rw [getElem?_append] at hpending
    split at hpending
    · exact absurd hpending (hnone _)
    · rename_i hbound
      have hlast : future = channel.futures.length := by
        by_contra hother
        rw [getElem?_eq_none (by simp; omega)] at hpending
        cases hpending
      rw [hlast]
      exact ⟨rfl, rfl, hempty⟩
  · split
    · exact fun future hpending => absurd hpending (hnone _)
    · exact fun future hpending => absurd hpending (hnone _)

theorem Correct.get (h : channel.Correct length marked) (hmarks : channel.Marks length marked)
    (hidle : channel.consumer = .idle) :
    (channel.get length).Correct length ((channel.get length).mark length marked) := by
  have hnothing : channel.inFlight = [] := by rw [inFlight, hidle]
  have hfifo := h.fifo
  rw [hnothing, append_nil] at hfifo
  simp only [FastChannel.get]
  cases hbuffer : channel.buffer with
  | nil =>
    apply Correct.of_mark _ (hmarks.mark_eq hbuffer.symm)
    · simp [inFlight, hfifo, hbuffer]
    · rw [h.counted, hbuffer]
    · exact h.paused
    · exact h.reading
  | cons frame rest =>
    have hcounted : channel.totalBytes - length frame.2 = payloadLengths length rest := by
      rw [h.counted, hbuffer]
      simp [payloadLengths]
    have hfifo' : channel.delivered = (channel.returned ++ [frame]) ++ [] ++ rest := by
      rw [hfifo, hbuffer]
      simp
    have hless : payloadLengths length rest ≤ payloadLengths length channel.buffer := by
      rw [hbuffer]
      simp [payloadLengths]
    simp only
    split
    · rename_i hcondition
      have hdrained : rest.length ≤ lowWater ∧ payloadLengths length rest ≤ byteLowWater := by
        have hlow := hcondition.2.2
        rw [hcounted, Nat.cast_le] at hlow
        exact ⟨hcondition.2.1, hlow⟩
      apply Correct.of_mark _
      · have hnot : ¬ (highWater ≤ rest.length ∨ byteHighWater ≤ payloadLengths length rest) := by
          simp only [highWater, lowWater, byteHighWater, byteLowWater] at hdrained ⊢
          omega
        exact (if_neg hnot).trans (if_pos hdrained)
      · simpa [inFlight, hidle] using hfifo'
      · exact hcounted
      · rfl
      · rfl
    · rename_i hcondition
      apply Correct.of_mark marked
      · cases hmarked : marked with
        | true =>
          have hnot : ¬ (rest.length ≤ lowWater ∧ payloadLengths length rest ≤ byteLowWater) := by
            intro hdrained
            apply hcondition
            rw [hcounted, Nat.cast_le]
            exact ⟨h.paused.trans hmarked, hdrained⟩
          exact ite_eq_left_iff.mpr fun _ => if_neg hnot
        | false =>
          have hnot := hmarks.1 hmarked
          have hnot' : ¬ (highWater ≤ rest.length ∨
              byteHighWater ≤ payloadLengths length rest) := by
            simp only [Overfull, hbuffer, length_cons] at hnot
            rw [hbuffer] at hless
            omega
          exact (if_neg hnot').trans (ite_self _)
      · simpa [inFlight, hidle] using hfifo'
      · exact hcounted
      · exact h.paused
      · exact h.reading

theorem wake_wired (hwired : channel.Wired) : channel.wake.Wired := by
  simp only [wake]
  cases hconsumer : channel.consumer with
  | idle => exact hwired
  | awaits awaited mustCancel =>
    have hnone (hdone : channel.futures[awaited]? ≠ some .pending) (future : ℕ) :
        channel.futures[future]? ≠ some .pending := by
      intro hpending
      have hawaits := (hwired _ hpending).1
      rw [hconsumer] at hawaits
      cases hawaits
      exact hdone hpending
    simp only
    split
    · rename_i hfuture
      have hdone := hnone (by rw [hfuture]; exact fun heq => by cases heq)
      split
      · exact fun future hpending => absurd hpending (hdone _)
      · exact fun future hpending => absurd hpending (hdone _)
    · rename_i hfuture
      have hdone := hnone (by rw [hfuture]; exact fun heq => by cases heq)
      exact fun future hpending => absurd hpending (hdone _)
    · exact hwired
    · exact hwired

theorem Correct.wake (h : channel.Correct length marked) (hmarks : channel.Marks length marked) :
    channel.wake.Correct length (channel.wake.mark length marked) := by
  have hfifo := h.fifo
  simp only [FastChannel.wake]
  cases hconsumer : channel.consumer with
  | idle => exact h.same hmarks
  | awaits awaited mustCancel =>
    simp only
    split
    · rename_i frame hfuture
      cases mustCancel with
      | true =>
        apply Correct.of_mark _
        · exact hmarks.mark_eq rfl
        · simpa [inFlight, hconsumer] using hfifo
        · exact h.counted
        · exact h.paused
        · exact h.reading
      | false =>
        apply Correct.of_mark _
        · exact hmarks.mark_eq rfl
        · simpa [inFlight, hconsumer, hfuture] using hfifo
        · exact h.counted
        · exact h.paused
        · exact h.reading
    · rename_i hfuture
      apply Correct.of_mark _
      · exact hmarks.mark_eq rfl
      · cases mustCancel <;> simpa [inFlight, hconsumer, hfuture] using hfifo
      · exact h.counted
      · exact h.paused
      · exact h.reading
    · exact h.same hmarks
    · exact h.same hmarks

theorem cancel_wired (hwired : channel.Wired) : channel.cancel.Wired := by
  simp only [cancel]
  cases hconsumer : channel.consumer with
  | idle => exact hwired
  | awaits awaited mustCancel =>
    simp only
    split
    · intro future hpending
      rw [getElem?_set] at hpending
      split at hpending
      · split at hpending
        · cases hpending
        · cases hpending
      · obtain ⟨hawaits, hwaiter, hbuffer⟩ := hwired _ hpending
        exact ⟨hconsumer.symm.trans hawaits, hwaiter, hbuffer⟩
    · rename_i hdone
      intro future hpending
      have hawaits := (hwired _ hpending).1
      rw [hconsumer] at hawaits
      cases hawaits
      exact absurd hpending hdone

/-- A cancellation loses the result that the consumer has not been given yet. -/
theorem correct_cancel_iff (h : channel.Correct length marked) (hmarks : channel.Marks length marked) :
    channel.cancel.Correct length (channel.cancel.mark length marked) ↔ channel.inFlight = [] := by
  have hfifo := h.fifo
  have hsame (other : FastChannel J) (hdelivered : other.delivered = channel.delivered)
      (hreturned : other.returned = channel.returned) (hbuffer : other.buffer = channel.buffer)
      (htotal : other.totalBytes = channel.totalBytes) (hpaused : other.paused = channel.paused)
      (hreading : other.reading = channel.reading) (hnothing : other.inFlight = []) :
      other.Correct length (other.mark length marked) ↔ channel.inFlight = [] := by
    rw [hmarks.mark_eq hbuffer]
    constructor
    · intro hcorrect
      have hboth := hcorrect.fifo
      rw [hdelivered, hreturned, hbuffer, hnothing, hfifo, append_nil] at hboth
      exact append_right_eq_self.mp (append_cancel_right hboth)
    · intro hempty
      rw [hempty] at hfifo
      refine ⟨?_, ?_, hpaused.trans h.paused, hreading.trans h.reading⟩
      · rw [hdelivered, hreturned, hbuffer, hnothing, hfifo]
      · rw [htotal, hbuffer, h.counted]
  simp only [cancel]
  cases hconsumer : channel.consumer with
  | idle =>
    have hnothing : channel.inFlight = [] := by rw [inFlight, hconsumer]
    exact iff_of_true (h.same hmarks) hnothing
  | awaits awaited mustCancel =>
    simp only
    split
    · rename_i hpending
      have hbound := (List.getElem?_eq_some_iff.mp hpending).1
      refine hsame _ ?_ ?_ ?_ ?_ ?_ ?_ ?_
      all_goals try rfl
      cases mustCancel <;> simp [inFlight, getElem?_set_self hbound]
    · refine hsame _ ?_ ?_ ?_ ?_ ?_ ?_ ?_
      all_goals rfl

/-! ## The feeding loops -/

theorem feedDirect_none (channel : FastChannel J) (frames : List (Frame J)) :
    channel.feedDirect none frames =
      { channel with
        buffer := channel.buffer ++ frames
        delivered := channel.delivered ++ frames } := by
  induction frames generalizing channel with
  | nil => simp [feedDirect]
  | cons frame frames ih =>
    rw [feedDirect, ih]
    simp [append]

def throughClose : List (Frame J) → List (Frame J)
  | [] => []
  | frame :: frames => if frame.1 = .close then [frame] else frame :: throughClose frames

theorem feedFrames_none (channel : FastChannel J) (frames : List (Frame J)) :
    channel.feedFrames none frames =
      { channel with
        buffer := channel.buffer ++ throughClose frames
        delivered := channel.delivered ++ throughClose frames } := by
  induction frames generalizing channel with
  | nil => simp [feedFrames, throughClose]
  | cons frame frames ih =>
    simp only [feedFrames, throughClose]
    split
    · rfl
    · rw [ih]
      simp [append]

/-- The frames that do not go into the future. -/
def stored (channel : FastChannel J) (frames : List (Frame J)) : List (Frame J) :=
  if channel.pendingWaiter.isSome then frames.tail else frames

theorem Puts.clean {frames stored : List (Frame J)} (h : channel.Puts channel' frames stored)
    (waiter : Option ℕ) (hsome : frames ≠ []) :
    channel.Puts { channel' with waiter := waiter } frames stored where
  delivered := h.delivered
  returned := h.returned
  consumer := h.consumer
  buffer := h.buffer
  futures := by
    rcases h.futures with ⟨hstored, hfutures, hcase⟩ | hresolved
    · exact .inl ⟨hstored, hfutures, .inr (hcase.resolve_left fun hnil => hsome hnil.1)⟩
    · exact .inr hresolved

theorem feedDirect_puts (channel : FastChannel J) (frames : List (Frame J)) :
    channel.Puts (channel.feedDirect channel.pendingWaiter frames) frames
      (channel.stored frames) := by
  simp only [stored]
  cases hwaiter : channel.pendingWaiter with
  | none =>
    rw [feedDirect_none]
    exact ⟨rfl, rfl, rfl, rfl, .inl ⟨rfl, rfl, .inr hwaiter⟩⟩
  | some future =>
    cases frames with
    | nil =>
      exact ⟨(append_nil _).symm, rfl, rfl, (append_nil _).symm, .inl ⟨rfl, rfl, .inl ⟨rfl, rfl⟩⟩⟩
    | cons frame rest =>
      rw [feedDirect, feedDirect_none]
      refine ⟨?_, rfl, rfl, rfl, .inr ⟨future, frame, hwaiter, rfl, rfl⟩⟩
      simp [setResult]

theorem feedFrames_puts (channel : FastChannel J) (frames : List (Frame J)) :
    channel.Puts (channel.feedFrames channel.pendingWaiter frames) (throughClose frames)
      (channel.stored (throughClose frames)) := by
  simp only [stored]
  cases hwaiter : channel.pendingWaiter with
  | none =>
    rw [feedFrames_none]
    exact ⟨rfl, rfl, rfl, rfl, .inl ⟨rfl, rfl, .inr hwaiter⟩⟩
  | some future =>
    cases frames with
    | nil =>
      exact ⟨(append_nil _).symm, rfl, rfl, (append_nil _).symm, .inl ⟨rfl, rfl, .inl ⟨rfl, rfl⟩⟩⟩
    | cons frame rest =>
      simp only [feedFrames, throughClose]
      split
      · exact ⟨rfl, rfl, rfl, (append_nil _).symm, .inr ⟨future, frame, hwaiter, rfl, rfl⟩⟩
      · rw [feedFrames_none]
        refine ⟨?_, rfl, rfl, rfl, .inr ⟨future, frame, hwaiter, rfl, rfl⟩⟩
        simp [setResult]

/-- The counters are those of `feed` and `get`. -/
def SameCounters (channel channel' : FastChannel J) : Prop :=
  channel'.totalBytes = channel.totalBytes ∧ channel'.paused = channel.paused ∧
    channel'.reading = channel.reading

theorem feedDirect_counters (channel : FastChannel J) (waiter : Option ℕ) (frames : List (Frame J)) :
    channel.SameCounters (channel.feedDirect waiter frames) := by
  cases waiter with
  | none =>
    rw [feedDirect_none]
    exact ⟨rfl, rfl, rfl⟩
  | some future =>
    cases frames with
    | nil => exact ⟨rfl, rfl, rfl⟩
    | cons frame rest =>
      rw [feedDirect, feedDirect_none]
      exact ⟨rfl, rfl, rfl⟩

theorem feedFrames_counters (channel : FastChannel J) (waiter : Option ℕ) (frames : List (Frame J)) :
    channel.SameCounters (channel.feedFrames waiter frames) := by
  cases waiter with
  | none =>
    rw [feedFrames_none]
    exact ⟨rfl, rfl, rfl⟩
  | some future =>
    cases frames with
    | nil => exact ⟨rfl, rfl, rfl⟩
    | cons frame rest =>
      simp only [feedFrames]
      split
      · exact ⟨rfl, rfl, rfl⟩
      · rw [feedFrames_none]
        exact ⟨rfl, rfl, rfl⟩

end FastChannel

/-! ## Every run -/

namespace ChannelSession

open FastChannel

variable (yyjsonParse : Bytes → Option J) (length : JsonPayload J → ℕ)

/-- The frames that an event puts into the channel without `feed`. -/
def direct (session : ChannelSession J) : ChannelEvent J → List (Frame J)
  | .frames chunk =>
    match (wsReceive session.connection chunk).2 with
    | .parsed result => (fed result).1
    | _ => []
  | .json chunk =>
    match (wsHandleJsonDirect yyjsonParse session.connection chunk).2 with
    | some (frames, _) => throughClose frames
    | none => []
  | _ => []

/-- No `get` is cancelled whose future has its result. -/
def Returns (session : ChannelSession J) : ChannelEvent J → Prop
  | .cancel => session.channel.inFlight = []
  | _ => True

/-- The frames that `py_ws_handle_and_feed` and `_feed_frames` leave in the deque have no
length and do not reach the high-water mark, and no result is lost. -/
def Meets (session : ChannelSession J) (event : ChannelEvent J) : Prop :=
  let stored := session.channel.stored (session.direct yyjsonParse event)
  payloadLengths length stored = 0 ∧
    (stored = [] ∨ session.channel.paused = true ∨
      session.channel.buffer.length + stored.length < highWater) ∧
    session.Returns event

/-- Whether reading should be paused in the last state of a run, and that state. -/
def marks (events : List (ChannelEvent J)) : Bool × ChannelSession J :=
  events.foldl
    (fun state event =>
      let session := state.2.step yyjsonParse length event
      (session.channel.mark length state.1, session))
    (false, {})

variable {yyjsonParse length}

theorem puts_nothing (channel : FastChannel J) : channel.Puts channel [] (channel.stored []) := by
  have hnil : channel.stored [] = [] := ite_self _
  rw [hnil]
  exact ⟨(append_nil _).symm, rfl, rfl, (append_nil _).symm, .inl ⟨rfl, rfl, .inl ⟨rfl, rfl⟩⟩⟩

theorem untilClose_ne_nil {messages : List Message} (h : (untilClose messages).2.isSome) :
    (untilClose messages).1 ≠ [] := by
  cases messages with
  | nil => cases h
  | cons message messages =>
    simp only [untilClose]
    split
    · exact cons_ne_nil _ _
    · exact cons_ne_nil _ _

theorem closeFrames_channel (session : ChannelSession J) (payload : Bytes) {framesFed : ℕ}
    (hfed : framesFed ≠ 0) : (session.closeFrames length payload framesFed).channel = session.channel := by
  simp only [closeFrames, resetRing, if_neg hfed]
  split
  · rfl
  · rfl

variable (length) in
theorem closeFrames_feed (session : ChannelSession J) (payload : Bytes) :
    (session.closeFrames length payload 0).channel = session.channel ∨
      (session.closeFrames length payload 0).channel =
        session.channel.feed length (.close, .bytes payload) := by
  simp only [closeFrames, resetRing]
  split
  · exact .inl rfl
  · exact .inr rfl

variable (yyjsonParse length) in
/-- What a chunk does through `py_ws_handle_and_feed`. -/
theorem handleWsFrames_channel (session : ChannelSession J) (chunk : Bytes) :
    let after := (session.handleWsFrames length chunk).channel
    let frames := session.direct yyjsonParse (.frames chunk)
    (session.channel.Puts after frames (session.channel.stored frames) ∧
        session.channel.SameCounters after) ∨
      (frames = [] ∧ ∃ frame, after = session.channel.feed length frame) := by
  intro after frames
  simp only [after, frames, handleWsFrames, direct]
  rcases wsReceive session.connection chunk with ⟨connection, received⟩
  cases received with
  | needMore => exact .inl ⟨puts_nothing _, rfl, rfl, rfl⟩
  | refused =>
    rcases closeFrames_feed length { session with connection := connection }
      protocolErrorPayload with hsame | hfeed
    · left
      simp only [hsame]
      exact ⟨puts_nothing _, rfl, rfl, rfl⟩
    · exact .inr ⟨rfl, _, hfeed⟩
  | parsed result =>
    left
    have hputs := feedDirect_puts session.channel (fed (J := J) result).1
    have hcounters := feedDirect_counters session.channel session.channel.pendingWaiter
      (fed (J := J) result).1
    have hclose : (fed (J := J) result).2.isSome → (fed (J := J) result).1 ≠ [] := by
      intro hsome
      have hne := untilClose_ne_nil hsome
      have hnone : ¬ (untilClose result.frames).2.isNone = true := by
        rw [Option.isNone_iff_eq_none]
        exact fun hnone => by simp [fed, hnone] at hsome
      simp only [fed, if_neg hnone]
      exact fun hnil => hne (map_eq_nil_iff.mp hnil)
    dsimp only
    generalize fed (J := J) result = out at hputs hcounters hclose ⊢
    obtain ⟨frames, close⟩ := out
    by_cases hnil : frames = []
    · cases close with
      | none =>
        rw [hnil] at hputs hcounters ⊢
        exact ⟨hputs, hcounters⟩
      | some payload => exact absurd hnil (hclose rfl)
    · cases close with
      | none =>
        simp only [hnil, if_false]
        exact ⟨hputs.clean _ hnil, hcounters⟩
      | some payload =>
        have hfed : frames.length ≠ 0 := by simpa using hnil
        simp only [hnil, if_false, closeFrames_channel _ _ hfed]
        exact ⟨hputs.clean _ hnil, hcounters⟩

theorem step_channel (session : ChannelSession J) (event : ChannelEvent J) :
    let after := (session.step yyjsonParse length event).channel
    let frames := session.direct yyjsonParse event
    (session.channel.Puts after frames (session.channel.stored frames) ∧
        session.channel.SameCounters after ∧ session.Returns event) ∨
      (frames = [] ∧ session.Returns event ∧ ∃ frame, after = session.channel.feed length frame) ∨
      (frames = [] ∧ session.Returns event ∧ session.channel.consumer = .idle ∧
        after = session.channel.get length) ∨
      (frames = [] ∧ session.Returns event ∧ after = session.channel.wake) ∨
      (frames = [] ∧ (session.Returns event ↔ session.channel.inFlight = []) ∧
        after = session.channel.cancel) := by
  intro after frames
  cases event with
  | frames chunk =>
    rcases handleWsFrames_channel yyjsonParse length session chunk with
      ⟨hputs, hcounters⟩ | ⟨hnil, hfeed⟩
    · exact .inl ⟨hputs, hcounters, trivial⟩
    · exact .inr (.inl ⟨hnil, trivial, hfeed⟩)
  | json chunk =>
    left
    simp only [after, frames, step, handleWsFramesJson, direct]
    rcases wsHandleJsonDirect yyjsonParse session.connection chunk with ⟨connection, result⟩
    cases result with
    | none => exact ⟨puts_nothing _, ⟨rfl, rfl, rfl⟩, trivial⟩
    | some parsed =>
      have hputs := feedFrames_puts session.channel parsed.1
      have hcounters := feedFrames_counters session.channel session.channel.pendingWaiter parsed.1
      simp only
      split
      · exact ⟨hputs, hcounters, trivial⟩
      · exact ⟨hputs, hcounters, trivial⟩
  | feed frame => exact .inr (.inl ⟨rfl, trivial, frame, rfl⟩)
  | get =>
    simp only [after, frames, step]
    split
    · rename_i hidle
      exact .inr (.inr (.inl ⟨rfl, trivial, hidle, rfl⟩))
    · exact .inl ⟨puts_nothing _, ⟨rfl, rfl, rfl⟩, trivial⟩
  | wake => exact .inr (.inr (.inr (.inl ⟨rfl, trivial, rfl⟩)))
  | cancel => exact .inr (.inr (.inr (.inr ⟨rfl, Iff.rfl, rfl⟩)))

theorem step_wired {session : ChannelSession J} (hwired : session.channel.Wired)
    (event : ChannelEvent J) : (session.step yyjsonParse length event).channel.Wired := by
  rcases step_channel session event with ⟨hputs, -⟩ | ⟨-, -, frame, heq⟩ | ⟨-, -, hidle, heq⟩ |
    ⟨-, -, heq⟩ | ⟨-, -, heq⟩
  · exact hputs.wired hwired
  · rw [heq]
    exact feed_wired hwired _
  · rw [heq]
    exact get_wired hwired hidle
  · rw [heq]
    exact wake_wired hwired
  · rw [heq]
    exact cancel_wired hwired

/-- One event. -/
theorem correct_step_iff {session : ChannelSession J} {marked : Bool}
    (hwired : session.channel.Wired) (h : session.channel.Correct length marked)
    (hmarks : session.channel.Marks length marked) (event : ChannelEvent J) :
    let after := (session.step yyjsonParse length event).channel
    after.Correct length (after.mark length marked) ↔ session.Meets yyjsonParse length event := by
  intro after
  have hnothing : session.direct yyjsonParse event = [] →
      (session.Meets yyjsonParse length event ↔ session.Returns event) := by
    intro hnil
    have hstored : session.channel.stored (session.direct yyjsonParse event) = [] := by
      rw [hnil]
      exact ite_self _
    simp only [Meets, hstored]
    exact ⟨fun hmeets => hmeets.2.2, fun hreturns => ⟨rfl, .inl trivial, hreturns⟩⟩
  rcases step_channel session event with ⟨hputs, ⟨htotal, hpaused, hreading⟩, hreturns⟩ |
    ⟨hnil, hreturns, frame, heq⟩ | ⟨hnil, hreturns, hidle, heq⟩ | ⟨hnil, hreturns, heq⟩ |
    ⟨hnil, hreturns, heq⟩
  · rw [correct_puts_iff hwired h hmarks hputs htotal hpaused hreading, Meets]
    exact ⟨fun hboth => ⟨hboth.1, hboth.2, hreturns⟩, fun hmeets => ⟨hmeets.1, hmeets.2.1⟩⟩
  · simp only [after]
    rw [heq, hnothing hnil]
    exact iff_of_true (h.feed hwired hmarks _) hreturns
  · simp only [after]
    rw [heq, hnothing hnil]
    exact iff_of_true (h.get hmarks hidle) hreturns
  · simp only [after]
    rw [heq, hnothing hnil]
    exact iff_of_true (h.wake hmarks) hreturns
  · simp only [after]
    rw [heq, hnothing hnil, hreturns]
    exact correct_cancel_iff h hmarks

theorem marks_run (events : List (ChannelEvent J)) :
    (marks yyjsonParse length events).2 = run yyjsonParse length events := by
  induction events using List.reverseRecOn with
  | nil => rfl
  | append_singleton events event ih =>
    simp only [marks, run, foldl_append, foldl_cons, foldl_nil] at ih ⊢
    rw [ih]

theorem run_snoc (events : List (ChannelEvent J)) (event : ChannelEvent J) :
    run yyjsonParse length (events ++ [event]) =
      (run yyjsonParse length events).step yyjsonParse length event := by
  simp [run]

theorem marks_snoc (events : List (ChannelEvent J)) (event : ChannelEvent J) :
    (marks yyjsonParse length (events ++ [event])).1 =
      (run yyjsonParse length (events ++ [event])).channel.mark length
        (marks yyjsonParse length events).1 := by
  rw [run_snoc, ← marks_run]
  simp [marks]

variable (yyjsonParse length) in
theorem run_invariant (events : List (ChannelEvent J)) :
    (run yyjsonParse length events).channel.Wired ∧
      (run yyjsonParse length events).channel.Marks length (marks yyjsonParse length events).1 := by
  induction events using List.reverseRecOn with
  | nil =>
    constructor
    · intro future hpending
      simp [run] at hpending
    · simp [FastChannel.Marks, Overfull, run, marks, highWater, byteHighWater, payloadLengths]
  | append_singleton events event ih =>
    constructor
    · rw [run_snoc]
      exact step_wired ih.1 event
    · rw [marks_snoc]
      exact marks_mark _ _

end ChannelSession

/-- The channel is correct in every state of a run if and only if in every step the frames
that `py_ws_handle_and_feed` and `_feed_frames` leave in the deque have no length and do not
reach the high-water mark, and no result is lost. -/
theorem channel_correct_iff (yyjsonParse : Bytes → Option J) (length : JsonPayload J → ℕ)
    (events : List (ChannelEvent J)) :
    (∀ before, before <+: events →
        (ChannelSession.run yyjsonParse length before).channel.Correct length
          (ChannelSession.marks yyjsonParse length before).1) ↔
      ∀ before event, before ++ [event] <+: events →
        (ChannelSession.run yyjsonParse length before).Meets yyjsonParse length event := by
  constructor
  · intro hcorrect before event hprefix
    obtain ⟨hwired, hmarks⟩ := ChannelSession.run_invariant _ _ _
    have hbefore := hcorrect _ ((prefix_append _ _).trans hprefix)
    have hafter := hcorrect _ hprefix
    rw [ChannelSession.marks_snoc, ChannelSession.run_snoc] at hafter
    exact (ChannelSession.correct_step_iff hwired hbefore hmarks _).mp hafter
  · intro hmeets before
    induction before using List.reverseRecOn with
    | nil =>
      intro _
      exact ⟨rfl, rfl, rfl, rfl⟩
    | append_singleton before event ih =>
      intro hprefix
      obtain ⟨hwired, hmarks⟩ := ChannelSession.run_invariant _ _ _
      have hbefore := ih ((prefix_append _ _).trans hprefix)
      rw [ChannelSession.marks_snoc, ChannelSession.run_snoc]
      exact (ChannelSession.correct_step_iff hwired hbefore hmarks _).mpr (hmeets _ _ hprefix)

/-- `len` of the payloads of a connection without JSON. -/
def payloadSize : JsonPayload Empty → ℕ
  | .bytes data | .str data => data.length
  | .json value => value.elim

theorem wsReceive_greeting : ∃ result, (wsReceive {} greetingWire).2 = .parsed result ∧
    (ChannelSession.fed result : List (Frame Empty) × Option Bytes) =
      ([(.text, .str (ascii "hi"))], none) := by
  have hroom : ({} : WsConnectionState).ring.contents.length + greetingWire.length ≤
      WsRingBuffer.maximumCapacity := by
    decide
  have hspec := wsReceive_spec holds_initial.valid (holds_initial.limit.symm ▸ hroom)
  rcases hspec with ⟨-, herror⟩ | ⟨-, ⟨-, hnone⟩ | hparsed, -⟩
  · exact absurd rfl herror
  · exact absurd hnone (cons_ne_nil _ _)
  · exact ⟨_, hparsed, rfl⟩

/-- A buffered message makes the counter negative once it is taken out, and a result that
is set before its `get` is cancelled is never returned. -/
theorem channel_incorrect :
    let run := ChannelSession.run (fun _ => none) payloadSize
    (run [.frames greetingWire, .get]).channel.totalBytes = -2 ∧
      (run [.frames greetingWire, .get]).channel.buffer = [] ∧
      (run [.get, .feed (.close, .bytes []), .cancel, .wake]).channel.delivered =
        [(.close, .bytes [])] ∧
      (run [.get, .feed (.close, .bytes []), .cancel, .wake]).channel.returned = [] ∧
      (run [.get, .feed (.close, .bytes []), .cancel, .wake]).channel.buffer = [] := by
  intro run
  obtain ⟨result, hreceived, hfed⟩ := wsReceive_greeting
  have hchannel : (run [.frames greetingWire]).channel =
      { buffer := [(.text, .str (ascii "hi"))], delivered := [(.text, .str (ascii "hi"))] } := by
    rfl
  have hget : (run [.frames greetingWire, .get]).channel =
      (run [.frames greetingWire]).channel.get payloadSize := by
    have hidle : (run [.frames greetingWire]).channel.consumer = .idle := by rw [hchannel]
    have hstep : run [.frames greetingWire, .get] =
        (run [.frames greetingWire]).step (fun _ => none) payloadSize .get :=
      ChannelSession.run_snoc [.frames greetingWire] .get
    rw [hstep, ChannelSession.step, if_pos hidle]
  exact ⟨by decide, rfl, rfl, rfl, rfl⟩

end AstraApi.WebSocket
