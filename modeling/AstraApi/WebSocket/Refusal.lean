import AstraApi.WebSocket.Delivery
import AstraApi.WebSocket.Stream
import Mathlib.Data.List.TakeWhile

/-!
# Refused frames

A stream of whole messages with bytes behind them that `ws_parse_frame` refuses, cut
into the chunks of `py_ws_handle_direct` and `py_ws_handle_and_feed` until one of the
calls reports a close.  A call that meets the refused frame reports nothing else: the
messages it has parsed before are neither delivered nor consumed.
-/

namespace AstraApi.WebSocket

open List
open Bytes WsRingBuffer

variable {data held stream bad : Bytes} {frames : List WsFrame} {call : FrameCall}
  {state : WsConnectionState}

/-! ## The calls -/

/-- What a call has put into the future and the deque of a channel. -/
def Channel.fedTo (before after : Channel) : List Message :=
  (if before.waiter = some none then after.waiter.join.toList else []) ++
    after.buffer.drop before.buffer.length

/-- A call with a chunk; the channel is as its consumer has left it. -/
inductive FrameCall where
  | direct (chunk : Bytes)
  | feed (chunk : Bytes) (channel : Channel)

def FrameCall.chunk : FrameCall → Bytes
  | .direct chunk => chunk
  | .feed chunk _ => chunk

/-- The messages that a call delivers, and the payload of the close it reports. -/
def FrameCall.perform (state : WsConnectionState) :
    FrameCall → WsConnectionState × List Message × Option Bytes
  | .direct chunk =>
    let (state, result) := wsHandleDirect state chunk
    (state, (returned result).takeWhile fun message => message.1 ≠ .close,
      ((returned result).find? fun message => message.1 = .close).map Prod.snd)
  | .feed chunk channel =>
    let (state, after, result) := wsHandleAndFeed state chunk channel
    (state, channel.fedTo after, result.bind fun reply => reply.2.1)

/-- The calls until one reports a close: everything delivered, and the close. -/
def wsUntilClosed : WsConnectionState → List FrameCall → List Message × Option Bytes
  | _, [] => ([], none)
  | state, call :: calls =>
    match call.perform state with
    | (_, messages, some close) => (messages, some close)
    | (state', messages, none) =>
      let (more, close) := wsUntilClosed state' calls
      (messages ++ more, close)

def streamed (calls : List FrameCall) : Bytes := calls.flatMap FrameCall.chunk

/-- Every call up to the close finds room for its chunk in the ring. -/
def Roomy : WsConnectionState → List FrameCall → Prop
  | _, [] => True
  | state, call :: calls =>
    state.ring.contents.length + call.chunk.length ≤ maximumCapacity ∧
      ((call.perform state).2.2 = none → Roomy (call.perform state).1 calls)

/-- `ws_parse_frame` returns a negative value. -/
def Refuses (data : Bytes) : Prop := ∃ code, wsParseFrame true false data = .protocolError code

/-- An unfragmented data message. -/
def WsFrame.IsMessage (frame : WsFrame) : Prop :=
  frame.fin = true ∧ (frame.opcode = .text ∨ frame.opcode = .binary)

def WsFrame.message (frame : WsFrame) : Message := (frame.opcode, unmaskedPayload frame)

/-- The chunk that lets the bytes behind the messages be refused brings no part of the
messages: these are `count` bytes, of which `held` are in the ring. -/
def Apart (count : ℕ) (held : Bytes) (calls : List FrameCall) : Prop :=
  ∀ before call after, calls = before ++ call :: after →
    Refuses ((held ++ streamed before ++ call.chunk).drop count) →
      count ≤ (held ++ streamed before).length

/-! ## What is put into a channel -/

theorem foldl_feed_settled {channel : Channel} (hsettled : channel.waiter ≠ some none)
    (messages : List Message) :
    messages.foldl Channel.feed channel =
      { channel with buffer := channel.buffer ++ messages } := by
  induction messages generalizing channel with
  | nil => simp
  | cons message messages ih =>
    have hfeed : channel.feed message = { channel with buffer := channel.buffer ++ [message] } :=
      if_neg hsettled
    have hsettled' : (channel.feed message).waiter ≠ some none := by
      rw [hfeed]
      exact hsettled
    rw [foldl_cons, ih hsettled', hfeed, append_assoc]
    rfl

theorem fedTo_foldl (channel : Channel) (messages : List Message) :
    channel.fedTo (messages.foldl Channel.feed channel) = messages := by
  by_cases hpending : channel.waiter = some none
  · cases messages with
    | nil => simp [Channel.fedTo, hpending]
    | cons message messages =>
      have hfeed : channel.feed message = { channel with waiter := some (some message) } :=
        if_pos hpending
      rw [foldl_cons, hfeed, foldl_feed_settled]
      · simp [Channel.fedTo, hpending]
      · simp
  · rw [foldl_feed_settled hpending]
    simp [Channel.fedTo, hpending]

theorem untilClose_of_none {messages : List Message}
    (hnone : ∀ message ∈ messages, message.1 ≠ .close) : untilClose messages = (messages, none) := by
  induction messages with
  | nil => rfl
  | cons message messages ih =>
    have hrest := ih fun other hother => hnone _ (mem_cons_of_mem _ hother)
    simp [untilClose, if_neg (hnone _ _), hrest]

/-! ## The parse loop -/

theorem wsParseFrames_message (fuel : ℕ) {frame : WsFrame} {consumed : ℕ}
    (hparse : wsParseFrame true false data = .frame frame consumed) (hmessage : frame.IsMessage)
    (assembler : WsFragmentAssembler) (before : ParseResult) :
    ∃ bytes, wsParseFrames (fuel + 1) data assembler before =
      ((wsParseFrames fuel (data.drop consumed) assembler
          ({ before with frames := before.frames ++ [frame.message] }.advance consumed)).1,
        (wsParseFrames fuel (data.drop consumed) assembler
          ({ before with frames := before.frames ++ [frame.message] }.advance consumed)).2.1,
        bytes) := by
  have hlengths := wsParseFrame_lengths hparse
  obtain ⟨b, rest, rfl⟩ : ∃ b rest, data = b :: rest :=
    exists_cons_of_length_pos (by omega)
  obtain ⟨hfin, hopcode⟩ := hmessage
  simp only [wsParseFrames, hparse]
  rw [← unmaskedPayload, WsFrame.message]
  rcases hopcode with hopcode | hopcode
  · simp only [hopcode, hfin]
    exact ⟨_, rfl⟩
  · simp only [hopcode, hfin]
    exact ⟨_, rfl⟩

theorem Refuses.error {code : ℤ} {requireMask allowRsv : Bool}
    (hparse : wsParseFrame requireMask allowRsv data = .protocolError code) : code ≠ 0 := by
  match data with
  | [] => cases hparse
  | [_] => cases hparse
  | b0 :: b1 :: rest =>
    simp only [wsParseFrame] at hparse
    split at hparse
    · cases hparse
      decide
    · split at hparse
      · cases hparse
      · split at hparse
        · cases hparse
          decide
        · split at hparse
          · cases hparse
            decide
          · split at hparse
            · cases hparse
            · split at hparse
              · split at hparse
                · cases hparse
                · cases hparse
              · split at hparse
                · cases hparse
                · cases hparse

/-- What the loop makes of messages with bytes behind them. -/
structure Scans (frames : List WsFrame) (rest data : Bytes) (assembler : WsFragmentAssembler)
    (before : ParseResult) (out : ParseResult × WsFragmentAssembler × Bytes) : Prop where
  frames : out.1.frames = before.frames ++ frames.map WsFrame.message
  assembled : out.1.assembled = before.assembled
  assembler : out.2.1 = assembler
  consumed : out.1.totalConsumed + rest.length = before.totalConsumed + data.length
  accepted : wsParseFrame true false rest = .needMore →
    out.1.protocolError = before.protocolError
  refused : Refuses rest → out.1.protocolError ≠ 0

theorem wsParseFrames_messages {rest : Bytes}
    (hsplits : Splits data frames rest) (hmessages : ∀ frame ∈ frames, frame.IsMessage)
    (hrest : wsParseFrame true false rest = .needMore ∨ Refuses rest) {fuel : ℕ}
    (hfuel : data.length < fuel) (assembler : WsFragmentAssembler) (before : ParseResult) :
    Scans frames rest data assembler before (wsParseFrames fuel data assembler before) := by
  induction hsplits generalizing fuel before with
  | nil data =>
    rcases hrest with hmore | ⟨code, hrefused⟩
    · rw [wsParseFrames_needMore hmore]
      refine ⟨by simp, rfl, rfl, rfl, fun _ => rfl, ?_⟩
      intro ⟨code, hrefused⟩
      rw [hmore] at hrefused
      cases hrefused
    · obtain ⟨fuel, rfl⟩ : ∃ k, fuel = k + 1 := ⟨fuel - 1, by omega⟩
      have hout : wsParseFrames (fuel + 1) data assembler before =
          ({ before with protocolError := code }, assembler, data) := by
        cases data with
        | nil => cases hrefused
        | cons b bytes => simp [wsParseFrames, hrefused]
      rw [hout]
      refine ⟨by simp, rfl, rfl, rfl, ?_, fun _ => Refuses.error hrefused⟩
      intro hmore
      rw [hmore] at hrefused
      cases hrefused
  | @cons data frame consumed frames rest hparse hsplits ih =>
    obtain ⟨fuel, rfl⟩ : ∃ k, fuel = k + 1 := ⟨fuel - 1, by omega⟩
    have hlengths := wsParseFrame_lengths hparse
    have hshort : (data.drop consumed).length < fuel := by
      rw [length_drop]
      omega
    obtain ⟨bytes, hout⟩ := wsParseFrames_message _ hparse (hmessages _ mem_cons_self)
      _ _
    have hscans := ih (fun other hother => hmessages _ (mem_cons_of_mem _ hother)) hrest
      hshort ({ before with frames := before.frames ++ [frame.message] }.advance consumed)
    have hconsumed := hscans.consumed
    rw [hout]
    constructor
    · rw [hscans.frames]
      simp [ParseResult.advance]
    · exact hscans.assembled
    · exact hscans.assembler
    · simp only [ParseResult.advance, length_drop] at hconsumed ⊢
      omega
    · exact hscans.accepted
    · exact hscans.refused

/-! ## One call -/

/-- Between the calls the connection holds part of a frame and no fragments. -/
structure Ready (state : WsConnectionState) (held : Bytes) : Prop where
  valid : state.ring.Valid
  limit : state.ring.maxCapacity = maximumCapacity
  contents : state.ring.contents = held
  part : wsParseFrame true false held = .needMore

theorem message_ne_close (hmessages : ∀ frame ∈ frames, frame.IsMessage) :
    ∀ message ∈ frames.map WsFrame.message, message.1 ≠ .close := by
  intro message hmem hclose
  obtain ⟨frame, hframe, rfl⟩ := mem_map.mp hmem
  rcases (hmessages frame hframe).2 with hopcode | hopcode
  · simp [WsFrame.message, hopcode] at hclose
  · simp [WsFrame.message, hopcode] at hclose

theorem perform_ring (call : FrameCall) (state : WsConnectionState) :
    (call.perform state).1 = (wsReceive state call.chunk).1 := by
  cases call with
  | direct chunk => simp [FrameCall.perform, wsHandleDirect_eq, FrameCall.chunk]
  | feed chunk channel =>
    simp only [FrameCall.perform, wsHandleAndFeed, FrameCall.chunk]
    cases (wsReceive state chunk).2 <;> rfl

theorem fedTo_self (channel : Channel) : channel.fedTo channel = [] :=
  fedTo_foldl _ []

theorem perform_needMore_eq
    (hreceived : (wsReceive state call.chunk).2 = .needMore) : (call.perform state).2 = ([], none) := by
  cases call with
  | direct chunk =>
    rw [FrameCall.chunk] at hreceived
    simp [FrameCall.perform, wsHandleDirect_eq, hreceived, returned]
  | feed chunk channel =>
    rw [FrameCall.chunk] at hreceived
    simp only [FrameCall.perform, wsHandleAndFeed, hreceived]
    rw [fedTo_self]
    rfl

theorem perform_refused_eq (hreceived : (wsReceive state call.chunk).2 = .refused) :
    (call.perform state).2 = ([], some protocolErrorPayload) := by
  cases call with
  | direct chunk =>
    rw [FrameCall.chunk] at hreceived
    simp [FrameCall.perform, wsHandleDirect_eq, hreceived, returned]
  | feed chunk channel =>
    rw [FrameCall.chunk] at hreceived
    simp only [FrameCall.perform, wsHandleAndFeed, hreceived]
    rw [fedTo_self]
    rfl

theorem perform_parsed_eq {result : ParseResult}
    (hreceived : (wsReceive state call.chunk).2 = .parsed result) (hnone : result.assembled = [])
    (hclose : ∀ message ∈ result.frames, message.1 ≠ .close) :
    (call.perform state).2 = (result.frames, none) := by
  cases call with
  | direct chunk =>
    rw [FrameCall.chunk] at hreceived
    have hall : result.frames.takeWhile (fun message => message.1 ≠ .close) = result.frames :=
      takeWhile_eq_self_iff.mpr fun message hmem => by simpa using hclose _ hmem
    have hfind : result.frames.find? (fun message => message.1 = .close) = none :=
      find?_eq_none.mpr fun message hmem => by simpa using hclose _ hmem
    simp only [FrameCall.perform, wsHandleDirect_eq, hreceived, returned, Option.map_some,
      Option.getD_some, hnone, append_nil, hall, hfind, Option.map_none]
  | feed chunk channel =>
    rw [FrameCall.chunk] at hreceived
    simp [FrameCall.perform, wsHandleAndFeed, hreceived, untilClose_of_none hclose, hnone, fedTo_foldl]

/-- A call that meets no refused frame delivers the messages; one that does delivers
nothing. -/
theorem perform_messages {rest : Bytes} (hready : Ready state held)
    (hroom : state.ring.contents.length + call.chunk.length ≤ maximumCapacity)
    (hsplits : Splits (held ++ call.chunk) frames rest)
    (hmessages : ∀ frame ∈ frames, frame.IsMessage) :
    (wsParseFrame true false rest = .needMore → Ready (call.perform state).1 rest ∧
        (call.perform state).2 = (frames.map WsFrame.message, none)) ∧
      (Refuses rest → (call.perform state).2 = ([], some protocolErrorPayload)) := by
  have hspec := wsReceive_spec hready.valid (hready.limit.symm ▸ hroom)
  simp only [hready.contents] at hspec
  constructor
  · intro hmore
    have hscans := wsParseFrames_messages hsplits hmessages (.inl hmore)
      (Nat.lt_succ_self (held ++ call.chunk).length) state.assembler {}
    generalize wsParseFrames ((held ++ call.chunk).length + 1) (held ++ call.chunk)
      state.assembler {} = out at hspec hscans
    rcases hspec with ⟨-, herror⟩ | ⟨-, hreceived, hvalid, hmax, hcontents, -⟩
    · exact absurd (hscans.accepted hmore) herror
    · have hrest : (wsReceive state call.chunk).1.ring.contents = rest := by
        have hconsumed : out.1.totalConsumed + rest.length = 0 + (held ++ call.chunk).length :=
          hscans.consumed
        rw [hcontents, suffix_iff_eq_drop.mp hsplits.suffix]
        congr 1
        omega
      have hframes : out.1.frames = frames.map WsFrame.message := hscans.frames
      rw [perform_ring]
      refine ⟨⟨hvalid, hmax.trans hready.limit, hrest, hmore⟩, ?_⟩
      rcases hreceived with ⟨hnothing, hempty⟩ | hparsed
      · rw [perform_needMore_eq hnothing, ← hframes, hempty]
      · have hclose := message_ne_close hmessages
        rw [← hframes] at hclose ⊢
        exact perform_parsed_eq hparsed hscans.assembled hclose
  · intro hrefused
    have hscans := wsParseFrames_messages hsplits hmessages (.inr hrefused)
      (Nat.lt_succ_self (held ++ call.chunk).length) state.assembler {}
    rcases hspec with ⟨hreceived, -⟩ | ⟨haccepted, -⟩
    · exact perform_refused_eq hreceived
    · exact absurd haccepted (hscans.refused hrefused)

/-! ## Cutting the stream -/

theorem Refuses.not_needMore (h : Refuses data) :
    wsParseFrame true false data ≠ .needMore := by
  obtain ⟨code, hcode⟩ := h
  rw [hcode]
  exact ParseOutcome.noConfusion

/-- A part of the stream is a number of messages, with part of the next message or what
is seen of the refused frame behind them. -/
theorem exists_split {bytes : Bytes}
    (hsplits : Splits stream frames []) (hbad : Refuses bad) (hbytes : bytes <+: stream ++ bad) :
    ∃ done todo taken rest stream', frames = done ++ todo ∧ bytes = taken ++ rest ∧
      stream = taken ++ stream' ∧ Splits bytes done rest ∧ Splits stream' todo [] ∧
      (wsParseFrame true false rest = .needMore ∨ todo = [] ∧ Refuses rest) := by
  induction frames generalizing stream bytes with
  | nil =>
    cases hsplits
    refine ⟨[], [], [], bytes, [], rfl, rfl, rfl, .nil _, .nil _, ?_⟩
    obtain ⟨more, hmore⟩ := hbytes
    rw [nil_append] at hmore
    obtain ⟨code, hcode⟩ := hbad
    cases hparse : wsParseFrame true false bytes with
    | needMore => exact .inl rfl
    | protocolError code => exact .inr ⟨rfl, code, hparse⟩
    | frame frame consumed =>
      have hframe := wsParseFrame_append more hparse
      rw [hmore, hcode] at hframe
      cases hframe
  | cons frame frames ih =>
    cases hsplits with
    | @cons _ _ consumed _ _ hparse hrest =>
      have hall := wsParseFrame_append bad hparse
      have hle := (wsParseFrame_lengths hparse).2.1
      obtain ⟨more, hmore⟩ := hbytes
      rcases Nat.lt_or_ge bytes.length consumed with hshort | hlong
      · refine ⟨[], frame :: frames, [], bytes, stream, rfl, rfl, rfl, .nil _,
          .cons hparse hrest, .inl ?_⟩
        cases hpart : wsParseFrame true false bytes with
        | needMore => rfl
        | protocolError code =>
          have herror := wsParseFrame_protocolError_append more hpart
          rw [hmore, hall] at herror
          cases herror
        | frame other taken =>
          have hframe := wsParseFrame_append more hpart
          rw [hmore, hall] at hframe
          obtain ⟨-, rfl⟩ := ParseOutcome.frame.inj hframe
          exact absurd (wsParseFrame_lengths hpart).2.1 (Nat.not_le.mpr hshort)
      · rw [← hmore] at hall
        have hfirst := wsParseFrame_of_append hall hlong
        have htake : bytes.take consumed = stream.take consumed := by
          have hlonger := (take_append_of_le_length hlong : (bytes ++ more).take consumed = _)
          rw [← hlonger, hmore, take_append_of_le_length hle]
        have hpart : bytes.drop consumed <+: stream.drop consumed ++ bad := by
          refine ⟨more, ?_⟩
          rw [← drop_append_of_le_length hlong, hmore, drop_append_of_le_length hle]
        obtain ⟨done, todo, taken, rest, stream', rfl, hcut, hstream, hdone, htodo, hcase⟩ :=
          ih hrest hpart
        refine ⟨frame :: done, todo, bytes.take consumed ++ taken, rest, stream', rfl, ?_, ?_,
          .cons hfirst hdone, htodo, hcase⟩
        · rw [append_assoc, ← hcut, take_append_drop]
        · rw [htake, append_assoc, ← hstream, take_append_drop]

/-- Part of a frame is shorter than the frame. -/
theorem length_lt_of_needMore {more : Bytes}
    (hpart : wsParseFrame true false held = .needMore) (hsplits : Splits stream frames [])
    (hstream : held ++ more = stream ++ bad) (hframes : frames ≠ []) :
    held.length < stream.length := by
  cases hsplits with
  | nil => exact absurd rfl hframes
  | cons hparse hrest =>
    have hall := wsParseFrame_append bad hparse
    have hle := (wsParseFrame_lengths hparse).2.1
    by_contra hlong
    rw [← hstream] at hall
    have hframe := wsParseFrame_of_append hall (hle.trans (Nat.le_of_not_lt hlong))
    rw [hpart] at hframe
    cases hframe

/-! ## Every cut -/

theorem not_refuses_nil : ¬ Refuses [] := by
  intro ⟨code, hcode⟩
  cases hcode

theorem apart_cons (count : ℕ) (held : Bytes) (call : FrameCall) (calls : List FrameCall) :
    Apart count held (call :: calls) ↔
      (Refuses ((held ++ call.chunk).drop count) → count ≤ held.length) ∧
        Apart count (held ++ call.chunk) calls := by
  constructor
  · intro hapart
    constructor
    · have hfirst := hapart [] _ _ rfl
      simpa [streamed] using hfirst
    · intro before other after heq
      have hlater := hapart _ _ _ (by rw [heq, cons_append])
      simpa [streamed] using hlater
  · intro ⟨hfirst, hlater⟩ before other after heq
    cases before with
    | nil =>
      obtain ⟨rfl, rfl⟩ := List.cons.inj heq
      simpa [streamed] using hfirst
    | cons first before =>
      obtain ⟨rfl, htail⟩ := List.cons.inj heq
      simpa [streamed] using hlater _ _ _ htail

theorem apart_shift (taken rest : Bytes) (count : ℕ) (calls : List FrameCall) :
    Apart (taken.length + count) (taken ++ rest) calls ↔ Apart count rest calls := by
  simp only [Apart, append_assoc, drop_append, length_append,
    Nat.add_le_add_iff_left, Nat.add_sub_cancel_left]
  have hnothing : taken.drop (taken.length + count) = [] :=
    drop_eq_nil_of_le (Nat.le_add_right _ _)
  simp only [hnothing, nil_append]

/-- The messages up to the call that meets the refused frame are delivered. -/
theorem wsUntilClosed_spec {calls : List FrameCall} (hready : Ready state held)
    (hroomy : Roomy state calls) (hsplits : Splits stream frames [])
    (hmessages : ∀ frame ∈ frames, frame.IsMessage) (hbad : Refuses bad)
    (hstream : held ++ streamed calls = stream ++ bad) :
    ∃ done lost, frames = done ++ lost ∧
      wsUntilClosed state calls = (done.map WsFrame.message, some protocolErrorPayload) ∧
      (lost = [] ↔ Apart stream.length held calls) := by
  induction calls generalizing state held stream frames with
  | nil =>
    rw [streamed, flatMap_nil] at hstream
    cases hframes : frames with
    | nil =>
      rw [hframes] at hsplits
      cases hsplits
      rw [append_nil, nil_append] at hstream
      exact absurd (hstream ▸ hready.part) hbad.not_needMore
    | cons frame frames =>
      have hless := length_lt_of_needMore hready.part hsplits hstream (by simp [hframes])
      have hlength := congrArg List.length hstream
      rw [append_nil, length_append] at hlength
      omega
  | cons call calls ih =>
    have hflat : streamed (call :: calls) = call.chunk ++ streamed calls := rfl
    rw [hflat, ← append_assoc] at hstream
    obtain ⟨done, todo, taken, rest, stream', hframes, hcut, hwhole, hdone, htodo, hcase⟩ :=
      exists_split hsplits hbad ⟨_, hstream⟩
    have hperform := perform_messages hready hroomy.1 hdone fun frame hmem =>
      hmessages _ (hframes ▸ mem_append_left _ hmem)
    have hrest : rest ++ streamed calls = stream' ++ bad := by
      rw [hcut, hwhole, append_assoc, append_assoc] at hstream
      exact append_cancel_left hstream
    have hseen : (held ++ call.chunk).drop stream.length = rest.drop stream'.length := by
      rw [hcut, hwhole, length_append, drop_append, drop_eq_nil_of_le (by omega), nil_append]
      congr 1
      omega
    rcases hcase with hmore | ⟨rfl, hrefused⟩
    · obtain ⟨hready', hreported⟩ := hperform.1 hmore
      have hroomy' := hroomy.2 (by rw [hreported])
      obtain ⟨later, lost, rfl, hrun, hlost⟩ := ih hready' hroomy' htodo
        (fun frame hmem => hmessages _ (hframes ▸ mem_append_right _ hmem)) hrest
      refine ⟨done ++ later, lost, by rw [hframes, append_assoc], ?_, ?_⟩
      · simp only [wsUntilClosed]
        rw [show call.perform state =
          ((call.perform state).1, done.map WsFrame.message, none) by rw [← hreported]]
        simp [hrun]
      · have hunseen : ¬ Refuses ((held ++ call.chunk).drop stream.length) := by
          rw [hseen]
          by_cases hnone : later ++ lost = []
          · rw [hnone] at htodo
            cases htodo
            exact fun hrefused => hrefused.not_needMore hmore
          · have hless := length_lt_of_needMore hmore htodo hrest hnone
            rw [drop_eq_nil_of_le hless.le]
            exact not_refuses_nil
        rw [apart_cons, hcut, hwhole, length_append, apart_shift, hlost]
        rw [hcut, hwhole, length_append] at hunseen
        exact ⟨fun h => ⟨fun hrefused => absurd hrefused hunseen, h⟩, fun h => h.2⟩
    · cases htodo
      refine ⟨[], frames, rfl, ?_, ?_⟩
      · simp only [wsUntilClosed]
        rw [show call.perform state =
          ((call.perform state).1, [], some protocolErrorPayload) by rw [← hperform.2 hrefused]]
        rfl
      · constructor
        · intro hnone
          rw [hnone] at hsplits
          cases hsplits
          exact fun before other after _ _ => Nat.zero_le _
        · intro hapart
          have hlong := ((apart_cons _ _ _ _).mp hapart).1 (by rwa [hseen])
          by_contra hnone
          rw [append_assoc] at hstream
          have hless := length_lt_of_needMore hready.part hsplits hstream hnone
          omega

/-- A stream that the ring can hold as a whole finds room in any case. -/
theorem roomy_of_short (calls : List FrameCall) (hready : Ready state held)
    (hsplits : Splits stream frames []) (hmessages : ∀ frame ∈ frames, frame.IsMessage)
    (hbad : Refuses bad) (hstream : held ++ streamed calls = stream ++ bad)
    (hshort : (held ++ streamed calls).length ≤ maximumCapacity) : Roomy state calls := by
  induction calls generalizing state held stream frames with
  | nil => trivial
  | cons call calls ih =>
    have hflat : streamed (call :: calls) = call.chunk ++ streamed calls := rfl
    rw [hflat, ← append_assoc] at hstream hshort
    have hroom : state.ring.contents.length + call.chunk.length ≤ maximumCapacity := by
      rw [hready.contents]
      simp only [length_append] at hshort
      omega
    refine ⟨hroom, ?_⟩
    intro hopen
    obtain ⟨done, todo, taken, rest, stream', hframes, hcut, hwhole, hdone, htodo, hcase⟩ :=
      exists_split hsplits hbad ⟨_, hstream⟩
    have hperform := perform_messages hready hroom hdone fun frame hmem =>
      hmessages _ (hframes ▸ mem_append_left _ hmem)
    rcases hcase with hmore | ⟨-, hrefused⟩
    · rw [hcut, append_assoc] at hshort hstream
      rw [hwhole, append_assoc] at hstream
      apply ih (hperform.1 hmore).1 htodo _ (append_cancel_left hstream)
      · rw [length_append] at hshort
        omega
      · exact fun frame hmem => hmessages _ (hframes ▸ mem_append_right _ hmem)
    · rw [hperform.2 hrefused] at hopen
      cases hopen

theorem ready_initial : Ready {} [] where
  valid := holds_initial.valid
  limit := holds_initial.limit
  contents := holds_initial.contents
  part := rfl

/-- Of a stream of whole messages with a refused frame behind them exactly the messages
are delivered, with the close of a protocol error, if and only if no chunk brings part
of the messages and what lets the frame be refused. -/
theorem messages_delivered_iff {calls : List FrameCall} {stream bad : Bytes}
    {frames : List WsFrame} (hsplits : Splits stream frames [])
    (hmessages : ∀ frame ∈ frames, frame.IsMessage) (hbad : Refuses bad)
    (hstream : streamed calls = stream ++ bad) (hroomy : Roomy {} calls) :
    wsUntilClosed {} calls = (frames.map WsFrame.message, some protocolErrorPayload) ↔
      Apart stream.length [] calls := by
  obtain ⟨done, lost, rfl, hrun, hlost⟩ :=
    wsUntilClosed_spec ready_initial hroomy hsplits hmessages hbad hstream
  rw [hrun, ← hlost, Prod.mk.injEq, map_append]
  constructor
  · intro ⟨hall, _⟩
    have hnone := self_eq_append_right.mp hall
    exact map_eq_nil_iff.mp hnone
  · intro hnone
    rw [hnone, map_nil, append_nil]
    exact ⟨rfl, rfl⟩

/-- The text message `hi` as it stands in the stream, and its frame. -/
def greetingWire : Bytes := [0x81, 0x82, 1, 2, 3, 4, 0x69, 0x6B]

def greetingFrame : WsFrame where
  fin := true
  rsv := 0
  opcode := .text
  masked := true
  maskKey := [1, 2, 3, 4]
  payload := [0x69, 0x6B]
  headerLen := 6

theorem splits_greeting : Splits greetingWire [greetingFrame] [] := by
  have hparse : wsParseFrame true false greetingWire = .frame greetingFrame 8 := rfl
  exact .cons hparse (.nil [])

/-- A frame that is not masked. -/
def unmaskedWire : Bytes := [0x81, 0x00]

/-- In a chunk of its own the refused frame does not touch the message. -/
theorem messages_delivered_apart :
    wsUntilClosed {} [.direct greetingWire, .direct unmaskedWire] =
      ([(.text, ascii "hi")], some protocolErrorPayload) := by
  have hbad : Refuses unmaskedWire := ⟨-2, rfl⟩
  have hmessages : ∀ frame ∈ [greetingFrame], frame.IsMessage := by
    intro frame hmem
    rw [mem_singleton.mp hmem]
    exact ⟨rfl, .inl rfl⟩
  have hroomy := roomy_of_short [.direct greetingWire, .direct unmaskedWire] ready_initial
    splits_greeting hmessages hbad rfl (by decide)
  apply (messages_delivered_iff splits_greeting hmessages hbad rfl hroomy).mpr
  rw [apart_cons, apart_cons]
  refine ⟨fun hrefused => absurd hrefused not_refuses_nil, fun _ => by decide, ?_⟩
  intro before call after heq
  simp at heq

/-- The message and the refused frame come in one chunk, and the message is lost. -/
theorem messages_lost_together :
    Splits greetingWire [greetingFrame] [] ∧ greetingFrame.IsMessage ∧ Refuses unmaskedWire ∧
      wsUntilClosed {} [.direct (greetingWire ++ unmaskedWire)] = ([], some protocolErrorPayload) := by
  have hbad : Refuses unmaskedWire := ⟨-2, rfl⟩
  have hmessage : greetingFrame.IsMessage := ⟨rfl, .inl rfl⟩
  have hmessages : ∀ frame ∈ [greetingFrame], frame.IsMessage := by
    intro frame hmem
    rw [mem_singleton.mp hmem]
    exact hmessage
  refine ⟨splits_greeting, hmessage, hbad, ?_⟩
  have hroomy := roomy_of_short [.direct (greetingWire ++ unmaskedWire)] ready_initial
    splits_greeting hmessages hbad rfl (by decide)
  obtain ⟨done, lost, hframes, hrun, hlost⟩ := wsUntilClosed_spec ready_initial hroomy
    splits_greeting hmessages hbad rfl
  have hsome : lost ≠ [] := by
    intro hnone
    have hlong := ((apart_cons _ _ _ _).mp (hlost.mp hnone)).1 ⟨-2, rfl⟩
    exact absurd hlong (by decide)
  cases done with
  | nil => exact hrun
  | cons frame done =>
    obtain ⟨-, htail⟩ := List.cons.inj hframes
    exact absurd (append_eq_nil_iff.mp htail.symm).2 hsome

end AstraApi.WebSocket
