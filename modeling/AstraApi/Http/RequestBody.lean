import AstraApi.Lib.Bytes
import AstraApi.Lib.Simulation

/-!
# Reading the body of a request

`stream`, `body` and `json` read the same channel, from which `is_disconnected` takes a
message too.  What that call takes it puts into a buffer.
-/

namespace AstraApi.Http.RequestBody

open List

/-- A message of the ASGI channel; a disconnect has neither `body` nor `more_body`. -/
inductive Message where
  | request (body : Bytes) (moreBody : Bool)
  | disconnect
  deriving DecidableEq

def Message.body : Message → Bytes
  | .request body _ => body
  | .disconnect => []

def Message.moreBody : Message → Bool
  | .request _ moreBody => moreBody
  | .disconnect => false

inductive Error where
  | noReceive
  | streamConsumed
  | invalidJson
  deriving DecidableEq

/-- How a call ends: it waits if it receives on a channel that stays empty. -/
inductive Outcome (α : Type) where
  | returned (value : α)
  | raised (error : Error)
  | waits

variable {Json : Type}

structure Request (Json : Type) where
  receive : Option (List Message)
  scopeBody : Option Bytes := none
  savedBody : Option Bytes := none
  savedJson : Option Json := none
  streamConsumed : Bool := false
  disconnected : Bool := false
  bufferedMessages : List Message := []

/-- The loop of `stream`: what it yields and what it leaves. -/
def readAll : List Message → Option (List Bytes × List Message)
  | [] => none
  | message :: messages =>
    let yielded := if message.body.isEmpty then [] else [message.body]
    if message.moreBody then
      (readAll messages).map fun later => (yielded ++ later.1, later.2)
    else some (yielded, messages)

def Request.stream (request : Request Json) : Outcome (List Bytes) × Request Json :=
  match request.savedBody with
  | some body => (.returned [body, []], request)
  | none =>
    if request.streamConsumed then (.raised .streamConsumed, request)
    else
      match request.receive with
      | none => (.raised .noReceive, { request with streamConsumed := true })
      | some messages =>
        match readAll messages with
        | none => (.waits, { request with streamConsumed := true, receive := some [] })
        | some (chunks, left) =>
          (.returned chunks, { request with streamConsumed := true, receive := some left })

/-- `body` past the cached body: only a request without a channel uses the one in its scope. -/
def Request.readBody (request : Request Json) : Outcome Bytes × Request Json :=
  match request.receive, request.scopeBody with
  | none, some body => (.returned body, { request with savedBody := some body })
  | _, _ =>
    match request.stream with
    | (.returned chunks, request) =>
      (.returned chunks.flatten, { request with savedBody := some chunks.flatten })
    | (.raised error, request) => (.raised error, request)
    | (.waits, request) => (.waits, request)

def Request.body (request : Request Json) : Outcome Bytes × Request Json :=
  match request.savedBody with
  | some body => (.returned body, request)
  | none => request.readBody

/-- `_json_loads` gives no value for a text that it rejects. -/
def Request.json (loads : Bytes → Option Json) (request : Request Json) :
    Outcome Json × Request Json :=
  match request.savedJson with
  | some value => (.returned value, request)
  | none =>
    match request.body with
    | (.returned body, request) =>
      match loads body with
      | some value => (.returned value, { request with savedJson := some value })
      | none => (.raised .invalidJson, request)
    | (.raised error, request) => (.raised error, request)
    | (.waits, request) => (.waits, request)

/-- `wait_for` with no time to wait gets a message only if the loop starts the task of
`receive` at once and a message has arrived. -/
def Request.isDisconnected (eager arrived : Bool) (request : Request Json) :
    Bool × Request Json :=
  if request.disconnected then (true, request)
  else
    match request.receive with
    | none => (true, { request with disconnected := true })
    | some [] => (false, request)
    | some (message :: messages) =>
      if eager && arrived then
        if message = .disconnect then
          (true, { request with disconnected := true, receive := some messages })
        else
          (false, { request with
            receive := some messages
            bufferedMessages := request.bufferedMessages ++ [message] })
      else (false, request)

/-! ## Calls on one request -/

/-- A call; whether a message has arrived matters only where the call does not wait for one. -/
inductive Call where
  | isDisconnected (arrived : Bool)
  | stream
  | body
  | json
  deriving DecidableEq

inductive Answer (Json : Type) where
  | isDisconnected (value : Bool)
  | stream (outcome : Outcome (List Bytes))
  | body (outcome : Outcome Bytes)
  | json (outcome : Outcome Json)

def step (loads : Bytes → Option Json) (eager : Bool) (request : Request Json) :
    Call → Answer Json × Request Json
  | .isDisconnected arrived =>
    let (value, request) := request.isDisconnected eager arrived
    (.isDisconnected value, request)
  | .stream =>
    let (outcome, request) := request.stream
    (.stream outcome, request)
  | .body =>
    let (outcome, request) := request.body
    (.body outcome, request)
  | .json =>
    let (outcome, request) := request.json loads
    (.json outcome, request)

def answers (loads : Bytes → Option Json) (eager : Bool) (request : Request Json)
    (calls : List Call) : List (Answer Json) :=
  (Simulation.run (step loads eager) request calls).1

/-! ## What a reader is promised -/

def bodyOf (messages : List Message) : Bytes := (messages.map Message.body).flatten

/-- The call ends with this value, unless `stream` has given the body away before. -/
def Outcome.Gives {α : Type} (outcome : Outcome α) (wanted : α → Prop) : Prop :=
  match outcome with
  | .returned value => wanted value
  | .raised error => error = .streamConsumed
  | .waits => False

/-- Readers get the whole body, and no reader waits for ever. -/
def Answer.Complete (content : Bytes) : Answer Json → Prop
  | .isDisconnected _ => True
  | .stream outcome => outcome.Gives fun chunks => chunks.flatten = content
  | .body outcome => outcome.Gives fun body => body = content
  | .json (.raised .invalidJson) => True
  | .json outcome => outcome.Gives fun _ => True

def Call.reads : Call → Bool
  | .isDisconnected _ => false
  | _ => true

def Call.givesBytes : Call → Bool
  | .stream => true
  | .body => true
  | _ => false

/-- How many messages `is_disconnected` takes before the first call that reads. -/
def taken (eager : Bool) : List Call → ℕ
  | .isDisconnected arrived :: calls => (if eager && arrived then 1 else 0) + taken eager calls
  | _ => 0

def ending (disconnects : Bool) : List Message := if disconnects then [.disconnect] else []

def requestMessages (chunks : List Bytes) (final : Bytes) (disconnects : Bool) : List Message :=
  chunks.map (Message.request · true) ++ .request final false :: ending disconnects

/-- What a channel can still have of a request: nothing, a disconnect, or some chunks up to a
final one. -/
inductive Pending : List Message → Prop
  | nothing : Pending []
  | disconnect : Pending [.disconnect]
  | final (body : Bytes) (disconnects : Bool) :
      Pending (.request body false :: ending disconnects)
  | chunk (body : Bytes) {messages : List Message} (hne : messages ≠ []) :
      Pending messages → Pending (.request body true :: messages)

theorem bodyOf_cons (message : Message) (messages : List Message) :
    bodyOf (message :: messages) = message.body ++ bodyOf messages := rfl

theorem bodyOf_ending (disconnects : Bool) : bodyOf (ending disconnects) = [] := by
  cases disconnects <;> rfl

theorem ending_pending (disconnects : Bool) : Pending (ending disconnects) := by
  cases disconnects
  · exact .nothing
  · exact .disconnect

theorem Pending.tail {messages : List Message} (h : Pending messages) : Pending messages.tail := by
  cases h with
  | nothing => exact .nothing
  | disconnect => exact .nothing
  | final body disconnects => exact ending_pending _
  | chunk body hne h => exact h

variable {messages : List Message}

/-- After a disconnect there is nothing. -/
theorem Pending.disconnect_tail (h : Pending (.disconnect :: messages)) : messages = [] := by
  cases h with
  | disconnect => rfl

theorem requestMessages_pending (chunks : List Bytes) (final : Bytes) (disconnects : Bool) :
    Pending (requestMessages chunks final disconnects) := by
  induction chunks with
  | nil => exact .final final disconnects
  | cons chunk chunks ih => exact .chunk chunk (append_ne_nil_of_right_ne_nil _ nofun) ih

theorem bodyOf_requestMessages (chunks : List Bytes) (final : Bytes) (disconnects : Bool) :
    bodyOf (requestMessages chunks final disconnects) = chunks.flatten ++ final := by
  induction chunks with
  | nil =>
    change final ++ bodyOf (ending disconnects) = final
    rw [bodyOf_ending, append_nil]
  | cons chunk chunks ih =>
    change chunk ++ bodyOf (requestMessages chunks final disconnects) = _
    rw [ih, flatten_cons, append_assoc]

theorem flatten_yielded (body : Bytes) :
    (if body.isEmpty then [] else [body] : List Bytes).flatten = body := by
  cases body with
  | nil => rfl
  | cons byte body => exact append_nil _

/-- `stream` yields all bodies that are left. -/
theorem readAll_pending (h : Pending messages) (hne : messages ≠ []) :
    ∃ chunks left, readAll messages = some (chunks, left) ∧ chunks.flatten = bodyOf messages := by
  induction h with
  | nothing => exact absurd rfl hne
  | disconnect => exact ⟨[], [], rfl, rfl⟩
  | final body disconnects =>
    refine ⟨_, _, rfl, ?_⟩
    rw [bodyOf_cons, bodyOf_ending, append_nil]
    exact flatten_yielded _
  | chunk body hleft _ ih =>
    have ⟨chunks, left, hread, hflatten⟩ := ih hleft
    refine ⟨(if body.isEmpty then [] else [body]) ++ chunks, left, ?_, ?_⟩
    · rw [readAll, hread]
      rfl
    · rw [flatten_append, flatten_yielded, hflatten]
      rfl

/-! ## The readers -/

section Readers

variable {request : Request Json}

/-- Nobody has read from the channel. -/
structure Unread (request : Request Json) (messages : List Message) : Prop where
  receive : request.receive = some messages
  savedBody : request.savedBody = none
  savedJson : request.savedJson = none
  streamConsumed : request.streamConsumed = false
  disconnected : request.disconnected = true → messages = []

/-- The bytes went to the caller of `stream`. -/
structure Consumed (request : Request Json) : Prop where
  receive : request.receive.isSome
  savedBody : request.savedBody = none
  savedJson : request.savedJson = none
  streamConsumed : request.streamConsumed = true

theorem stream_unread (h : Unread request messages) :
    request.stream = match readAll messages with
      | none => (.waits, { request with streamConsumed := true, receive := some [] })
      | some (chunks, left) =>
        (.returned chunks, { request with streamConsumed := true, receive := some left }) := by
  rw [Request.stream, h.savedBody, h.streamConsumed, h.receive]
  rfl

theorem stream_consumed (h : Consumed request) :
    request.stream = (.raised .streamConsumed, request) := by
  rw [Request.stream, h.savedBody, h.streamConsumed]
  rfl

theorem stream_saved {body : Bytes} (h : request.savedBody = some body) :
    request.stream = (.returned [body, []], request) := by
  rw [Request.stream, h]

theorem body_of_receive (hbody : request.savedBody = none) (hreceive : request.receive.isSome) :
    request.body = match request.stream with
      | (.returned chunks, request) =>
        (.returned chunks.flatten, { request with savedBody := some chunks.flatten })
      | (.raised error, request) => (.raised error, request)
      | (.waits, request) => (.waits, request) := by
  have ⟨messages, hmessages⟩ := Option.isSome_iff_exists.mp hreceive
  rw [Request.body, hbody, Request.readBody, hmessages]

theorem body_saved {body : Bytes} (h : request.savedBody = some body) :
    request.body = (.returned body, request) := by
  rw [Request.body, h]

/-- What a probe touches. -/
theorem isDisconnected_frame (eager arrived : Bool) (request : Request Json) :
    ∃ receive disconnected buffered, (request.isDisconnected eager arrived).2 =
        { request with
          receive := receive
          disconnected := disconnected
          bufferedMessages := buffered } ∧
      receive.isSome = request.receive.isSome := by
  rw [Request.isDisconnected]
  split
  · exact ⟨_, _, _, rfl, rfl⟩
  · split
    · exact ⟨_, _, _, rfl, rfl⟩
    · exact ⟨_, _, _, rfl, rfl⟩
    · rename_i message messages hreceive
      split
      · split
        · exact ⟨some _, _, _, rfl, by rw [hreceive]; rfl⟩
        · exact ⟨some _, _, _, rfl, by rw [hreceive]; rfl⟩
      · exact ⟨_, _, _, rfl, rfl⟩

/-- A probe takes one message if the loop is eager and one has arrived. -/
theorem unread_isDisconnected (hpending : Pending messages)
    (eager arrived : Bool) (h : Unread request messages) :
    Unread (request.isDisconnected eager arrived).2
      (if eager && arrived then messages.tail else messages) := by
  have hframe : ∀ receive disconnected buffered, Unread { request with
        receive := some receive
        disconnected := disconnected
        bufferedMessages := buffered } receive ↔ (disconnected = true → receive = []) := by
    intro receive disconnected buffered
    exact ⟨fun hunread => hunread.disconnected,
      fun hempty => ⟨rfl, h.savedBody, h.savedJson, h.streamConsumed, hempty⟩⟩
  rw [Request.isDisconnected]
  split
  · rename_i hdisconnected
    have hempty := h.disconnected hdisconnected
    rw [hempty] at h ⊢
    rwa [tail_nil, ite_self]
  · rename_i hconnected
    rw [h.receive]
    cases messages with
    | nil => rwa [tail_nil, ite_self]
    | cons message messages =>
      dsimp only
      split
      · split
        · rename_i hmessage
          rw [hmessage] at hpending
          exact (hframe _ _ _).mpr fun _ => hpending.disconnect_tail
        · exact (hframe _ _ _).mpr fun hdisconnected => absurd hdisconnected hconnected
      · exact h

/-! ## Runs -/

theorem answers_cons (loads : Bytes → Option Json) (eager : Bool) (request : Request Json)
    (call : Call) (calls : List Call) :
    answers loads eager request (call :: calls) = (step loads eager request call).1 ::
      answers loads eager (step loads eager request call).2 calls := rfl

variable {loads : Bytes → Option Json} {eager : Bool}

theorem json_parses (loads : Bytes → Option Json) (eager : Bool) {body : Bytes} {after : Request Json}
    (hjson : request.savedJson = none) (hbody : request.body = (.returned body, after))
    (content : Bytes) :
    (step loads eager request .json).1.Complete content ∧
      (step loads eager request .json).2.savedBody = after.savedBody := by
  rw [step, Request.json, hjson, hbody]
  cases hvalue : loads body with
  | none =>
    dsimp only
    rw [hvalue]
    exact ⟨trivial, rfl⟩
  | some value =>
    dsimp only
    rw [hvalue]
    exact ⟨trivial, rfl⟩

/-- After `stream` every reader raises. -/
theorem step_consumed (h : Consumed request) (call : Call) (content : Bytes) :
    (step loads eager request call).1.Complete content ∧
      Consumed (step loads eager request call).2 := by
  have hbody : request.body = (.raised .streamConsumed, request) := by
    rw [body_of_receive h.savedBody h.receive, stream_consumed h]
  cases call with
  | isDisconnected arrived =>
    have ⟨receive, disconnected, buffered, hframe, hsome⟩ :=
      isDisconnected_frame eager arrived request
    refine ⟨trivial, ?_⟩
    rw [step, hframe]
    exact ⟨hsome.trans h.receive, h.savedBody, h.savedJson, h.streamConsumed⟩
  | stream =>
    rw [step, stream_consumed h]
    exact ⟨rfl, h⟩
  | body =>
    rw [step, hbody]
    exact ⟨rfl, h⟩
  | json =>
    rw [step, Request.json, h.savedJson, hbody]
    exact ⟨rfl, h⟩

theorem complete_consumed (calls : List Call) (h : Consumed request) (content : Bytes) :
    ∀ answer ∈ answers loads eager request calls, answer.Complete content := by
  induction calls generalizing request with
  | nil => exact fun _ hmem => absurd hmem not_mem_nil
  | cons call calls ih =>
    have hstep : (step loads eager request call).1.Complete content ∧ _ :=
      step_consumed h _ _
    rw [answers_cons, forall_mem_cons]
    exact ⟨hstep.1, ih hstep.2⟩

theorem step_saved {body : Bytes} (h : request.savedBody = some body) (call : Call)
    (content : Bytes) :
    ((step loads eager request call).1.Complete content ↔
        (call.givesBytes = true → body = content)) ∧
      (step loads eager request call).2.savedBody = some body := by
  cases call with
  | isDisconnected arrived =>
    have ⟨receive, disconnected, buffered, hframe, _⟩ :=
      isDisconnected_frame eager arrived request
    refine ⟨iff_of_true trivial nofun, ?_⟩
    rw [step, hframe]
    exact h
  | stream =>
    rw [step, stream_saved h]
    refine ⟨?_, h⟩
    change [body, []].flatten = content ↔ _
    rw [flatten_cons, flatten_cons, flatten_nil, append_nil, append_nil]
    exact ⟨fun heq _ => heq, fun heq => heq rfl⟩
  | body =>
    rw [step, body_saved h]
    exact ⟨⟨fun heq _ => heq, fun heq => heq rfl⟩, h⟩
  | json =>
    cases hjson : request.savedJson with
    | none =>
      have hparsed := json_parses loads eager hjson (body_saved h) content
      exact ⟨iff_of_true hparsed.1 nofun, hparsed.2.trans h⟩
    | some value =>
      rw [step, Request.json, hjson]
      exact ⟨iff_of_true trivial nofun, h⟩

theorem complete_saved (calls : List Call) {body : Bytes} (h : request.savedBody = some body)
    (content : Bytes) :
    (∀ answer ∈ answers loads eager request calls, answer.Complete content) ↔
      ((∃ call ∈ calls, call.givesBytes = true) → body = content) := by
  induction calls generalizing request with
  | nil => exact iff_of_true nofun fun hgives => nomatch hgives
  | cons call calls ih =>
    have hstep : ((step loads eager request call).1.Complete content ↔ _) ∧ _ :=
      step_saved h _ _
    rw [answers_cons, forall_mem_cons, hstep.1, ih hstep.2, exists_mem_cons_iff, or_imp]

theorem stream_pending (hpending : Pending messages)
    (hne : messages ≠ []) (h : Unread request messages) :
    ∃ chunks after, request.stream = (.returned chunks, after) ∧
      chunks.flatten = bodyOf messages ∧ Consumed after := by
  have ⟨chunks, left, hread, hflatten⟩ := readAll_pending hpending hne
  refine ⟨chunks, { request with streamConsumed := true, receive := some left }, ?_, hflatten,
    rfl, h.savedBody, h.savedJson, rfl⟩
  rw [stream_unread h, hread]

theorem body_pending (hpending : Pending messages)
    (hne : messages ≠ []) (h : Unread request messages) :
    ∃ after, request.body = (.returned (bodyOf messages), after) ∧
      after.savedBody = some (bodyOf messages) := by
  have ⟨chunks, after, hstream, hflatten, _⟩ := stream_pending hpending hne h
  refine ⟨{ after with savedBody := some _ }, ?_, rfl⟩
  rw [body_of_receive h.savedBody (Option.isSome_iff_exists.mpr ⟨_, h.receive⟩), hstream, ← hflatten]

/-- On a channel that has nothing left the first reader waits. -/
theorem step_empty (h : Unread request []) {call : Call} (hreads : call.reads = true)
    (content : Bytes) : ¬ (step loads eager request call).1.Complete content := by
  have hstream : request.stream =
      (.waits, { request with streamConsumed := true, receive := some [] }) := by
    rw [stream_unread h, readAll]
  have hbody : request.body =
      (.waits, { request with streamConsumed := true, receive := some [] }) := by
    rw [body_of_receive h.savedBody (Option.isSome_iff_exists.mpr ⟨_, h.receive⟩), hstream]
  cases call with
  | isDisconnected arrived => exact absurd hreads nofun
  | stream =>
    rw [step, hstream]
    exact not_false
  | body =>
    rw [step, hbody]
    exact not_false
  | json =>
    rw [step, Request.json, h.savedJson, hbody]
    exact not_false

theorem complete_reader (calls : List Call)
    (hpending : Pending messages) (hne : messages ≠ []) (h : Unread request messages)
    {call : Call} (hreads : call.reads = true) (content : Bytes) :
    (∀ answer ∈ answers loads eager request (call :: calls), answer.Complete content) ↔
      ((∃ reader ∈ call :: calls, reader.givesBytes = true) → bodyOf messages = content) := by
  have ⟨after, hbody, hsaved⟩ := body_pending hpending hne h
  rw [answers_cons, forall_mem_cons, exists_mem_cons_iff, or_imp]
  cases call with
  | isDisconnected arrived => exact absurd hreads nofun
  | stream =>
    have ⟨chunks, consumed, hstream, hflatten, hconsumed⟩ := stream_pending hpending hne h
    rw [step, hstream, ← hflatten]
    constructor
    · exact fun hall => ⟨fun _ => hall.1, fun _ => hall.1⟩
    · exact fun hgives => ⟨hgives.1 rfl, complete_consumed _ hconsumed _⟩
  | body =>
    rw [step, hbody]
    rw [complete_saved _ hsaved _]
    exact and_congr_left fun _ => ⟨fun heq _ => heq, fun heq => heq rfl⟩
  | json =>
    have hparsed := json_parses loads eager h.savedJson hbody content
    rw [complete_saved _ (hparsed.2.trans hsaved) _]
    exact and_congr_left fun _ => iff_of_true hparsed.1 nofun

theorem lt_length_tail (messages : List Message) (count : ℕ) :
    1 + count < messages.length ↔ count < messages.tail.length := by
  rw [length_tail, Nat.add_comm, Nat.lt_sub_iff_add_lt]

theorem bodyOf_take_succ (messages : List Message) (count : ℕ) :
    bodyOf (messages.take (1 + count)) =
      bodyOf (messages.take 1) ++ bodyOf (messages.tail.take count) := by
  cases messages with
  | nil => rw [take_nil, take_nil, tail_nil, take_nil]; rfl
  | cons message messages =>
    rw [Nat.add_comm, take_succ_cons, take_succ_cons, bodyOf_cons, bodyOf_cons, append_assoc]
    rfl

theorem bodyOf_split (messages : List Message) :
    bodyOf messages = bodyOf (messages.take 1) ++ bodyOf messages.tail := by
  cases messages with
  | nil => rfl
  | cons message messages => exact congrArg (· ++ _) (append_nil _).symm

theorem taken_reader {call : Call} (hreads : call.reads = true) (calls : List Call) :
    taken eager (call :: calls) = 0 := by
  cases call with
  | isDisconnected arrived => exact absurd hreads nofun
  | stream => rfl
  | body => rfl
  | json => rfl

/-- What the probes have taken so far is `lost`. -/
theorem complete_unread (loads : Bytes → Option Json) (eager : Bool) (calls : List Call)
    (lost : Bytes)
    (hpending : Pending messages) (h : Unread request messages) :
    (∀ answer ∈ answers loads eager request calls, answer.Complete (lost ++ bodyOf messages)) ↔
      ((∃ call ∈ calls, call.reads = true) → taken eager calls < messages.length) ∧
      ((∃ call ∈ calls, call.givesBytes = true) →
        lost ++ bodyOf (messages.take (taken eager calls)) = []) := by
  induction calls generalizing request messages lost with
  | nil => exact iff_of_true nofun ⟨nofun, nofun⟩
  | cons call calls ih =>
    cases hreads : call.reads with
    | true =>
      rw [taken_reader hreads, take_zero, exists_mem_cons_iff, hreads]
      cases messages with
      | nil =>
        refine iff_of_false ?_ fun hleft => absurd (hleft.1 (Or.inl rfl)) (lt_irrefl 0)
        intro hall
        exact step_empty h hreads _ (hall _ mem_cons_self)
      | cons message messages =>
        rw [complete_reader _ hpending (cons_ne_nil _ _) h hreads, self_eq_append_left]
        have hnothing : lost ++ bodyOf [] = lost := append_nil _
        rw [hnothing]
        exact (and_iff_right fun _ => Nat.succ_pos _).symm
    | false =>
      cases call with
      | isDisconnected arrived =>
        have hunread := unread_isDisconnected hpending eager arrived h
        have hprobe : ¬ (Call.isDisconnected arrived).reads = true := Bool.false_ne_true
        have hgives : ¬ (Call.isDisconnected arrived).givesBytes = true :=
          Bool.false_ne_true
        rw [answers_cons, forall_mem_cons, exists_mem_cons_iff,
          exists_mem_cons_iff, or_iff_right hprobe, or_iff_right hgives]
        refine (and_iff_right trivial).trans ?_
        rw [step, taken]
        cases htakes : (eager && arrived) with
        | false =>
          rw [htakes] at hunread
          rw [if_neg Bool.false_ne_true, Nat.zero_add]
          exact ih _ hpending hunread
        | true =>
          rw [htakes] at hunread
          have hrest := ih (lost ++ bodyOf (messages.take 1)) hpending.tail hunread
          rw [if_pos rfl, lt_length_tail, bodyOf_take_succ, ← append_assoc]
          rwa [append_assoc, ← bodyOf_split] at hrest
      | stream | body | json => exact absurd hreads nofun

end Readers

/-- A request before its first call. -/
def opened (Json : Type) (messages : List Message) : Request Json where
  receive := some messages

theorem opened_unread (messages : List Message) : Unread (opened Json messages) messages :=
  ⟨rfl, rfl, rfl, rfl, nofun⟩

/-- Readers get every chunk if what `is_disconnected` takes before the first of them has no
bytes and leaves a message to read. -/
theorem chunks_kept_iff (loads : Bytes → Option Json) (eager : Bool) (chunks : List Bytes)
    (final : Bytes) (disconnects : Bool) (calls : List Call) :
    (∀ answer ∈ answers loads eager (opened Json (requestMessages chunks final disconnects)) calls,
        answer.Complete (chunks.flatten ++ final)) ↔
      ((∃ call ∈ calls, call.reads = true) →
        taken eager calls < (requestMessages chunks final disconnects).length) ∧
      ((∃ call ∈ calls, call.givesBytes = true) →
        bodyOf ((requestMessages chunks final disconnects).take (taken eager calls)) = []) := by
  have hunread := complete_unread loads eager calls [] (requestMessages_pending _ _ _)
    (opened_unread (requestMessages chunks final disconnects))
  rwa [nil_append, nil_append, bodyOf_requestMessages] at hunread

/-- A probe in front of `body` takes the first of two chunks. -/
theorem chunk_lost :
    ¬ ∀ (loads : Bytes → Option Bytes) (eager : Bool) (chunks : List Bytes) (final : Bytes)
        (disconnects : Bool) (calls : List Call),
      ∀ answer ∈ answers loads eager (opened Bytes (requestMessages chunks final disconnects))
        calls, answer.Complete (chunks.flatten ++ final) := by
  intro hall
  have hbody := hall some true [ascii "ab"] (ascii "c") false [.isDisconnected true, .body]
    _ (mem_cons_of_mem _ mem_cons_self)
  exact absurd (show ascii "c" = ascii "ab" ++ [] ++ ascii "c" from hbody) (by decide)

end AstraApi.Http.RequestBody
