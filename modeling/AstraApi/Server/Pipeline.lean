import AstraApi.Http.Batch
import AstraApi.Server.Handlers

/-!
# Pipelined requests

`data_received` dispatches every complete request in the buffer: C++ writes the
responses of synchronous requests one after the other and stops at a request
that needs a task; Python creates the task, which runs to its first suspension,
and calls C++ again for the rest of the buffer.  Between two calls the event
loop resumes the pending tasks in any order.

Every write is recorded with the number of the request it answers.
-/

namespace AstraApi.Server

open List
open Coroutine

/-- The outcome of `dispatch_one_request` for a complete request: it was
answered (`True`), refused (`False`, and the connection is closed), or left to
a task. -/
inductive Dispatched (O X : Type*) where
  | answered (response : List Bytes)
  | refused (response : List Bytes)
  | task (inner : Inner O X)

/-- A task waits for an answer of the event loop. -/
structure Pending (O X : Type*) where
  request : ℕ
  resume : Except X (Answer O) → Handler O X Unit

structure Connection (R O X : Type*) where
  buffer : List R := []
  /-- The requests that `dispatch_one_request` was called with, in this order. -/
  dispatched : List R := []
  pending : List (Pending O X) := []
  transport : List (ℕ × Bytes) := []
  closing : Bool := false
  paused : Bool := false

/-- The transport answers; it never suspends a handler. -/
def transportEnvironment (O X : Type*) : Environment Bool (Op O) (Answer O) X where
  perform closing op :=
    match op with
    | .isClosing => (.flag closing, closing)
    | _ => (.nothing, closing)
  resume closing _ := (.ok .nothing, closing)

def writesOf {O : Type*} : List (Event (Op O)) → List Bytes
  | [] => []
  | .performed (.write data) :: events => data :: writesOf events
  | _ :: events => writesOf events

section Server

variable {R O X : Type*}

def Connection.record (conn : Connection R O X) (request : ℕ) (writes : List Bytes) :
    Connection R O X :=
  { conn with transport := conn.transport ++ writes.map fun data => (request, data) }

/-- Run a task up to its next suspension or its end. -/
def Connection.advance (conn : Connection R O X) (request : ℕ) (handler : Handler O X Unit) :
    Connection R O X :=
  let (step, _, events) := handler.send (transportEnvironment O X) conn.closing
  let conn := conn.record request (writesOf events)
  match step with
  | .yielded next => { conn with pending := conn.pending ++ [⟨request, next⟩] }
  | _ => conn

variable (isException : X → Bool) (respond : X → Handler O X (Option Bytes))
variable (middleware : Option (Raw O X → Handler O X (Raw O X)))
variable (dispatchOneRequest : R → Dispatched O X)

inductive BatchResult (O X : Type*) where
  | drained
  | failed
  | inner (inner : Inner O X)

def Connection.dispatch (conn : Connection R O X) (request : R) :
    Dispatched O X × Connection R O X :=
  (dispatchOneRequest request, { conn with dispatched := conn.dispatched ++ [request] })

/-- The number of the request dispatched last. -/
def Connection.current (conn : Connection R O X) : ℕ := conn.dispatched.length - 1

/-- The loop of `handle_http_batch_v2` over the requests in the buffer. -/
def handleHttpBatch : List R → Connection R O X → BatchResult O X × Connection R O X
  | [], conn => (.drained, { conn with buffer := [] })
  | request :: rest, conn =>
    match conn.dispatch dispatchOneRequest request with
    | (.answered response, conn) => handleHttpBatch rest (conn.record conn.current response)
    | (.refused response, conn) =>
      (.failed, { conn.record conn.current response with buffer := rest })
    | (.task inner, conn) => (.inner inner, { conn with buffer := rest })

/-- `create_task` with the eager task factory, for the request dispatched last. -/
def createTask (conn : Connection R O X) (inner : Inner O X) : Connection R O X :=
  conn.advance conn.current (inner.handler isException respond middleware)

/-- The loop of `data_received`; every round but the last takes a request from
the buffer. -/
def dispatchLoop : ℕ → Connection R O X → Connection R O X
  | 0, conn => conn
  | fuel + 1, conn =>
    match handleHttpBatch dispatchOneRequest conn.buffer conn with
    | (.drained, conn') => conn'
    | (.failed, conn') => { conn' with closing := true, buffer := [] }
    | (.inner inner, conn') =>
      dispatchLoop fuel (createTask isException respond middleware conn' inner)

/-- `data_received` with the requests a chunk completes; under back-pressure
they are only buffered.  The answers with status 413 that it writes itself, before it
closes the connection, are left out. -/
def dataReceived (conn : Connection R O X) (requests : List R) : Connection R O X :=
  let conn := { conn with buffer := conn.buffer ++ requests }
  if conn.paused then conn
  else dispatchLoop isException respond middleware dispatchOneRequest (conn.buffer.length + 1) conn

inductive LoopEvent (R O X : Type*) where
  | received (requests : List R)
  | resumed (index : ℕ) (answer : Except X (Answer O))
  | pauseWriting
  | resumeWriting
  | drainBuf

/-- One turn of the event loop.  A closing transport reads no more data;
`_drain_buf`, which `resume_writing` schedules, is `data_received` with an empty
chunk. -/
def turn (conn : Connection R O X) : LoopEvent R O X → Connection R O X
  | .received requests =>
    if conn.closing then conn
    else dataReceived isException respond middleware dispatchOneRequest conn requests
  | .resumed index answer =>
    match conn.pending[index]? with
    | none => conn
    | some task =>
      { conn with pending := conn.pending.eraseIdx index }.advance task.request
        (task.resume answer)
  | .pauseWriting => { conn with paused := true }
  | .resumeWriting => { conn with paused := false }
  | .drainBuf =>
    if conn.paused = true ∨ conn.buffer.isEmpty then conn
    else dataReceived isException respond middleware dispatchOneRequest conn []

def run (events : List (LoopEvent R O X)) : Connection R O X :=
  events.foldl (turn isException respond middleware dispatchOneRequest) {}

/-! ## The order of responses -/

@[simp]
theorem advance_closing (conn : Connection R O X) (request : ℕ) (handler : Handler O X Unit) :
    (conn.advance request handler).closing = conn.closing := by
  simp only [Connection.advance, Connection.record]
  split <;> rfl

@[simp]
theorem advance_buffer (conn : Connection R O X) (request : ℕ) (handler : Handler O X Unit) :
    (conn.advance request handler).buffer = conn.buffer := by
  simp only [Connection.advance, Connection.record]
  split <;> rfl

/-- Responses stand in the order of the requests, and no response is
interrupted by another: a write never answers an earlier request than a write
before it. -/
def InOrder (transport : List (ℕ × Bytes)) : Prop :=
  transport.Pairwise fun first later => first.1 ≤ later.1

def Connection.Settled (conn : Connection R O X) : Prop :=
  ∀ task ∈ conn.pending, ∀ answer, (task.resume answer).Avoids Op.IsWrite

/-- A task that has nothing left to write at its first suspension. -/
def Prompt (closing : Bool) (inner : Inner O X) : Prop :=
  ∀ next, ((inner.handler isException respond middleware).send
      (transportEnvironment O X) closing).1 = .yielded next →
    ∀ answer, (next answer).Avoids Op.IsWrite

/-- Only the last request of the buffer leaves a task that still has to
write. -/
def InTurn (closing : Bool) : List R → Prop
  | [] => True
  | request :: rest =>
    match dispatchOneRequest request with
    | .answered _ => InTurn closing rest
    | .refused _ => True
    | .task inner =>
      (rest = [] ∨ Prompt isException respond middleware closing inner) ∧ InTurn closing rest

/-- No request is dispatched while the task of an earlier one can still
write. -/
def OneAtATime (conn : Connection R O X) : LoopEvent R O X → Prop
  | .received requests =>
    conn.closing = true ∨ conn.paused = true ∨
      (conn.buffer ++ requests = [] ∨ conn.Settled) ∧
        InTurn isException respond middleware dispatchOneRequest conn.closing
          (conn.buffer ++ requests)
  | .drainBuf =>
    conn.paused = true ∨
      (conn.buffer = [] ∨ conn.Settled) ∧
        InTurn isException respond middleware dispatchOneRequest conn.closing conn.buffer
  | _ => True

/-- The writes so far are in order, and only the task of the request dispatched
last can still write. -/
structure Sequential (conn : Connection R O X) : Prop where
  inOrder : InOrder conn.transport
  dispatched : ∀ entry ∈ conn.transport, entry.1 < conn.dispatched.length
  last : ∀ task ∈ conn.pending, task.request + 1 = conn.dispatched.length ∨
    ∀ answer, (task.resume answer).Avoids Op.IsWrite

theorem writesOf_append (first second : List (Event (Op O))) :
    writesOf (first ++ second) = writesOf first ++ writesOf second := by
  induction first with
  | nil => rfl
  | cons event first ih =>
    cases event with
    | awaited op => exact ih
    | performed op =>
      cases op with
      | write data => exact congrArg _ ih
      | isClosing => exact ih
      | wait awaitable => exact ih

theorem writesOf_eq_nil {events : List (Event (Op O))}
    (hnone : ∀ op, .performed op ∈ events → ¬ op.IsWrite) : writesOf events = [] := by
  induction events with
  | nil => rfl
  | cons event events ih =>
    have hrest : writesOf events = [] := ih fun op hmem => hnone _ (mem_cons_of_mem _ hmem)
    cases event with
    | awaited awaitable => exact hrest
    | performed op =>
      cases op with
      | write data => exact absurd trivial (hnone (.write data) mem_cons_self)
      | isClosing => exact hrest
      | wait awaitable => exact hrest

theorem Sequential.record {conn : Connection R O X} (hconn : Sequential conn) {request : ℕ}
    {writes : List Bytes} (hturn : request + 1 = conn.dispatched.length ∨ writes = []) :
    Sequential (conn.record request writes) := by
  rcases hturn with hturn | rfl
  · have hlast : ∀ entry ∈ writes.map fun data => (request, data), entry.1 = request := by
      simp
    constructor
    · apply pairwise_append.mpr
      refine ⟨hconn.inOrder, ?_, ?_⟩
      · apply pairwise_of_forall_mem_list
        intro first hfirst later hlater
        rw [hlast _ hfirst, hlast _ hlater]
      · intro first hfirst later hlater
        have hbefore := hconn.dispatched _ hfirst
        rw [hlast _ hlater]
        omega
    · intro entry hentry
      rcases mem_append.mp hentry with hentry | hentry
      · exact hconn.dispatched _ hentry
      · have hrequest := hlast _ hentry
        simp only [Connection.record]
        omega
    · exact hconn.last
  · simpa [Connection.record] using hconn

theorem Sequential.advance {conn : Connection R O X} (hconn : Sequential conn) {request : ℕ}
    {handler : Handler O X Unit}
    (hturn : request + 1 = conn.dispatched.length ∨ handler.Avoids Op.IsWrite) :
    Sequential (conn.advance request handler) := by
  simp only [Connection.advance]
  have hrecord : Sequential (conn.record request (writesOf
      (handler.send (transportEnvironment O X) conn.closing).2.2)) := by
    apply hconn.record
    rcases hturn with hturn | havoids
    · exact Or.inl hturn
    · exact Or.inr (writesOf_eq_nil (havoids.not_performed _ _))
  split
  · rename_i next hstep
    constructor
    · exact hrecord.inOrder
    · exact hrecord.dispatched
    · intro task htask
      rcases mem_append.mp htask with htask | htask
      · exact hrecord.last _ htask
      · obtain rfl := mem_singleton.mp htask
        rcases hturn with hturn | havoids
        · exact Or.inl hturn
        · exact Or.inr (havoids.yielded _ _ hstep)
  · exact hrecord

/-- Once no pending task can write, the next request may be dispatched. -/
theorem Sequential.dispatch {conn : Connection R O X} (hconn : Sequential conn)
    (hsettled : conn.Settled) (request : R) :
    Sequential (conn.dispatch dispatchOneRequest request).2 where
  inOrder := hconn.inOrder
  dispatched _ hentry := (hconn.dispatched _ hentry).trans_le (by simp [Connection.dispatch])
  last _ htask := Or.inr (hsettled _ htask)

theorem current_dispatch (conn : Connection R O X) (request : R) :
    (conn.dispatch dispatchOneRequest request).2.current + 1 =
      (conn.dispatch dispatchOneRequest request).2.dispatched.length := by
  simp [Connection.current, Connection.dispatch]

theorem handleHttpBatch_sequential (requests : List R) {conn : Connection R O X}
    (hconn : Sequential conn) (hsettled : requests = [] ∨ conn.Settled)
    (hturn : InTurn isException respond middleware dispatchOneRequest conn.closing requests) :
    let (result, conn') := handleHttpBatch dispatchOneRequest requests conn
    Sequential conn' ∧ ∀ inner, result = .inner inner → conn'.Settled ∧
      conn'.current + 1 = conn'.dispatched.length ∧
      (conn'.buffer = [] ∨ Prompt isException respond middleware conn'.closing inner) ∧
      InTurn isException respond middleware dispatchOneRequest conn'.closing conn'.buffer := by
  induction requests generalizing conn with
  | nil =>
    constructor
    · exact ⟨hconn.inOrder, hconn.dispatched, hconn.last⟩
    · intro inner hinner
      cases hinner
  | cons request rest ih =>
    have hall : conn.Settled := hsettled.resolve_left (cons_ne_nil _ _)
    have hnext := hconn.dispatch dispatchOneRequest hall request
    have hcurrent := current_dispatch dispatchOneRequest conn request
    simp only [InTurn] at hturn
    simp only [handleHttpBatch]
    cases hdispatch : dispatchOneRequest request with
    | answered response =>
      simp only [hdispatch] at hturn
      simp only [Connection.dispatch, hdispatch] at hnext hcurrent ⊢
      exact ih (hnext.record (Or.inl hcurrent)) (Or.inr hall) hturn
    | refused response =>
      simp only [Connection.dispatch, hdispatch] at hnext hcurrent ⊢
      have hrecord := @Sequential.record _ _ _ _ hnext _ response (Or.inl hcurrent)
      constructor
      · exact ⟨hrecord.inOrder, hrecord.dispatched, hrecord.last⟩
      · intro inner hinner
        cases hinner
    | task inner =>
      simp only [hdispatch] at hturn
      simp only [Connection.dispatch, hdispatch] at hnext hcurrent ⊢
      constructor
      · exact ⟨hnext.inOrder, hnext.dispatched, hnext.last⟩
      · intro inner' hinner
        cases hinner
        exact ⟨hall, hcurrent, hturn⟩

/-- A prompt task leaves the connection settled. -/
theorem createTask_settled {conn : Connection R O X} (hsettled : conn.Settled)
    {inner : Inner O X} (hprompt : Prompt isException respond middleware conn.closing inner) :
    (createTask isException respond middleware conn inner).Settled := by
  simp only [createTask, Connection.advance, Connection.record]
  split
  · rename_i next hstep
    intro task htask
    rcases mem_append.mp htask with htask | htask
    · exact hsettled _ htask
    · obtain rfl := mem_singleton.mp htask
      exact hprompt _ hstep
  · exact hsettled

theorem dispatchLoop_sequential (fuel : ℕ) {conn : Connection R O X} (hconn : Sequential conn)
    (hsettled : conn.buffer = [] ∨ conn.Settled)
    (hturn : InTurn isException respond middleware dispatchOneRequest conn.closing conn.buffer) :
    Sequential (dispatchLoop isException respond middleware dispatchOneRequest fuel conn) := by
  induction fuel generalizing conn with
  | zero => exact hconn
  | succ fuel ih =>
    have hbatch := handleHttpBatch_sequential _ _ _ _
      _ hconn hsettled hturn
    simp only [dispatchLoop]
    rcases hresult : handleHttpBatch dispatchOneRequest conn.buffer conn with ⟨result, conn'⟩
    simp only [hresult] at hbatch
    cases result with
    | drained => exact hbatch.1
    | failed => exact ⟨hbatch.1.inOrder, hbatch.1.dispatched, hbatch.1.last⟩
    | inner inner =>
      obtain ⟨hall, hcurrent, hprompt, hrest⟩ := hbatch.2 inner rfl
      apply ih
      · exact hbatch.1.advance (Or.inl hcurrent)
      · rcases hprompt with hempty | hprompt
        · left
          simpa [createTask] using hempty
        · right
          exact createTask_settled _ _ _ hall hprompt
      · simpa [createTask] using hrest

theorem dataReceived_sequential {conn : Connection R O X} (hconn : Sequential conn)
    (requests : List R)
    (hturn : conn.paused = true ∨ (conn.buffer ++ requests = [] ∨ conn.Settled) ∧
        InTurn isException respond middleware dispatchOneRequest conn.closing
          (conn.buffer ++ requests)) :
    Sequential (dataReceived isException respond middleware dispatchOneRequest conn requests) := by
  have hbuffered : Sequential { conn with buffer := conn.buffer ++ requests } :=
    ⟨hconn.inOrder, hconn.dispatched, hconn.last⟩
  simp only [dataReceived]
  split
  · exact hbuffered
  · rename_i hrunning
    have hready := hturn.resolve_left hrunning
    exact dispatchLoop_sequential _ _ _ _ _ hbuffered hready.1 hready.2

/-- A turn that dispatches nothing while an earlier task can still write keeps
the writes in order. -/
theorem turn_sequential {conn : Connection R O X} (hconn : Sequential conn)
    (event : LoopEvent R O X)
    (hturn : OneAtATime isException respond middleware dispatchOneRequest conn event) :
    Sequential (turn isException respond middleware dispatchOneRequest conn event) := by
  cases event with
  | received requests =>
    simp only [turn]
    split
    · exact hconn
    · rename_i hopen
      exact dataReceived_sequential _ _ _ _ hconn
        _ (hturn.resolve_left hopen)
  | resumed index answer =>
    simp only [turn]
    cases htask : conn.pending[index]? with
    | none => exact hconn
    | some task =>
      have hlast := hconn.last _ (mem_of_getElem? htask)
      have herased : Sequential { conn with pending := conn.pending.eraseIdx index } := by
        constructor
        · exact hconn.inOrder
        · exact hconn.dispatched
        · intro other hother
          exact hconn.last _ (mem_of_mem_eraseIdx hother)
      apply herased.advance
      rcases hlast with hlast | havoids
      · exact Or.inl hlast
      · exact Or.inr (havoids _)
  | pauseWriting | resumeWriting => exact ⟨hconn.inOrder, hconn.dispatched, hconn.last⟩
  | drainBuf =>
    simp only [turn]
    split
    · exact hconn
    · apply dataReceived_sequential _ _ _ _ hconn
      simpa [OneAtATime] using hturn

theorem run_append (events : List (LoopEvent R O X)) (event : LoopEvent R O X) :
    run isException respond middleware dispatchOneRequest (events ++ [event]) =
      turn isException respond middleware dispatchOneRequest
        (run isException respond middleware dispatchOneRequest events) event := by
  simp [run]

theorem run_sequential (events : List (LoopEvent R O X))
    (hturns : ∀ before event after, events = before ++ event :: after →
      OneAtATime isException respond middleware dispatchOneRequest
        (run isException respond middleware dispatchOneRequest before) event) :
    Sequential (run isException respond middleware dispatchOneRequest events) := by
  induction events using List.reverseRecOn with
  | nil =>
    constructor
    · exact List.Pairwise.nil
    · intro entry hentry
      cases hentry
    · intro task htask
      cases htask
  | append_singleton events event ih =>
    rw [run_append]
    apply turn_sequential
    · apply ih
      intro before event' after hevents
      apply hturns _ _ (after ++ [event])
      simp [hevents]
    · exact hturns _ _ [] rfl

/-- In every run in which no request is dispatched while the task of an earlier
one can still write, the responses come back in order and uninterrupted. -/
theorem run_inOrder (events : List (LoopEvent R O X))
    (hturns : ∀ before event after, events = before ++ event :: after →
      OneAtATime isException respond middleware dispatchOneRequest
        (run isException respond middleware dispatchOneRequest before) event) :
    InOrder (run isException respond middleware dispatchOneRequest events).transport :=
  (run_sequential _ _ _ _ _ hturns).inOrder

/-! ## Every request is accounted for -/

def LoopEvent.arriving : LoopEvent R O X → List R
  | .received requests => requests
  | _ => []

structure Accounted (received : List R) (conn : Connection R O X) : Prop where
  requests : conn.closing = true ∨ conn.dispatched ++ conn.buffer = received
  writes : ∀ entry ∈ conn.transport, entry.1 < conn.dispatched.length
  tasks : ∀ task ∈ conn.pending, task.request < conn.dispatched.length

variable {received : List R} {conn : Connection R O X}

theorem Accounted.dispatch {request : R} {rest : List R}
    (h : Accounted received { conn with buffer := request :: rest }) :
    Accounted received { (conn.dispatch dispatchOneRequest request).2 with buffer := rest } where
  requests := h.requests.imp_right ((append_cons _ _ _).symm.trans ·)
  writes _ hentry := (h.writes _ hentry).trans_le (by simp [Connection.dispatch])
  tasks _ htask := (h.tasks _ htask).trans_le (by simp [Connection.dispatch])

theorem Accounted.record (h : Accounted received conn) {request : ℕ}
    (hrequest : request < conn.dispatched.length) (writes : List Bytes) :
    Accounted received (conn.record request writes) where
  requests := h.requests
  writes entry hentry := by
    rcases mem_append.mp hentry with hentry | hentry
    · exact h.writes _ hentry
    · obtain ⟨data, -, rfl⟩ := mem_map.mp hentry
      exact hrequest
  tasks := h.tasks

theorem Accounted.advance (h : Accounted received conn) {request : ℕ}
    (hrequest : request < conn.dispatched.length) (handler : Handler O X Unit) :
    Accounted received (conn.advance request handler) := by
  have hrecord := h.record hrequest
    (writesOf (handler.send (transportEnvironment O X) conn.closing).2.2)
  simp only [Connection.advance]
  split
  · refine ⟨hrecord.requests, hrecord.writes, fun task htask => ?_⟩
    rcases mem_append.mp htask with htask | htask
    · exact h.tasks _ htask
    · rw [mem_singleton.mp htask]
      exact hrequest
  · exact hrecord

theorem handleHttpBatch_accounted (requests : List R)
    (h : Accounted received { conn with buffer := requests }) :
    let (result, conn') := handleHttpBatch dispatchOneRequest requests conn
    Accounted received conn' ∧
      ∀ inner, result = .inner inner → conn'.current < conn'.dispatched.length := by
  induction requests generalizing conn with
  | nil => exact ⟨h, fun inner hinner => by cases hinner⟩
  | cons request rest ih =>
    have hnext := h.dispatch dispatchOneRequest
    have hcurrent := (current_dispatch dispatchOneRequest conn request).le
    simp only [handleHttpBatch]
    cases hdispatch : dispatchOneRequest request with
    | answered response =>
      simp only [Connection.dispatch, hdispatch] at hnext hcurrent ⊢
      exact ih (hnext.record hcurrent response)
    | refused response =>
      simp only [Connection.dispatch, hdispatch] at hnext hcurrent ⊢
      exact ⟨hnext.record hcurrent response, fun inner hinner => by cases hinner⟩
    | task inner =>
      simp only [Connection.dispatch, hdispatch] at hnext hcurrent ⊢
      exact ⟨hnext, fun _ _ => hcurrent⟩

theorem dispatchLoop_accounted (fuel : ℕ) (h : Accounted received conn) :
    Accounted received
      (dispatchLoop isException respond middleware dispatchOneRequest fuel conn) := by
  induction fuel generalizing conn with
  | zero => exact h
  | succ fuel ih =>
    have hbatch := handleHttpBatch_accounted dispatchOneRequest conn.buffer h
    simp only [dispatchLoop]
    rcases hresult : handleHttpBatch dispatchOneRequest conn.buffer conn with ⟨result, conn'⟩
    rw [hresult] at hbatch
    cases result with
    | drained => exact hbatch.1
    | failed => exact ⟨Or.inl rfl, hbatch.1.writes, hbatch.1.tasks⟩
    | inner inner => exact ih (hbatch.1.advance (hbatch.2 _ rfl) _)

theorem Accounted.dataReceived (h : Accounted received conn) (requests : List R) :
    Accounted (received ++ requests)
      (dataReceived isException respond middleware dispatchOneRequest conn requests) := by
  have happended : Accounted (received ++ requests)
      { conn with buffer := conn.buffer ++ requests } := by
    refine ⟨h.requests.imp_right fun hall => ?_, h.writes, h.tasks⟩
    rw [← hall, append_assoc]
  simp only [Server.dataReceived]
  split
  · exact happended
  · exact dispatchLoop_accounted _ _ _ _ _ happended

theorem Accounted.turn (h : Accounted received conn) (event : LoopEvent R O X) :
    Accounted (received ++ event.arriving)
      (turn isException respond middleware dispatchOneRequest conn event) := by
  have hsame : received ++ [] = received := append_nil _
  cases event with
  | received requests =>
    simp only [Server.turn]
    split
    · rename_i hclosing
      exact ⟨.inl hclosing, h.writes, h.tasks⟩
    · exact h.dataReceived _ _ _ _ _
  | resumed index answer =>
    simp only [Server.turn, LoopEvent.arriving, hsame]
    cases htask : conn.pending[index]? with
    | none => exact h
    | some task =>
      have herased : Accounted received { conn with pending := conn.pending.eraseIdx index } :=
        ⟨h.requests, h.writes, fun _ hother => h.tasks _ (mem_of_mem_eraseIdx hother)⟩
      exact herased.advance (h.tasks _ (mem_of_getElem? htask)) _
  | pauseWriting | resumeWriting =>
    simp only [LoopEvent.arriving, hsame]
    exact ⟨h.requests, h.writes, h.tasks⟩
  | drainBuf =>
    simp only [Server.turn]
    split
    · simpa only [LoopEvent.arriving, hsame] using h
    · exact h.dataReceived _ _ _ _ []

/-- How `dispatch_one_request` sees the buffer: the bytes of complete requests one after the
other, and behind them a request that is not complete. -/
structure Framing (dispatchOneRequest : R → Dispatched O X)
    (dispatch : Http.Dispatch (Inner O X)) where
  bytes : R → Bytes
  rest : Bytes
  incomplete : dispatch.result rest = .incomplete
  answered : ∀ request response, dispatchOneRequest request = .answered response → ∀ tail,
    dispatch.result (bytes request ++ tail) = .handled (bytes request).length
  refused : ∀ request response, dispatchOneRequest request = .refused response → ∀ tail,
    dispatch.result (bytes request ++ tail) = .failed
  task : ∀ request inner, dispatchOneRequest request = .task inner → ∀ tail,
    dispatch.result (bytes request ++ tail) = .pair (bytes request).length inner

variable {dispatchOneRequest} {dispatch : Http.Dispatch (Inner O X)}

def Framing.buffered (framing : Framing dispatchOneRequest dispatch) (requests : List R) : Bytes :=
  requests.flatMap framing.bytes ++ framing.rest

/-- Where a traversal of the bytes stops. -/
theorem traverse_requests (framing : Framing dispatchOneRequest dispatch) {raw : Bytes}
    (requests : List R) {offset fuel : ℕ} (conn : Connection R O X)
    (hraw : raw.drop offset = framing.buffered requests) (hfuel : requests.length < fuel) :
    ∃ calls last result, Http.traverse dispatch raw fuel offset = some (calls, last, result) ∧
      match handleHttpBatch dispatchOneRequest requests conn with
      | (.drained, _) => result = .incomplete ∧ raw.drop last = framing.rest
      | (.failed, _) => result = .failed
      | (.inner inner, conn') => ∃ consumed, result = .pair consumed inner ∧
          raw.drop (last + consumed) = framing.buffered conn'.buffer := by
  cases fuel with
  | zero => exact absurd hfuel (Nat.not_lt_zero _)
  | succ fuel =>
    induction requests generalizing offset fuel conn with
    | nil =>
      have hrest : raw.drop offset = framing.rest := hraw
      refine ⟨[raw.drop offset], offset, .incomplete, ?_, rfl, hrest⟩
      rw [Http.traverse, hrest, framing.incomplete]
    | cons request requests ih =>
      have hsplit : raw.drop offset = framing.bytes request ++ framing.buffered requests := by
        rw [hraw, Framing.buffered, flatMap_cons, append_assoc]
        rfl
      have hdrop : raw.drop (offset + (framing.bytes request).length) =
          framing.buffered requests := by
        rw [← drop_drop, hsplit, drop_left]
      rw [Http.traverse, hsplit, handleHttpBatch]
      cases hdispatch : dispatchOneRequest request with
      | answered response =>
        obtain ⟨fuel, rfl⟩ := Nat.exists_eq_add_one_of_ne_zero
          (Nat.ne_zero_of_lt (Nat.lt_of_succ_lt_succ hfuel))
        simp only [Connection.dispatch, hdispatch, framing.answered _ _ hdispatch]
        obtain ⟨calls, last, result, htraverse, hends⟩ :=
          ih _ hdrop _ (Nat.lt_of_succ_lt_succ hfuel)
        rw [htraverse]
        exact ⟨_, last, result, rfl, hends⟩
      | refused response =>
        simp only [Connection.dispatch, hdispatch, framing.refused _ _ hdispatch]
        exact ⟨_, offset, _, rfl, rfl⟩
      | task inner =>
        simp only [Connection.dispatch, hdispatch, framing.task _ _ hdispatch]
        exact ⟨_, offset, _, rfl, _, rfl, hdrop⟩

theorem handleHttpBatchV2_requests (framing : Framing dispatchOneRequest dispatch)
    (requests : List R) (conn : Connection R O X) {buffer : HttpConnectionBuffer} {fuel : ℕ}
    (hbuffer : buffer.contents = framing.buffered requests) (hsize : buffer.size ≠ 0)
    (hfuel : requests.length < fuel) :
    ∃ batch, Http.handleHttpBatchV2 dispatch fuel buffer = some batch ∧
      match handleHttpBatch dispatchOneRequest requests conn with
      | (.drained, _) => batch.buffer.contents = framing.rest
      | (.failed, _) => batch.reply = .code (-2)
      | (.inner inner, conn') => batch.reply = .payload inner ∧
          batch.buffer.contents = framing.buffered conn'.buffer := by
  obtain ⟨calls, last, result, htraverse, hends⟩ :=
    traverse_requests framing requests conn (show buffer.contents.drop 0 = _ from hbuffer) hfuel
  rw [Http.handleHttpBatchV2, if_neg hsize, Http.batchV2Loop_eq, htraverse]
  refine ⟨_, rfl, ?_⟩
  have hcontents := Http.finishBatch_contents buffer ([] ++ calls) last
    ((Http.traverses_of_traverse htraverse).not_handled dispatch)
  generalize handleHttpBatch dispatchOneRequest requests conn = handled at hends
  rcases handled with ⟨_ | _ | inner, conn'⟩
  · obtain ⟨rfl, hrest⟩ := hends
    exact hcontents.trans hrest
  · obtain rfl := hends
    rfl
  · obtain ⟨consumed, rfl, hrest⟩ := hends
    exact ⟨rfl, hcontents.trans hrest⟩

end Server

/-- Two routes: one is answered at once, the other waits before it returns. -/
def twoRoutes : Bool → Dispatched Unit Unit
  | true => .answered [ascii "now"]
  | false =>
    .task (.async true (.suspend (.wait (some ())) fun _ =>
      .ret { built := .json (some (ascii "later")) }))

def noResponse : Unit → Handler Unit Unit (Option Bytes) := fun _ => .ret none

theorem run_inOrder_waiting_last :
    let events : List (LoopEvent Bool Unit Unit) :=
      [.received [true, false], .resumed 0 (.ok .nothing)]
    InOrder (run (fun _ => true) noResponse none twoRoutes events).transport := by
  apply run_inOrder
  intro before event after hevents
  match before, hevents with
  | [], hevents =>
    obtain ⟨rfl, _⟩ := cons_eq_cons.mp hevents
    right
    right
    constructor
    · right
      intro task htask
      cases htask
    · exact ⟨Or.inl rfl, trivial⟩
  | [_], hevents =>
    obtain ⟨_, hevents⟩ := cons_eq_cons.mp hevents
    obtain ⟨rfl, _⟩ := cons_eq_cons.mp hevents
    exact trivial
  | _ :: _ :: _, hevents => simp at hevents

/-- The second response overtakes the first. -/
theorem run_not_inOrder : ¬ ∀ (dispatchOneRequest : Bool → Dispatched Unit Unit)
    (events : List (LoopEvent Bool Unit Unit)),
      InOrder (run (fun _ => true) noResponse none dispatchOneRequest events).transport := by
  intro hall
  have horder := hall twoRoutes [.received [false, true], .resumed 0 (.ok .nothing)]
  revert horder
  unfold InOrder
  decide

end AstraApi.Server
