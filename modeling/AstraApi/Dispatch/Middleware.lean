import AstraApi.Dispatch.Counter
import AstraApi.Server.Pipeline

/-!
# HTTP middleware

The dispatchers of `@app.middleware("http")` run behind the endpoint: an exit of
the dispatcher or of a handler that knows them gives the result to
`_run_http_middleware`.  `_response_shim`, which some routes are registered with,
runs them itself.
-/

namespace AstraApi.Dispatch

open List
open AstraApi.Response (Runtime Caches)
open AstraApi.Server (Handler Raw Op Answer write writeSome awaitSome driveCoro driveRest
  exceptException dispatchException runHttpMiddleware ifOpen ifOpenOr writesOf
  writesOf_append)
open Coroutine

/-! ## Dispatchers -/

section Dispatchers

variable {O X : Type*}

/-- A dispatcher, given the response that `call_next` returns. -/
abbrev Dispatcher (O X : Type*) := Raw O X → Handler O X (Option (Raw O X))

/-- The loop of `_run_http_middleware`: `None` keeps the response. -/
def runChain : List (Dispatcher O X) → Raw O X → Handler O X (Raw O X)
  | [], response => .ret response
  | dispatch :: rest, response =>
    (dispatch response).bind fun next => runChain rest (next.getD response)

/-- The loop of `_response_shim`: `None` ends it. -/
def shimChain : List (Dispatcher O X) → Raw O X → Handler O X (Option (Raw O X))
  | [], response => .ret (some response)
  | dispatch :: rest, response =>
    (dispatch response).bind fun
      | none => .ret none
      | some next => shimChain rest next

variable (isException : X → Bool) (respond : X → Handler O X (Option Bytes))
variable (render : Raw O X → Except X (Raw O X))

/-- `_run_http_middleware` up to the final response.  A result is rendered first; the
last registered dispatcher comes first. -/
def runDispatchers (dispatchers : List (Dispatcher O X)) (raw : Raw O X) :
    Handler O X (Raw O X) :=
  match render raw with
  | .error exc => .throw exc
  | .ok response =>
    let response :=
      { response with
        shimBackground := raw.shimBackground.or response.shimBackground
        exitStack := raw.exitStack.or response.exitStack }
    (runChain dispatchers.reverse response).bind fun final =>
      .ret
        { final with
          shimBackground := final.shimBackground.or response.shimBackground
          exitStack := final.exitStack.or response.exitStack }

/-- The dispatchers in `_response_shim`.  Exceptions are dropped, and with them what
the dispatchers did. -/
def shimMiddleware (dispatchers : List (Dispatcher O X)) (result : Raw O X) :
    Handler O X (Raw O X) :=
  match dispatchers, render result with
  | [], _ => .ret result
  | _, .error exc => if isException exc then .ret result else .throw exc
  | _, .ok response =>
    ((shimChain dispatchers.reverse response).bind fun
      | none => .ret result
      | some final => .ret { final with middlewareRan := true }).tryCatch
        fun exc => if isException exc then some (.ret result) else none

/-- What a route is registered with: its endpoint in a shim, which finishes the
result.  `intercepts` is set for `_response_shim`. -/
structure Callable (O X : Type*) where
  endpoint : Handler O X (Raw O X)
  finish : Raw O X → Handler O X (Raw O X)
  intercepts : Bool

def Callable.intercept (callable : Callable O X) (dispatchers : List (Dispatcher O X))
    (result : Raw O X) : Handler O X (Raw O X) :=
  if callable.intercepts then shimMiddleware isException render dispatchers result else .ret result

def Callable.registered (callable : Callable O X) (dispatchers : List (Dispatcher O X)) :
    Handler O X (Raw O X) :=
  callable.endpoint.bind fun result =>
    (callable.intercept isException render dispatchers result).bind callable.finish

/-! ## What should reach the transport -/

/-- A response that has to be iterated is not written. -/
def deliver (final : Raw O X) : Handler O X Unit :=
  match final.built with
  | .json response => writeSome response
  | .whole response => write response
  | .streaming _ _ => .ret ()

/-- Every dispatcher runs once on the response, the final response is written, and the
path cleans up; an exception is answered. -/
def intercepted (dispatchers : List (Dispatcher O X)) (cleanUp : Raw O X → Handler O X Unit)
    (raw : Raw O X) : Handler O X Unit :=
  exceptException isException (dispatchException respond)
    ((runDispatchers render dispatchers raw).bind fun final =>
      (deliver final).bind fun _ => cleanUp final)

end Dispatchers

/-! ## The ways of a result -/

/-- How the callable of a route is run: at once by the dispatcher, from its first
suspension by `_handle_async`, behind the validation of the body by
`_handle_pydantic`, or behind the dependencies by `_handle_async_di`. -/
inductive Way (F P O X : Type*) where
  | inline (view : Raw O X → Returned F P) (serialize : Raw O X → Option (Raw O X))
  | suspended
  | validated (validate : Handler O X (Option Bytes))
  | solved (solve : Handler O X (Option Bytes × Option (Handler O X Unit)))

section Ways

variable {F P O X σ : Type*}
variable (isException : X → Bool) (respond : X → Handler O X (Option Bytes))
variable (render : Raw O X → Except X (Raw O X))
variable (runtime : Runtime F P) (handlers : ExceptionHandlers F P)
variable (app : CoreApp O X) (route : RouteEntry) (reply : Reply) (exceptionSet : Bool)
variable (caches : Caches) (path : Bytes)
variable (env : Environment σ (Op O) (Answer O) X)

/-- What a call and its task write. -/
def servedWrites (dispatchers : List (Dispatcher O X)) (s : σ) (served : Served O X) : List Bytes :=
  Effect.writes served.effects ++
    match served.task with
    | none => []
    | some inner =>
      writesOf ((inner.handler isException respond
        (some (runDispatchers render dispatchers))).run env s).2.2

namespace Way

def writes (callable : Callable O X) (dispatchers : List (Dispatcher O X)) (s : σ)
    (way : Way F P O X) : List Bytes :=
  let registered := callable.registered isException render dispatchers
  let written := fun course s => servedWrites isException respond render env dispatchers s
    (dependencyCourse runtime handlers app route reply exceptionSet caches path course)
  match way with
  | .inline view serialize =>
    match registered.send env s with
    | (.returned raw, s', events) =>
      writesOf events ++
        written (.solved (.valid (.returned ⟨view raw, raw⟩
          ((serialize raw).map fun raw => ⟨view raw, raw⟩)))) s'
    | (_, _, events) => writesOf events
  | .suspended => written (.solved (.valid (.suspended registered))) s
  | .validated validate => written (.solved (.unfinished validate registered)) s
  | .solved solve => written (.suspended solve registered) s

def Returns (callable : Callable O X) (result raw : Raw O X)
    (tasks : Option (Handler O X Unit)) (before : List Bytes) (s s' : σ) : Way F P O X → Prop
  | .inline _ _ => ∃ mid first second,
      callable.endpoint.send env s = (.returned result, mid, first) ∧
        (callable.finish result).send env mid = (.returned raw, s', second) ∧
        before = writesOf first ++ writesOf second
  | .suspended => ∃ op next mid first second, callable.endpoint = .suspend op next ∧
      (driveCoro callable.endpoint).run env s = (.ok result, mid, first) ∧
        (driveRest (callable.finish result)).run env mid = (.ok raw, s', second) ∧
        before = writesOf first ++ writesOf second
  | .validated validate => ∃ start mid zeroth first second,
      validate.run env s = (.ok none, start, zeroth) ∧
        callable.endpoint.run env start = (.ok result, mid, first) ∧
        (callable.finish result).run env mid = (.ok raw, s', second) ∧
        before = writesOf zeroth ++ writesOf first ++ writesOf second
  | .solved solve => ∃ start mid zeroth first second,
      (driveCoro solve).run env s = (.ok (none, tasks), start, zeroth) ∧
        callable.endpoint.run env start = (.ok result, mid, first) ∧
        (callable.finish result).run env mid = (.ok raw, s', second) ∧
        before = writesOf zeroth ++ writesOf first ++ writesOf second

def response (raw : Raw O X) : Way F P O X → Raw O X
  | .inline _ serialize => if route.hasResponseModel then (serialize raw).getD raw else raw
  | _ => raw

/-- What follows the response. -/
def cleanUp (tasks : Option (Handler O X Unit)) : Way F P O X → Raw O X → Handler O X Unit
  | .inline _ _, _ => .ret ()
  | .suspended, final => awaitSome final.exitStack
  | .validated _, final => awaitSome final.background
  | .solved _, final =>
    (awaitSome final.shimBackground).bind fun _ =>
      (awaitSome final.background).bind fun _ => awaitSome tasks

/-- The result leaves through an exit that knows the dispatchers. -/
def Guarded (raw : Raw O X) : Way F P O X → Prop
  | .inline view serialize =>
    exceptionSet = false ∧ IsUtf8 path ∧
      if route.hasResponseModel then
        shortcut (view raw) = none ∧
          ∃ serialized, serialize raw = some serialized ∧ ∀ data, view serialized ≠ .bytes data
      else ∀ data, view raw ≠ .bytes data
  | .suspended =>
    exceptionSet = false ∧ IsUtf8 reply.origin ∧ ∀ response, raw.built ≠ .json response
  | .validated _ => False
  | .solved _ => exceptionSet = false ∧ IsUtf8 reply.origin ∧ raw.middlewareRan = false

end Way

end Ways

/-! ## Writes in runs -/

section Runs

variable {O X V W σ : Type*}

/-- A transport that takes writes, none of which is seen by what runs. -/
structure OpenTransport (env : Environment σ (Op O) (Answer O) X) : Prop where
  isClosing : ∀ s, env.perform s .isClosing = (.flag false, s)
  write : ∀ s data, env.perform s (.write data) = (.nothing, s)

def writtenBy : Coroutine.Event (Op O) → List Bytes
  | .performed (.write data) => [data]
  | _ => []

theorem writesOf_eq_flatMap (events : List (Coroutine.Event (Op O))) :
    writesOf events = events.flatMap writtenBy := by
  induction events with
  | nil => rfl
  | cons event events ih =>
    cases event with
    | awaited op => exact ih
    | performed op =>
      cases op with
      | write data => exact congrArg _ ih
      | isClosing => exact ih
      | wait awaitable => exact ih

theorem writesOf_alike {env : Environment σ (Op O) (Answer O) X} {first second : Handler O X V}
    (halike : first.Alike writtenBy env second) (s : σ) :
    writesOf (first.run env s).2.2 = writesOf (second.run env s).2.2 := by
  have hs := halike s
  simp only [observed, Prod.mk.injEq] at hs
  rw [writesOf_eq_flatMap, writesOf_eq_flatMap, hs.2.2]

def emitting (data : List Bytes) (value : V) : Handler O X V :=
  data.foldr (fun data coro => .perform (.write data) fun _ => coro) (.ret value)

def emitted (data : List Bytes) : List (Coroutine.Event (Op O)) :=
  data.map fun data => .performed (.write data)

theorem writesOf_emitted (data : List Bytes) : writesOf (emitted (O := O) data) = data := by
  induction data with
  | nil => rfl
  | cons head rest ih => exact congrArg _ ih

variable {env : Environment σ (Op O) (Answer O) X}

theorem emitting_run (hopen : OpenTransport env) (data : List Bytes) (value : V) (s : σ) :
    (emitting data value).run env s = (.ok value, s, emitted data) := by
  induction data with
  | nil => rfl
  | cons head rest ih =>
    change (Coro.perform (.write head) fun _ => emitting rest value).run env s = _
    simp only [Coro.run, hopen.write, ih]
    rfl

theorem emitting_send (hopen : OpenTransport env) (data : List Bytes) (value : V) (s : σ) :
    (emitting data value).send env s = (.returned value, s, emitted data) := by
  induction data with
  | nil => rfl
  | cons head rest ih =>
    change (Coro.perform (.write head) fun _ => emitting rest value).send env s = _
    simp only [Coro.send, hopen.write, ih]
    rfl

theorem driveRest_emitting (data : List Bytes) (value : V) :
    driveRest (emitting (O := O) (X := X) data value) = emitting data value := by
  induction data with
  | nil => rfl
  | cons head rest ih =>
    change (Coro.perform (.write head) fun _ => driveRest (emitting rest value)) = _
    rw [ih]
    rfl

theorem driveRest_bind (coro : Handler O X V) (rest : V → Handler O X W) :
    driveRest (coro.bind rest) = (driveRest coro).bind fun value => driveRest (rest value) := by
  induction coro with
  | ret value => rfl
  | throw exc => rfl
  | perform op next ih =>
    simp only [Coro.bind, driveRest]
    congr 1
    funext answer
    exact ih _
  | suspend op next ih =>
    have hnext : (fun answer => driveRest ((next answer).bind rest)) =
        fun answer => (driveRest (next answer)).bind fun value => driveRest (rest value) := by
      funext answer
      exact ih _
    cases op with
    | write data => simp [Coro.bind, driveRest, hnext]
    | isClosing => simp [Coro.bind, driveRest, hnext]
    | wait awaitable =>
      cases awaitable with
      | none => exact ih _
      | some awaitable => simp [Coro.bind, driveRest, hnext]

theorem driveRest_answer (next : Except X (Answer O) → Handler O X V) (rest : V → Handler O X W)
    (answer : Except X (Answer O)) :
    (match answer with
      | .ok answer => driveRest ((next (.ok answer)).bind rest)
      | .error exc => .throw exc) =
      Coro.bind (match answer with
        | .ok answer => driveRest (next (.ok answer))
        | .error exc => .throw exc) fun value => driveRest (rest value) := by
  cases answer with
  | ok answer => exact driveRest_bind _ _
  | error exc => rfl

theorem driveCoro_bind (op : Op O) (next : Except X (Answer O) → Handler O X V)
    (rest : V → Handler O X W) :
    driveCoro (Coro.bind (.suspend op next) rest) =
      (driveCoro (.suspend op next)).bind fun value => driveRest (rest value) := by
  have hnext := funext (driveRest_answer next rest)
  cases op with
  | write data => exact congrArg _ hnext
  | isClosing => exact congrArg _ hnext
  | wait awaitable =>
    cases awaitable with
    | none => exact driveRest_bind _ _
    | some awaitable => exact congrArg _ hnext

theorem ifOpenOr_alike (hopen : OpenTransport env) (otherwise : V) (handler : Handler O X V) :
    (ifOpenOr otherwise handler).Alike writtenBy env handler := by
  intro s
  simp only [ifOpenOr, Coro.run, hopen.isClosing]
  rfl

theorem runHttpMiddleware_alike (hopen : OpenTransport env)
    (chain : Raw O X → Handler O X (Raw O X)) (raw : Raw O X) (rest : Raw O X → Handler O X V) :
    ((runHttpMiddleware chain raw).bind rest).Alike writtenBy env
      ((chain raw).bind fun final => (deliver final).bind fun _ => rest final) := by
  rw [runHttpMiddleware, Coro.bind_assoc]
  apply Coro.Alike.bind Coro.Alike.rfl
  intro final
  rw [Coro.bind_assoc]
  exact Coro.Alike.bind (ifOpenOr_alike hopen () (deliver _)) fun _ => Coro.Alike.rfl

end Runs

/-! ## Two dispatchers -/

section Main

variable {F P O X σ : Type*}
variable {isException : X → Bool} {respond : X → Handler O X (Option Bytes)}
variable {render : Raw O X → Except X (Raw O X)}

/-- The last registered dispatcher writes and passes the response on as it is; the
first one puts a response of its own in its place. -/
def marking (mark replacement : Bytes) : List (Dispatcher O X) :=
  [fun _ => .ret (some { built := .whole replacement }), fun _ => .perform (.write mark) fun _ => .ret none]

theorem shimMiddleware_marking (mark replacement : Bytes) {result response : Raw O X}
    (hrender : render result = .ok response) :
    shimMiddleware isException render (marking mark replacement) result = emitting [mark] result := by
  simp only [marking, shimMiddleware, hrender]
  rfl

theorem shimMiddleware_error (dispatchers : List (Dispatcher O X)) {result : Raw O X} {exc : X}
    (hrender : render result = .error exc) (hexc : isException exc = true) :
    shimMiddleware isException render dispatchers result = .ret result := by
  cases dispatchers with
  | nil => rfl
  | cons dispatch rest => simp [shimMiddleware, hrender, hexc]

theorem intercepted_marking {env : Environment σ (Op O) (Answer O) X} (mark replacement : Bytes)
    (cleanUp : Raw O X → Handler O X Unit) {raw response : Raw O X}
    (hrender : render raw = .ok response) (s : σ) :
    ∃ rest, writesOf ((intercepted isException respond render (marking mark replacement) cleanUp
      raw).run env s).2.2 = mark :: replacement :: rest := by
  simp only [intercepted, runDispatchers, hrender]
  exact ⟨_, rfl⟩

/-! ## The exits -/

/-- What is written behind a result comes from the dispatchers, or does not depend on
them. -/
def Exit (guarded : Prop) (wanted written : List (Dispatcher O X) → List Bytes) : Prop :=
  (guarded ∧ ∀ dispatchers, written dispatchers = wanted dispatchers) ∨
    (¬ guarded ∧ ∃ fixed, ∀ dispatchers, written dispatchers = fixed)

/-- The response of a request is lost, or leaves through an exit behind the writes of
the callable. -/
inductive Split (before : List Bytes) (result : Raw O X) (guarded : Prop)
    (intercept : List (Dispatcher O X) → Handler O X (Raw O X))
    (wanted writes : List (Dispatcher O X) → List Bytes) : Prop where
  | lost (hguarded : ¬ guarded) (hwrites : ∀ dispatchers, writes dispatchers = [])
  | left (first second : List Bytes) (written : List (Dispatcher O X) → List Bytes)
      (hbefore : before = first ++ second) (hexit : Exit guarded wanted written)
      (hwrites : ∀ dispatchers data, intercept dispatchers = emitting data result →
        writes dispatchers = first ++ data ++ second ++ written dispatchers)

variable {runtime : Runtime F P} {handlers : ExceptionHandlers F P}
variable {app : CoreApp O X} {route : RouteEntry} {reply : Reply} {exceptionSet : Bool}
variable {caches : Caches} {path : Bytes}
variable {env : Environment σ (Op O) (Answer O) X}
variable {callable : Callable O X} {dispatchers : List (Dispatcher O X)}
variable {result raw : Raw O X} {data : List Bytes}

/-- A callable whose dispatchers only write. -/
theorem registered_run (hopen : OpenTransport env)
    (hintercept : callable.intercept isException render dispatchers result = emitting data result)
    {s mid s' : σ} {first second : List (Coroutine.Event (Op O))}
    (hendpoint : callable.endpoint.run env s = (.ok result, mid, first))
    (hfinish : (callable.finish result).run env mid = (.ok raw, s', second)) :
    (callable.registered isException render dispatchers).run env s =
      (.ok raw, s', first ++ (emitted data ++ second)) := by
  rw [Callable.registered, Coro.run_bind hendpoint, hintercept,
    Coro.run_bind (emitting_run hopen _ _ _), hfinish]
  rfl

theorem registered_send (hopen : OpenTransport env)
    (hintercept : callable.intercept isException render dispatchers result = emitting data result)
    {s mid s' : σ} {first second : List (Coroutine.Event (Op O))}
    (hendpoint : callable.endpoint.send env s = (.returned result, mid, first))
    (hfinish : (callable.finish result).send env mid = (.returned raw, s', second)) :
    (callable.registered isException render dispatchers).send env s =
      (.returned raw, s', first ++ (emitted data ++ second)) := by
  rw [Callable.registered, Coro.send_bind hendpoint, hintercept,
    Coro.send_bind (emitting_send hopen _ _ _), hfinish]

theorem registered_driven (hopen : OpenTransport env)
    (hintercept : callable.intercept isException render dispatchers result = emitting data result)
    {op : Op O} {next : Except X (Answer O) → Handler O X (Raw O X)}
    (hsuspended : callable.endpoint = .suspend op next)
    {s mid s' : σ} {first second : List (Coroutine.Event (Op O))}
    (hendpoint : (driveCoro callable.endpoint).run env s = (.ok result, mid, first))
    (hfinish : (driveRest (callable.finish result)).run env mid = (.ok raw, s', second)) :
    (driveCoro (callable.registered isException render dispatchers)).run env s =
      (.ok raw, s', first ++ (emitted data ++ second)) := by
  rw [hsuspended] at hendpoint
  rw [Callable.registered, hsuspended, driveCoro_bind, Coro.run_bind hendpoint, hintercept,
    driveRest_bind, driveRest_emitting, Coro.run_bind (emitting_run hopen _ _ _), hfinish]
  rfl

theorem handOver_task (strings : List Bytes) (inner : Server.Inner O X) :
    (reply.handOver exceptionSet caches strings (.task inner)).task =
      if exceptionSet || !decide (∀ bytes ∈ strings, IsUtf8 bytes) then none else some inner :=
  rfl

theorem handedOver_iff (bytes : Bytes) :
    (exceptionSet || !decide (∀ other ∈ [bytes], IsUtf8 other)) = false ↔
      exceptionSet = false ∧ IsUtf8 bytes := by
  simp

theorem servedWrites_handOver (strings : List Bytes) (inner : Server.Inner O X) (s : σ) :
    servedWrites isException respond render env dispatchers s
        (reply.handOver exceptionSet caches strings (.task inner)) =
      if exceptionSet || !decide (∀ bytes ∈ strings, IsUtf8 bytes) then []
      else writesOf ((inner.handler isException respond
        (some (runDispatchers render dispatchers))).run env s).2.2 := by
  rw [servedWrites, handOver_task]
  cases exceptionSet || !decide (∀ bytes ∈ strings, IsUtf8 bytes) with
  | true => rfl
  | false => rfl

theorem servedWrites_done (effects : List Effect) (s : σ) :
    servedWrites isException respond render env dispatchers s (reply.done caches effects) =
      Effect.writes effects :=
  append_nil _

/-- What should be written once the endpoint has returned. -/
def Way.wanted (isException : X → Bool) (respond : X → Handler O X (Option Bytes))
    (render : Raw O X → Except X (Raw O X)) (route : RouteEntry)
    (env : Environment σ (Op O) (Answer O) X) (way : Way F P O X) (raw : Raw O X)
    (tasks : Option (Handler O X Unit)) (s : σ) (dispatchers : List (Dispatcher O X)) : List Bytes :=
  writesOf ((intercepted isException respond render dispatchers (way.cleanUp tasks)
    (way.response route raw)).run env s).2.2

variable (isException respond render runtime route reply exceptionSet caches path) in
/-- A result that is returned at once goes to the dispatchers unless it is bytes. -/
theorem plainResult_exit (hopen : OpenTransport env) (hhttp : app.hasHttpMiddleware = true)
    (value : EndpointValue F P O X) (s : σ) :
    Exit (exceptionSet = false ∧ IsUtf8 path ∧ ∀ data, value.returned ≠ .bytes data)
      (fun dispatchers => writesOf ((intercepted isException respond render dispatchers
        (fun _ => .ret ()) value.raw).run env s).2.2)
      fun dispatchers => servedWrites isException respond render env dispatchers s
        (plainResult runtime app route reply exceptionSet caches path value) := by
  by_cases hbytes : ∃ data, value.returned = .bytes data
  · obtain ⟨data, hbytes⟩ := hbytes
    right
    constructor
    · intro ⟨_, _, hother⟩
      exact hother data hbytes
    · simp only [plainResult, hbytes, servedWrites_done]
      exact ⟨_, fun _ => rfl⟩
  · have hother : ∀ data, value.returned ≠ .bytes data := fun data heq => hbytes ⟨data, heq⟩
    have hplain : plainResult runtime app route reply exceptionSet caches path value =
        reply.handOver exceptionSet caches [path] (.task (.mw reply.keepAlive value.raw)) := by
      simp only [plainResult, hhttp, if_true]
    rw [hplain]
    simp only [servedWrites_handOver]
    cases hlost : exceptionSet || !decide (∀ bytes ∈ [path], IsUtf8 bytes) with
    | true =>
      right
      constructor
      · intro ⟨hset, hpath, _⟩
        rw [(handedOver_iff path).mpr ⟨hset, hpath⟩] at hlost
        cases hlost
      · exact ⟨[], fun _ => rfl⟩
    | false =>
      obtain ⟨hset, hpath⟩ := (handedOver_iff path).mp hlost
      left
      refine ⟨⟨hset, hpath, hother⟩, ?_⟩
      intro dispatchers
      apply writesOf_alike
      apply Coro.Alike.tryCatch
      exact runHttpMiddleware_alike hopen _ _ _

theorem Exit.fixed {guarded : Prop} {wanted written : List (Dispatcher O X) → List Bytes}
    (hguarded : ¬ guarded) (hwritten : ∀ dispatchers, written dispatchers = written []) :
    Exit guarded wanted written :=
  .inr ⟨hguarded, written [], hwritten⟩

variable (runtime handlers caches) in
/-- The exits of `endpointCourse` for a result that is returned at once. -/
theorem returned_exit (hopen : OpenTransport env) (hhttp : app.hasHttpMiddleware = true)
    (view : Raw O X → Returned F P) (serialize : Raw O X → Option (Raw O X)) (raw : Raw O X)
    (tasks : Option (Handler O X Unit)) (s : σ) :
    Exit (Way.Guarded route reply exceptionSet path raw (.inline view serialize))
      (fun dispatchers => Way.wanted isException respond render route env (.inline view serialize) raw
        tasks s dispatchers)
      fun dispatchers => servedWrites isException respond render env dispatchers s
        (endpointCourse runtime handlers app route reply exceptionSet caches path
          (.returned ⟨view raw, raw⟩ ((serialize raw).map fun raw => ⟨view raw, raw⟩))) := by
  have hplain := fun raw => plainResult_exit isException respond render runtime route reply
    exceptionSet caches path hopen hhttp ⟨view raw, raw⟩ s
  cases hmodel : route.hasResponseModel with
  | false =>
    simp only [Way.Guarded, Way.wanted, Way.response, endpointCourse, hmodel, Bool.false_eq_true,
      if_false]
    exact hplain raw
  | true =>
    simp only [Way.Guarded, Way.wanted, Way.response, endpointCourse, hmodel, if_true]
    cases hshortcut : shortcut (view raw) with
    | some body =>
      simp only [servedWrites_done]
      apply Exit.fixed _ fun _ => rfl
      rintro ⟨_, _, hnone, _⟩
      cases hnone
    | none =>
      cases hserialized : serialize raw with
      | none =>
        simp only [Option.map_none, servedWrites_done]
        apply Exit.fixed _ fun _ => rfl
        rintro ⟨_, _, _, serialized, hsome, _⟩
        cases hsome
      | some serialized =>
        simp only [Option.map_some, true_and, Option.some.injEq, exists_eq_left', Option.getD_some]
        exact hplain serialized

variable {tasks : Option (Handler O X Unit)} {before : List Bytes} {s s' : σ}

theorem Split.task {guarded : Prop} {intercept : List (Dispatcher O X) → Handler O X (Raw O X)}
    {wanted written : List (Dispatcher O X) → List Bytes} {first second : List Bytes}
    (strings : List Bytes) (inner : List (Dispatcher O X) → Server.Inner O X)
    (hbefore : before = first ++ second)
    (hlost : (exceptionSet || !decide (∀ bytes ∈ strings, IsUtf8 bytes)) = true → ¬ guarded)
    (hexit : (exceptionSet || !decide (∀ bytes ∈ strings, IsUtf8 bytes)) = false →
      Exit guarded wanted written)
    (hrun : ∀ dispatchers data, intercept dispatchers = emitting data result →
      writesOf (((inner dispatchers).handler isException respond
        (some (runDispatchers render dispatchers))).run env s).2.2 =
          first ++ data ++ second ++ written dispatchers) :
    Split before result guarded intercept wanted fun dispatchers =>
      servedWrites isException respond render env dispatchers s
        (reply.handOver exceptionSet caches strings (.task (inner dispatchers))) := by
  simp only [servedWrites_handOver]
  cases hset : exceptionSet || !decide (∀ bytes ∈ strings, IsUtf8 bytes) with
  | true => exact .lost (hlost hset) fun _ => rfl
  | false => exact .left first second written hbefore (hexit hset) hrun

theorem writesOf_events (first second later : List (Coroutine.Event (Op O))) (data : List Bytes) :
    writesOf (first ++ (emitted data ++ second) ++ later) =
      writesOf first ++ data ++ writesOf second ++ writesOf later := by
  simp [writesOf_append, writesOf_emitted]

theorem inline_split (hopen : OpenTransport env) (hhttp : app.hasHttpMiddleware = true)
    (view : Raw O X → Returned F P) (serialize : Raw O X → Option (Raw O X))
    (hreturns : (Way.inline view serialize).Returns env callable result raw tasks before s s') :
    let way : Way F P O X := .inline view serialize
    Split before result (way.Guarded route reply exceptionSet path raw)
      (fun dispatchers => callable.intercept isException render dispatchers result)
      (way.wanted isException respond render route env raw tasks s')
      fun dispatchers => way.writes isException respond render runtime handlers app route reply
        exceptionSet caches path env callable dispatchers s := by
  intro way
  obtain ⟨mid, first, second, hendpoint, hfinish, hbefore⟩ := hreturns
  apply Split.left _ _ _ hbefore (returned_exit runtime handlers caches hopen hhttp _ _ _ _ _)
  intro dispatchers data hintercept
  have hsend := registered_send hopen hintercept hendpoint hfinish
  simp only [way, Way.writes, hsend, dependencyCourse, bodyCourse]
  simp [writesOf_append, writesOf_emitted]

variable (isException respond render) in
/-- `_handle_async` behind the endpoint: a `dict` or `list` is written as it is. -/
theorem handleAsync_exit (hopen : OpenTransport env) (raw : Raw O X) (s : σ) :
    Exit (∀ response, raw.built ≠ .json response)
      (fun dispatchers => writesOf ((intercepted isException respond render dispatchers
        (fun final => awaitSome final.exitStack) raw).run env s).2.2)
      fun dispatchers => writesOf ((exceptException isException (dispatchException respond)
        (ifOpen (match raw.built with
          | .json response => writeSome response
          | _ => (runHttpMiddleware (runDispatchers render dispatchers) raw).bind fun final =>
            awaitSome final.exitStack))).run env s).2.2 := by
  cases hbuilt : raw.built with
  | json response =>
    apply Exit.fixed _ fun _ => rfl
    intro hother
    exact hother response rfl
  | whole response =>
    left
    refine ⟨fun _ heq => (nomatch heq), fun dispatchers => ?_⟩
    apply writesOf_alike
    apply Coro.Alike.tryCatch
    exact (ifOpenOr_alike hopen () _).trans (runHttpMiddleware_alike hopen _ _ _)
  | streaming header body =>
    left
    refine ⟨fun _ heq => (nomatch heq), fun dispatchers => ?_⟩
    apply writesOf_alike
    apply Coro.Alike.tryCatch
    exact (ifOpenOr_alike hopen () _).trans (runHttpMiddleware_alike hopen _ _ _)

theorem Exit.congr {guarded guarded' : Prop} {wanted written : List (Dispatcher O X) → List Bytes}
    (hiff : guarded ↔ guarded') (hexit : Exit guarded wanted written) :
    Exit guarded' wanted written :=
  propext hiff ▸ hexit

theorem suspended_split (hopen : OpenTransport env)
    (hreturns : (Way.suspended (F := F) (P := P)).Returns env callable result raw tasks before s s') :
    let way : Way F P O X := .suspended
    Split before result (way.Guarded route reply exceptionSet path raw)
      (fun dispatchers => callable.intercept isException render dispatchers result)
      (way.wanted isException respond render route env raw tasks s')
      fun dispatchers => way.writes isException respond render runtime handlers app route reply
        exceptionSet caches path env callable dispatchers s := by
  intro way
  obtain ⟨op, next, mid, first, second, hsuspended, hendpoint, hfinish, hbefore⟩ := hreturns
  have hexit := handleAsync_exit isException respond render hopen raw s'
  apply Split.task [reply.origin]
    _ hbefore
  · intro hlost ⟨hset, horigin, _⟩
    rw [(handedOver_iff _).mpr ⟨hset, horigin⟩] at hlost
    cases hlost
  · intro hkept
    obtain ⟨hset, horigin⟩ := (handedOver_iff _).mp hkept
    exact hexit.congr ⟨fun hother => ⟨hset, horigin, hother⟩, fun ⟨_, _, hother⟩ => hother⟩
  · intro dispatchers data hintercept
    have hrun := registered_driven hopen hintercept hsuspended hendpoint hfinish
    simp only [Server.Inner.handler, Server.handleAsync, exceptException]
    rw [Coro.run_tryCatch_bind hrun]
    exact writesOf_events _ _ _ _

theorem validated_split (hopen : OpenTransport env) (validate : Handler O X (Option Bytes))
    (hreturns : (Way.validated (F := F) (P := P) validate).Returns env callable result raw tasks
      before s s') :
    let way : Way F P O X := .validated validate
    Split before result (way.Guarded route reply exceptionSet path raw)
      (fun dispatchers => callable.intercept isException render dispatchers result)
      (way.wanted isException respond render route env raw tasks s')
      fun dispatchers => way.writes isException respond render runtime handlers app route reply
        exceptionSet caches path env callable dispatchers s := by
  intro way
  obtain ⟨start, mid, zeroth, first, second, hvalidate, hendpoint, hfinish, hbefore⟩ := hreturns
  have hexit : Exit (way.Guarded route reply exceptionSet path raw)
      (way.wanted isException respond render route env raw tasks s')
      fun _ => writesOf ((exceptException isException (dispatchException respond)
        (ifOpen ((Server.writeBuilt isException raw.built).bind fun _ =>
          awaitSome raw.background))).run env s').2.2 := Exit.fixed id fun _ => rfl
  have hwrites : ∀ dispatchers, way.writes isException respond render runtime handlers app route
      reply exceptionSet caches path env callable dispatchers s =
        servedWrites isException respond render env dispatchers s
          (reply.handOver exceptionSet caches []
            (.task (.pydantic validate (callable.registered isException render dispatchers)))) :=
    fun _ => rfl
  simp only [hwrites]
  apply Split.task [] _ hbefore (fun _ => id) (fun _ => hexit)
  intro dispatchers data hintercept
  have hrun := registered_run hopen hintercept hendpoint hfinish
  simp only [Server.Inner.handler, Server.handlePydantic, exceptException]
  rw [Coro.run_tryCatch_bind hvalidate]
  rw [Coro.run_tryCatch_bind hrun, preceded_preceded]
  simp [preceded, writesOf_append, writesOf_emitted]

variable (isException respond render) in
/-- `_handle_async_di` behind the endpoint. -/
theorem handleAsyncDi_exit (hopen : OpenTransport env) (tasks : Option (Handler O X Unit))
    (raw : Raw O X) (s : σ) :
    Exit (raw.middlewareRan = false)
      (fun dispatchers => writesOf ((intercepted isException respond render dispatchers
        (fun final => (awaitSome final.shimBackground).bind fun _ =>
          (awaitSome final.background).bind fun _ => awaitSome tasks) raw).run env s).2.2)
      fun dispatchers => writesOf ((exceptException isException (dispatchException respond)
        ((ifOpenOr raw ((match some (runDispatchers render dispatchers), raw.middlewareRan with
          | some chain, false => runHttpMiddleware chain raw
          | _, _ => (Server.writeBuilt isException raw.built).bind fun _ => .ret raw).bind
            fun final => (awaitSome final.shimBackground).bind fun _ => .ret final)).bind
          fun raw => (awaitSome raw.background).bind fun _ => awaitSome tasks)).run env s).2.2 := by
  cases hran : raw.middlewareRan with
  | true =>
    exact Exit.fixed Bool.noConfusion fun _ => rfl
  | false =>
    left
    refine ⟨rfl, fun dispatchers => ?_⟩
    apply writesOf_alike
    apply Coro.Alike.tryCatch
    apply (Coro.Alike.bind (ifOpenOr_alike hopen raw _) fun _ => Coro.Alike.rfl).trans
    rw [Coro.bind_assoc]
    apply (runHttpMiddleware_alike hopen _ _ _).trans
    apply Coro.Alike.bind Coro.Alike.rfl
    intro final
    apply Coro.Alike.bind Coro.Alike.rfl
    intro _
    rw [Coro.bind_assoc]
    exact Coro.Alike.rfl

theorem solved_split (hopen : OpenTransport env)
    (solve : Handler O X (Option Bytes × Option (Handler O X Unit)))
    (hreturns : (Way.solved (F := F) (P := P) solve).Returns env callable result raw tasks
      before s s') :
    let way : Way F P O X := .solved solve
    Split before result (way.Guarded route reply exceptionSet path raw)
      (fun dispatchers => callable.intercept isException render dispatchers result)
      (way.wanted isException respond render route env raw tasks s')
      fun dispatchers => way.writes isException respond render runtime handlers app route reply
        exceptionSet caches path env callable dispatchers s := by
  intro way
  obtain ⟨start, mid, zeroth, first, second, hsolve, hendpoint, hfinish, hbefore⟩ := hreturns
  have hexit := handleAsyncDi_exit isException respond render hopen tasks raw s'
  apply Split.task [reply.origin]
    _ hbefore
  · intro hlost ⟨hset, horigin, _⟩
    rw [(handedOver_iff _).mpr ⟨hset, horigin⟩] at hlost
    cases hlost
  · intro hkept
    obtain ⟨hset, horigin⟩ := (handedOver_iff _).mp hkept
    exact hexit.congr ⟨fun hran => ⟨hset, horigin, hran⟩, fun ⟨_, _, hran⟩ => hran⟩
  · intro dispatchers data hintercept
    have hrun := registered_run hopen hintercept hendpoint hfinish
    simp only [Server.Inner.handler, Server.handleAsyncDi, exceptException]
    rw [Coro.run_tryCatch_bind hsolve]
    simp only
    rw [Coro.bind_assoc, Coro.run_tryCatch_bind hrun, preceded_preceded]
    simp only [preceded, writesOf_append, writesOf_emitted, append_assoc]
    rfl

theorem Way.Returns.split (hopen : OpenTransport env) (hhttp : app.hasHttpMiddleware = true)
    {way : Way F P O X} (hreturns : way.Returns env callable result raw tasks before s s') :
    Split before result (way.Guarded route reply exceptionSet path raw)
      (fun dispatchers => callable.intercept isException render dispatchers result)
      (way.wanted isException respond render route env raw tasks s')
      fun dispatchers => way.writes isException respond render runtime handlers app route reply
        exceptionSet caches path env callable dispatchers s := by
  cases way with
  | inline view serialize => exact inline_split hopen hhttp _ _ hreturns
  | suspended => exact suspended_split hopen hreturns
  | validated validate => exact validated_split hopen _ hreturns
  | solved solve => exact solved_split hopen _ hreturns

theorem exists_fresh (known : List Bytes) : ∃ data : Bytes, data ∉ known := by
  obtain ⟨data, hdata⟩ := Infinite.exists_notMem_finset known.toFinset
  exact ⟨data, fun hmem => hdata (mem_toFinset.mpr hmem)⟩

/-- The marking dispatchers tell every other exit, and a shim that ran them before,
apart. -/
theorem Split.all_iff {guarded intercepted : Prop}
    {intercept : List (Dispatcher O X) → Handler O X (Raw O X)}
    {wanted writes : List (Dispatcher O X) → List Bytes}
    (hsplit : Split before result guarded intercept wanted writes)
    (hwanted : ∀ mark replacement, ∃ rest,
      wanted (marking mark replacement) = mark :: replacement :: rest)
    (hplain : ¬ intercepted → ∀ dispatchers, intercept dispatchers = emitting [] result)
    (hintercepted : intercepted →
      ∀ mark replacement, intercept (marking mark replacement) = emitting [mark] result) :
    (∀ dispatchers, dispatchers ≠ [] → writes dispatchers = before ++ wanted dispatchers) ↔
      guarded ∧ ¬ intercepted := by
  constructor
  · intro hall
    cases hsplit with
    | lost hguarded hwrites =>
      obtain ⟨rest, hrest⟩ := hwanted [] []
      have heq := hall (marking [] []) (cons_ne_nil _ _)
      rw [hwrites, hrest] at heq
      exact absurd heq.symm (by simp)
    | left first second written hbefore hexit hwrites =>
      have hequal : ∀ mark replacement data,
          intercept (marking mark replacement) = emitting data result →
            data ++ (second ++ written (marking mark replacement)) =
              second ++ wanted (marking mark replacement) := by
        intro mark replacement data hdata
        have heq := hall (marking mark replacement) (cons_ne_nil _ _)
        rw [hwrites _ _ hdata, hbefore] at heq
        simpa only [append_assoc, append_cancel_left_eq] using heq
      rcases hexit with ⟨hguarded, hwritten⟩ | ⟨_, fixed, hwritten⟩
      · refine ⟨hguarded, fun hshim => ?_⟩
        have heq := hequal [] [] _ (hintercepted hshim [] [])
        rw [hwritten] at heq
        have hlength := congrArg List.length heq
        simp at hlength
      · -- neither what was written before nor the fixed writes have the marks
        obtain ⟨mark, hmark⟩ := exists_fresh (second ++ fixed)
        obtain ⟨replacement, hreplacement⟩ := exists_fresh fixed
        obtain ⟨rest, hrest⟩ := hwanted _ _
        have hsecond : mark ∉ second := fun hmem => hmark (mem_append_left _ hmem)
        have hfixed : mark ∉ fixed := fun hmem => hmark (mem_append_right _ hmem)
        by_cases hshim : intercepted
        · have heq := hequal _ _ _ (hintercepted hshim mark replacement)
          rw [hwritten, hrest] at heq
          cases second with
          | nil =>
            rw [nil_append, nil_append, singleton_append, List.cons.injEq] at heq
            rw [heq.2] at hreplacement
            exact absurd mem_cons_self hreplacement
          | cons head tail =>
            have hhead : mark = head := head_eq_of_cons_eq heq
            rw [hhead] at hsecond
            exact absurd mem_cons_self hsecond
        · have heq := hequal mark replacement [] (hplain hshim _)
          rw [nil_append, hwritten, hrest, append_cancel_left_eq] at heq
          rw [heq] at hfixed
          exact absurd mem_cons_self hfixed
  · intro ⟨hguarded, hnot⟩ dispatchers _
    cases hsplit with
    | lost hunguarded hwrites => exact absurd hguarded hunguarded
    | left first second written hbefore hexit hwrites =>
      rw [hwrites _ [] (hplain hnot _), hbefore, append_nil]
      rcases hexit with ⟨_, hwritten⟩ | ⟨hunguarded, _⟩
      · rw [hwritten]
      · exact absurd hguarded hunguarded

/-- Whatever dispatchers are registered, a result that the endpoint returned goes
through each of them once, exactly when it leaves through an exit that knows them and
`_response_shim` has not run them before. -/
theorem middleware_once_iff (hopen : OpenTransport env) (hhttp : app.hasHttpMiddleware = true)
    (hexception : ∀ raw exc, render raw = .error exc → isException exc = true)
    {way : Way F P O X} (hreturns : way.Returns env callable result raw tasks before s s')
    (hresponse : ∃ response, render (way.response route raw) = .ok response) :
    (∀ dispatchers, dispatchers ≠ [] →
        way.writes isException respond render runtime handlers app route reply exceptionSet caches
            path env callable dispatchers s =
          before ++ way.wanted isException respond render route env raw tasks s' dispatchers) ↔
      way.Guarded route reply exceptionSet path raw ∧
        ¬ (callable.intercepts = true ∧ ∃ response, render result = .ok response) := by
  obtain ⟨response, hresponse⟩ := hresponse
  apply (hreturns.split hopen hhttp).all_iff
  · intro mark replacement
    exact intercepted_marking _ _ _ hresponse _
  · intro hnot dispatchers
    simp only [Callable.intercept]
    cases hintercepts : callable.intercepts with
    | false => rfl
    | true =>
      cases hrender : render result with
      | error exc => exact shimMiddleware_error _ hrender (hexception _ _ hrender)
      | ok response => exact absurd ⟨hintercepts, response, hrender⟩ hnot
  · intro ⟨hintercepts, response, hrender⟩ mark replacement
    simp only [Callable.intercept, hintercepts, if_true]
    exact shimMiddleware_marking _ _ hrender

end Main

/-- A transport that is never closed. -/
def openTransport (O X : Type*) : Environment Unit (Op O) (Answer O) X where
  perform _ op :=
    match op with
    | .isClosing => (.flag false, ())
    | _ => (.nothing, ())
  resume _ _ := (.ok .nothing, ())

/-- What is written for a callable that has no shim, and what should be. -/
def Way.Honoured (way : Way Empty Empty Empty Empty) (endpoint : Handler Empty Empty (Raw Empty Empty))
    (raw : Raw Empty Empty) : Prop :=
  ∀ dispatchers, dispatchers ≠ [] →
    way.writes (fun _ => false) (fun _ => .ret none) .ok Response.plainRuntime {} (smallApp true) {}
        { consumed := 0, keepAlive := true, isHead := false, origin := [], cors := none } false {} []
        (openTransport Empty Empty) { endpoint := endpoint, finish := .ret, intercepts := false }
        dispatchers () =
      [] ++ way.wanted (fun _ => false) (fun _ => .ret none) .ok {} (openTransport Empty Empty) raw none
        () dispatchers

theorem middleware_once_waiting :
    Way.suspended.Honoured (.suspend (.wait none) fun _ => .ret { built := .whole (ascii "done") })
      { built := .whole (ascii "done") } := by
  have hreturns : (Way.suspended (F := Empty) (P := Empty)).Returns (openTransport Empty Empty)
      { endpoint := .suspend (.wait none) fun _ => .ret { built := .whole (ascii "done") }
        finish := .ret
        intercepts := false }
      { built := .whole (ascii "done") } { built := .whole (ascii "done") } none [] () () :=
    ⟨.wait none, _, (), [], [], rfl, rfl, rfl, rfl⟩
  have hexception : ∀ raw exc, (Except.ok : Raw Empty Empty → Except Empty (Raw Empty Empty)) raw =
      .error exc → (fun _ => false) exc = true := by
    intro raw exc
    exact exc.elim
  apply (middleware_once_iff ⟨fun _ => rfl, fun _ _ => rfl⟩ rfl hexception hreturns ⟨_, rfl⟩).mpr
  refine ⟨⟨rfl, by decide, ?_⟩, ?_⟩
  · intro response heq
    cases heq
  · intro hintercepts
    cases hintercepts.1

/-- Bytes pass the dispatchers by. -/
theorem middleware_bypassed_bytes :
    ¬ (Way.inline (fun _ => .bytes (ascii "secret")) fun _ => none).Honoured
      (.ret { built := .whole (ascii "secret") }) { built := .whole (ascii "secret") } := by
  intro hhonoured
  have heq := hhonoured [fun _ => .ret (some { built := .whole (ascii "forbidden") })]
    (cons_ne_nil _ _)
  exact absurd heq (by decide)

end AstraApi.Dispatch
