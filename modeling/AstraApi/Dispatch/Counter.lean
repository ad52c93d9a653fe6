import AstraApi.Dispatch.Course

/-!
# The counter of active requests

`dispatch_one_request` counts a request that it has parsed, and either counts it
off or leaves that to the handler which finishes the request.  Every handler
calls `record_request_end` in its `finally` clause.
-/

namespace AstraApi.Dispatch

open List
open AstraApi.Http
open AstraApi.Response (Caches Runtime)
open AstraApi.Server (Handler Raw Op Answer)
open Coroutine

/-! ## Handlers that record their end -/

/-- What a handler does, with the call in its `finally` clause. -/
inductive Act (O : Type*) where
  | op (op : Op O)
  | recordRequestEnd

section Handlers

variable {O X V : Type*}

/-- `try: … finally: self._core.record_request_end()` -/
def recorded : Handler O X V → Coro (Act O) (Answer O) X V
  | .ret value => .perform .recordRequestEnd fun _ => .ret value
  | .throw exc => .perform .recordRequestEnd fun _ => .throw exc
  | .perform op next => .perform (.op op) fun answer => recorded (next answer)
  | .suspend op next => .suspend (.op op) fun answer => recorded (next answer)

def actEnvironment (O X : Type*) : Environment Bool (Act O) (Answer O) X where
  perform closing act :=
    match act with
    | .op .isClosing => (.flag closing, closing)
    | _ => (.nothing, closing)
  resume closing _ := (.ok .nothing, closing)

def effectsOf : List (Coroutine.Event (Act O)) → List Effect
  | [] => []
  | .performed (.op (.write data)) :: events => .write data :: effectsOf events
  | .performed .recordRequestEnd :: events => .finished :: effectsOf events
  | _ :: events => effectsOf events

end Handlers

/-! ## The service -/

/-- A task that waits for the event loop. -/
structure Waiting (O X : Type*) where
  request : ℕ
  resume : Except X (Answer O) → Coro (Act O) (Answer O) X Unit

/-- The application: its counter, the effects of each call in their order, and the
tasks that were not finished. -/
structure Service (O X : Type*) where
  calls : ℕ := 0
  active : ℤ := 0
  log : List (ℕ × Effect) := []
  pending : List (Waiting O X) := []
  caches : Caches := {}

def Effect.change : Effect → ℤ
  | .write _ => 0
  | .started => 1
  | .finished => -1

section Service

variable {F P O X : Type*}

namespace Service

def apply (service : Service O X) (call : ℕ) (effects : List Effect) : Service O X :=
  { service with
    active := service.active + (effects.map Effect.change).sum
    log := service.log ++ effects.map fun effect => (call, effect) }

/-- Run a task up to its next suspension or its end. -/
def advance (service : Service O X) (call : ℕ) (closing : Bool)
    (task : Coro (Act O) (Answer O) X Unit) : Service O X :=
  let (step, _, events) := task.send (actEnvironment O X) closing
  let service := service.apply call (effectsOf events)
  match step with
  | .yielded next => { service with pending := service.pending ++ [⟨call, next⟩] }
  | _ => service

end Service

/-- The task that Python makes of a result; an exception that is set takes its place. -/
def Served.task (served : Served O X) : Option (Server.Inner O X) :=
  match served.ending with
  | .returned (.pair _ (.task inner)) => if served.exceptionSet then none else some inner
  | _ => none

/-- Requests arrive on any connection and tasks go on in any order. -/
inductive ServiceEvent (F P O X : Type*) where
  | request (data : Bytes) (circumstances : Circumstances F P O X) (closing : Bool)
  | resumed (index : ℕ) (answer : Except X (Answer O)) (closing : Bool)

variable (runtime : Runtime F P) (handlers : ExceptionHandlers F P) (app : CoreApp O X)
variable (llhttp : Llhttp)
variable (isException : X → Bool) (respond : X → Handler O X (Option Bytes))
variable (middleware : Option (Raw O X → Handler O X (Raw O X)))

namespace Service

/-- A call of `dispatch_one_request`, and the task of its result, which
`create_task` starts at once. -/
def receive (service : Service O X) (data : Bytes) (circumstances : Circumstances F P O X)
    (closing : Bool) : Service O X :=
  let served := dispatchOneRequest runtime handlers app llhttp service.caches circumstances data
  let service :=
    { service.apply service.calls served.effects with
      calls := service.calls + 1
      caches := served.caches }
  match served.task with
  | none => service
  | some inner =>
    service.advance (service.calls - 1) closing
      (recorded (inner.handler isException respond middleware))

def turn (service : Service O X) : ServiceEvent F P O X → Service O X
  | .request data circumstances closing =>
    service.receive runtime handlers app llhttp isException respond middleware data circumstances
      closing
  | .resumed index answer closing =>
    match service.pending[index]? with
    | none => service
    | some task =>
      { service with pending := service.pending.eraseIdx index }.advance task.request closing
        (task.resume answer)

def run (events : List (ServiceEvent F P O X)) : Service O X :=
  events.foldl (turn runtime handlers app llhttp isException respond middleware) {}

def starts (service : Service O X) (call : ℕ) : ℕ := service.log.count (call, .started)
def finishes (service : Service O X) (call : ℕ) : ℕ := service.log.count (call, .finished)

/-- A request that was counted is counted off once its task has ended, and not before,
and the counter is zero when no task is left. -/
def Balanced (service : Service O X) : Prop :=
  (∀ call, service.starts call ≤ 1) ∧
  (∀ call, service.starts call = 1 →
    service.finishes call = if call ∈ service.pending.map Waiting.request then 0 else 1) ∧
  (service.pending = [] → service.active = 0)

end Service

end Service

/-! ## Who counts a request off -/

/-- The dispatcher, the handler that its result is handed to, both, or nobody.  The
handler is not reached when one of the texts has no UTF-8. -/
inductive Owner where
  | dispatcher
  | handler (texts : List Bytes)
  | both (texts : List Bytes)
  | nobody

/-- A request is counted off once. -/
def Owner.Once (exceptionSet : Bool) : Owner → Prop
  | .dispatcher => True
  | .handler texts => exceptionSet = false ∧ ∀ text ∈ texts, IsUtf8 text
  | .both texts => exceptionSet = true ∨ ¬ ∀ text ∈ texts, IsUtf8 text
  | .nobody => False

section Owners

variable {F P O X : Type*} (app : CoreApp O X) (route : RouteEntry) (request : ParsedHttpRequest)

def Returned.owner : Returned F P → Owner
  | .bytes _ => .dispatcher
  | returned =>
    if app.hasHttpMiddleware then .handler [request.path]
    else
      match returned with
      | .stream | .file => .handler [(app.noted request).origin]
      | _ => .dispatcher

def EndpointCourse.owner : EndpointCourse F P O X → Owner
  | .raised _ => .dispatcher
  | .threw _ => .dispatcher
  | .suspended _ => .handler [(app.noted request).origin]
  | .returned value serialized =>
    if route.hasResponseModel then
      match shortcut value.returned, serialized with
      | some _, _ => .dispatcher
      | none, none => .dispatcher
      | none, some value => value.returned.owner app request
    else value.returned.owner app request

def BodyCourse.owner : BodyCourse F P O X → Owner
  | .unfinished _ _ => .both []
  | .valid course => course.owner app route request
  | _ => .dispatcher

def DependencyCourse.owner : DependencyCourse F P O X → Owner
  | .suspended _ _ => .handler [(app.noted request).origin]
  | .solved course => course.owner app route request
  | _ => .dispatcher

def PayloadCourse.owner : PayloadCourse F P O X → Owner
  | .parsed course => course.owner app route request
  | _ => .dispatcher

def Course.owner : Course F P O X → Owner
  | .valid payload =>
    if 0 < app.maxBodySize ∧ app.maxBodySize < request.body.length then .dispatcher
    else payload.owner app route request
  | _ => .dispatcher

def CoreApp.owner (circumstances : Circumstances F P O X) : Owner :=
  match app.front request circumstances.limited with
  | .answered _ => .dispatcher
  | .upgrade _ _ => .dispatcher
  | .page page =>
    if app.hasHttpMiddleware ∧ page.content.isSome then .both [request.path] else .dispatcher
  | .matched route info params =>
    if ∀ bytes ∈ parameterStrings info params request, IsUtf8 bytes then
      circumstances.course.owner app route request
    else .nobody

def CoreApp.accepted (llhttp : Llhttp) (data : Bytes) : Option ParsedHttpRequest :=
  match parseStep llhttp data with
  | .request request =>
    if request.bodyTooLarge then none
    else some { request with keepAlive := !app.forceClose && request.keepAlive }
  | _ => none

def ServiceEvent.Orderly (llhttp : Llhttp) : ServiceEvent F P O X → Prop
  | .request data circumstances _ =>
    ∀ request, app.accepted llhttp data = some request →
      (app.owner request circumstances).Once circumstances.exceptionSet
  | .resumed _ _ _ => True

end Owners

/-! ## Accounts -/

/-- Only responses are written. -/
def OnlyWrites (effects : List Effect) : Prop := ∀ effect ∈ effects, ∃ data, effect = .write data

theorem OnlyWrites.count {effects : List Effect} (hwrites : OnlyWrites effects) {effect : Effect}
    (hne : ∀ data, effect ≠ .write data) : effects.count effect = 0 := by
  apply count_eq_zero_of_not_mem
  intro hmem
  have hwrite := hwrites _ hmem
  exact hwrite.elim hne

theorem onlyWrites_nil : OnlyWrites [] := by
  intro effect hmem
  cases hmem

theorem onlyWrites_singleton (data : Bytes) : OnlyWrites [.write data] := by
  intro effect hmem
  exact ⟨data, mem_singleton.mp hmem⟩

theorem onlyWrites_toList (response : Option Bytes) :
    OnlyWrites (response.map Effect.write).toList := by
  cases response with
  | none => exact onlyWrites_nil
  | some data => exact onlyWrites_singleton _

def Owner.finishes : Owner → ℕ
  | .dispatcher | .both _ => 1
  | .handler _ | .nobody => 0

def Owner.delivers (exceptionSet : Bool) : Owner → Bool
  | .handler texts | .both texts => !exceptionSet && decide (∀ text ∈ texts, IsUtf8 text)
  | .dispatcher | .nobody => false

theorem once_iff (owner : Owner) (exceptionSet : Bool) :
    owner.Once exceptionSet ↔ owner.finishes + (owner.delivers exceptionSet).toNat = 1 := by
  cases owner with
  | dispatcher | nobody => simp [Owner.Once, Owner.finishes, Owner.delivers]
  | handler texts | both texts =>
    by_cases htexts : ∀ text ∈ texts, IsUtf8 text <;> cases exceptionSet <;>
      simp [Owner.Once, Owner.finishes, Owner.delivers]

/-- The counting of a call, as its owner has it. -/
structure Served.Accounts {O X : Type*} (served : Served O X) (owner : Owner)
    (exceptionSet : Bool) : Prop where
  started : served.effects.count .started = 0
  finished : served.effects.count .finished = owner.finishes
  task : served.task.isSome = owner.delivers exceptionSet

section Accounts

variable {F P O X : Type*} (runtime : Runtime F P) (handlers : ExceptionHandlers F P)
variable (app : CoreApp O X) (route : RouteEntry) (reply : Reply) (exceptionSet : Bool)
variable (caches : Caches)

theorem done_accounts {effects : List Effect} (hwrites : OnlyWrites effects) :
    (reply.done (O := O) (X := X) caches (effects ++ [.finished])).Accounts .dispatcher
      exceptionSet where
  started := by simp [Reply.done, hwrites.count]
  finished := by simp [Reply.done, hwrites.count, Owner.finishes]
  task := rfl

theorem done_first_accounts {effects : List Effect} (hwrites : OnlyWrites effects) :
    (reply.done (O := O) (X := X) caches (.finished :: effects)).Accounts .dispatcher
      exceptionSet where
  started := by simp [Reply.done, hwrites.count]
  finished := by simp [Reply.done, hwrites.count, Owner.finishes]
  task := rfl

theorem handOver_accounts (texts : List Bytes) (inner : Server.Inner O X) :
    (reply.handOver exceptionSet caches texts (.task inner)).Accounts (.handler texts)
      exceptionSet where
  started := rfl
  finished := rfl
  task := by
    have hcases : ∀ p q : Bool, (if p || !q then none else some inner).isSome = (!p && q) := by
      intro p q
      cases p <;> cases q <;> rfl
    exact hcases _ _

theorem handOver_both_accounts (texts : List Bytes) (inner : Server.Inner O X) :
    ({ reply.handOver exceptionSet caches texts (.task inner) with
      effects := [.finished] } : Served O X).Accounts (.both texts) exceptionSet where
  started := rfl
  finished := rfl
  task := (handOver_accounts reply _ caches _ _).task

/-! ### What is written -/

theorem onlyWrites_serialized (status : ℤ) (value : Response.PyObj F P) :
    OnlyWrites (reply.serialized runtime status value) := by
  simp only [Reply.serialized]
  cases Response.writeJson runtime 0 value with
  | none => exact onlyWrites_nil
  | some body => exact onlyWrites_singleton _

theorem onlyWrites_handled (absent other : ℤ) (result : Option HandlerResult) :
    OnlyWrites (reply.handled absent other result) := by
  simp only [Reply.handled]
  split
  · exact onlyWrites_singleton _
  · exact onlyWrites_nil

theorem onlyWrites_httpException (exc : Raised F P) (http : HttpException) (notInteger : ℤ → ℤ) :
    OnlyWrites ((reply.httpException handlers exc http notInteger).getD [reply.internalError]) := by
  simp only [Reply.httpException]
  split
  · exact onlyWrites_handled _ _ _ _
  · split
    · exact onlyWrites_singleton _
    · exact onlyWrites_singleton _

theorem onlyWrites_callRaised (exc : Raised F P) :
    OnlyWrites (reply.callRaised handlers exc) := by
  simp only [Reply.callRaised]
  split
  · exact onlyWrites_handled _ _ _ _
  · split
    · exact onlyWrites_singleton _
    · exact onlyWrites_httpException _ _ _ _ _

theorem onlyWrites_driven (status : ℤ) (handler : Option (TypeHandler F P)) (exc : Raised F P)
    {effects : List Effect} (heffects : OnlyWrites effects) :
    OnlyWrites ((reply.driven status handler exc).getD effects) := by
  simp only [Reply.driven]
  split
  · exact onlyWrites_singleton _
  · exact heffects

theorem onlyWrites_validationError (errors : Option (Response.PyObj F P)) :
    OnlyWrites [reply.validationError runtime errors] := by
  simp only [Reply.validationError]
  split
  · exact onlyWrites_singleton _
  · exact onlyWrites_singleton _

theorem onlyWrites_coroutineRaised (exc : Raised F P) :
    OnlyWrites (reply.coroutineRaised runtime handlers exc) := by
  simp only [Reply.coroutineRaised]
  split
  · exact onlyWrites_httpException _ _ _ _ _
  · split
    · exact onlyWrites_driven _ _ _ _ (onlyWrites_validationError _ _ _)
    · exact onlyWrites_driven _ _ _ _ (onlyWrites_singleton _)

/-! ### The courses -/

theorem plainResult_accounts (request : ParsedHttpRequest) (value : EndpointValue F P O X) :
    (plainResult runtime app route (app.reply request) exceptionSet caches request.path
      value).Accounts (value.returned.owner app request) exceptionSet := by
  simp only [plainResult, Returned.owner]
  cases hmiddleware : app.hasHttpMiddleware with
  | true =>
    cases value.returned with
    | bytes data => exact done_accounts _ _ _ (onlyWrites_singleton _)
    | _ => exact handOver_accounts _ _ _ _ _
  | false =>
    cases value.returned with
    | bytes data => exact done_accounts _ _ _ (onlyWrites_singleton _)
    | str utf8 =>
      cases utf8 with
      | none => exact done_accounts _ _ _ onlyWrites_nil
      | some utf8 => exact done_accounts _ _ _ (onlyWrites_toList _)
    | json value => exact done_accounts _ _ _ (onlyWrites_toList _)
    | stream | file => exact handOver_accounts _ _ _ _ _
    | object response => exact done_accounts _ _ _ (onlyWrites_toList _)
    | model text =>
      cases text with
      | none => exact done_accounts _ _ _ onlyWrites_nil
      | some body => exact done_accounts _ _ _ (onlyWrites_singleton _)
    | fields items => exact done_accounts _ _ _ (onlyWrites_serialized _ _ _ _)
    | repr text =>
      cases text with
      | none => exact done_accounts _ _ _ onlyWrites_nil
      | some body => exact done_accounts _ _ _ (onlyWrites_singleton _)

theorem endpointCourse_accounts (request : ParsedHttpRequest) (course : EndpointCourse F P O X) :
    (endpointCourse runtime handlers app route (app.reply request) exceptionSet caches request.path
      course).Accounts (course.owner app route request) exceptionSet := by
  cases course with
  | raised exc => exact done_accounts _ _ _ (onlyWrites_callRaised _ _ _)
  | threw exc => exact done_accounts _ _ _ (onlyWrites_coroutineRaised _ _ _ _)
  | suspended coro => exact handOver_accounts _ _ _ _ _
  | returned value serialized =>
    simp only [endpointCourse, EndpointCourse.owner]
    split
    · cases shortcut value.returned with
      | some body =>
        apply done_accounts
        split
        · exact onlyWrites_nil
        · exact onlyWrites_singleton _
      | none =>
        cases serialized with
        | none => exact done_accounts _ _ _ (onlyWrites_singleton _)
        | some value => exact plainResult_accounts _ _ _ _ _ _ _
    · exact plainResult_accounts _ _ _ _ _ _ _

theorem bodyCourse_accounts (request : ParsedHttpRequest) (course : BodyCourse F P O X) :
    (bodyCourse runtime handlers app route (app.reply request) exceptionSet caches request.path
      course).Accounts (course.owner app route request) exceptionSet := by
  cases course with
  | missingField name => exact done_accounts _ _ _ (onlyWrites_serialized _ _ _ _)
  | invalidModel errors exc | invalidArgs errors exc =>
    simp only [bodyCourse, BodyCourse.owner]
    split
    · exact done_accounts _ _ _ (onlyWrites_handled _ _ _ _)
    · exact done_accounts _ _ _ (onlyWrites_serialized _ _ _ _)
  | unfinished validate endpoint => exact handOver_both_accounts _ _ _ _ _
  | valid course => exact endpointCourse_accounts _ _ _ _ _ _ _ _

theorem dependencyCourse_accounts (request : ParsedHttpRequest)
    (course : DependencyCourse F P O X) :
    (dependencyCourse runtime handlers app route (app.reply request) exceptionSet caches
      request.path course).Accounts (course.owner app route request) exceptionSet := by
  cases course with
  | suspended solve endpoint => exact handOver_accounts _ _ _ _ _
  | raised exc =>
    have hwrites : OnlyWrites [(app.reply request).solverRaised exc] := by
      simp only [Reply.solverRaised]
      split
      · exact onlyWrites_singleton _
      · exact onlyWrites_singleton _
    exact done_accounts _ _ _ hwrites
  | invalid errors =>
    apply done_first_accounts
    split
    · exact onlyWrites_singleton _
    · exact onlyWrites_singleton _
  | solved course => exact bodyCourse_accounts _ _ _ _ _ _ _ _

theorem payloadCourse_accounts (request : ParsedHttpRequest) (course : PayloadCourse F P O X) :
    (payloadCourse runtime handlers app route (app.reply request) exceptionSet caches request
      course).Accounts (course.owner app route request) exceptionSet := by
  cases course with
  | oversizedPart => exact done_accounts _ _ _ (onlyWrites_singleton _)
  | notJson =>
    apply done_accounts
    split
    · exact onlyWrites_serialized _ _ _ _
    · exact onlyWrites_nil
  | malformed message => exact done_first_accounts _ _ _ (onlyWrites_singleton _)
  | loadsRaised message => exact done_first_accounts _ _ _ (onlyWrites_singleton _)
  | parsed course => exact dependencyCourse_accounts _ _ _ _ _ _ _ _

theorem course_accounts (request : ParsedHttpRequest) (next : Course F P O X) :
    (course runtime handlers app route (app.reply request) exceptionSet caches request
      next).Accounts (next.owner app route request) exceptionSet := by
  cases next with
  | invalid errors => exact done_accounts _ _ _ (onlyWrites_serialized _ _ _ _)
  | valid payload =>
    simp only [course, Course.owner]
    split
    · exact done_accounts _ _ _ (onlyWrites_singleton _)
    · exact payloadCourse_accounts _ _ _ _ _ _ _ _

/-! ### The guards -/

theorem answered_counts {limited : Bool} {request : ParsedHttpRequest} {effects : List Effect}
    (hfront : app.front request limited = .answered effects) :
    effects.count .started = 0 ∧ effects.count .finished = 1 := by
  have hone : ∀ data, [Effect.finished, .write data].count .started = 0 ∧
      [Effect.finished, .write data].count .finished = 1 := by simp
  have hroute : ∀ found, app.routeFront request limited found = .answered effects →
      effects.count .started = 0 ∧ effects.count .finished = 1 := by
    intro found h
    simp only [CoreApp.routeFront] at h
    split at h
    · cases h
      exact hone _
    · split at h
      · cases h
        exact hone _
      · split at h
        · cases h
          exact hone _
        · split at h
          · cases h
            exact hone _
          · cases h
  have hrouting : app.routing request limited = .answered effects →
      effects.count .started = 0 ∧ effects.count .finished = 1 := by
    intro h
    simp only [CoreApp.routing] at h
    split at h
    · cases h
    · split at h
      · exact hroute _ h
      · split at h
        · cases h
          exact hone _
        · cases h
          exact hone _
  simp only [CoreApp.front] at hfront
  split at hfront
  · cases hfront
    exact hone _
  · split at hfront
    · cases hfront
      simp
    · split at hfront
      · rename_i response _
        cases hfront
        have hwrites := onlyWrites_toList response
        simp [hwrites.count]
      · split at hfront
        · cases hfront
        · exact hrouting hfront

/-- A request that is counted is counted off as its owner has it. -/
theorem serve_accounts (circumstances : Circumstances F P O X) (request : ParsedHttpRequest) :
    (serve runtime handlers app caches circumstances request).Accounts
      (app.owner request circumstances) circumstances.exceptionSet := by
  cases hfront : app.front request circumstances.limited with
  | answered effects =>
    have hcounts := answered_counts _ hfront
    simp only [serve, CoreApp.owner, hfront]
    exact ⟨hcounts.1, hcounts.2, rfl⟩
  | page page =>
    simp only [serve, CoreApp.owner, hfront, servePage]
    cases app.hasHttpMiddleware with
    | false => exact done_first_accounts _ _ _ (onlyWrites_singleton _)
    | true =>
      cases page.content with
      | none => exact done_first_accounts _ _ _ (onlyWrites_singleton _)
      | some content => exact handOver_both_accounts _ _ _ _ _
  | upgrade response endpoint =>
    have htask : (serve runtime handlers app caches circumstances request).task = none := by
      simp only [serve, hfront, Served.task]
      split
      · rename_i heq
        split at heq <;> cases heq
      · rfl
    simp only [serve, CoreApp.owner, hfront] at htask ⊢
    exact ⟨by simp, by simp [Owner.finishes], by simp [htask, Owner.delivers]⟩
  | matched route info params =>
    have hparams := extractParams_ok_iff info params request
    simp only [serve, CoreApp.owner, hfront]
    cases hextract : extractParams info params request with
    | ok kwargs =>
      rw [if_pos (hparams.mp ⟨kwargs, hextract⟩)]
      exact course_accounts _ _ _ _ _ _ _ _
    | error fault =>
      have hfails : ¬ ∀ bytes ∈ parameterStrings info params request, IsUtf8 bytes := by
        intro htexts
        have hok := hparams.mpr htexts
        simp [hextract] at hok
      rw [if_neg hfails]
      cases fault <;> exact ⟨rfl, rfl, rfl⟩

variable (llhttp : Llhttp)

theorem dispatchOneRequest_refused {data : Bytes} (hnone : app.accepted llhttp data = none)
    (circumstances : Circumstances F P O X) :
    OnlyWrites (dispatchOneRequest runtime handlers app llhttp caches circumstances data).effects ∧
      (dispatchOneRequest runtime handlers app llhttp caches circumstances data).task = none := by
  simp only [CoreApp.accepted] at hnone
  simp only [dispatchOneRequest]
  split
  · exact ⟨onlyWrites_nil, rfl⟩
  · exact ⟨onlyWrites_singleton _, rfl⟩
  · rename_i request hparse
    simp only [hparse] at hnone
    split at hnone
    · rename_i hlarge
      rw [if_pos hlarge]
      exact ⟨onlyWrites_singleton _, rfl⟩
    · cases hnone

theorem dispatchOneRequest_accepted {data : Bytes} {request : ParsedHttpRequest}
    (hsome : app.accepted llhttp data = some request) (circumstances : Circumstances F P O X) :
    dispatchOneRequest runtime handlers app llhttp caches circumstances data =
      { serve runtime handlers app caches circumstances request with
        effects := .started :: (serve runtime handlers app caches circumstances request).effects } := by
  simp only [CoreApp.accepted] at hsome
  simp only [dispatchOneRequest]
  split at hsome
  · rename_i parsed hparse
    simp only [hparse]
    split at hsome
    · cases hsome
    · rename_i hlarge
      cases hsome
      rw [if_neg hlarge]
  · cases hsome

end Accounts

/-! ## Runs -/

section Runs

variable {F P O X : Type*}

/-- A handler is counted off in the step that ends it. -/
theorem send_recorded (handler : Handler O X Unit) (closing : Bool) :
    let sent := (recorded handler).send (actEnvironment O X) closing
    (effectsOf sent.2.2).count .started = 0 ∧
      match sent.1 with
      | .yielded next =>
        (effectsOf sent.2.2).count .finished = 0 ∧
          ∃ resume : Except X (Answer O) → Handler O X Unit,
            next = fun answer => recorded (resume answer)
      | _ => (effectsOf sent.2.2).count .finished = 1 := by
  induction handler with
  | ret value | throw value => exact ⟨rfl, rfl⟩
  | suspend op next => exact ⟨rfl, rfl, next, rfl⟩
  | perform op next ih =>
    cases op with
    | write data =>
      have hnext := ih .nothing
      simp only [recorded, Coro.send, actEnvironment, effectsOf] at hnext ⊢
      simpa using hnext
    | isClosing => exact ih _
    | wait awaitable => exact ih .nothing

namespace Service

/-- What every turn preserves; the tasks in hand are neither pending nor counted off. -/
structure Keeps (service : Service O X) (inHand : List ℕ) : Prop where
  recording : ∀ task ∈ service.pending, ∃ resume : Except X (Answer O) → Handler O X Unit,
    task.resume = fun answer => recorded (resume answer)
  once : ∀ call, service.starts call ≤ 1
  fresh : ∀ call, service.calls ≤ call → service.starts call = 0
  accounted : ∀ call, service.starts call =
    service.finishes call + (inHand ++ service.pending.map Waiting.request).count call
  counted : service.active = (inHand.length + service.pending.length : ℕ)

theorem count_numbered (effects : List Effect) (call other : ℕ) (effect : Effect) :
    (effects.map fun effect => (call, effect)).count (other, effect) =
      if other = call then effects.count effect else 0 := by
  by_cases hcall : other = call
  · rw [if_pos hcall, hcall]
    exact count_map_of_injective _ _ (fun _ _ h => (Prod.mk.inj h).2) _
  · rw [if_neg hcall]
    apply count_eq_zero_of_not_mem
    intro hmem
    obtain ⟨_, -, heq⟩ := mem_map.mp hmem
    exact hcall (Prod.mk.inj heq).1.symm

@[simp]
theorem starts_apply (service : Service O X) (call : ℕ) (effects : List Effect) (other : ℕ) :
    (service.apply call effects).starts other =
      service.starts other + if other = call then effects.count .started else 0 := by
  simp [starts, apply, count_numbered]

@[simp]
theorem finishes_apply (service : Service O X) (call : ℕ) (effects : List Effect) (other : ℕ) :
    (service.apply call effects).finishes other =
      service.finishes other + if other = call then effects.count .finished else 0 := by
  simp [finishes, apply, count_numbered]

theorem sum_change (effects : List Effect) :
    (effects.map Effect.change).sum = effects.count .started - effects.count .finished := by
  induction effects with
  | nil => rfl
  | cons effect effects ih =>
    cases effect <;> simp [ih, Effect.change] <;> omega

theorem active_apply (service : Service O X) (call : ℕ) (effects : List Effect) :
    (service.apply call effects).active =
      service.active + (effects.count .started - effects.count .finished) := by
  simp [apply, sum_change]

/-- Effects that count a task in hand off, or no task. -/
theorem keeps_apply {service : Service O X} (done inHand : List ℕ) {effects : List Effect}
    {call : ℕ} (hkeeps : service.Keeps (done ++ inHand))
    (hdone : done = List.replicate (effects.count .finished) call)
    (hstarted : effects.count .started = 0) : (service.apply call effects).Keeps inHand where
  recording := hkeeps.recording
  once other := by
    simp [hstarted, hkeeps.once _]
  fresh other hfresh := by
    simp [hstarted, hkeeps.fresh _ hfresh]
  accounted other := by
    have haccounted := hkeeps.accounted other
    have hcount : done.count other =
        if other = call then effects.count .finished else 0 := by
      rw [hdone, count_replicate]
      by_cases hcall : other = call
      · simp [hcall]
      · simp [hcall, Ne.symm hcall]
    simp only [count_append, hcount] at haccounted
    simp only [starts_apply, finishes_apply, hstarted, ite_self, Nat.add_zero, count_append]
    simp only [apply]
    omega
  counted := by
    have hlength : done.length = effects.count .finished := by rw [hdone, length_replicate]
    have hcounted := hkeeps.counted
    rw [active_apply, hcounted, hstarted]
    simp only [length_append, hlength, apply]
    omega

/-- A task in hand is left to the event loop. -/
theorem keeps_wait {service : Service O X} {call : ℕ} (hkeeps : service.Keeps [call])
    (resume : Except X (Answer O) → Handler O X Unit) :
    ({ service with
      pending := service.pending ++ [⟨call, fun answer => recorded (resume answer)⟩] } :
        Service O X).Keeps [] where
  recording := by
    intro task hmem
    rcases mem_append.mp hmem with hmem | hmem
    · exact hkeeps.recording _ hmem
    · rw [mem_singleton.mp hmem]
      exact ⟨resume, rfl⟩
  once := hkeeps.once
  fresh := hkeeps.fresh
  accounted other := by
    have haccounted := hkeeps.accounted other
    simp only [count_append, map_append, map_cons, map_nil, nil_append]
      at haccounted ⊢
    simp only [starts, finishes] at haccounted ⊢
    omega
  counted := by
    have hcounted := hkeeps.counted
    simp only [length_append, length_singleton, length_nil] at hcounted ⊢
    rw [hcounted]
    omega

/-- A task in hand runs up to its next suspension or its end. -/
theorem keeps_advance {service : Service O X} {call : ℕ} (hkeeps : service.Keeps [call])
    (closing : Bool) (handler : Handler O X Unit) :
    (service.advance call closing (recorded handler)).Keeps [] := by
  obtain ⟨hstarted, hstep⟩ := send_recorded _ _
  have hended (h : (effectsOf ((recorded handler).send (actEnvironment O X) closing).2.2).count
      .finished = 1) :
      (service.apply call
        (effectsOf ((recorded handler).send (actEnvironment O X) closing).2.2)).Keeps [] := by
    have hdone : [call] = List.replicate
        ((effectsOf ((recorded handler).send (actEnvironment O X) closing).2.2).count .finished)
          call := by
      rw [h, replicate_one]
    exact keeps_apply [call] [] hkeeps hdone hstarted
  simp only [advance]
  cases hresult : ((recorded handler).send (actEnvironment O X) closing).1 with
  | yielded next =>
    rw [hresult] at hstep
    obtain ⟨hfinished, resume, rfl⟩ := hstep
    have hdone : ([] : List ℕ) = List.replicate
        ((effectsOf ((recorded handler).send (actEnvironment O X) closing).2.2).count .finished)
          call := by
      rw [hfinished, replicate_zero]
    exact keeps_wait (keeps_apply [] [call] hkeeps hdone hstarted) _
  | returned value | raised value =>
    rw [hresult] at hstep
    exact hended hstep

/-- The next call counts its request. -/
theorem keeps_started {service : Service O X} (hkeeps : service.Keeps []) (caches : Caches) :
    ({ service.apply service.calls [.started] with
      calls := service.calls + 1
      caches := caches } : Service O X).Keeps [service.calls] where
  recording := hkeeps.recording
  once call := by
    have hfresh := hkeeps.fresh _ le_rfl
    have hstarts : (service.apply service.calls [.started]).starts call =
        service.starts call + if call = service.calls then 1 else 0 := starts_apply _ _ _ _
    by_cases hcall : call = service.calls
    · rw [if_pos hcall, hcall, hfresh] at hstarts
      rw [hcall]
      exact hstarts.le
    · rw [if_neg hcall] at hstarts
      exact hstarts.trans_le (hkeeps.once _)
  fresh call hcall := by
    have hnew : service.calls + 1 ≤ call := hcall
    have hstarts := starts_apply service service.calls [.started] call
    rw [if_neg (Nat.lt_of_succ_le hnew).ne', hkeeps.fresh _ (Nat.le_of_succ_le hnew)] at hstarts
    exact hstarts
  accounted call := by
    have haccounted := hkeeps.accounted call
    have hstarts : (service.apply service.calls [.started]).starts call =
        service.starts call + if call = service.calls then 1 else 0 := starts_apply _ _ _ _
    have hfinishes : (service.apply service.calls [.started]).finishes call =
        service.finishes call := by
      simp
    have hhand : [service.calls].count call = if call = service.calls then 1 else 0 := by
      by_cases hcall : call = service.calls
      · simp [hcall]
      · simp [hcall, Ne.symm hcall]
    have hsum : (service.apply service.calls [.started]).starts call =
        (service.apply service.calls [.started]).finishes call +
          ([service.calls] ++ service.pending.map Waiting.request).count call := by
      rw [hstarts, hfinishes, count_append, hhand, haccounted, nil_append]
      omega
    exact hsum
  counted := by
    have hcounted := hkeeps.counted
    have hactive := active_apply service service.calls [.started]
    have hone : (service.apply service.calls [.started]).active = (1 + service.pending.length : ℕ) := by
      rw [hactive, hcounted]
      simp [add_comm]
    exact hone

theorem apply_started (service : Service O X) (caches : Caches) (effects : List Effect) :
    ({ service.apply service.calls (.started :: effects) with
      calls := service.calls + 1
      caches := caches } : Service O X) =
      ({ service.apply service.calls [.started] with
        calls := service.calls + 1
        caches := caches } : Service O X).apply service.calls effects := by
  simp [apply, add_assoc]

variable (runtime : Runtime F P) (handlers : ExceptionHandlers F P) (app : CoreApp O X)
variable (llhttp : Llhttp)
variable (isException : X → Bool) (respond : X → Handler O X (Option Bytes))
variable (middleware : Option (Raw O X → Handler O X (Raw O X)))

theorem keeps_receive {service : Service O X} (hkeeps : service.Keeps []) {data : Bytes}
    {circumstances : Circumstances F P O X} {closing : Bool}
    (horderly : (ServiceEvent.request data circumstances closing).Orderly app llhttp) :
    (service.receive runtime handlers app llhttp isException respond middleware data circumstances
      closing).Keeps [] := by
  cases haccepted : app.accepted llhttp data with
  | none =>
    obtain ⟨hwrites, htask⟩ := dispatchOneRequest_refused _ _ _ _ _ haccepted _
    have hdone : ([] : List ℕ) = List.replicate ((dispatchOneRequest runtime handlers app llhttp
        service.caches circumstances data).effects.count .finished) service.calls := by
      rw [hwrites.count (by simp), replicate_zero]
    have hkept := keeps_apply [] [] hkeeps hdone (hwrites.count (by simp))
    simp only [receive, htask]
    exact
      { recording := hkept.recording
        once := hkept.once
        fresh := fun call hcall => hkept.fresh _ (Nat.le_of_succ_le hcall)
        accounted := hkept.accounted
        counted := hkept.counted }
  | some request =>
    have haccounts := serve_accounts runtime handlers app service.caches circumstances request
    have honce := (once_iff _ _).mp (horderly _ haccepted)
    rw [← haccounts.finished, ← haccounts.task] at honce
    simp only [receive, dispatchOneRequest_accepted _ _ _ _ _ haccepted _]
    generalize serve runtime handlers app service.caches circumstances request = served
      at haccounts honce ⊢
    have hhand := keeps_started hkeeps served.caches
    have htask : ({ served with effects := .started :: served.effects } : Served O X).task =
        served.task := rfl
    rw [htask, apply_started]
    cases hserved : served.task with
    | none =>
      rw [hserved] at honce
      have hdone : [service.calls] =
          List.replicate (served.effects.count .finished) service.calls := by
        rw [show served.effects.count .finished = 1 by simpa using honce, replicate_one]
      exact keeps_apply [service.calls] [] hhand hdone haccounts.started
    | some inner =>
      rw [hserved] at honce
      have hdone : ([] : List ℕ) =
          List.replicate (served.effects.count .finished) service.calls := by
        rw [show served.effects.count .finished = 0 by simpa using honce, replicate_zero]
      have hkept := keeps_apply [] [service.calls] hhand hdone haccounts.started
      exact keeps_advance hkept _ _

theorem keeps_turn {service : Service O X} (hkeeps : service.Keeps [])
    {event : ServiceEvent F P O X} (horderly : event.Orderly app llhttp) :
    (service.turn runtime handlers app llhttp isException respond middleware event).Keeps [] := by
  cases event with
  | request data circumstances closing =>
    exact keeps_receive _ _ _ _ _ _ _ hkeeps horderly
  | resumed index answer closing =>
    simp only [turn]
    cases htask : service.pending[index]? with
    | none => exact hkeeps
    | some task =>
      obtain ⟨hindex, rfl⟩ := List.getElem?_eq_some_iff.mp htask
      obtain ⟨resume, hresume⟩ := hkeeps.recording _ (getElem_mem hindex)
      have hperm := getElem_cons_eraseIdx_perm hindex
      have hhand : ({ service with pending := service.pending.eraseIdx index } :
          Service O X).Keeps [service.pending[index].request] :=
        { recording := fun task hmem =>
            hkeeps.recording _ (mem_of_mem_eraseIdx hmem)
          once := hkeeps.once
          fresh := hkeeps.fresh
          accounted := by
            intro call
            have haccounted := hkeeps.accounted call
            have hcount := (hperm.map Waiting.request).count_eq call
            rw [nil_append, ← hcount] at haccounted
            exact haccounted
          counted := by
            have hcounted := hkeeps.counted
            have hlength := hperm.length_eq
            rw [← hlength] at hcounted
            rw [hcounted]
            simp [add_comm] }
      simp only
      rw [hresume]
      exact keeps_advance hhand _ _

theorem keeps_run {events : List (ServiceEvent F P O X)}
    (horderly : ∀ event ∈ events, event.Orderly app llhttp) :
    (run runtime handlers app llhttp isException respond middleware events).Keeps [] := by
  have hfold : ∀ (events : List (ServiceEvent F P O X)) (service : Service O X),
      service.Keeps [] → (∀ event ∈ events, event.Orderly app llhttp) →
        (events.foldl (turn runtime handlers app llhttp isException respond middleware)
          service).Keeps [] := by
    intro events
    induction events with
    | nil => exact fun _ hkeeps _ => hkeeps
    | cons event events ih =>
      intro service hkeeps hall
      have hturn := keeps_turn runtime handlers _ _ isException respond middleware hkeeps
        (hall _ mem_cons_self)
      exact ih _ hturn fun other hother => hall _ (mem_cons_of_mem _ hother)
  have hstart : ({} : Service O X).Keeps [] :=
    { recording := by simp
      once := fun _ => Nat.zero_le 1
      fresh := fun _ _ => rfl
      accounted := fun _ => rfl
      counted := rfl }
  exact hfold _ {} hstart horderly

theorem Keeps.balanced {service : Service O X} (hkeeps : service.Keeps []) : service.Balanced := by
  refine ⟨hkeeps.once, ?_, ?_⟩
  · intro call hstarted
    have haccounted := hkeeps.accounted call
    rw [hstarted, nil_append] at haccounted
    split
    · rename_i hmem
      have hpositive := count_pos_iff.mpr hmem
      omega
    · rename_i hmem
      rw [count_eq_zero_of_not_mem hmem] at haccounted
      exact haccounted.symm
  · intro hnone
    have hcounted := hkeeps.counted
    rw [hcounted, hnone]
    rfl

end Service

/-- In a run whose requests are each counted off once, by the dispatcher or by the
handler that they are handed to, the counter balances. -/
theorem counter_balanced (runtime : Runtime F P) (handlers : ExceptionHandlers F P)
    (app : CoreApp O X) (llhttp : Llhttp) (isException : X → Bool)
    (respond : X → Handler O X (Option Bytes))
    (middleware : Option (Raw O X → Handler O X (Raw O X))) (events : List (ServiceEvent F P O X))
    (horderly : ∀ event ∈ events, event.Orderly app llhttp) :
    (Service.run runtime handlers app llhttp isException respond middleware events).Balanced :=
  (Service.keeps_run _ _ _ _ _ _ _ horderly).balanced

end Runs

/-- One asynchronous route, at `/`, and a documentation page. -/
def smallApp (hasHttpMiddleware : Bool) : CoreApp Empty Empty where
  pages :=
    [{ url := ascii "/docs"
       contentType := ascii "text/html"
       text := ascii "docs"
       content := some { built := .whole (ascii "docs") } }]
  hasHttpMiddleware := hasHttpMiddleware
  router := { staticRoutes := fun path => if path = ascii "/" then some 0 else none }
  routes := [{ fastSpec := some { fastSpec := {} } }]

/-- The endpoint waits once. -/
def waiting : Circumstances Empty Empty Empty Empty where
  course := .valid (.parsed (.solved (.valid (.suspended
    (.suspend (.wait none) fun _ => .ret { built := .whole (ascii "done") })))))

def smallRun (hasHttpMiddleware : Bool) (data : Bytes) : Service Empty Empty :=
  Service.run Response.plainRuntime {} (smallApp hasHttpMiddleware) (fun _ => { errno := .ok })
    (fun _ => false) (fun _ => .ret none) (some .ret)
    [.request data waiting false, .resumed 0 (.ok .nothing) false]

theorem counter_balanced_waiting :
    (smallRun false (ascii "GET / HTTP/1.1\r\n\r\n")).Balanced := by
  apply counter_balanced
  intro event hevent
  rcases mem_cons.mp hevent with rfl | hevent
  · intro request haccepted
    have howner : ((smallApp false).accepted (fun _ => { errno := .ok })
        (ascii "GET / HTTP/1.1\r\n\r\n")).map (fun request => (smallApp false).owner request waiting) =
          some (.handler [[]]) := by rfl
    rw [haccepted, Option.map_some, Option.some.injEq] at howner
    rw [howner]
    exact ⟨rfl, by decide⟩
  · rw [mem_singleton.mp hevent]
    trivial

/-- The documentation page that is handed to middleware is counted off twice. -/
theorem counter_unbalanced_page :
    ¬ (smallRun true (ascii "GET /docs HTTP/1.1\r\n\r\n")).Balanced := by
  have hpending : (smallRun true (ascii "GET /docs HTTP/1.1\r\n\r\n")).pending = [] := by rfl
  have hactive : (smallRun true (ascii "GET /docs HTTP/1.1\r\n\r\n")).active = -1 := by rfl
  intro hbalanced
  have hzero := hbalanced.2.2 hpending
  cases hzero

end AstraApi.Dispatch
