import AstraApi.Lib.Bytes
import AstraApi.Lib.Coroutine

/-!
# The request handlers

A request that C++ does not answer at once is finished by a task: one of the
`_handle_*` coroutines of `CppHttpProtocol`.  Each drives user code, which may
wait as often as it likes, and writes its response to the transport, a
streaming response piece by piece.  The bytes of a response are built in C++
from the result; here a result carries them.
-/

namespace AstraApi.Server

open Coroutine

/-- What a handler asks of the transport, and what it waits for: an awaitable,
or only its next turn (`asyncio.sleep(0)` yields `None`). -/
inductive Op (O : Type*) where
  | write (data : Bytes)
  | isClosing
  | wait (awaitable : Option O)

def Op.IsWrite {O : Type*} : Op O → Prop
  | .write _ => True
  | _ => False

inductive Answer (O : Type*) where
  | nothing
  | flag (set : Bool)
  | value (object : O)
  deriving DecidableEq

/-- Coroutines of the server, user code included. -/
abbrev Handler (O X V : Type*) := Coro (Op O) (Answer O) X V

inductive Body (O X : Type*) where
  | stop
  | raise (exc : X)
  | chunk (data : Bytes) (next : Body O X)
  | wait (awaitable : Option O) (next : Except X (Answer O) → Body O X)

/-- An endpoint's result as the handlers tell results apart: a `dict` or `list`
(which may fail to serialise), an object with a complete response, or one whose
body has to be iterated. -/
inductive Built (O X : Type*) where
  | json (response : Option Bytes)
  | whole (response : Bytes)
  | streaming (header : Bytes) (body : Body O X)

/-- A result with the attributes the shim and the endpoint put on it. -/
structure Raw (O X : Type*) where
  built : Built O X
  background : Option (Handler O X Unit) := none
  shimBackground : Option (Handler O X Unit) := none
  exitStack : Option (Handler O X Unit) := none
  /-- `__middleware_ran__` -/
  middlewareRan : Bool := false

section Handlers

variable {O X V : Type*}

def write (data : Bytes) : Handler O X Unit :=
  .perform (.write data) fun _ => .ret ()

def writeSome : Option Bytes → Handler O X Unit
  | none => .ret ()
  | some data => write data

/-- `if transport and not transport.is_closing()`. -/
def ifOpenOr (otherwise : V) (handler : Handler O X V) : Handler O X V :=
  .perform .isClosing fun
    | .flag true => .ret otherwise
    | _ => handler

def ifOpen (handler : Handler O X Unit) : Handler O X Unit :=
  ifOpenOr () handler

def awaitSome : Option (Handler O X Unit) → Handler O X Unit
  | none => .ret ()
  | some handler => handler

/-- The loop of `_drive_coro`: a bare yield is answered at once, and exceptions
are thrown back into the coroutine. -/
def driveRest : Handler O X V → Handler O X V
  | .ret value => .ret value
  | .throw exc => .throw exc
  | .perform op next => .perform op fun answer => driveRest (next answer)
  | .suspend (.wait none) next => driveRest (next (.ok .nothing))
  | .suspend op next => .suspend op fun answer => driveRest (next answer)

/-- `_drive_coro`, given a coroutine that C++ took to its first suspension.  An
exception of that first awaitable is not thrown back. -/
def driveCoro : Handler O X V → Handler O X V
  | .suspend (.wait none) next => driveRest (next (.ok .nothing))
  | .suspend op next => .suspend op fun
      | .ok answer => driveRest (next (.ok answer))
      | .error exc => .throw exc
  | coro => coro

def buildChunkedFrame (chunk : Bytes) : Bytes :=
  (Nat.toDigits 16 chunk.length).map (fun c => UInt8.ofNat c.toNat) ++ ascii "\r\n" ++ chunk ++
    ascii "\r\n"

/-- The iteration of `_write_chunked_streaming`: empty chunks are skipped. -/
def writeBody : Body O X → Handler O X Unit
  | .stop => .ret ()
  | .raise exc => .throw exc
  | .chunk [] next => writeBody next
  | .chunk data next => .perform (.write (buildChunkedFrame data)) fun _ => writeBody next
  | .wait awaitable next => .suspend (.wait awaitable) fun answer => writeBody (next answer)

variable (isException : X → Bool)

def exceptException (handler : X → Handler O X Unit) (coro : Handler O X Unit) :
    Handler O X Unit :=
  coro.tryCatch fun exc => if isException exc then some (handler exc) else none

/-- The header, every chunk, and the last chunk also when the iteration fails. -/
def writeChunkedStreaming (header : Bytes) (body : Body O X) : Handler O X Unit :=
  (write header).bind fun _ =>
    exceptException isException (fun _ => write (ascii "0\r\n\r\n"))
      ((writeBody body).bind fun _ => write (ascii "0\r\n\r\n"))

/-- `_dispatch_exception`: an exception handler of the application, which may
wait, or a built-in fallback gives the response. -/
def dispatchException (respond : X → Handler O X (Option Bytes)) (exc : X) : Handler O X Unit :=
  ifOpen ((respond exc).bind fun response => ifOpen (writeSome response))

/-- `_run_http_middleware`: the chain of dispatchers is user code.  A final
response that has to be iterated is not written. -/
def runHttpMiddleware (chain : Raw O X → Handler O X (Raw O X)) (raw : Raw O X) :
    Handler O X (Raw O X) :=
  (chain raw).bind fun final =>
    (ifOpen (match final.built with
      | .json response => writeSome response
      | .whole response => write response
      | .streaming _ _ => .ret ())).bind fun _ => .ret final

variable (respond : X → Handler O X (Option Bytes))
variable (middleware : Option (Raw O X → Handler O X (Raw O X)))

/-- Write a result that is not a plain `dict` or `list`. -/
def writeBuilt : Built O X → Handler O X Unit
  | .json response => writeSome response
  | .whole response => write response
  | .streaming header body => writeChunkedStreaming isException header body

def handleAsync (coro : Handler O X (Raw O X)) : Handler O X Unit :=
  exceptException isException (dispatchException respond)
    ((driveCoro coro).bind fun raw =>
      ifOpen (match raw.built with
        | .json response => writeSome response
        | built =>
          match middleware with
          | some chain =>
            (runHttpMiddleware chain raw).bind fun final => awaitSome final.exitStack
          | none =>
            (awaitSome raw.background).bind fun _ =>
            (awaitSome raw.shimBackground).bind fun _ =>
            (writeBuilt isException built).bind fun _ => awaitSome raw.exitStack))

/-- A `FileResponse` is written whole, another streaming response piece by
piece; background tasks run after it. -/
def handleStream (raw : Raw O X) : Handler O X Unit :=
  exceptException isException (dispatchException respond)
    ((ifOpen (writeBuilt isException raw.built)).bind fun _ => awaitSome raw.background)

def handleMiddlewareResult (raw : Raw O X) : Handler O X Unit :=
  exceptException isException (dispatchException respond)
    (match middleware with
      | some chain => (runHttpMiddleware chain raw).bind fun _ => .ret ()
      | none =>
        ifOpen (match raw.built with
          | .json response => writeSome response
          | .whole response => write response
          | .streaming _ _ => .ret ()))

/-- `_handle_pydantic`: the body is validated first, and its errors are
answered without calling the endpoint. -/
def handlePydantic (validate : Handler O X (Option Bytes)) (endpoint : Handler O X (Raw O X)) :
    Handler O X Unit :=
  exceptException isException (dispatchException respond)
    (validate.bind fun
      | some response => ifOpen (write response)
      | none =>
        endpoint.bind fun raw =>
          ifOpen ((writeBuilt isException raw.built).bind fun _ => awaitSome raw.background))

/-- `_handle_async_di`: the dependencies are resolved first, and their errors
are answered without calling the endpoint. -/
def handleAsyncDi (solve : Handler O X (Option Bytes × Option (Handler O X Unit)))
    (endpoint : Handler O X (Raw O X)) : Handler O X Unit :=
  exceptException isException (dispatchException respond)
    ((driveCoro solve).bind fun
      | (some response, _) => ifOpen (write response)
      | (none, tasks) =>
        (endpoint.bind fun raw =>
          ifOpenOr raw ((match middleware, raw.middlewareRan with
            | some chain, false => runHttpMiddleware chain raw
            | _, _ => (writeBuilt isException raw.built).bind fun _ => .ret raw).bind
              fun final => (awaitSome final.shimBackground).bind fun _ => .ret final)).bind
          fun raw => (awaitSome raw.background).bind fun _ => awaitSome tasks)

/-- What `dispatch_one_request` hands to Python for a request that it does not
answer itself, with the flag that the response is built from; an `InlineResult`
has none. -/
inductive Inner (O X : Type*) where
  | async (keepAlive : Bool) (coro : Handler O X (Raw O X))
  | mw (keepAlive : Bool) (raw : Raw O X)
  | stream (keepAlive : Bool) (raw : Raw O X)
  | asyncDi (keepAlive : Bool) (solve : Handler O X (Option Bytes × Option (Handler O X Unit)))
      (endpoint : Handler O X (Raw O X))
  | pydantic (validate : Handler O X (Option Bytes)) (endpoint : Handler O X (Raw O X))

/-- `_handle_pydantic` always keeps the connection. -/
def Inner.keepAlive : Inner O X → Bool
  | .async keepAlive _ | .mw keepAlive _ | .stream keepAlive _ | .asyncDi keepAlive _ _ => keepAlive
  | .pydantic _ _ => true

/-- The coroutine `data_received` makes a task of. -/
def Inner.handler : Inner O X → Handler O X Unit
  | .async _ coro => handleAsync isException respond middleware coro
  | .mw _ raw => handleMiddlewareResult isException respond middleware raw
  | .stream _ raw => handleStream isException respond raw
  | .asyncDi _ solve endpoint => handleAsyncDi isException respond middleware solve endpoint
  | .pydantic validate endpoint => handlePydantic isException respond validate endpoint

end Handlers

end AstraApi.Server
