import AstraApi.Server.Handlers

/-!
# Protocols that are used again

`connection_lost` gives a `CppHttpProtocol` back to the pool while the tasks of its
connection may still run: they were only asked to cancel themselves.  A task has the
transport that it has read into a variable; whenever it reads `self._transport` it gets
the transport of the connection that the object serves by then.
-/

namespace AstraApi.Server

open List
open Coroutine

/-! ## Tasks -/

/-- What a task does to transports.  `readTransport` is `transport = self._transport`,
and the other operations on a transport are those of that variable; a `CppWebSocket` has
the transport of its own connection. -/
inductive WorkOp (O : Type*) where
  | readTransport
  | isClosing
  | write (data : Bytes)
  | close
  | socketWrite (data : Bytes)
  | socketClosed
  | closeSocket
  | wait (awaitable : Option O)

/-- A task of the server, user code included. -/
abbrev Work (O X V : Type*) := Coro (WorkOp O) (Answer O) X V

section Tasks

variable {O X V : Type*}

namespace Work

/-- `if transport and not transport.is_closing()`. -/
def ifStillOpen (otherwise : V) (work : Work O X V) : Work O X V :=
  .perform .isClosing fun
    | .flag true => .ret otherwise
    | _ => work

/-- The same, with the transport that the object has now. -/
def ifOpen (otherwise : V) (work : Work O X V) : Work O X V :=
  .perform .readTransport fun _ => ifStillOpen otherwise work

variable (isException : X → Bool)

def exceptException (handler : X → Work O X V) (work : Work O X V) : Work O X V :=
  work.tryCatch fun exc => if isException exc then some (handler exc) else none

/-- `CppWebSocket.close`: a close frame, then the wait for the one of the peer. -/
def closeWebSocket (frame : Bytes) : Work O X Unit :=
  .perform .socketClosed fun
    | .flag true => .ret ()
    | _ =>
      .perform .closeSocket fun _ =>
      .perform (.socketWrite frame) fun _ =>
        exceptException isException (fun _ => .ret ()) (.suspend (.wait none) fun
          | .ok _ => .ret ()
          | .error exc => .throw exc)

/-- The `finally` of `_handle_websocket_inner`. -/
def closeBehind (frame : Bytes) : Work O X Unit :=
  (exceptException isException (fun _ => .ret ()) (closeWebSocket isException frame)).bind fun _ =>
    ifOpen () (.perform .close fun _ => .ret ())

/-- `_handle_websocket_inner`: what leaves the endpoint is handled or logged if it is an
`Exception`, and raised again behind the `finally` if it is not. -/
def handleWebsocketInner (handle : X → Work O X Unit) (frame : Bytes) (endpoint : Work O X Unit) :
    Work O X Unit :=
  ((exceptException isException handle endpoint).tryCatch fun exc =>
    some ((closeBehind isException frame).bind fun _ => .throw exc)).bind fun _ =>
      closeBehind isException frame

end Work

end Tasks

/-! ## Connections -/

/-- A connection with the object that serves it. -/
structure Peer where
  proto : ℕ
  closing : Bool := false
  lost : Bool := false
  /-- `ws._closed` -/
  socketClosed : Bool := false

/-- The fields of a `CppHttpProtocol` that the work of several connections meets in. -/
structure Protocol where
  transport : Option ℕ := none
  buffer : Bytes := []
  paused : Bool := false

/-- A task that waits, with the connection it was started for and its variable. -/
structure Job (O X : Type*) where
  owner : ℕ
  proto : ℕ
  transport : Option ℕ
  resume : Except X (Answer O) → Work O X Unit

inductive Access where
  | write (data : Bytes)
  | close
  | changeBuffer
  deriving DecidableEq

/-- Work that was started for `owner` did something to the connection `conn`. -/
structure Entry where
  owner : ℕ
  conn : ℕ
  access : Access
  deriving DecidableEq

/-- What one call of `data_received` makes of a buffer: what it leaves there, and what
it does in turn. -/
inductive Turn (O X : Type*) where
  | write (data : Bytes)
  | close
  | start (work : Work O X Unit)

structure Reception (O X : Type*) where
  buffer : Bytes := []
  turns : List (Turn O X) := []

/-- The variable of a running task, and what it changes. -/
structure Runner where
  transport : Option ℕ
  peers : List Peer
  log : List Entry

section Running

variable (O X : Type*)

/-- A task for `owner` whose object now has the transport `current`. -/
def runnerEnvironment (owner : ℕ) (current : Option ℕ) : Environment Runner (WorkOp O) (Answer O) X where
  perform runner op :=
    match op with
    | .readTransport => (.nothing, { runner with transport := current })
    | .isClosing =>
      (.flag (match runner.transport with
        | none => true
        | some conn => (runner.peers[conn]?.map Peer.closing).getD true), runner)
    | .write data =>
      (.nothing, { runner with
        log := runner.log ++ runner.transport.toList.map fun conn => ⟨owner, conn, .write data⟩ })
    | .close =>
      (.nothing, { runner with
        peers := runner.transport.toList.foldl
          (fun peers conn => peers.modify conn fun peer => { peer with closing := true }) runner.peers
        log := runner.log ++ runner.transport.toList.map fun conn => ⟨owner, conn, .close⟩ })
    | .socketWrite data => (.nothing, { runner with log := runner.log ++ [⟨owner, owner, .write data⟩] })
    | .socketClosed => (.flag ((runner.peers[owner]?.map Peer.socketClosed).getD true), runner)
    | .closeSocket =>
      (.nothing, { runner with
        peers := runner.peers.modify owner fun peer => { peer with socketClosed := true } })
    | .wait _ => (.nothing, runner)
  resume runner _ := (.ok .nothing, runner)

end Running

/-- All connections of a server, its protocol objects, the pool, the waiting tasks, the
scheduled calls of `_drain_buf` with the connections they were scheduled for, and what
was done to whom. -/
structure Listener (O X : Type*) where
  peers : List Peer := []
  protocols : List Protocol := []
  pool : List ℕ := []
  jobs : List (Job O X) := []
  callbacks : List (ℕ × ℕ) := []
  log : List Entry := []

inductive ListenerEvent (O X : Type*) where
  /-- `acquire` and `connection_made` -/
  | made
  | received (conn : ℕ) (reception : Reception O X)
  /-- `pause_writing` and `resume_writing` -/
  | writing (conn : ℕ) (paused : Bool)
  /-- `connection_lost` and `release` -/
  | lost (conn : ℕ)
  | resumed (index : ℕ) (answer : Except X (Answer O))
  | drained (index : ℕ) (reception : Reception O X)
  | trimmed (size : ℕ)

namespace Listener

variable {O X : Type*}

def maxPool : ℕ := 2048

def serves (listener : Listener O X) (proto : ℕ) : Option ℕ :=
  (listener.protocols[proto]?.map Protocol.transport).join

/-- Run a task up to its next suspension or its end. -/
def advance (listener : Listener O X) (owner proto : ℕ) (transport : Option ℕ)
    (work : Work O X Unit) : Listener O X :=
  let (step, runner, _) := work.send (runnerEnvironment O X owner (listener.serves proto))
    ⟨transport, listener.peers, listener.log⟩
  let listener := { listener with peers := runner.peers, log := runner.log }
  match step with
  | .yielded next =>
    { listener with jobs := listener.jobs ++ [⟨owner, proto, runner.transport, next⟩] }
  | _ => listener

/-- A turn of `data_received`, called for `owner`, on the connection that the object
serves; the tasks are those of its requests. -/
def turn (owner conn proto : ℕ) (listener : Listener O X) : Turn O X → Listener O X
  | .write data => { listener with log := listener.log ++ [⟨owner, conn, .write data⟩] }
  | .close =>
    { listener with
      peers := listener.peers.modify conn fun peer => { peer with closing := true }
      log := listener.log ++ [⟨owner, conn, .close⟩] }
  | .start work => listener.advance conn proto none work

def receive (listener : Listener O X) (owner proto : ℕ) (reception : Reception O X) :
    Listener O X :=
  match listener.serves proto with
  | none => listener
  | some conn =>
    let listener :=
      { listener with
        protocols := listener.protocols.modify proto fun protocol =>
          { protocol with buffer := reception.buffer }
        log := listener.log ++ [⟨owner, conn, .changeBuffer⟩] }
    reception.turns.foldl (turn owner conn proto) listener

/-- `acquire`: an object of the pool is set up anew. -/
def acquire (listener : Listener O X) : ℕ × Listener O X :=
  match listener.pool.getLast? with
  | some proto => (proto, { listener with pool := listener.pool.dropLast })
  | none =>
    (listener.protocols.length, { listener with protocols := listener.protocols ++ [{}] })

def release (listener : Listener O X) (proto : ℕ) : Listener O X :=
  if listener.pool.length < maxPool then { listener with pool := listener.pool ++ [proto] }
  else listener

/-- `_drain_buf` has something to do. -/
def held (listener : Listener O X) (proto : ℕ) : Bool :=
  (listener.protocols[proto]?.map fun protocol =>
    !protocol.paused && !protocol.buffer.isEmpty).getD false

def step (listener : Listener O X) : ListenerEvent O X → Listener O X
  | .made =>
    let (proto, listener) := listener.acquire
    { listener with
      protocols := listener.protocols.modify proto fun _ =>
        { transport := some listener.peers.length }
      peers := listener.peers ++ [{ proto := proto }] }
  | .received conn reception =>
    match listener.peers[conn]? with
    | some peer => if peer.lost then listener else listener.receive conn peer.proto reception
    | none => listener
  | .writing conn paused =>
    match listener.peers[conn]? with
    | some peer =>
      if peer.lost then listener
      else
        let listener :=
          { listener with
            protocols := listener.protocols.modify peer.proto fun protocol =>
              { protocol with paused := paused } }
        let held := (listener.protocols[peer.proto]?.map Protocol.buffer).getD []
        if paused = false ∧ held ≠ [] ∧ peer.closing = false then
          { listener with callbacks := listener.callbacks ++ [(conn, peer.proto)] }
        else listener
    | none => listener
  | .lost conn =>
    match listener.peers[conn]? with
    | some peer =>
      if peer.lost then listener
      else
        { listener with
          peers := listener.peers.modify conn fun peer =>
            { peer with lost := true, closing := true, socketClosed := true }
          protocols := listener.protocols.modify peer.proto fun protocol =>
            { protocol with transport := none, buffer := [] } }.release peer.proto
    | none => listener
  | .resumed index answer =>
    match listener.jobs[index]? with
    | some job =>
      { listener with jobs := listener.jobs.eraseIdx index }.advance job.owner job.proto
        job.transport (job.resume answer)
    | none => listener
  | .drained index reception =>
    match listener.callbacks[index]? with
    | some (owner, proto) =>
      let listener := { listener with callbacks := listener.callbacks.eraseIdx index }
      if listener.held proto then
        let listener := listener.receive owner proto reception
        if listener.held proto then
          { listener with callbacks := listener.callbacks ++ [(owner, proto)] }
        else listener
      else listener
    | none => listener
  | .trimmed size => { listener with pool := listener.pool.take size }

def run (events : List (ListenerEvent O X)) : Listener O X := events.foldl step {}

/-- Whatever was done for a connection was done to that connection. -/
def Isolated (listener : Listener O X) : Prop := ∀ entry ∈ listener.log, entry.conn = entry.owner

/-- Work for a connection goes on while its object serves no other one, or does not look
at the object before it waits again; a call of `_drain_buf` may find nothing to do. -/
def Meets (listener : Listener O X) : ListenerEvent O X → Prop
  | .resumed index answer =>
    ∀ job, listener.jobs[index]? = some job →
      (∀ conn, listener.serves job.proto = some conn → conn = job.owner) ∨
        .performed .readTransport ∉ ((job.resume answer).send
          (runnerEnvironment O X job.owner (listener.serves job.proto))
          ⟨job.transport, listener.peers, listener.log⟩).2.2
  | .drained index _ =>
    ∀ owner proto, listener.callbacks[index]? = some (owner, proto) → listener.held proto = true →
      ∀ conn, listener.serves proto = some conn → conn = owner
  | _ => True

/-! ## What keeps the connections apart -/

/-- The object of a connection, and whether it is lost. -/
def routes (peers : List Peer) : List (ℕ × Bool) := peers.map fun peer => (peer.proto, peer.lost)

/-- Live connections have objects of their own, the objects of the pool serve none, and
the variables of the tasks hold transports of their own connections. -/
structure Apart (listener : Listener O X) : Prop where
  live : ∀ (conn : ℕ) (proto : ℕ), (routes listener.peers)[conn]? = some (proto, false) →
    listener.serves proto = some conn
  pooled : ∀ proto ∈ listener.pool, listener.serves proto = none
  bounded : ∀ proto ∈ listener.pool, proto < listener.protocols.length
  nodup : listener.pool.Nodup
  jobs : ∀ job ∈ listener.jobs, ∀ conn, job.transport = some conn → conn = job.owner
  isolated : listener.Isolated

/-- The state of a running task is its own. -/
structure Own (owner : ℕ) (runner : Runner) : Prop where
  transport : ∀ conn, runner.transport = some conn → conn = owner
  log : ∀ entry ∈ runner.log, entry.conn = entry.owner

theorem routes_modify (peers : List Peer) (conn : ℕ) (change : Peer → Peer)
    (hchange : ∀ peer, (change peer).proto = peer.proto ∧ (change peer).lost = peer.lost) :
    routes (peers.modify conn change) = routes peers := by
  apply ext_getElem?
  intro index
  simp only [routes, getElem?_map, getElem?_modify]
  cases peers[index]? with
  | none => rfl
  | some peer =>
    split
    · exact congrArg some (Prod.ext (hchange _).1 (hchange _).2)
    · rfl

theorem Own.perform {owner : ℕ} {current : Option ℕ} {runner : Runner} (h : Own owner runner)
    (op : WorkOp O)
    (hread : (∀ conn, current = some conn → conn = owner) ∨ op ≠ .readTransport) :
    Own owner ((runnerEnvironment O X owner current).perform runner op).2 ∧
      routes ((runnerEnvironment O X owner current).perform runner op).2.peers =
        routes runner.peers := by
  have hlog (access : Access) : ∀ entry ∈ runner.log ++
      runner.transport.toList.map fun conn => ⟨owner, conn, access⟩, entry.conn = entry.owner := by
    intro entry hmem
    rcases mem_append.mp hmem with hmem | hmem
    · exact h.log _ hmem
    · obtain ⟨conn, hconn, rfl⟩ := mem_map.mp hmem
      exact h.transport _ (Option.mem_toList.mp hconn)
  cases op with
  | readTransport => exact ⟨⟨hread.resolve_right (not_not.mpr rfl), h.log⟩, rfl⟩
  | isClosing => exact ⟨h, rfl⟩
  | write data => exact ⟨⟨h.transport, hlog _⟩, rfl⟩
  | close =>
    refine ⟨⟨h.transport, hlog _⟩, ?_⟩
    simp only [runnerEnvironment]
    cases runner.transport with
    | none => rfl
    | some conn => exact routes_modify _ _ _ fun peer => ⟨rfl, rfl⟩
  | socketWrite data =>
    refine ⟨⟨h.transport, ?_⟩, rfl⟩
    intro entry hmem
    rcases mem_append.mp hmem with hmem | hmem
    · exact h.log _ hmem
    · rw [mem_singleton.mp hmem]
  | socketClosed => exact ⟨h, rfl⟩
  | closeSocket => exact ⟨⟨h.transport, h.log⟩, routes_modify _ _ _ fun peer => ⟨rfl, rfl⟩⟩
  | wait awaitable => exact ⟨h, rfl⟩

theorem Own.send {owner : ℕ} {current : Option ℕ} (work : Work O X Unit) {runner : Runner}
    (h : Own owner runner)
    (hread : (∀ conn, current = some conn → conn = owner) ∨
      .performed .readTransport ∉ (work.send (runnerEnvironment O X owner current) runner).2.2) :
    Own owner (work.send (runnerEnvironment O X owner current) runner).2.1 ∧
      routes (work.send (runnerEnvironment O X owner current) runner).2.1.peers =
        routes runner.peers := by
  induction work generalizing runner with
  | ret value => exact ⟨h, rfl⟩
  | throw exc => exact ⟨h, rfl⟩
  | suspend awaitable next _ => exact ⟨h, rfl⟩
  | perform op next ih =>
    simp only [Coro.send, mem_cons, not_or] at hread ⊢
    have hop : (∀ conn, current = some conn → conn = owner) ∨ op ≠ .readTransport := by
      apply hread.imp_right
      intro hnot heq
      exact hnot.1 (congrArg _ heq.symm)
    obtain ⟨hown, hroutes⟩ := h.perform (X := X) _ hop
    obtain ⟨hsent, hroutes'⟩ := ih _ hown (hread.imp_right And.right)
    exact ⟨hsent, hroutes'.trans hroutes⟩

variable {listener : Listener O X}

theorem Apart.advance (h : listener.Apart) {owner proto : ℕ} {transport : Option ℕ}
    {work : Work O X Unit} (htransport : ∀ conn, transport = some conn → conn = owner)
    (hread : (∀ conn, listener.serves proto = some conn → conn = owner) ∨
      .performed .readTransport ∉ (work.send (runnerEnvironment O X owner (listener.serves proto))
        ⟨transport, listener.peers, listener.log⟩).2.2) :
    (listener.advance owner proto transport work).Apart := by
  have hown : Own owner ⟨transport, listener.peers, listener.log⟩ := ⟨htransport, h.isolated⟩
  obtain ⟨hsent, hroutes⟩ := hown.send _ hread
  simp only [Listener.advance]
  generalize work.send (runnerEnvironment O X owner (listener.serves proto))
    ⟨transport, listener.peers, listener.log⟩ = sent at hsent hroutes
  obtain ⟨step, runner, events⟩ := sent
  have hlive : ∀ (conn : ℕ) (proto : ℕ), (routes runner.peers)[conn]? = some (proto, false) →
      listener.serves proto = some conn := by
    rw [hroutes]
    exact h.live
  cases step with
  | returned value | raised value => exact ⟨hlive, h.pooled, h.bounded, h.nodup, h.jobs, hsent.log⟩
  | yielded next =>
    refine ⟨hlive, h.pooled, h.bounded, h.nodup, ?_, hsent.log⟩
    intro job hmem
    rcases mem_append.mp hmem with hmem | hmem
    · exact h.jobs _ hmem
    · rw [mem_singleton.mp hmem]
      exact hsent.transport

theorem advance_protocols (owner proto : ℕ) (transport : Option ℕ) (work : Work O X Unit) :
    (listener.advance owner proto transport work).protocols = listener.protocols := by
  simp only [Listener.advance]
  split <;> rfl

theorem turn_protocols (owner conn proto : ℕ) (turn : Turn O X) :
    (listener.turn owner conn proto turn).protocols = listener.protocols := by
  cases turn with
  | write data => rfl
  | close => rfl
  | start work => exact advance_protocols _ _ _ _

theorem serves_modify (protocols : List Protocol) (proto : ℕ) (change : Protocol → Protocol)
    (hchange : ∀ protocol, (change protocol).transport = protocol.transport) (other : ℕ) :
    ((protocols.modify proto change)[other]?.map Protocol.transport).join =
      (protocols[other]?.map Protocol.transport).join := by
  rw [getElem?_modify]
  cases protocols[other]? with
  | none => rfl
  | some protocol =>
    split
    · exact hchange _
    · rfl

theorem serves_set {protocols : List Protocol} {protocol : Protocol} {proto : ℕ}
    (hlt : proto < protocols.length) (other : ℕ) :
    ((protocols.modify proto fun _ => protocol)[other]?.map Protocol.transport).join =
      if other = proto then protocol.transport
      else (protocols[other]?.map Protocol.transport).join := by
  by_cases heq : other = proto
  · subst heq
    simp [getElem?_eq_getElem hlt]
  · simp [heq, Ne.symm heq]

theorem lt_of_serves {proto conn : ℕ} (h : listener.serves proto = some conn) :
    proto < listener.protocols.length := by
  by_contra hge
  rw [serves, getElem?_eq_none (not_lt.mp hge)] at h
  cases h

/-- The fields of the objects that the invariant does not read. -/
theorem Apart.of_change (h : listener.Apart) (proto : ℕ) (change : Protocol → Protocol)
    (hchange : ∀ protocol, (change protocol).transport = protocol.transport) :
    Apart { listener with protocols := listener.protocols.modify proto change } where
  live _ _ hroute := (serves_modify _ _ _ hchange _).trans (h.live _ _ hroute)
  pooled _ hmem := (serves_modify _ _ _ hchange _).trans (h.pooled _ hmem)
  bounded _ hmem := (h.bounded _ hmem).trans_eq (length_modify ..).symm
  nodup := h.nodup
  jobs := h.jobs
  isolated := h.isolated

/-- The fields of the connections that it does not read. -/
theorem Apart.of_peer (h : listener.Apart) (conn : ℕ) (change : Peer → Peer)
    (hchange : ∀ peer, (change peer).proto = peer.proto ∧ (change peer).lost = peer.lost) :
    Apart { listener with peers := listener.peers.modify conn change } where
  live other proto hroute := by
    rw [routes_modify _ _ _ hchange] at hroute
    exact h.live _ _ hroute
  pooled := h.pooled
  bounded := h.bounded
  nodup := h.nodup
  jobs := h.jobs
  isolated := h.isolated

theorem Apart.record (h : listener.Apart) (owner : ℕ) (access : Access) :
    Apart { listener with log := listener.log ++ [⟨owner, owner, access⟩] } where
  live := h.live
  pooled := h.pooled
  bounded := h.bounded
  nodup := h.nodup
  jobs := h.jobs
  isolated entry hmem := by
    rcases mem_append.mp hmem with hmem | hmem
    · exact h.isolated _ hmem
    · rw [mem_singleton.mp hmem]

theorem Apart.turn (h : listener.Apart) {owner proto : ℕ}
    (hserves : listener.serves proto = some owner) (turn : Turn O X) :
    (listener.turn owner owner proto turn).Apart := by
  cases turn with
  | write data => exact h.record _ _
  | close =>
    exact (h.of_peer _ (fun peer => { peer with closing := true })
      fun _ => ⟨rfl, rfl⟩).record owner .close
  | start work =>
    apply h.advance
    · intro conn hnone
      cases hnone
    · left
      intro conn hconn
      exact Option.some.inj (hconn.symm.trans hserves)

theorem Apart.turns {owner proto : ℕ} (turns : List (Turn O X)) {listener : Listener O X}
    (h : listener.Apart) (hserves : listener.serves proto = some owner) :
    (turns.foldl (Listener.turn owner owner proto) listener).Apart := by
  induction turns generalizing listener with
  | nil => exact h
  | cons turn turns ih =>
    apply ih (h.turn hserves _)
    rw [serves, turn_protocols]
    exact hserves

theorem Apart.receive (h : listener.Apart) {owner proto : ℕ}
    (hserves : ∀ conn, listener.serves proto = some conn → conn = owner)
    (reception : Reception O X) : (listener.receive owner proto reception).Apart := by
  simp only [Listener.receive]
  cases hconn : listener.serves proto with
  | none => exact h
  | some conn =>
    obtain rfl := hserves _ hconn
    apply Apart.turns
    · exact (h.of_change _ (fun protocol => { protocol with buffer := reception.buffer })
        fun _ => rfl).record conn .changeBuffer
    · exact (serves_modify _ _ _ (fun _ => by rfl) _).trans hconn

/-- An object from the pool or a new one. -/
theorem Apart.acquire (h : listener.Apart) :
    listener.acquire.2.Apart ∧ listener.acquire.2.peers = listener.peers ∧
      listener.acquire.2.serves listener.acquire.1 = none ∧
      listener.acquire.1 < listener.acquire.2.protocols.length ∧
      listener.acquire.1 ∉ listener.acquire.2.pool := by
  simp only [Listener.acquire]
  cases hlast : listener.pool.getLast? with
  | some proto =>
    have hmem : proto ∈ listener.pool := mem_of_getLast? hlast
    have hpool : listener.pool.dropLast ++ [proto] = listener.pool :=
      dropLast_append_getLast? _ hlast
    have hnodup := h.nodup
    rw [← hpool, nodup_append] at hnodup
    refine ⟨⟨h.live, ?_, ?_, hnodup.1, h.jobs, h.isolated⟩, rfl, h.pooled _ hmem,
      h.bounded _ hmem, ?_⟩
    · intro other hother
      exact h.pooled _ (mem_of_mem_dropLast hother)
    · intro other hother
      exact h.bounded _ (mem_of_mem_dropLast hother)
    · intro hother
      exact hnodup.2.2 proto hother proto (mem_singleton.mpr rfl) rfl
  | none =>
    have hpool : listener.pool = [] := getLast?_eq_none_iff.mp hlast
    have hserves : ∀ other, ((listener.protocols ++ [({} : Protocol)])[other]?.map Protocol.transport).join =
        listener.serves other := by
      intro other
      rw [serves, getElem?_append]
      split
      · rfl
      · rename_i hge
        rw [getElem?_eq_none (not_lt.mp hge)]
        cases other - listener.protocols.length <;> rfl
    refine ⟨⟨?_, ?_, ?_, h.nodup, h.jobs, h.isolated⟩, rfl, ?_, ?_, ?_⟩
    · intro conn proto hroute
      exact (hserves _).trans (h.live _ _ hroute)
    · intro other hother
      exact (hserves _).trans (h.pooled _ hother)
    · intro other hother
      rw [length_append]
      exact Nat.lt_succ_of_lt (h.bounded _ hother)
    · rw [serves, hserves, serves, getElem?_eq_none le_rfl]
      rfl
    · simp
    · simp [hpool]

theorem Apart.made (h : listener.Apart) : (listener.step .made).Apart := by
  obtain ⟨hacquired, hpeers, hnone, hlt, hpool⟩ := h.acquire
  simp only [Listener.step]
  generalize listener.acquire = acquired at hacquired hpeers hnone hlt hpool
  obtain ⟨proto, listener'⟩ := acquired
  have hother : ∀ other, other ≠ proto → ∀ conn, listener'.serves other = conn →
        ((listener'.protocols.modify proto fun _ =>
          { transport := some listener'.peers.length })[other]?.map Protocol.transport).join =
            conn := by
    intro other hne conn hserves
    rw [serves_set hlt, if_neg hne]
    exact hserves
  constructor
  · intro conn other hroute
    simp only [routes, map_append, getElem?_append, length_map] at hroute
    split at hroute
    · have hlive := hacquired.live _ _ hroute
      apply hother _ _ _ hlive
      rintro rfl
      cases hnone.symm.trans hlive
    · rename_i hge
      cases hindex : conn - listener'.peers.length with
      | zero =>
        rw [hindex] at hroute
        have hconn : listener'.peers.length = conn :=
          le_antisymm (not_lt.mp hge) (Nat.sub_eq_zero_iff_le.mp hindex)
        obtain rfl := congrArg Prod.fst (Option.some.inj hroute)
        exact (serves_set hlt _).trans ((if_pos rfl).trans (congrArg _ hconn))
      | succ index =>
        rw [hindex] at hroute
        cases hroute
  · intro other hmem
    apply hother _ _ _ (hacquired.pooled _ hmem)
    rintro rfl
    exact hpool hmem
  · intro other hmem
    exact (hacquired.bounded _ hmem).trans_eq (length_modify ..).symm
  · exact hacquired.nodup
  · exact hacquired.jobs
  · exact hacquired.isolated

theorem Apart.release (h : listener.Apart) {proto : ℕ} (hserves : listener.serves proto = none)
    (hlt : proto < listener.protocols.length) (hpool : proto ∉ listener.pool) :
    (listener.release proto).Apart := by
  simp only [Listener.release]
  split
  · refine ⟨h.live, ?_, ?_, ?_, h.jobs, h.isolated⟩
    · intro other hmem
      rcases mem_append.mp hmem with hmem | hmem
      · exact h.pooled _ hmem
      · rw [mem_singleton.mp hmem]
        exact hserves
    · intro other hmem
      rcases mem_append.mp hmem with hmem | hmem
      · exact h.bounded _ hmem
      · rw [mem_singleton.mp hmem]
        exact hlt
    · apply nodup_append.mpr
      refine ⟨h.nodup, nodup_singleton _, ?_⟩
      intro other hmem last hlast heq
      rw [heq, mem_singleton.mp hlast] at hmem
      exact hpool hmem
  · exact h

theorem routes_live {conn : ℕ} {peer : Peer} (hpeer : listener.peers[conn]? = some peer)
    (hlost : ¬ peer.lost) : (routes listener.peers)[conn]? = some (peer.proto, false) := by
  rw [routes, getElem?_map, hpeer, Option.map_some, Bool.eq_false_iff.mpr hlost]

theorem Apart.lost (h : listener.Apart) (conn : ℕ) : (listener.step (.lost conn)).Apart := by
  simp only [Listener.step]
  cases hpeer : listener.peers[conn]? with
  | none => exact h
  | some peer =>
    dsimp only
    split
    · exact h
    · rename_i hlost
      have hserves : listener.serves peer.proto = some conn :=
        h.live _ _ (routes_live hpeer hlost)
      have hother : ∀ other owner, other ≠ peer.proto → listener.serves other = owner →
          ((listener.protocols.modify peer.proto fun protocol =>
            { protocol with transport := none, buffer := [] })[other]?.map
              Protocol.transport).join = owner := by
        intro other owner hne hother
        rw [getElem?_modify_ne _ _ (Ne.symm hne)]
        exact hother
      have hnone : ((listener.protocols.modify peer.proto fun protocol =>
            { protocol with transport := none, buffer := [] })[peer.proto]?.map
              Protocol.transport).join = none := by
        rw [getElem?_modify_eq]
        cases listener.protocols[peer.proto]? <;> rfl
      have hpool : peer.proto ∉ listener.pool := by
        intro hmem
        cases hserves.symm.trans (h.pooled _ hmem)
      apply Apart.release
      · constructor
        · intro other proto hroute
          simp only [routes, getElem?_map, getElem?_modify] at hroute
          split at hroute
          · cases hindex : listener.peers[other]? with
            | none => simp  at hroute
            | some _ => simp  at hroute
          · rename_i hne
            have hlive : listener.serves proto = some other := by
              apply h.live _ _
              rw [routes, getElem?_map]
              simpa using hroute
            apply hother _ _ _ hlive
            rintro rfl
            exact hne (Option.some.inj (hserves.symm.trans hlive))
        · intro other hmem
          apply hother _ _ _ (h.pooled _ hmem)
          rintro rfl
          exact hpool hmem
        · intro other hmem
          exact (h.bounded _ hmem).trans_eq (length_modify ..).symm
        · exact h.nodup
        · exact h.jobs
        · exact h.isolated
      · exact hnone
      · exact (lt_of_serves hserves).trans_eq (length_modify ..).symm
      · exact hpool

theorem Apart.writing (h : listener.Apart) (conn : ℕ) (paused : Bool) :
    (listener.step (.writing conn paused)).Apart := by
  simp only [Listener.step]
  cases listener.peers[conn]? with
  | none => exact h
  | some peer =>
    have hpaused := h.of_change peer.proto (fun protocol => { protocol with paused := paused })
      fun _ => rfl
    dsimp only
    split
    · exact h
    · split
      · exact ⟨hpaused.live, hpaused.pooled, hpaused.bounded, hpaused.nodup, hpaused.jobs,
          hpaused.isolated⟩
      · exact hpaused

theorem Apart.resumed (h : listener.Apart) {index : ℕ} {answer : Except X (Answer O)}
    (hmeets : listener.Meets (.resumed index answer)) :
    (listener.step (.resumed index answer)).Apart := by
  simp only [Listener.step]
  cases hjob : listener.jobs[index]? with
  | none => exact h
  | some job =>
    have hwithout : Apart { listener with jobs := listener.jobs.eraseIdx index } := by
      refine ⟨h.live, h.pooled, h.bounded, h.nodup, ?_, h.isolated⟩
      intro other hmem
      exact h.jobs _ (mem_of_mem_eraseIdx hmem)
    apply hwithout.advance
    · exact h.jobs _ (mem_of_getElem? hjob)
    · exact hmeets _ hjob

theorem Apart.drained (h : listener.Apart) {index : ℕ} {reception : Reception O X}
    (hmeets : listener.Meets (.drained index reception)) :
    (listener.step (.drained index reception)).Apart := by
  simp only [Listener.step]
  cases hcallback : listener.callbacks[index]? with
  | none => exact h
  | some callback =>
    obtain ⟨owner, proto⟩ := callback
    have hwithout : Apart { listener with callbacks := listener.callbacks.eraseIdx index } :=
      ⟨h.live, h.pooled, h.bounded, h.nodup, h.jobs, h.isolated⟩
    dsimp only
    split
    · rename_i hheld
      have hreceived := hwithout.receive (hmeets _ _ hcallback hheld) reception
      split
      · exact ⟨hreceived.live, hreceived.pooled, hreceived.bounded, hreceived.nodup,
          hreceived.jobs, hreceived.isolated⟩
      · exact hreceived
    · exact hwithout

theorem Apart.step (h : listener.Apart) (event : ListenerEvent O X) (hmeets : listener.Meets event) :
    (listener.step event).Apart := by
  cases event with
  | made => exact h.made
  | received conn reception =>
    simp only [Listener.step]
    cases hpeer : listener.peers[conn]? with
    | none => exact h
    | some peer =>
      dsimp only
      split
      · exact h
      · rename_i hlost
        apply h.receive
        intro other hother
        have hserves := h.live _ _ (routes_live hpeer hlost)
        exact Option.some.inj (hother.symm.trans hserves)
  | writing conn paused => exact h.writing _ _
  | lost conn => exact h.lost _
  | resumed index answer => exact h.resumed hmeets
  | drained index reception => exact h.drained hmeets
  | trimmed size =>
    refine ⟨h.live, ?_, ?_, h.nodup.sublist (take_sublist _ _), h.jobs, h.isolated⟩
    · intro proto hmem
      exact h.pooled _ (mem_of_mem_take hmem)
    · intro proto hmem
      exact h.bounded _ (mem_of_mem_take hmem)

theorem Apart.initial : Apart ({} : Listener O X) where
  live conn proto hroute := by simp [routes] at hroute
  pooled proto hmem := by cases hmem
  bounded proto hmem := by cases hmem
  nodup := nodup_nil
  jobs job hmem := by cases hmem
  isolated entry hmem := by cases hmem

/-- Every step of the run meets the condition in the state it starts in. -/
def RunMeets : Listener O X → List (ListenerEvent O X) → Prop
  | _, [] => True
  | listener, event :: events => listener.Meets event ∧ RunMeets (listener.step event) events

theorem Apart.foldl (events : List (ListenerEvent O X)) {listener : Listener O X}
    (h : listener.Apart) (hmeets : listener.RunMeets events) :
    (events.foldl Listener.step listener).Apart := by
  induction events generalizing listener with
  | nil => exact h
  | cons event events ih => exact ih (h.step _ hmeets.1) hmeets.2

/-- In every run whose steps all meet the condition, whatever was done for a connection
was done to that connection. -/
theorem pooled_connections_isolated (events : List (ListenerEvent O X))
    (hmeets : RunMeets ({} : Listener O X) events) : (run events).Isolated :=
  (Apart.initial.foldl _ hmeets).isolated

end Listener

section Schedules

/-- An endpoint that waits for a message, behind `_handle_websocket_inner`. -/
def receivingSocket : Work Empty Unit Unit :=
  Work.handleWebsocketInner (fun _ => false) (fun _ => .ret ()) [0x88, 0x02, 0x03, 0xe8]
    (.suspend (.wait none) fun
      | .ok _ => .ret ()
      | .error exc => .throw exc)

/-- The task is cancelled, and its object serves the next connection when it goes on. -/
def reusedSchedule : List (ListenerEvent Empty Unit) :=
  [.made, .received 0 { turns := [.write (ascii "HTTP/1.1 101 "), .start receivingSocket] },
    .lost 0, .made, .resumed 0 (.error ())]

/-- The object waits in the pool when the task goes on. -/
def pooledSchedule : List (ListenerEvent Empty Unit) :=
  [.made, .received 0 { turns := [.write (ascii "HTTP/1.1 101 "), .start receivingSocket] },
    .lost 0, .resumed 0 (.error ()), .made]

/-- The task of the first connection closes the second one. -/
theorem pooled_connection_closed : ¬ (Listener.run reusedSchedule).Isolated := by
  intro h
  have hclosed : ⟨0, 1, .close⟩ ∈ (Listener.run reusedSchedule).log := by decide
  cases h _ hclosed

theorem pooled_connections_isolated_apart : (Listener.run pooledSchedule).Isolated := by
  apply Listener.pooled_connections_isolated
  refine ⟨trivial, trivial, trivial, ?_, trivial, trivial⟩
  intro job hjob
  obtain rfl := Option.some.inj hjob
  left
  intro conn hconn
  cases hconn

end Schedules

end AstraApi.Server
