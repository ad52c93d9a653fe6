import AstraApi.Dispatch.RateLimit

/-!
# Whose bucket a request is charged to

`connection_made` writes the address of the new connection into the one application that
all connections of the process share, and the limiter reads it there when a request comes.
-/

namespace AstraApi.Server.ClientAddress

open List
open AstraApi.Dispatch
open AstraApi.TokenBucket (draw)

/-- The application, and the peer names of the connections. -/
structure Listener where
  app : RateLimiter
  peers : ℕ → Option Bytes := fun _ => none

inductive Arrival where
  | connectionMade (id : ℕ) (peername : Option Bytes)
  | request (id : ℕ) (nowNs : ℚ)

variable (hash : Bytes → ℕ)

/-- `connection_made` while `_RATE_LIMIT_ENABLED`, and a request that gets to the limiter. -/
def step (listener : Listener) : Arrival → Option Charge × Listener
  | .connectionMade id peername =>
    (none,
      { app :=
          match peername with
          | none => listener.app
          | some ip => listener.app.setClientIp hash ip
        peers := Function.update listener.peers id peername })
  | .request _ nowNs =>
    ((listener.app.rateLimit nowNs).1, { listener with app := (listener.app.rateLimit nowNs).2 })

def runFrom (listener : Listener) (arrivals : List Arrival) : Listener :=
  (Simulation.run (step hash) listener arrivals).2

/-- A server that has just been started with a limit. -/
def start (maxRequests windowSeconds : ℤ) (counter : ℕ) : Listener where
  app := ({ cleanupCounter := counter } : RateLimiter).configure true maxRequests windowSeconds

/-- The charge of a request goes to the bucket of its own connection, and the verdict is
that bucket's. -/
def ChargesOwn (listener : Listener) (id : ℕ) (nowNs : ℚ) : Prop :=
  ∀ charge ∈ (step hash listener (.request id nowNs)).1, ∃ ip, listener.peers id = some ip ∧
    charge = ⟨hash ip % rateLimitShards, ip, nowNs,
      (draw listener.app.maxTokens listener.app.inflow
        (listener.app.bucketOf nowNs (listener.app.shards (hash ip % rateLimitShards) ip))
        nowNs).1⟩

def lastNamed (arrivals : List Arrival) : Option Bytes :=
  arrivals.foldl (fun last arrival =>
    match arrival with
    | .connectionMade _ (some ip) => some ip
    | _ => last) none

/-- The peer name of a connection. -/
def peerOf (arrivals : List Arrival) (id : ℕ) : Option Bytes :=
  arrivals.foldl (fun peer arrival =>
    match arrival with
    | .connectionMade other peername => if other = id then peername else peer
    | _ => peer) none

/-- The connection of a request has the address of the last connection that brought one. -/
def FromLast (before : List Arrival) (id : ℕ) : Prop :=
  ∀ ip ∈ lastNamed before, ip ≠ [] → peerOf before id = some ip

/-! ## What the application remembers -/

/-- The application holds the last address, with its shard. -/
structure Remembers (before : List Arrival) (listener : Listener) : Prop where
  enabled : listener.app.enabled = true
  address : listener.app.currentClientIp = (lastNamed before).getD []
  shard : listener.app.currentClientIp ≠ [] →
    listener.app.currentShardIdx = hash listener.app.currentClientIp % rateLimitShards
  peers : ∀ id, listener.peers id = peerOf before id

variable {hash}

theorem rateLimit_settings (app : RateLimiter) (nowNs : ℚ) :
    (app.rateLimit nowNs).2.enabled = app.enabled ∧
      (app.rateLimit nowNs).2.currentClientIp = app.currentClientIp ∧
      (app.rateLimit nowNs).2.currentShardIdx = app.currentShardIdx := by
  have hcharge : (app.charge nowNs).2.enabled = app.enabled ∧
      (app.charge nowNs).2.currentClientIp = app.currentClientIp ∧
      (app.charge nowNs).2.currentShardIdx = app.currentShardIdx := by
    rw [RateLimiter.charge]
    split
    · dsimp only
      split
      · exact ⟨rfl, rfl, rfl⟩
      · exact ⟨rfl, rfl, rfl⟩
    · exact ⟨rfl, rfl, rfl⟩
  rw [RateLimiter.rateLimit]
  dsimp only
  split
  · rw [RateLimiter.sweep]
    split
    · exact hcharge
    · exact hcharge
  · exact hcharge

theorem rateLimit_answer (app : RateLimiter) (nowNs : ℚ) :
    (app.rateLimit nowNs).1 = (app.charge nowNs).1 := by
  rw [RateLimiter.rateLimit]
  dsimp only
  split
  · rfl
  · rfl

theorem remembers_step {before : List Arrival} {listener : Listener}
    (h : Remembers hash before listener) (arrival : Arrival) :
    Remembers hash (before ++ [arrival]) (step hash listener arrival).2 := by
  cases arrival with
  | request id nowNs =>
    obtain ⟨henabled, haddress, hshard⟩ := rateLimit_settings _ _
    have hlast : lastNamed (before ++ [.request id nowNs]) = lastNamed before := by
      rw [lastNamed, foldl_append]
      rfl
    have hpeer (other : ℕ) : peerOf (before ++ [.request id nowNs]) other =
        peerOf before other := by
      rw [peerOf, foldl_append]
      rfl
    constructor
    · exact henabled.trans h.enabled
    · rw [hlast]
      exact haddress.trans h.address
    · change (listener.app.rateLimit nowNs).2.currentClientIp ≠ [] →
        (listener.app.rateLimit nowNs).2.currentShardIdx = _
      rw [hshard]
      intro hne
      change _ = hash (listener.app.rateLimit nowNs).2.currentClientIp % _
      rw [haddress] at hne ⊢
      exact h.shard hne
    · intro other
      rw [hpeer]
      exact h.peers _
  | connectionMade id peername =>
    have hpeer (other : ℕ) : peerOf (before ++ [.connectionMade id peername]) other =
        if id = other then peername else peerOf before other := by
      rw [peerOf, foldl_append]
      rfl
    have hpeers (other : ℕ) : (step hash listener (.connectionMade id peername)).2.peers other =
          peerOf (before ++ [.connectionMade id peername]) other := by
      rw [hpeer, ← h.peers]
      change Function.update listener.peers id peername other = _
      rw [Function.update_apply]
      by_cases hid : id = other
      · rw [if_pos hid, if_pos hid.symm]
      · rw [if_neg hid, if_neg (Ne.symm hid)]
    cases peername with
    | none =>
      have hlast : lastNamed (before ++ [.connectionMade id none]) = lastNamed before := by
        rw [lastNamed, foldl_append]
        rfl
      exact ⟨h.enabled, by rw [hlast]; exact h.address, h.shard, hpeers⟩
    | some ip =>
      have hlast : lastNamed (before ++ [.connectionMade id (some ip)]) = some ip := by
        rw [lastNamed, foldl_append]
        rfl
      exact ⟨h.enabled, by rw [hlast]; rfl, fun _ => rfl, hpeers⟩

theorem remembers_start (maxRequests windowSeconds : ℤ) (counter : ℕ) :
    Remembers hash [] (start maxRequests windowSeconds counter) :=
  ⟨rfl, rfl, fun h => absurd rfl h, fun _ => rfl⟩

theorem runFrom_append (listener : Listener) (before : List Arrival) (arrival : Arrival) :
    runFrom hash listener (before ++ [arrival]) =
      (step hash (runFrom hash listener before) arrival).2 := by
  induction before generalizing listener with
  | nil => rfl
  | cons first before ih => exact ih _

theorem remembers_run (maxRequests windowSeconds : ℤ) (counter : ℕ) (before : List Arrival) :
    Remembers hash before (runFrom hash (start maxRequests windowSeconds counter) before) := by
  induction before using List.reverseRecOn with
  | nil => exact remembers_start _ _ _
  | append_singleton before arrival ih =>
    rw [runFrom_append]
    exact remembers_step ih _

/-- One request. -/
theorem chargesOwn_iff {before : List Arrival} {listener : Listener}
    (h : Remembers hash before listener) (id : ℕ) (nowNs : ℚ) :
    ChargesOwn hash listener id nowNs ↔ FromLast before id := by
  have hanswer : (step hash listener (.request id nowNs)).1 = (listener.app.charge nowNs).1 :=
    rateLimit_answer _ _
  rw [ChargesOwn, FromLast, hanswer, ← h.peers]
  by_cases hempty : listener.app.currentClientIp = []
  · have hskip : (listener.app.enabled && !listener.app.currentClientIp.isEmpty) = false := by
      rw [hempty, h.enabled]
      rfl
    rw [RateLimiter.charge_skips _ _ hskip]
    apply iff_of_true
    · intro charge hcharge
      cases hcharge
    · intro ip hip hne
      have haddress := h.address
      rw [Option.mem_def.mp hip, hempty] at haddress
      exact absurd haddress.symm hne
  · have hreach : (listener.app.enabled && !listener.app.currentClientIp.isEmpty) = true := by
      rw [h.enabled, Bool.true_and, Bool.not_eq_true', isEmpty_eq_false_iff]
      exact hempty
    obtain ⟨stored, -, hcharge⟩ := RateLimiter.charge_spec _ (RateLimiter.entry_bucket _ _) hreach
    have hlast : lastNamed before = some listener.app.currentClientIp := by
      have haddress := h.address
      cases hnamed : lastNamed before with
      | none =>
        rw [hnamed] at haddress
        exact absurd haddress hempty
      | some ip =>
        rw [hnamed] at haddress
        rw [haddress]
        rfl
    rw [hcharge, hlast]
    constructor
    · intro hown ip hip hne
      obtain ⟨own, hpeer, heq⟩ := hown _ rfl
      have haddress : listener.app.currentClientIp = own := congrArg Charge.address heq
      rw [← Option.some.inj hip, hpeer, haddress]
    · intro hfrom charge hmem
      obtain rfl := Option.some.inj hmem
      refine ⟨listener.app.currentClientIp, hfrom _ rfl hempty, ?_⟩
      rw [h.shard hempty]

/-- In a run every request is charged to its own client exactly if each comes on a
connection with the address that was brought last. -/
theorem charges_own_iff (hash : Bytes → ℕ) (maxRequests windowSeconds : ℤ) (counter : ℕ)
    (arrivals : List Arrival) :
    (∀ before id nowNs after, arrivals = before ++ .request id nowNs :: after →
      ChargesOwn hash (runFrom hash (start maxRequests windowSeconds counter) before) id nowNs) ↔
    ∀ before id nowNs after, arrivals = before ++ .request id nowNs :: after →
      FromLast before id := by
  have hrequest (before : List _) (id : ℕ) (nowNs : ℚ) :
      ChargesOwn hash (runFrom hash (start maxRequests windowSeconds counter) before) id nowNs ↔
        FromLast before id :=
    chargesOwn_iff (remembers_run _ _ _ _) _ _
  constructor
  · intro hown before id nowNs after harrivals
    exact (hrequest _ _ _).mp (hown _ _ _ _ harrivals)
  · intro hfrom before id nowNs after harrivals
    exact (hrequest _ _ _).mpr (hfrom _ _ _ _ harrivals)

/-- A second client connects before the first one sends its request. -/
def crossed : List Arrival :=
  [.connectionMade 0 (some (ascii "10.0.0.1")), .connectionMade 1 (some (ascii "10.0.0.2")),
    .request 0 0]

/-- The request of the first client is charged to the second. -/
theorem other_client_charged : ¬ ∀ (hash : Bytes → ℕ) (maxRequests windowSeconds : ℤ)
    (counter : ℕ) (arrivals before after : List Arrival) (id : ℕ) (nowNs : ℚ),
    arrivals = before ++ .request id nowNs :: after →
      ChargesOwn hash (runFrom hash (start maxRequests windowSeconds counter) before) id nowNs := by
  intro hall
  have hown := hall (fun _ => 0) 100 60 0 _ (crossed.take 2) [] 0 0 rfl
  rw [chargesOwn_iff (remembers_run 100 60 0 (crossed.take 2))] at hown
  have hpeer := hown _ rfl (by decide)
  revert hpeer
  decide +kernel

end AstraApi.Server.ClientAddress
