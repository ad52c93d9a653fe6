import AstraApi.Lib.Bytes
import AstraApi.Lib.TokenBucket

/-!
# The rate limiter

`dispatch_one_request` charges a request to the bucket of the client address that the
application holds.  Buckets live in shards, are made full when they are first needed and
are swept away when they were not used for two windows.  Times are nanoseconds of the
steady clock and the arithmetic is exact.
-/

namespace AstraApi.Dispatch

open List Option
open TokenBucket

def rateLimitShards : ℕ := 64

structure RateLimitEntry where
  tokens : ℚ
  lastRefillNs : ℚ
  deriving DecidableEq

/-- The fields of the application that the limiter uses, and the counter of the sweeps. -/
structure RateLimiter where
  enabled : Bool := false
  maxRequests : ℤ := 100
  windowSeconds : ℤ := 60
  shards : ℕ → Bytes → Option RateLimitEntry := fun _ _ => none
  currentClientIp : Bytes := []
  currentShardIdx : ℕ := 0
  cleanupCounter : ℕ := 0

namespace RateLimiter

def configure (app : RateLimiter) (enabled : Bool) (maxRequests windowSeconds : ℤ) : RateLimiter :=
  { app with enabled := enabled, maxRequests := maxRequests, windowSeconds := windowSeconds }

def setClientIp (hash : Bytes → ℕ) (app : RateLimiter) (ip : Bytes) : RateLimiter :=
  { app with currentClientIp := ip, currentShardIdx := hash ip % rateLimitShards }

def windowNs (app : RateLimiter) : ℚ := app.windowSeconds * 1000000000

def maxTokens (app : RateLimiter) : ℚ := app.maxRequests

def refillRate (app : RateLimiter) : ℚ := app.maxTokens / (max 1 app.windowSeconds : ℤ)

end RateLimiter

def RateLimitEntry.refill (maxTokens refillRate : ℚ) (entry : RateLimitEntry) (nowNs : ℚ) :
    RateLimitEntry :=
  let elapsedS := (nowNs - entry.lastRefillNs) / 1000000000
  if 0 < elapsedS then
    { tokens := min maxTokens (entry.tokens + elapsedS * refillRate), lastRefillNs := nowNs }
  else entry

/-- The bucket that a request was charged to, and the verdict. -/
structure Charge where
  shard : ℕ
  address : Bytes
  nowNs : ℚ
  admitted : Bool
  deriving DecidableEq

namespace RateLimiter

def store (app : RateLimiter) (entry : RateLimitEntry) : RateLimiter :=
  { app with
    shards := Function.update app.shards app.currentShardIdx
      (Function.update (app.shards app.currentShardIdx) app.currentClientIp (some entry)) }

theorem store_self (app : RateLimiter) (entry : RateLimitEntry) :
    (app.store entry).shards app.currentShardIdx app.currentClientIp = some entry := by
  rw [store]
  dsimp only
  rw [Function.update_self, Function.update_self]

theorem store_of_ne (app : RateLimiter) (entry : RateLimitEntry) (shard : ℕ) {address : Bytes}
    (h : address ≠ app.currentClientIp) :
    (app.store entry).shards shard address = app.shards shard address := by
  rw [store]
  dsimp only
  by_cases hshard : shard = app.currentShardIdx
  · rw [hshard, Function.update_self, Function.update_of_ne h]
  · rw [Function.update_of_ne hshard]

/-- The entry of the current address after its refill, made full if there was none. -/
def entry (app : RateLimiter) (nowNs : ℚ) : RateLimitEntry :=
  ((app.shards app.currentShardIdx app.currentClientIp).getD ⟨app.maxTokens, nowNs⟩).refill
    app.maxTokens app.refillRate nowNs

/-- One token of the current address, or a refusal. -/
def charge (app : RateLimiter) (nowNs : ℚ) : Option Charge × RateLimiter :=
  if app.enabled && !app.currentClientIp.isEmpty then
    let entry := app.entry nowNs
    if entry.tokens < 1 then
      (some ⟨app.currentShardIdx, app.currentClientIp, nowNs, false⟩, app.store entry)
    else
      (some ⟨app.currentShardIdx, app.currentClientIp, nowNs, true⟩,
        app.store { entry with tokens := entry.tokens - 1 })
  else (none, app)

def stale (app : RateLimiter) (nowNs : ℚ) (entry : RateLimitEntry) : Bool :=
  2 * app.windowNs < nowNs - entry.lastRefillNs

/-- After 10000 admitted requests the stale entries of the current shard are erased. -/
def sweep (app : RateLimiter) (nowNs : ℚ) : RateLimiter :=
  if 10000 ≤ app.cleanupCounter + 1 then
    { app with
      cleanupCounter := 0
      shards := Function.update app.shards app.currentShardIdx fun address =>
        (app.shards app.currentShardIdx address).filter fun entry => !app.stale nowNs entry }
  else { app with cleanupCounter := app.cleanupCounter + 1 }

def rateLimit (app : RateLimiter) (nowNs : ℚ) : Option Charge × RateLimiter :=
  let (answer, app) := app.charge nowNs
  if answer.any Charge.admitted then (answer, app.sweep nowNs) else (answer, app)

/-- What happens to the limiter. -/
inductive Event where
  | clientIp (ip : Bytes)
  | request (nowNs : ℚ)

def step (hash : Bytes → ℕ) (app : RateLimiter) : Event → Option Charge × RateLimiter
  | .clientIp ip => (none, app.setClientIp hash ip)
  | .request nowNs => app.rateLimit nowNs

/-- The same without the sweeps. -/
def stepKeeping (hash : Bytes → ℕ) (app : RateLimiter) : Event → Option Charge × RateLimiter
  | .clientIp ip => (none, app.setClientIp hash ip)
  | .request nowNs => app.charge nowNs

def clock (events : List Event) : List ℚ :=
  events.filterMap fun event =>
    match event with
    | .clientIp _ => none
    | .request nowNs => some nowNs

def admittedBetween (address : Bytes) (first last : ℚ) (answers : List (Option Charge)) : ℕ :=
  (answers.filter fun answer => answer.any fun charge =>
    charge.address == address && charge.admitted &&
      decide (first ≤ charge.nowNs ∧ charge.nowNs ≤ last)).length

/-! ## One address is one bucket -/

def inflow (app : RateLimiter) : ℚ := app.refillRate / 1000000000

end RateLimiter

def RateLimitEntry.bucket (entry : RateLimitEntry) : Bucket ℚ := ⟨entry.tokens, entry.lastRefillNs⟩

theorem RateLimitEntry.refill_bucket (maxTokens refillRate : ℚ) (entry : RateLimitEntry)
    (nowNs : ℚ) : (entry.refill maxTokens refillRate nowNs).bucket =
      TokenBucket.refill maxTokens (refillRate / 1000000000) entry.bucket nowNs := by
  have helapsed : 0 < (nowNs - entry.lastRefillNs) / 1000000000 ↔ entry.lastRefillNs < nowNs := by
    rw [div_pos_iff_of_pos_right (by norm_num), sub_pos]
  have hinflow : (nowNs - entry.lastRefillNs) / 1000000000 * refillRate =
      (nowNs - entry.lastRefillNs) * (refillRate / 1000000000) := by
    ring
  rw [RateLimitEntry.refill, TokenBucket.refill]
  by_cases hlt : entry.lastRefillNs < nowNs
  · rw [if_pos (helapsed.mpr hlt), hinflow]
    exact (if_pos hlt).symm
  · rw [if_neg (mt helapsed.mp hlt)]
    exact (if_neg hlt).symm

namespace RateLimiter

def bucketOf (app : RateLimiter) (origin : ℚ) (stored : Option RateLimitEntry) : Bucket ℚ :=
  (stored.map RateLimitEntry.bucket).getD (full app.maxTokens origin)

theorem entry_bucket (app : RateLimiter) (nowNs : ℚ) :
    (app.entry nowNs).bucket = TokenBucket.refill app.maxTokens app.inflow
      (app.bucketOf nowNs (app.shards app.currentShardIdx app.currentClientIp)) nowNs := by
  rw [entry, RateLimitEntry.refill_bucket]
  cases app.shards app.currentShardIdx app.currentClientIp <;> rfl

theorem entry_bucket_of_le (app : RateLimiter) {origin nowNs : ℚ} (horigin : origin ≤ nowNs)
    (hrate : 0 ≤ app.inflow) :
    (app.entry nowNs).bucket = TokenBucket.refill app.maxTokens app.inflow
      (app.bucketOf origin (app.shards app.currentShardIdx app.currentClientIp)) nowNs := by
  rw [entry_bucket]
  cases app.shards app.currentShardIdx app.currentClientIp with
  | some stored => rfl
  | none => exact refill_full_of_le hrate horigin

theorem charge_spec (app : RateLimiter) {nowNs : ℚ} {bucket : Bucket ℚ}
    (hbucket : (app.entry nowNs).bucket = TokenBucket.refill app.maxTokens app.inflow bucket nowNs)
    (hreach : (app.enabled && !app.currentClientIp.isEmpty) = true) :
    ∃ stored : RateLimitEntry, stored.bucket = (draw app.maxTokens app.inflow bucket nowNs).2 ∧
      app.charge nowNs = (some ⟨app.currentShardIdx, app.currentClientIp, nowNs,
        (draw app.maxTokens app.inflow bucket nowNs).1⟩, app.store stored) := by
  rw [draw, ← hbucket, charge, if_pos hreach]
  by_cases hone : (app.entry nowNs).tokens < 1
  · have htake : take (app.entry nowNs).bucket = (false, (app.entry nowNs).bucket) := if_pos hone
    rw [htake, if_pos hone]
    exact ⟨app.entry _, rfl, rfl⟩
  · have htake : take (app.entry nowNs).bucket =
        (true, ⟨(app.entry nowNs).tokens - 1, (app.entry nowNs).lastRefillNs⟩) := if_neg hone
    rw [htake, if_neg hone]
    exact ⟨{ app.entry _ with tokens := (app.entry _).tokens - 1 }, rfl, rfl⟩

theorem charge_skips (app : RateLimiter) (nowNs : ℚ)
    (hskip : (app.enabled && !app.currentClientIp.isEmpty) = false) :
    app.charge nowNs = (none, app) := by
  rw [charge, hskip, if_neg Bool.false_ne_true]

/-! ## Sweeps -/

/-- The settings that a run does not change, and the current address. -/
structure SameSettings (app kept : RateLimiter) : Prop where
  enabled : app.enabled = kept.enabled
  maxRequests : app.maxRequests = kept.maxRequests
  windowSeconds : app.windowSeconds = kept.windowSeconds
  currentClientIp : app.currentClientIp = kept.currentClientIp
  currentShardIdx : app.currentShardIdx = kept.currentShardIdx

/-- An entry is the same as without sweeps, or was erased when it was stale. -/
def SameOrStale (app : RateLimiter) (clock : ℚ) (stored kept : Option RateLimitEntry) : Prop :=
  stored = kept ∨ stored = none ∧ ∃ entry, kept = some entry ∧ 0 ≤ entry.tokens ∧
    2 * app.windowNs < clock - entry.lastRefillNs

/-- `app` is `kept` without some stale entries. -/
structure Forgets (clock : ℚ) (app kept : RateLimiter) : Prop where
  settings : SameSettings app kept
  entries : ∀ shard address,
    SameOrStale app clock (app.shards shard address) (kept.shards shard address)

/-- Every stored bucket is within its bounds and was not filled later than `clock`. -/
def Bounded (clock : ℚ) (app : RateLimiter) : Prop :=
  ∀ shard address, ∀ entry ∈ app.shards shard address,
    entry.bucket.Within app.maxTokens ∧ entry.lastRefillNs ≤ clock

/-- A limiter with at least one request in at least one second. -/
structure Configured (app : RateLimiter) : Prop where
  maxRequests : 1 ≤ app.maxRequests
  windowSeconds : 1 ≤ app.windowSeconds

section Configured

variable {app : RateLimiter} (hconfigured : app.Configured)

include hconfigured

theorem Configured.one_le_maxTokens : 1 ≤ app.maxTokens := by
  rw [maxTokens]
  exact_mod_cast hconfigured.maxRequests

theorem Configured.maxTokens_nonneg : 0 ≤ app.maxTokens :=
  zero_le_one.trans hconfigured.one_le_maxTokens

theorem Configured.window_pos : (0 : ℚ) < app.windowSeconds := by
  exact_mod_cast lt_of_lt_of_le zero_lt_one hconfigured.windowSeconds

theorem Configured.refillRate_eq : app.refillRate = app.maxTokens / app.windowSeconds := by
  rw [refillRate, max_eq_right hconfigured.windowSeconds]

theorem Configured.inflow_nonneg : 0 ≤ app.inflow := by
  rw [inflow, hconfigured.refillRate_eq]
  exact div_nonneg (div_nonneg hconfigured.maxTokens_nonneg hconfigured.window_pos.le) (by norm_num)

theorem Configured.full_of_stale {elapsed : ℚ} (helapsed : 2 * app.windowNs < elapsed) :
    0 < elapsed ∧ app.maxTokens ≤ elapsed * app.inflow := by
  have hwindow := hconfigured.window_pos
  have hpos : 0 < elapsed := by
    apply lt_of_le_of_lt _ helapsed
    rw [windowNs]
    positivity
  have hinflow : app.windowNs * app.inflow = app.maxTokens := by
    rw [windowNs, inflow, hconfigured.refillRate_eq]
    field_simp
  refine ⟨hpos, ?_⟩
  calc
    app.maxTokens ≤ 2 * app.maxTokens := by
      linarith only [hconfigured.maxTokens_nonneg]
    _ = 2 * app.windowNs * app.inflow := by rw [mul_assoc, hinflow]
    _ ≤ elapsed * app.inflow :=
      mul_le_mul_of_nonneg_right helapsed.le hconfigured.inflow_nonneg

end Configured

theorem bucket_injective : Function.Injective RateLimitEntry.bucket := by
  intro left right h
  cases left
  cases right
  cases h
  rfl

theorem SameOrStale.mono {app : RateLimiter} {clock later : ℚ} (hle : clock ≤ later)
    {stored kept : Option RateLimitEntry} (h : SameOrStale app clock stored kept) :
    SameOrStale app later stored kept := by
  rcases h with hsame | ⟨hnone, entry, hkept, htokens, hstale⟩
  · exact .inl hsame
  · exact .inr ⟨hnone, entry, hkept, htokens, hstale.trans_le (sub_le_sub_right hle _)⟩

section Forgets

variable {app kept : RateLimiter} {clock nowNs : ℚ}

theorem SameSettings.maxTokens (h : SameSettings app kept) : app.maxTokens = kept.maxTokens := by
  rw [RateLimiter.maxTokens, h.maxRequests]
  rfl

theorem SameSettings.refillRate (h : SameSettings app kept) :
    app.refillRate = kept.refillRate := by
  rw [RateLimiter.refillRate, h.maxTokens, h.windowSeconds]
  rfl

theorem SameSettings.windowNs (h : SameSettings app kept) : app.windowNs = kept.windowNs := by
  rw [RateLimiter.windowNs, h.windowSeconds]
  rfl

theorem Forgets.entry_eq (h : Forgets clock app kept) (hconfigured : kept.Configured)
    (hle : clock ≤ nowNs) : app.entry nowNs = kept.entry nowNs := by
  have hstored := h.entries app.currentShardIdx app.currentClientIp
  rw [entry, entry, h.settings.maxTokens, h.settings.refillRate]
  rw [h.settings.currentClientIp, h.settings.currentShardIdx] at hstored ⊢
  rcases hstored with hsame | ⟨hnone, stored, hkept, htokens, hstale⟩
  · rw [hsame]
  · rw [hnone, hkept]
    apply bucket_injective
    rw [h.settings.windowNs] at hstale
    have hfull := hconfigured.full_of_stale (hstale.trans_le (sub_le_sub_right hle _))
    rw [RateLimitEntry.refill_bucket, RateLimitEntry.refill_bucket]
    have hrefilled : TokenBucket.refill kept.maxTokens kept.inflow stored.bucket nowNs =
        full kept.maxTokens nowNs := refill_eq_full htokens (sub_pos.mp hfull.1) hfull.2
    have hfresh : TokenBucket.refill kept.maxTokens kept.inflow (full kept.maxTokens nowNs) nowNs =
        full kept.maxTokens nowNs := refill_full
    exact hfresh.trans hrefilled.symm

theorem Forgets.mono (h : Forgets clock app kept) (hle : clock ≤ nowNs) :
    Forgets nowNs app kept :=
  ⟨h.settings, fun _ _ => (h.entries _ _).mono hle⟩

theorem Forgets.store (h : Forgets clock app kept) (entry : RateLimitEntry) :
    Forgets clock (app.store entry) (kept.store entry) := by
  refine ⟨⟨h.settings.1, h.settings.2, h.settings.3, h.settings.4, h.settings.5⟩, ?_⟩
  intro shard address
  rw [RateLimiter.store, RateLimiter.store, h.settings.currentClientIp, h.settings.currentShardIdx]
  dsimp only
  by_cases hshard : shard = kept.currentShardIdx
  · subst hshard
    rw [Function.update_self, Function.update_self]
    by_cases haddress : address = kept.currentClientIp
    · subst haddress
      rw [Function.update_self, Function.update_self]
      exact .inl rfl
    · rw [Function.update_of_ne haddress, Function.update_of_ne haddress]
      exact h.entries _ _
  · rw [Function.update_of_ne hshard, Function.update_of_ne hshard]
    exact h.entries _ _

theorem Forgets.charge (h : Forgets clock app kept) (hconfigured : kept.Configured)
    (hle : clock ≤ nowNs) :
    (app.charge nowNs).1 = (kept.charge nowNs).1 ∧
      Forgets nowNs (app.charge nowNs).2 (kept.charge nowNs).2 := by
  have hentry := h.entry_eq hconfigured hle
  have hlater := h.mono hle
  rw [RateLimiter.charge, RateLimiter.charge, h.settings.enabled, h.settings.currentClientIp,
    h.settings.currentShardIdx, hentry]
  split
  · dsimp only
    split
    · exact ⟨rfl, hlater.store _⟩
    · exact ⟨rfl, hlater.store _⟩
  · exact ⟨rfl, hlater⟩

theorem Forgets.sweep (h : Forgets nowNs app kept) (hbounded : Bounded nowNs kept) :
    Forgets nowNs (app.sweep nowNs) kept := by
  rw [RateLimiter.sweep]
  split
  · refine ⟨⟨h.settings.1, h.settings.2, h.settings.3, h.settings.4, h.settings.5⟩, ?_⟩
    intro shard address
    have hstored := h.entries shard address
    dsimp only
    by_cases hshard : shard = app.currentShardIdx
    · subst hshard
      rw [Function.update_self]
      cases happ : app.shards app.currentShardIdx address with
      | none =>
        rw [happ] at hstored
        exact hstored
      | some stored =>
        rcases hstored with hsame | ⟨hnone, -⟩
        · rw [happ] at hsame
          cases hstale : app.stale nowNs stored with
          | false =>
            left
            rw [← hsame, filter_some, hstale]
            rfl
          | true =>
            right
            refine ⟨by rw [filter_some, hstale]; rfl, stored, hsame.symm, ?_, ?_⟩
            · exact (hbounded _ _ _ hsame.symm).1.1
            · exact of_decide_eq_true hstale
        · rw [happ] at hnone
          cases hnone
    · rw [Function.update_of_ne hshard]
      exact hstored
  · exact ⟨⟨h.settings.1, h.settings.2, h.settings.3, h.settings.4, h.settings.5⟩, h.entries⟩

theorem Forgets.bounded (h : Forgets clock app kept) (hbounded : Bounded clock kept) :
    Bounded clock app := by
  intro shard address entry hentry
  rw [h.settings.maxTokens]
  apply hbounded _ _
  rcases h.entries shard address with hsame | ⟨hnone, -⟩
  · rwa [← hsame]
  · rw [hnone] at hentry
    cases hentry

end Forgets

theorem bounded_charge {app : RateLimiter} {clock nowNs : ℚ} (hconfigured : app.Configured)
    (hbounded : Bounded clock app) (hle : clock ≤ nowNs) :
    Bounded nowNs (app.charge nowNs).2 := by
  have hlater : Bounded nowNs app := fun shard address entry hentry =>
    ⟨(hbounded _ _ _ hentry).1, (hbounded _ _ _ hentry).2.trans hle⟩
  cases hreach : app.enabled && !app.currentClientIp.isEmpty with
  | false =>
    rw [charge_skips _ _ hreach]
    exact hlater
  | true =>
    obtain ⟨stored, hstored, hcharge⟩ := charge_spec _ (entry_bucket _ _) hreach
    have hbefore : (app.bucketOf nowNs (app.shards app.currentShardIdx
        app.currentClientIp)).Within app.maxTokens ∧
          (app.bucketOf nowNs (app.shards app.currentShardIdx
            app.currentClientIp)).filled ≤ nowNs := by
      cases hentry : app.shards app.currentShardIdx app.currentClientIp with
      | none => exact ⟨⟨hconfigured.maxTokens_nonneg, le_refl _⟩, le_refl _⟩
      | some entry => exact hlater _ _ _ hentry
    rw [hcharge]
    intro shard address entry hentry
    change entry.bucket.Within app.maxTokens ∧ entry.bucket.filled ≤ nowNs
    by_cases hsame : shard = app.currentShardIdx ∧ address = app.currentClientIp
    · obtain ⟨rfl, rfl⟩ := hsame
      rw [store] at hentry
      dsimp only at hentry
      rw [Function.update_self, Function.update_self] at hentry
      obtain rfl := Option.some.inj hentry
      rw [hstored, draw_filled hbefore.2]
      exact ⟨within_draw hconfigured.maxTokens_nonneg hconfigured.inflow_nonneg hbefore.1,
        le_refl _⟩
    · apply hlater shard _ _
      rw [store] at hentry
      dsimp only at hentry
      by_cases hshard : shard = app.currentShardIdx
      · subst hshard
        rwa [Function.update_self, Function.update_of_ne fun h => hsame ⟨rfl, h⟩] at hentry
      · rwa [Function.update_of_ne hshard] at hentry

theorem Configured.charge {app : RateLimiter} (h : app.Configured) (nowNs : ℚ) :
    (app.charge nowNs).2.Configured := by
  rw [RateLimiter.charge]
  split
  · dsimp only
    split
    · exact ⟨h.1, h.2⟩
    · exact ⟨h.1, h.2⟩
  · exact h

/-- A run with sweeps gives the answers of the run without them. -/
theorem run_forgets (hash : Bytes → ℕ) (events : List Event) {clock : ℚ} {app kept : RateLimiter}
    (hforgets : Forgets clock app kept) (hbounded : Bounded clock kept)
    (hconfigured : kept.Configured)
    (hsorted : (clock :: RateLimiter.clock events).Pairwise (· ≤ ·)) :
    (Simulation.run (step hash) app events).1 = (Simulation.run (stepKeeping hash) kept events).1 ∧
      ∃ later, Bounded later (Simulation.run (step hash) app events).2 := by
  induction events generalizing clock app kept with
  | nil => exact ⟨rfl, clock, hforgets.bounded hbounded⟩
  | cons event events ih =>
    cases event with
    | clientIp ip =>
      have hsettings := hforgets.settings
      have hnext : Forgets clock (app.setClientIp hash ip) (kept.setClientIp hash ip) :=
        ⟨⟨hsettings.1, hsettings.2, hsettings.3, rfl, rfl⟩, hforgets.entries⟩
      have hrest := ih hnext hbounded ⟨hconfigured.1, hconfigured.2⟩ hsorted
      exact ⟨congrArg (none :: ·) hrest.1, hrest.2⟩
    | request nowNs =>
      obtain ⟨hfirst, hlater⟩ := pairwise_cons.mp hsorted
      have hle := hfirst _ mem_cons_self
      have hkept := bounded_charge hconfigured hbounded hle
      obtain ⟨hanswer, hcharged⟩ := hforgets.charge hconfigured hle
      have hstep : (step hash app (.request nowNs)).1 = (kept.charge nowNs).1 ∧
          Forgets nowNs (step hash app (.request nowNs)).2 (kept.charge nowNs).2 := by
        rw [step, rateLimit]
        dsimp only
        split
        · exact ⟨hanswer, hcharged.sweep hkept⟩
        · exact ⟨hanswer, hcharged⟩
      have hrest := ih hstep.2 hkept (hconfigured.charge _) hlater
      refine ⟨?_, hrest.2⟩
      rw [Simulation.run_cons, Simulation.run_cons, hstep.1, hrest.1]
      rfl

/-! ## Runs, seen by one address -/

def chargesOf (address : Bytes) (answers : List (Option Charge)) : List Charge :=
  answers.filterMap fun answer => answer.filter fun charge => charge.address == address

theorem chargesOf_none (address : Bytes) (answers : List (Option Charge)) :
    chargesOf address (none :: answers) = chargesOf address answers := rfl

theorem chargesOf_some (address : Bytes) (charge : Charge) (answers : List (Option Charge)) :
    chargesOf address (some charge :: answers) =
      if charge.address = address then charge :: chargesOf address answers
      else chargesOf address answers := by
  rw [chargesOf, filterMap_cons, filter_some]
  by_cases heq : charge.address = address
  · rw [if_pos heq, if_pos (beq_iff_eq.mpr heq)]
    rfl
  · rw [if_neg heq, if_neg (mt beq_iff_eq.mp heq)]
    rfl

def Sharded (hash : Bytes → ℕ) (app : RateLimiter) : Prop :=
  app.currentClientIp.isEmpty = false → app.currentShardIdx = hash app.currentClientIp % rateLimitShards

theorem charges_eq_answers (hash : Bytes → ℕ) (address : Bytes) (events : List Event)
    (app : RateLimiter) {origin : ℚ} (hconfigured : app.Configured) (hsharded : Sharded hash app)
    (horigin : ∀ nowNs ∈ clock events, origin ≤ nowNs) :
    (chargesOf address (Simulation.run (stepKeeping hash) app events).1).map Charge.admitted =
      answers app.maxTokens app.inflow
        (app.bucketOf origin (app.shards (hash address % rateLimitShards) address))
        ((chargesOf address (Simulation.run (stepKeeping hash) app events).1).map
          Charge.nowNs) := by
  induction events generalizing app with
  | nil => rfl
  | cons event events ih =>
    cases event with
    | clientIp ip =>
      exact ih _ ⟨hconfigured.1, hconfigured.2⟩ (fun _ => rfl) horigin
    | request nowNs =>
      have hnow := horigin _ mem_cons_self
      have hlater : ∀ later ∈ clock events, origin ≤ later := fun later hmem =>
        horigin _ (mem_cons_of_mem _ hmem)
      rw [Simulation.run_cons, stepKeeping]
      cases hreach : app.enabled && !app.currentClientIp.isEmpty with
      | false =>
        rw [charge_skips _ _ hreach, chargesOf_none]
        exact ih _ hconfigured hsharded hlater
      | true =>
        obtain ⟨stored, hstored, hcharge⟩ := charge_spec _
          (entry_bucket_of_le _ hnow hconfigured.inflow_nonneg) hreach
        have hshard : app.currentShardIdx = hash app.currentClientIp % rateLimitShards := by
          apply hsharded
          simpa using (Bool.and_eq_true_iff.mp hreach).2
        have hrest := ih (app.store stored) ⟨hconfigured.1, hconfigured.2⟩ hsharded hlater
        rw [hcharge, chargesOf_some]
        by_cases haddress : app.currentClientIp = address
        · subst haddress
          rw [if_pos rfl, map_cons, map_cons, answers_cons, hrest, ← hshard, store_self, ← hstored]
          rfl
        · rw [if_neg haddress, hrest, store_of_ne _ _ _ (Ne.symm haddress)]
          rfl

theorem chargesOf_sublist (hash : Bytes → ℕ) (address : Bytes) (events : List Event)
    (app : RateLimiter) :
    List.Sublist ((chargesOf address (Simulation.run (stepKeeping hash) app events).1).map
      Charge.nowNs) (clock events) := by
  induction events generalizing app with
  | nil => exact List.Sublist.refl _
  | cons event events ih =>
    cases event with
    | clientIp ip => exact ih _
    | request nowNs =>
      have hrest := ih (app.charge nowNs).2
      have hanswer : (app.charge nowNs).1 = none ∨
          ∃ charge, (app.charge nowNs).1 = some charge ∧ charge.nowNs = nowNs := by
        rw [charge]
        split
        · dsimp only
          split
          · exact .inr ⟨_, rfl, rfl⟩
          · exact .inr ⟨_, rfl, rfl⟩
        · exact .inl rfl
      rw [Simulation.run_cons, stepKeeping]
      cases hanswer with
      | inl hnone =>
        rw [hnone, chargesOf_none]
        exact hrest.cons _
      | inr hsome =>
        obtain ⟨charge, hcharge, htime⟩ := hsome
        rw [hcharge, chargesOf_some]
        split
        · rw [map_cons, htime]
          exact hrest.cons_cons _
        · exact hrest.cons _

theorem admittedBetween_eq (address : Bytes) (first last : ℚ) (answers : List (Option Charge)) :
    admittedBetween address first last answers =
      ((((chargesOf address answers).map Charge.nowNs).zip
        ((chargesOf address answers).map Charge.admitted)).filter fun entry =>
          decide (first ≤ entry.1 ∧ entry.1 ≤ last) && entry.2).length := by
  induction answers with
  | nil => rfl
  | cons answer answers ih =>
    cases answer with
    | none =>
      rw [chargesOf_none, ← ih]
      rfl
    | some charge =>
      rw [admittedBetween] at ih ⊢
      rw [filter_cons, chargesOf_some, any_some]
      by_cases haddress : charge.address = address
      · rw [if_pos haddress, map_cons, map_cons, zip_cons_cons, filter_cons,
          haddress, beq_self_eq_true, Bool.true_and, Bool.and_comm]
        split
        · rw [length_cons, length_cons, ih]
        · exact ih
      · rw [if_neg haddress, if_neg]
        · exact ih
        · rw [beq_eq_false_iff_ne.mpr haddress]
          exact Bool.false_ne_true

theorem maxRequests_step (hash : Bytes → ℕ) (app : RateLimiter) (event : Event) :
    (step hash app event).2.maxRequests = app.maxRequests := by
  cases event with
  | clientIp ip => rfl
  | request nowNs =>
    have hcharge : (app.charge nowNs).2.maxRequests = app.maxRequests := by
      rw [charge]
      split
      · dsimp only
        split
        · rfl
        · rfl
      · rfl
    rw [step, rateLimit]
    dsimp only
    split
    · rw [sweep]
      split
      · exact hcharge
      · exact hcharge
    · exact hcharge

theorem maxRequests_run (hash : Bytes → ℕ) (events : List Event) (app : RateLimiter) :
    (Simulation.run (step hash) app events).2.maxRequests = app.maxRequests := by
  induction events generalizing app with
  | nil => rfl
  | cons event events ih =>
    rw [Simulation.run_cons, ih]
    exact maxRequests_step hash _ _

/-- The time of the first request, before which nothing happens. -/
theorem origin_le {times : List ℚ} (h : times.Pairwise (· ≤ ·)) :
    (times.headD 0 :: times).Pairwise (· ≤ ·) := by
  cases times with
  | nil => exact pairwise_singleton _ _
  | cons first times =>
    rw [pairwise_cons]
    refine ⟨?_, h⟩
    intro later hlater
    cases mem_cons.mp hlater with
    | inl heq => exact heq.ge
    | inr hmem => exact (pairwise_cons.mp h).1 later hmem

/-- In every run a bucket stays within its bounds, no interval admits more requests of an
address than the bucket holds and the interval fills, and the sweeps change no answer. -/
theorem token_bucket_bound (hash : Bytes → ℕ) (maxRequests windowSeconds : ℤ) (counter : ℕ)
    (events : List Event) (hmax : 1 ≤ maxRequests) (hwindow : 1 ≤ windowSeconds)
    (hclock : (clock events).Pairwise (· ≤ ·)) :
    let app : RateLimiter :=
      ({ cleanupCounter := counter } : RateLimiter).configure true maxRequests windowSeconds
    (∀ shard address, ∀ entry ∈ (Simulation.run (step hash) app events).2.shards shard address,
      0 ≤ entry.tokens ∧ entry.tokens ≤ maxRequests) ∧
    (∀ address (start t : ℚ), 0 ≤ t → (admittedBetween address start (start + t * 1000000000)
        (Simulation.run (step hash) app events).1 : ℚ) ≤
          maxRequests + t * maxRequests / windowSeconds) ∧
    (Simulation.run (step hash) app events).1 =
      (Simulation.run (stepKeeping hash) app events).1 := by
  intro app
  have hconfigured : app.Configured := ⟨hmax, hwindow⟩
  have hsharded : Sharded hash app := by
    intro h
    cases h
  have hsorted := origin_le hclock
  have horigin := (pairwise_cons.mp hsorted).1
  have hempty : Bounded ((clock events).headD 0) app := by
    intro shard address entry hentry
    cases hentry
  obtain ⟨hanswers, later, hbounded⟩ := run_forgets hash _
    ⟨⟨rfl, rfl, rfl, rfl, rfl⟩, fun _ _ => .inl rfl⟩ hempty hconfigured hsorted
  refine ⟨?_, ?_, hanswers⟩
  · intro shard address entry hentry
    have hwithin := (hbounded _ _ _ hentry).1
    rw [maxTokens, maxRequests_run] at hwithin
    exact hwithin
  · intro address start t ht
    have hcharges := charges_eq_answers hash address _ _ hconfigured hsharded horigin
    have hinterval : start ≤ start + t * 1000000000 :=
      le_add_of_nonneg_right (mul_nonneg ht (by norm_num))
    have hfull : (full app.maxTokens ((clock events).headD 0)).Within app.maxTokens :=
      ⟨hconfigured.maxTokens_nonneg, le_refl _⟩
    have htimes : ((full app.maxTokens ((clock events).headD 0)).filled ::
        (chargesOf address (Simulation.run (stepKeeping hash) app events).1).map
          Charge.nowNs).Pairwise (· ≤ ·) :=
      hsorted.sublist ((chargesOf_sublist hash _ _ _).cons_cons _)
    have hrate : app.inflow * 1000000000 = maxRequests / windowSeconds := by
      rw [inflow, hconfigured.refillRate_eq, div_mul_cancel₀ _ (by norm_num)]
      rfl
    rw [hanswers, admittedBetween_eq, hcharges]
    calc
      (admittedWithin app.maxTokens app.inflow start (start + t * 1000000000)
          (full app.maxTokens ((clock events).headD 0))
          ((chargesOf address (Simulation.run (stepKeeping hash) app events).1).map
            Charge.nowNs) : ℚ) ≤
          supply app.maxTokens app.inflow start (start + t * 1000000000)
            (full app.maxTokens ((clock events).headD 0)) :=
        admittedWithin_le_supply hconfigured.maxTokens_nonneg hconfigured.inflow_nonneg hinterval
          hfull htimes
      _ ≤ app.maxTokens + (start + t * 1000000000 - start) * app.inflow :=
        supply_le hconfigured.inflow_nonneg hinterval hfull
      _ = app.maxTokens + t * (app.inflow * 1000000000) := by ring
      _ = maxRequests + t * maxRequests / windowSeconds := by
        rw [hrate, mul_div_assoc]
        rfl

/-- Three requests of one client within a second, and one of another. -/
def burst : List Event :=
  [.clientIp (ascii "10.0.0.1"), .request 0, .request 1000, .clientIp (ascii "10.0.0.2"),
    .request 2000, .clientIp (ascii "10.0.0.1"), .request 3000]

theorem token_bucket_bound_burst :
    (admittedBetween (ascii "10.0.0.1") 0 (0 + 1 * 1000000000)
      (Simulation.run (step fun _ => 0)
        (({ cleanupCounter := 0 } : RateLimiter).configure true 2 1) burst).1 : ℚ) ≤
      (2 : ℤ) + 1 * (2 : ℤ) / (1 : ℤ) :=
  (token_bucket_bound _ 2 1 0 _ (by decide) (by decide) (by decide +kernel)).2.1
    (ascii "10.0.0.1") 0 1 zero_le_one

/-- A client whose requests come no faster than tokens is never refused. -/
theorem spaced_admitted (hash : Bytes → ℕ) (maxRequests windowSeconds : ℤ) (counter : ℕ)
    (events : List Event) (hmax : 1 ≤ maxRequests) (hwindow : 1 ≤ windowSeconds)
    (hclock : (clock events).Pairwise (· ≤ ·)) (address : Bytes) :
    let app : RateLimiter :=
      ({ cleanupCounter := counter } : RateLimiter).configure true maxRequests windowSeconds
    let charges := chargesOf address (Simulation.run (step hash) app events).1
    (charges.Pairwise fun first later =>
      first.nowNs + (windowSeconds / maxRequests : ℚ) * 1000000000 ≤ later.nowNs) →
    ∀ charge ∈ charges, charge.admitted = true := by
  intro app charges hspaced charge hcharge
  have hconfigured : app.Configured := ⟨hmax, hwindow⟩
  have hsorted := origin_le hclock
  have horigin := (pairwise_cons.mp hsorted).1
  have hanswers := (run_forgets hash _ ⟨⟨rfl, rfl, rfl, rfl, rfl⟩, fun _ _ => .inl rfl⟩
    (by simp [Bounded, app, configure] : Bounded _ app) hconfigured hsorted).1
  have hcharges := charges_eq_answers hash address events app hconfigured
    (by simp [Sharded, app, configure]) horigin
  rw [← hanswers] at hcharges
  have hpos : (0 : ℚ) < maxRequests := by exact_mod_cast hmax
  have hseconds : (0 : ℚ) < windowSeconds := hconfigured.window_pos
  have hrate : app.inflow = maxRequests / windowSeconds / 1000000000 :=
    congrArg (· / 1000000000) hconfigured.refillRate_eq
  apply answers_spaced hconfigured.one_le_maxTokens _ _ charge.admitted
    (hcharges ▸ mem_map_of_mem hcharge)
  · intro now hnow
    have hle := horigin now ((hanswers ▸ chargesOf_sublist hash address events app).subset hnow)
    refine ⟨hle, ?_⟩
    change 1 ≤ (refill _ _ (full app.maxTokens _) _).tokens
    rw [← refill_full_of_le hconfigured.inflow_nonneg hle, refill_full]
    exact hconfigured.one_le_maxTokens
  · rw [pairwise_map]
    refine hspaced.imp fun {first later} hgap => ?_
    have hgap' : windowSeconds / maxRequests * 1000000000 ≤ later.nowNs - first.nowNs := by linarith
    have hgap_pos : (0 : ℚ) < windowSeconds / maxRequests * 1000000000 := by positivity
    refine ⟨by linarith, ?_⟩
    calc
      (1 : ℚ) = windowSeconds / maxRequests * 1000000000 * app.inflow := by
        rw [hrate]
        field_simp
      _ ≤ (later.nowNs - first.nowNs) * app.inflow :=
        mul_le_mul_of_nonneg_right hgap' hconfigured.inflow_nonneg

def patient : List Event := [.clientIp (ascii "10.0.0.1"), .request 0, .request 1000000000]

theorem spaced_admitted_patient :
    let app : RateLimiter := ({ cleanupCounter := 0 } : RateLimiter).configure true 1 1
    ∀ charge ∈ chargesOf (ascii "10.0.0.1") (Simulation.run (step fun _ => 0) app patient).1,
      charge.admitted = true :=
  spaced_admitted _ 1 1 0 _ (by decide) (by decide) (by decide +kernel) _ (by decide +kernel)

end RateLimiter

end AstraApi.Dispatch
