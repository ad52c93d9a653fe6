import AstraApi.Lib.DirectMapped
import AstraApi.Response.Build

/-!
# The response caches

`dispatch_one_request` keeps the responses of dictionaries in `s_dict_cache` and
those of `Response` objects in `s_response_cache`, eight slots each.  An entry is
found by a 64-bit key mixed from hashes, object addresses and flags.
-/

namespace AstraApi.Response

open DirectMapped

/-- What the endpoint returned. -/
inductive Result (F O : Type*) where
  | json (value : PyObj F O)
  | object (response : ResponseObject)

/-- A request whose endpoint has returned; `status` is the status code of its
route. -/
structure Request (F O : Type*) where
  result : Result F O
  status : ℤ
  keepAlive : Bool
  isHead : Bool
  origin : Bytes

section Cache

variable {F O : Type*} (runtime : Runtime F O) (config : Option CorsConfig)

/-- The CORS configuration, when the origin of the request is allowed. -/
def Request.cors (request : Request F O) : Option (CorsConfig × Bytes) :=
  match config with
  | none => none
  | some cors => if cors.originAllowed request.origin then some (cors, request.origin) else none

def makeCacheKey (contentHash : UInt64) (keepAlive isHead : Bool) (status : ℤ) (hasCors : Bool) :
    UInt64 :=
  contentHash ^^^ keepAlive.toUInt64 ^^^ (isHead.toUInt64 <<< 1) ^^^ (UInt64.ofInt status <<< 2) ^^^
    (hasCors.toUInt64 <<< 3)

/-- The number of headers and the addresses of the first four. -/
def headerHash (headers : List HeaderItem) : UInt64 :=
  (headers.take 4).foldl (fun h header => h ^^^ header.address) (UInt64.ofNat headers.length)

structure ResponseCacheSlot where
  hash : UInt64 := 0
  response : Option Bytes := none

abbrev ResponseCache := Fin 8 → ResponseCacheSlot

def cacheSlot (key : UInt64) : Fin 8 :=
  Fin.ofNat 8 key.toNat

def cacheLookup (cache : ResponseCache) (key : UInt64) : Option Bytes :=
  if (cache (cacheSlot key)).hash = key then (cache (cacheSlot key)).response else none

def cacheStore (cache : ResponseCache) (key : UInt64) (response : Bytes) : ResponseCache :=
  Function.update cache (cacheSlot key)
    { hash := key
      response := some response }

structure Caches where
  dict : ResponseCache := fun _ => {}
  response : ResponseCache := fun _ => {}

def Request.dictKey (request : Request F O) (items : List (PyObj F O × PyObj F O)) :
    Option UInt64 :=
  let dictHash := hashDictContent runtime items
  if dictHash = 0 then none
  else some (makeCacheKey dictHash request.keepAlive request.isHead request.status
    (request.cors config).isSome)

def Request.objectKey (request : Request F O) (object : ResponseObject) : UInt64 :=
  makeCacheKey (fnv1aHashBytes object.body ^^^ headerHash object.rawHeaders) request.keepAlive
    request.isHead object.status (request.cors config).isSome

/-- What a request leads to: the bytes written, if any, and whether its
background task is started. -/
abbrev Outcome := Option Bytes × Bool

def dispatchResult (caches : Caches) (request : Request F O) : Outcome × Caches :=
  let cors := request.cors config
  match request.result with
  | .json value =>
    let key :=
      match value with
      | .dict items => request.dictKey runtime config items
      | _ => none
    match key.bind (cacheLookup caches.dict) with
    | some cached => ((some cached, false), caches)
    | none =>
      match buildJsonResponseBytes request.status request.keepAlive request.isHead cors runtime
        value with
      | none => ((none, false), caches)
      | some response =>
        match key with
        | none => ((some response, false), caches)
        | some key =>
          ((some response, false),
            { caches with dict := cacheStore caches.dict key response })
  | .object object =>
    let response := buildObjectResponse object request.keepAlive request.isHead cors
    let key := request.objectKey config object
    match cacheLookup caches.response key with
    | some cached => ((some cached, false), caches)
    | none =>
      ((some response, object.background),
        { caches with response := cacheStore caches.response key response })

/-- A history of requests served by one process. -/
def dispatchResults : Caches → List (Request F O) → List Outcome
  | _, [] => []
  | caches, request :: rest =>
    let (outcome, caches) := dispatchResult runtime config caches request
    outcome :: dispatchResults caches rest

/-! ## Fresh responses -/

def Request.response (request : Request F O) : Option Bytes :=
  match request.result with
  | .json value =>
    buildJsonResponseBytes request.status request.keepAlive request.isHead
      (request.cors config) runtime value
  | .object object =>
    some (buildObjectResponse object request.keepAlive request.isHead (request.cors config))

/-- Only `Response` objects carry a background task. -/
def Request.background (request : Request F O) : Bool :=
  match request.result with
  | .json _ => false
  | .object object => object.background

def Request.fresh (request : Request F O) : Outcome :=
  (request.response runtime config, request.background)

inductive CacheName where
  | dict
  | response
  deriving DecidableEq

def Request.cacheKey (request : Request F O) : Option (CacheName × UInt64) :=
  match request.result with
  | .json (.dict items) => (request.dictKey runtime config items).map fun key => (.dict, key)
  | .json _ => none
  | .object object => some (.response, request.objectKey config object)

/-! ## The caches as one direct-mapped cache -/

def cacheService : Service (Request F O) (CacheName × Fin 8) (CacheName × UInt64) Bytes where
  slot key := (key.1, cacheSlot key.2)
  key request := request.cacheKey runtime config
  build request := request.response runtime config
  work request := request.background

def Caches.get (caches : Caches) : CacheName → ResponseCache
  | .dict => caches.dict
  | .response => caches.response

def Caches.set (caches : Caches) (name : CacheName) (cache : ResponseCache) : Caches :=
  match name with
  | .dict => { caches with dict := cache }
  | .response => { caches with response := cache }

/-- An empty slot matches no key, whatever its hash. -/
def Caches.toCache (caches : Caches) : Cache (CacheName × Fin 8) (CacheName × UInt64) Bytes :=
  fun slot => (caches.get slot.1 slot.2).response.map fun response =>
    ((slot.1, (caches.get slot.1 slot.2).hash), response)

theorem lookup_toCache (caches : Caches) (name : CacheName) (key : UInt64) :
    caches.toCache.lookup (cacheService runtime config).slot (name, key) =
      cacheLookup (caches.get name) key := by
  simp only [Cache.lookup, Caches.toCache, cacheService, cacheLookup]
  cases (caches.get name (cacheSlot key)).response with
  | none => simp
  | some response => simp

theorem toCache_set (caches : Caches) (name : CacheName) (key : UInt64) (response : Bytes) :
    (caches.set name (cacheStore (caches.get name) key response)).toCache =
      caches.toCache.store (cacheService runtime config).slot (name, key) response := by
  funext slot
  by_cases hslot : slot = (name, cacheSlot key)
  · subst hslot
    cases name <;> simp [Caches.toCache, Caches.set, Caches.get, cacheStore, Cache.store,
      cacheService]
  · simp only [Cache.store, cacheService]
    obtain ⟨other, i⟩ := slot
    cases name <;> cases other <;>
      simp_all [Caches.toCache, Caches.set, Caches.get, cacheStore]

theorem serve_without_key {caches : Caches} {request : Request F O}
    (hkey : request.cacheKey runtime config = none) :
    (cacheService runtime config).serve caches.toCache request =
      (request.fresh runtime config, caches.toCache) := by
  have hkey' : (cacheService runtime config).key request = none := hkey
  simp only [Service.serve, hkey']
  rfl

theorem serve_with_key {caches : Caches} {request : Request F O} {name : CacheName} {key : UInt64}
    (hkey : request.cacheKey runtime config = some (name, key)) :
    (cacheService runtime config).serve caches.toCache request =
      match cacheLookup (caches.get name) key, request.response runtime config with
      | some cached, _ => ((some cached, false), caches.toCache)
      | none, none => (request.fresh runtime config, caches.toCache)
      | none, some response =>
        (request.fresh runtime config,
          (caches.set name (cacheStore (caches.get name) key response)).toCache) := by
  have hkey' : (cacheService runtime config).key request = some (name, key) := hkey
  have hbuild : (cacheService runtime config).build request = request.response runtime config := rfl
  simp only [Service.serve, hkey', lookup_toCache, hbuild, toCache_set runtime config]
  cases cacheLookup (caches.get name) key <;> cases request.response runtime config <;> rfl

/-- `dispatch_one_request` serves a request as the direct-mapped cache does. -/
theorem dispatchResult_refines (caches : Caches) (request : Request F O) :
    (cacheService runtime config).serve caches.toCache request =
      ((dispatchResult runtime config caches request).1,
        (dispatchResult runtime config caches request).2.toCache) := by
  cases hresult : request.result with
  | object object =>
    have hkey : request.cacheKey runtime config =
        some (.response, request.objectKey config object) := by
      simp [Request.cacheKey, hresult]
    rw [serve_with_key _ _ hkey]
    simp only [dispatchResult, Request.response, Request.fresh, Request.background, hresult,
      Caches.get]
    cases cacheLookup caches.response (request.objectKey config object) <;> rfl
  | json value =>
    cases hdict : (match value with
        | .dict items => request.dictKey runtime config items
        | _ => none) with
    | none =>
      have hkey : request.cacheKey runtime config = none := by
        cases value <;> simp_all [Request.cacheKey]
      rw [serve_without_key _ _ hkey]
      simp only [dispatchResult, hresult, hdict, Request.fresh, Request.response,
        Request.background, Option.bind_none]
      cases buildJsonResponseBytes request.status request.keepAlive request.isHead
        (request.cors config) runtime value <;> rfl
    | some key =>
      have hkey : request.cacheKey runtime config = some (.dict, key) := by
        cases value <;> simp_all [Request.cacheKey]
      rw [serve_with_key _ _ hkey]
      simp only [dispatchResult, hresult, hdict, Request.fresh, Request.response,
        Request.background, Option.bind_some, Caches.get]
      cases cacheLookup caches.dict key <;>
        cases buildJsonResponseBytes request.status request.keepAlive request.isHead
          (request.cors config) runtime value <;> rfl

theorem dispatchResults_refines (caches : Caches) (requests : List (Request F O)) :
    (cacheService runtime config).serveAll caches.toCache requests =
      dispatchResults runtime config caches requests := by
  induction requests generalizing caches with
  | nil => rfl
  | cons request rest ih =>
    simp [Service.serveAll, dispatchResults, dispatchResult_refines, ih]

/-! ## Transparency -/

def occupant (history : List (Request F O)) (name : CacheName) (slot : Fin 8) :
    Option (Request F O) :=
  (cacheService runtime config).occupant history (name, slot)

/-- In every history the responses and background tasks are those of responses
built anew exactly when a request whose slot was last used under the same key
has the response of that earlier request, and no background task. -/
theorem dispatchResults_eq_fresh_iff (requests : List (Request F O)) :
    dispatchResults runtime config {} requests = requests.map (Request.fresh runtime config) ↔
      ∀ before request after, requests = before ++ request :: after →
        ∀ name key, request.cacheKey runtime config = some (name, key) →
          ∀ earlier, occupant runtime config before name (cacheSlot key) = some earlier →
            earlier.cacheKey runtime config = some (name, key) →
              earlier.response runtime config = request.response runtime config ∧
                request.background = false := by
  have hempty : ({} : Caches).toCache = fun _ => none := by
    funext slot
    cases hname : slot.1 <;> simp [Caches.toCache, Caches.get, hname]
  have hserved := (cacheService runtime config).serveAll_eq_fresh_iff requests
  rw [← hempty, dispatchResults_refines] at hserved
  apply hserved.trans
  constructor
  · intro hagrees before request after hsplit name key hkey
    exact hagrees _ _ _ hsplit (name, key) hkey
  · intro hagrees before request after hsplit key hkey
    exact hagrees _ _ _ hsplit _ _ hkey

end Cache

/-- A runtime for results made of dictionaries, strings and integers. -/
def plainRuntime : Runtime Empty Empty where
  hashStr := fnv1aHashBytes
  hashBytes := fnv1aHashBytes
  hashFloat := Empty.elim
  floatText := Empty.elim
  otherText _ := Empty.elim
  strOf _ := none

/-- A keep-alive `GET` of a route that returns one field. -/
def fieldRequest (value : ℤ) : Request Empty Empty where
  result := .json (.dict [(.str (ascii "n"), .int value)])
  status := 200
  keepAlive := true
  isHead := false
  origin := []

/-- After `-1` was returned, `-2` is answered with `-1`. -/
theorem dispatchResults_ne_fresh : ¬ ∀ requests : List (Request Empty Empty),
    dispatchResults plainRuntime none {} requests =
      requests.map (Request.fresh plainRuntime none) := by
  intro hall
  have hsame := hall [fieldRequest (-1), fieldRequest (-2)]
  revert hsame
  decide +kernel

end AstraApi.Response
