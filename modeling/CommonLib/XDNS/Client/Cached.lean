import CommonLib.XDNS.Client.Response
import CommonLib.XTTLMap.Contents

/-!
# The cached resolver

`cached.go`: a resolver in front of another one, with a TTL map of its responses.  A response past
its own `Expires` stays in the map for `keepTime`, to be served when the nested resolver fails.
-/

namespace CommonLib.XDNS.Client

open Reasoning XTTLMap

structure CacheKey where
  domain : GoString
  queryType : UInt16
deriving DecidableEq, Inhabited

def Request.cacheKey (request : Request) : CacheKey := ⟨request.domain, request.queryType⟩

structure CachedResolver where
  cache : System CacheKey Response
  minTtl : Int
  maxTtl : Int
  keepTime : Int

/-- The fields of `options` that concern the cache. -/
structure CacheOptions where
  cacheMaxSize : Int
  cacheMinTtl : Int
  cacheMaxTtl : Int
  cacheKeepTime : Int

/-- The clock readings of a call, in the order they are taken: by `Get`, by `Expired`, by
`cacheResult`, and the two by the map's `Set` or `Delete`. -/
structure Readings where
  got : Time
  checked : Time
  cached : Time
  since : Time
  cleanup : Time

/-- What the nested resolver returns: a pointer, or an error. -/
abbrev Nested (E : Type) := Except E (Option Response)

/-- What `Lookup` returns, and whether it has called the nested resolver. -/
structure Reply (E : Type) where
  result : Except E Response
  asked : Bool

namespace CachedResolver

variable {E : Type}

def new (opts : CacheOptions) (now : Time) : CachedResolver where
  cache := .init opts.cacheMaxSize now
  minTtl := opts.cacheMinTtl
  maxTtl := opts.cacheMaxTtl
  keepTime := opts.cacheKeepTime

/-- The two adjustments of `Expires`, both from the time to live the response came with. -/
def clamp (r : CachedResolver) (result : Response) (now : Time) : Response :=
  let ttl := result.expires.sub now
  let result := if ttl < r.minTtl then { result with expires := now + r.minTtl } else result
  if ttl > r.maxTtl then { result with expires := now + r.maxTtl } else result

/-- What `cacheResult` passes to `Set`. -/
def entry (r : CachedResolver) (result : Response) (now : Time) : Item Response :=
  if result.expires = 0 then ⟨result, 0⟩
  else ⟨r.clamp result now, now + r.keepTime⟩

/-- `cacheResult`; the `fuel` is for the eviction loop of `Set`. -/
def cacheResult (r : CachedResolver) (key : CacheKey) (result : Response) (clock : Readings)
    (fuel : Nat) : Except Crash CachedResolver :=
  let item := r.entry result clock.cached
  match r.cache.map.set key item.value item.deadline clock.since clock.cleanup fuel with
  | none => .error .outOfFuel
  | some (map, spawn) => .ok { r with cache := ⟨map, spawned r.cache.calls spawn⟩ }

/-- `r.cache.Get(key)`. -/
def getCached (r : CachedResolver) (key : CacheKey) (now : Time) :
    CachedResolver × Option Response :=
  let (map, cached) := r.cache.map.get key now
  ({ r with cache := ⟨map, r.cache.calls⟩ }, cached)

def lookup (r : CachedResolver) (request : Request) (nested : Nested E) (clock : Readings)
    (fuel : Nat) : Except Crash (Reply E × CachedResolver) :=
  let (r, cached) := r.getCached request.cacheKey clock.got
  -- The zero `Response` stands for one that was not found.
  let cachedResult := cached.getD default
  if cached.isSome ∧ !cachedResult.expired clock.checked then
    .ok (⟨.ok cachedResult, false⟩, r)
  else
    match nested with
    | .error _ => .ok (⟨.ok cachedResult, true⟩, r)
    | .ok none => .error (.panic "nil pointer dereference")
    | .ok (some lookupResult) => do
        let r ← r.cacheResult request.cacheKey lookupResult clock fuel
        .ok (⟨.ok lookupResult, true⟩, r)

def preset (r : CachedResolver) (domain : GoString) (queryType : UInt16)
    (response : Option Response) (clock : Readings) (fuel : Nat) : Except Crash CachedResolver :=
  match response with
  | none =>
      let (map, spawn) := r.cache.map.delete ⟨domain, queryType⟩ clock.since clock.cleanup
      .ok { r with cache := ⟨map, spawned r.cache.calls spawn⟩ }
  | some response => r.cacheResult ⟨domain, queryType⟩ response clock fuel

def withMaxSize (r : CachedResolver) (value : Int) (fuel : Nat) : Except Crash CachedResolver :=
  match r.cache.map.resize value fuel with
  | none => .error .outOfFuel
  | some map => .ok { r with cache := ⟨map, r.cache.calls⟩ }

/-- A step of the cleanup goroutine that `Set` and `Delete` start. -/
inductive Cleanup
  | scan (now : Time) (keys : List CacheKey)
  | remove (now : Time) (keys : List CacheKey)
  | done

def Cleanup.event : Cleanup → XTTLMap.Event CacheKey Response
  | scan now keys => .cleanupScan now keys
  | remove now keys => .cleanupRemove now keys
  | done => .cleanupDone

def cleanup (r : CachedResolver) (c : Cleanup) : Option CachedResolver := do
  let cache ← step r.cache c.event
  return { r with cache := cache }

end CachedResolver

end CommonLib.XDNS.Client
