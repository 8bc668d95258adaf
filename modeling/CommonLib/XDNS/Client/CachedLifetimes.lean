import CommonLib.XDNS.Client.CachedAnswers

/-!
# How long the cached resolver answers by itself

Beside the resolver the record has, for each key, the last response stored under it, with the clock
and the resolver as they were then.  The record of a key goes when the key leaves the map: when it is
deleted by `Preset`, evicted by `Set` or `Resize`, or dropped by `Get` or the cleanup.
-/

namespace CommonLib.XDNS.Client

open Reasoning XTTLMap

namespace CachedResolver

variable {E : Type}

/-- A response as it came to `cacheResult`, the clock reading there, and the resolver. -/
structure Origin where
  response : Response
  stored : Time
  resolver : CachedResolver

namespace Origin

/-- What the map has been given. -/
def item (o : Origin) : Item Response := o.resolver.entry o.response o.stored

/-- The time to live, raised to the minimum and lowered to the maximum. -/
def ttl (o : Origin) : Int :=
  min (max (o.response.expires - o.stored) o.resolver.minTtl) o.resolver.maxTtl

/-- The bounds are durations, in their order. -/
structure Ordered (o : Origin) : Prop where
  minTtl : -2 ^ 63 ≤ o.resolver.minTtl
  le : o.resolver.minTtl ≤ o.resolver.maxTtl
  maxTtl : o.resolver.maxTtl ≤ 2 ^ 63 - 1

/-- The time to live is more than a duration can say, and so is not cut. -/
def Endless (o : Origin) : Prop :=
  o.resolver.maxTtl = 2 ^ 63 - 1 ∧ o.resolver.maxTtl < o.response.expires - o.stored

theorem item_value (o : Origin) :
    o.item.value = { o.response with expires := o.item.value.expires } := by
  unfold item entry clamp
  split
  · rfl
  · dsimp only
    split <;> split <;> rfl

theorem item_expires (o : Origin) (hne : o.response.expires ≠ 0) :
    o.item.value.expires =
      if o.response.expires.sub o.stored > o.resolver.maxTtl then o.stored + o.resolver.maxTtl
      else if o.response.expires.sub o.stored < o.resolver.minTtl then o.stored + o.resolver.minTtl
      else o.response.expires := by
  rw [item, entry, if_neg hne]
  unfold clamp
  dsimp only
  split
  · rfl
  · split <;> rfl

theorem cut_cases {expires stored minTtl maxTtl : Int} (hlow : -2 ^ 63 ≤ minTtl)
    (hle : minTtl ≤ maxTtl) (hhigh : maxTtl ≤ 2 ^ 63 - 1)
    (hcut : ¬ (maxTtl = 2 ^ 63 - 1 ∧ maxTtl < expires - stored)) :
    let cut := if Time.sub expires stored > maxTtl then stored + maxTtl
      else if Time.sub expires stored < minTtl then stored + minTtl else expires
    let ttl := min (max (expires - stored) minTtl) maxTtl
    cut = stored + ttl ∨ cut = expires ∧ expires ≤ stored + ttl := by
  intro cut ttl
  by_cases hmax : Time.sub expires stored > maxTtl
  · left
    simp only [cut, ttl, if_pos hmax]
    unfold Time.sub at hmax
    omega
  by_cases hmin : Time.sub expires stored < minTtl
  · left
    simp only [cut, ttl, if_neg hmax, if_pos hmin]
    unfold Time.sub at hmin
    omega
  · have hkept : cut = expires := by simp only [cut, if_neg hmax, if_neg hmin]
    unfold Time.sub at hmax hmin
    have hle : expires ≤ stored + ttl := by
      simp only [ttl]
      omega
    exact .inr ⟨hkept, hle⟩

/-- The `Expires` in the map: the time of the store and the time to live, or its own and earlier. -/
theorem expires_cases (o : Origin) (hne : o.response.expires ≠ 0) (hordered : o.Ordered)
    (hendless : ¬ o.Endless) :
    o.item.value.expires = o.stored + o.ttl ∨
      o.item.value.expires = o.response.expires ∧ o.response.expires ≤ o.stored + o.ttl := by
  rw [o.item_expires hne]
  exact cut_cases hordered.minTtl hordered.le hordered.maxTtl hendless

end Origin

/-! ## Runs -/

/-- A resolver, with the last response stored under each key that is still in the map. -/
structure Traced where
  resolver : CachedResolver
  last : CacheKey → Option Origin

namespace Traced

def init (opts : CacheOptions) (now : Time) : Traced := ⟨.new opts now, fun _ ↦ none⟩

def keep (s : Traced) (r : CachedResolver) : Traced := ⟨r, retain s.last r.cache.map⟩

/-- A call that has stored the response under the key and left the resolver as `r`. -/
def put (s : Traced) (key : CacheKey) (o : Origin) (r : CachedResolver) : Traced :=
  ⟨r, Function.update (retain s.last r.cache.map) key (some o)⟩

/-- One call or one step of the cleanup; a call that does not return gives no state. -/
def step (s : Traced) : Event E → Option Traced
  | .lookup request nested clock fuel => do
      let (reply, r) ← (s.resolver.lookup request nested clock fuel).toOption
      match reply.asked, nested with
      | true, .ok (some result) =>
          some (s.put request.cacheKey ⟨result, clock.cached, s.resolver⟩ r)
      | _, _ => some (s.keep r)
  | .preset domain queryType response clock fuel => do
      let r ← (s.resolver.preset domain queryType response clock fuel).toOption
      match response with
      | some response =>
          some (s.put ⟨domain, queryType⟩ ⟨response, clock.cached, s.resolver⟩ r)
      | none => some (s.keep r)
  | .withMaxSize value fuel => (s.resolver.withMaxSize value fuel).toOption.map s.keep
  | .withMinTtl value => some (s.keep { s.resolver with minTtl := value })
  | .withMaxTtl value => some (s.keep { s.resolver with maxTtl := value })
  | .withKeepTime value => some (s.keep { s.resolver with keepTime := value })
  | .cleanup c => (s.resolver.cleanup c).map s.keep

/-- The map holds what was stored last, under the keys that have a record and no others. -/
structure Inv (s : Traced) : Prop where
  keyed : s.resolver.cache.map.Keyed
  last : ∀ k, (s.last k).map Origin.item = s.resolver.cache.map.peek k

theorem init_inv (opts : CacheOptions) (now : Time) : (init opts now).Inv :=
  ⟨TTLMap.new_keyed .., fun _ ↦ (TTLMap.new_peek ..).symm⟩

variable {s t : Traced}

theorem Inv.retain_eq (hinv : s.Inv) {map : TTLMap CacheKey Response} {k : CacheKey}
    (hmap : map.peek k = s.resolver.cache.map.peek k ∨ map.peek k = none) :
    (retain s.last map k).map Origin.item = map.peek k := by
  cases hpeek : map.peek k with
  | none => rw [retain_of_none s.last hpeek, Option.map_none]
  | some item =>
      obtain hsame | hnone := hmap
      · rw [retain_of_some s.last hpeek, hinv.last, ← hsame, hpeek]
      · cases hpeek.symm.trans hnone

theorem Inv.keep (hinv : s.Inv) {r : CachedResolver}
    (hloses : s.resolver.cache.map.Loses r.cache.map) : (s.keep r).Inv :=
  ⟨hloses.keyed, fun k ↦ hinv.retain_eq (hloses.peek k)⟩

theorem Inv.put (hinv : s.Inv) {r : CachedResolver} {key : CacheKey} {o : Origin}
    (hputs : s.resolver.cache.map.Puts r.cache.map key o.item) : (s.put key o r).Inv := by
  refine ⟨hputs.keyed, fun k ↦ ?_⟩
  simp only [Traced.put]
  by_cases hk : k = key
  · subst hk
    rw [Function.update_self, hputs.stored]
    rfl
  · rw [Function.update_of_ne hk]
    exact hinv.retain_eq (hputs.other k hk)

theorem step_inv {e : Event E} (hinv : s.Inv) (hstep : s.step e = some t) : t.Inv := by
  cases e with
  | lookup request nested clock fuel =>
      obtain ⟨⟨reply, r⟩, hlookup, hrest⟩ := Option.bind_eq_some_iff.mp hstep
      have hget := TTLMap.get_loses hinv.keyed request.cacheKey clock.got
      obtain ⟨-, rfl, rfl⟩ | ⟨-, ⟨err, rfl⟩, rfl, rfl⟩ | ⟨-, result, rfl, hcache, rfl⟩ :=
        lookup_cases (toOption_eq_some_iff.mp hlookup)
      · cases hrest
        exact hinv.keep hget
      · cases hrest
        exact hinv.keep hget
      · cases hrest
        exact hinv.put ((cacheResult_puts hget.keyed hcache).of_loses hget)
  | preset domain queryType response clock fuel =>
      obtain ⟨r, hpreset, hrest⟩ := Option.bind_eq_some_iff.mp hstep
      cases response with
      | none =>
          cases hpreset
          cases hrest
          exact hinv.keep (TTLMap.delete_loses hinv.keyed ..).1
      | some response =>
          cases hrest
          exact hinv.put (cacheResult_puts hinv.keyed (toOption_eq_some_iff.mp hpreset))
  | withMaxSize value fuel =>
      obtain ⟨r, hresize, rfl⟩ := Option.map_eq_some_iff.mp hstep
      exact hinv.keep (withMaxSize_loses hinv.keyed (toOption_eq_some_iff.mp hresize))
  | withMinTtl value | withMaxTtl value | withKeepTime value =>
      cases hstep
      exact hinv.keep (.refl hinv.keyed)
  | cleanup c =>
      obtain ⟨r, hcleanup, rfl⟩ := Option.map_eq_some_iff.mp hstep
      exact hinv.keep (History.cleanup_loses hinv.keyed hcleanup)

end Traced

/-! ## Answers from the cache -/

/-- A response that `Lookup` has returned at the time `t` without a nested lookup: a copy of what was
stored, and not after its time to live, unless it has none, or the end of it is the zero time, which
stands for no end, or it is longer than a duration can be. -/
structure Served (o : Origin) (t : Time) (response : Response) : Prop where
  copy : response = { o.response with expires := response.expires }
  inTime : o.response.expires = 0 ∨
    (o.Ordered → t ≤ o.stored + o.ttl ∨ o.stored + o.ttl = 0 ∨ o.Endless)

theorem Origin.served (o : Origin) {t : Time} (hfresh : o.item.value.expired t = false) :
    Served o t o.item.value where
  copy := o.item_value
  inTime := by
    by_cases hne : o.response.expires = 0
    · exact .inl hne
    refine .inr fun hordered ↦ ?_
    by_cases hendless : o.Endless
    · exact .inr (.inr hendless)
    rw [Response.expired] at hfresh
    split at hfresh
    next hzero =>
      obtain heq | ⟨heq, -⟩ := o.expires_cases hne hordered hendless
      · exact .inr (.inl (heq ▸ hzero))
      · exact absurd (heq ▸ hzero) hne
    next =>
      have hle : t ≤ o.item.value.expires := not_lt.mp (of_decide_eq_false hfresh)
      left
      obtain heq | ⟨heq, hearlier⟩ := o.expires_cases hne hordered hendless
      · exact heq ▸ hle
      · exact hle.trans (heq ▸ hearlier)

end CachedResolver

end CommonLib.XDNS.Client
