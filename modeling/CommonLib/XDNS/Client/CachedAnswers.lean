import CommonLib.XDNS.Client.Cached

/-!
# What the cached resolver answers

A history is a sequence of calls and of steps of the cleanup goroutine, with any clock readings and
any behaviour of the nested resolver.  Beside the resolver it records the last response stored under
each key, for as long as the map holds the key.
-/

namespace CommonLib.XDNS.Client

open Reasoning XTTLMap

namespace CachedResolver

variable {E : Type}

/-! ## Lookup -/

/-- `Lookup` answers from the cache alone. -/
def Hit (cached : Option Response) (now : Time) : Prop :=
  cached.isSome ∧ !(cached.getD default).expired now

instance (cached : Option Response) (now : Time) : Decidable (Hit cached now) :=
  inferInstanceAs (Decidable (_ ∧ _))

/-- The three ways in which `Lookup` returns. -/
theorem lookup_cases {r r' : CachedResolver} {request : Request} {nested : Nested E}
    {clock : Readings} {fuel : Nat} {reply : Reply E}
    (h : r.lookup request nested clock fuel = .ok (reply, r')) :
    let got := r.getCached request.cacheKey clock.got
    (Hit got.2 clock.checked ∧ reply = ⟨.ok (got.2.getD default), false⟩ ∧ r' = got.1) ∨
    (¬ Hit got.2 clock.checked ∧ (∃ err, nested = .error err) ∧
      reply = ⟨.ok (got.2.getD default), true⟩ ∧ r' = got.1) ∨
    (¬ Hit got.2 clock.checked ∧ ∃ result, nested = .ok (some result) ∧
      got.1.cacheResult request.cacheKey result clock fuel = .ok r' ∧
      reply = ⟨.ok result, true⟩) := by
  intro got
  rw [lookup] at h
  change (if Hit got.2 clock.checked then _ else _) = _ at h
  split at h
  next hhit =>
    cases h
    exact .inl ⟨hhit, rfl, rfl⟩
  next hmiss =>
    right
    cases hnested : nested with
    | error err =>
        rw [hnested] at h
        cases h
        exact .inl ⟨hmiss, ⟨err, rfl⟩, rfl, rfl⟩
    | ok pointer =>
        rw [hnested] at h
        cases pointer with
        | none => cases h
        | some result =>
            refine .inr ⟨hmiss, result, rfl, ?_⟩
            change (got.1.cacheResult request.cacheKey result clock fuel >>= fun r ↦
              .ok ((⟨.ok result, true⟩ : Reply E), r)) = .ok (reply, r') at h
            cases hcached : got.1.cacheResult request.cacheKey result clock fuel with
            | error crash =>
                rw [hcached] at h
                cases h
            | ok stored =>
                rw [hcached] at h
                cases h
                exact ⟨rfl, rfl⟩

/-- `cacheResult` stores the adjusted response. -/
theorem cacheResult_puts {r r' : CachedResolver} {key : CacheKey} {result : Response}
    {clock : Readings} {fuel : Nat} (hkeyed : r.cache.map.Keyed)
    (h : r.cacheResult key result clock fuel = .ok r') :
    r.cache.map.Puts r'.cache.map key (r.entry result clock.cached) := by
  simp only [cacheResult] at h
  split at h
  next => cases h
  next map spawn hset =>
    cases h
    exact TTLMap.set_puts hkeyed hset

theorem withMaxSize_loses {r r' : CachedResolver} {value : Int} {fuel : Nat}
    (hkeyed : r.cache.map.Keyed) (h : r.withMaxSize value fuel = .ok r') :
    r.cache.map.Loses r'.cache.map := by
  rw [withMaxSize] at h
  split at h
  next => cases h
  next map hmap =>
    cases h
    exact TTLMap.resize_loses hkeyed hmap

/-! ## Histories -/

inductive Event (E : Type)
  | lookup (request : Request) (nested : Nested E) (clock : Readings) (fuel : Nat)
  | preset (domain : GoString) (queryType : UInt16) (response : Option Response)
      (clock : Readings) (fuel : Nat)
  | withMaxSize (value : Int) (fuel : Nat)
  | withMinTtl (value : Int)
  | withMaxTtl (value : Int)
  | withKeepTime (value : Int)
  | cleanup (c : Cleanup)

/-- The last responses stored under the keys, those not yet removed. -/
abbrev Stored := CacheKey → Option Response

section Retain

variable {α : Type} (record : CacheKey → Option α) (map : TTLMap CacheKey Response)

/-- What is left of a record once the map is `map`: keys that were evicted, deleted or cleaned up
are forgotten. -/
def retain : CacheKey → Option α :=
  fun k ↦ if (map.items.lookup k).isSome then record k else none

variable {map} {k : CacheKey}

theorem retain_of_none (h : map.peek k = none) : retain record map k = none := by
  rw [TTLMap.peek, Option.map_eq_none_iff] at h
  rw [retain, h]
  rfl

theorem retain_of_some {item : Item Response} (h : map.peek k = some item) :
    retain record map k = record k := by
  obtain ⟨node, hnode, -⟩ := Option.map_eq_some_iff.mp h
  rw [retain, hnode]
  rfl

end Retain

structure History where
  resolver : CachedResolver
  stored : Stored

namespace History

def init (opts : CacheOptions) (now : Time) : History := ⟨.new opts now, fun _ ↦ none⟩

def keep (h : History) (r : CachedResolver) : History := ⟨r, retain h.stored r.cache.map⟩

/-- A call that has stored the response under the key and left the resolver as `r`. -/
def put (h : History) (key : CacheKey) (response : Response) (r : CachedResolver) : History :=
  ⟨r, Function.update (retain h.stored r.cache.map) key (some response)⟩

/-- One call or one step of the cleanup; a call that does not return gives no state. -/
def step (h : History) : Event E → Option History
  | .lookup request nested clock fuel => do
      let (reply, r) ← (h.resolver.lookup request nested clock fuel).toOption
      match reply.asked, nested with
      | true, .ok (some result) =>
          some (h.put request.cacheKey (h.resolver.entry result clock.cached).value r)
      | _, _ => some (h.keep r)
  | .preset domain queryType response clock fuel => do
      let r ← (h.resolver.preset domain queryType response clock fuel).toOption
      match response with
      | some response =>
          some (h.put ⟨domain, queryType⟩ (h.resolver.entry response clock.cached).value r)
      | none => some (h.keep r)
  | .withMaxSize value fuel => (h.resolver.withMaxSize value fuel).toOption.map h.keep
  | .withMinTtl value => some (h.keep { h.resolver with minTtl := value })
  | .withMaxTtl value => some (h.keep { h.resolver with maxTtl := value })
  | .withKeepTime value => some (h.keep { h.resolver with keepTime := value })
  | .cleanup c => (h.resolver.cleanup c).map h.keep

/-- The record is what the map holds. -/
structure Inv (h : History) : Prop where
  keyed : h.resolver.cache.map.Keyed
  stored : ∀ k, h.stored k = (h.resolver.cache.map.peek k).map (·.value)

theorem retain_eq {stored : Stored} {map : TTLMap CacheKey Response} {k : CacheKey}
    {o : Option (Item Response)} (hstored : stored k = o.map (·.value))
    (hmap : map.peek k = o ∨ map.peek k = none) :
    retain stored map k = (map.peek k).map (·.value) := by
  cases hpeek : map.peek k with
  | none => exact retain_of_none stored hpeek
  | some item =>
      obtain rfl | hnone := hmap
      · rw [retain_of_some stored hpeek, hstored, hpeek]
      · cases hpeek.symm.trans hnone

theorem keep_inv {h : History} (hinv : h.Inv) {r : CachedResolver}
    (hloses : h.resolver.cache.map.Loses r.cache.map) : (h.keep r).Inv :=
  ⟨hloses.keyed, fun k ↦ retain_eq (hinv.stored k) (hloses.peek k)⟩

theorem put_inv {h : History} (hinv : h.Inv) {key : CacheKey} {item : Item Response}
    {r : CachedResolver} (hputs : h.resolver.cache.map.Puts r.cache.map key item) :
    (h.put key item.value r).Inv := by
  refine ⟨hputs.keyed, fun k ↦ ?_⟩
  simp only [put]
  by_cases hk : k = key
  · subst hk
    rw [Function.update_self, hputs.stored]
    rfl
  · rw [Function.update_of_ne hk]
    exact retain_eq (hinv.stored k) (hputs.other k hk)

theorem init_inv (opts : CacheOptions) (now : Time) : (init opts now).Inv := by
  refine ⟨TTLMap.new_keyed .., fun k ↦ ?_⟩
  rw [show (init opts now).resolver.cache.map.peek k = none from TTLMap.new_peek ..]
  rfl

/-- The key's response as it is after `Get`, which drops one that was kept too long. -/
def storedFor (h : History) (key : CacheKey) (now : Time) : Option Response :=
  retain h.stored (h.resolver.getCached key now).1.cache.map key

/-- `Get` finds the response that is stored. -/
theorem getCached_eq_storedFor {h : History} (hinv : h.Inv) (key : CacheKey) (now : Time) :
    (h.resolver.getCached key now).2 = h.storedFor key now := by
  have hloses := TTLMap.get_loses hinv.keyed key now
  rw [storedFor]
  refine Eq.trans ?_ (retain_eq (hinv.stored key) (hloses.peek key)).symm
  exact TTLMap.get_eq_peek hinv.keyed key now

theorem cleanup_loses {r r' : CachedResolver} {c : Cleanup} (hkeyed : r.cache.map.Keyed)
    (h : r.cleanup c = some r') : r.cache.map.Loses r'.cache.map := by
  obtain ⟨cache, hstep, hr'⟩ := Option.bind_eq_some_iff.mp h
  cases hr'
  have htaken := XTTLMap.step_taken hstep
  cases c with
  | scan now keys =>
      cases htaken
      exact .refl hkeyed
  | remove now keys =>
      cases htaken
      exact TTLMap.foldl_dropExpired_loses hkeyed keys now
  | done =>
      cases htaken
      exact ⟨⟨hkeyed.key, hkeyed.allocated⟩, fun _ ↦ .inl rfl⟩

theorem lookup_inv {h h' : History} {request : Request} {nested : Nested E} {clock : Readings}
    {fuel : Nat} (hinv : h.Inv) (hstep : h.step (.lookup request nested clock fuel) = some h') :
    h'.Inv := by
  obtain ⟨⟨reply, r⟩, hlookup, hrest⟩ := Option.bind_eq_some_iff.mp hstep
  have hget := TTLMap.get_loses hinv.keyed request.cacheKey clock.got
  obtain ⟨-, rfl, rfl⟩ | ⟨-, ⟨err, rfl⟩, rfl, rfl⟩ | ⟨-, result, rfl, hcache, rfl⟩ :=
    lookup_cases (toOption_eq_some_iff.mp hlookup)
  · cases hrest
    exact keep_inv hinv hget
  · cases hrest
    exact keep_inv hinv hget
  · cases hrest
    exact put_inv hinv ((cacheResult_puts hget.keyed hcache).of_loses hget)

theorem preset_inv {h h' : History} {domain : GoString} {queryType : UInt16}
    {response : Option Response} {clock : Readings} {fuel : Nat} (hinv : h.Inv)
    (hstep : h.step (E := E) (.preset domain queryType response clock fuel) = some h') :
    h'.Inv := by
  obtain ⟨r, hpreset, hrest⟩ := Option.bind_eq_some_iff.mp hstep
  cases response with
  | none =>
      cases hpreset
      cases hrest
      exact keep_inv hinv (TTLMap.delete_loses hinv.keyed ..).1
  | some response =>
      cases hrest
      exact put_inv hinv (cacheResult_puts hinv.keyed (toOption_eq_some_iff.mp hpreset))

theorem step_inv {h h' : History} {e : Event E} (hinv : h.Inv) (hstep : h.step e = some h') :
    h'.Inv := by
  cases e with
  | lookup request nested clock fuel => exact lookup_inv hinv hstep
  | preset domain queryType response clock fuel => exact preset_inv hinv hstep
  | withMaxSize value fuel =>
      obtain ⟨r, hresize, rfl⟩ := Option.map_eq_some_iff.mp hstep
      exact keep_inv hinv (withMaxSize_loses hinv.keyed (toOption_eq_some_iff.mp hresize))
  | withMinTtl value | withMaxTtl value | withKeepTime value =>
      cases hstep
      exact keep_inv hinv (.refl hinv.keyed)
  | cleanup c =>
      obtain ⟨r, hcleanup, rfl⟩ := Option.map_eq_some_iff.mp hstep
      exact keep_inv hinv (cleanup_loses hinv.keyed hcleanup)

end History

/-! ## The answers -/

/-- A nil error comes with the nested response of this call, or with the stored one: without a
nested call only if it has not expired, expired only if the nested lookup has failed.  A failed
nested lookup with nothing stored is an error. -/
def AnswerOk (stored : Option Response) (now : Time) (nested : Nested E) (reply : Reply E) : Prop :=
  (∀ response, reply.result = .ok response →
    (reply.asked = true ∧ nested = .ok (some response)) ∨
    (stored = some response ∧ (reply.asked = false → response.expired now = false) ∧
      (response.expired now = true → reply.asked = true ∧ ∃ err, nested = .error err))) ∧
  (reply.asked = true → (∃ err, nested = .error err) → stored = none →
    ∃ err, reply.result = .error err)

/-- A lookup that returns does so with a good answer. -/
def AnswersWell (h : History) : Event E → Prop
  | .lookup request nested clock fuel =>
      ∀ reply r, h.resolver.lookup request nested clock fuel = .ok (reply, r) →
        AnswerOk (h.storedFor request.cacheKey clock.got) clock.checked nested reply
  | _ => True

/-- The nested resolver answers, or the map has a response to fall back on. -/
def Backed (h : History) : Event E → Prop
  | .lookup request nested clock _ =>
      (∃ pointer, nested = .ok pointer) ∨
        (h.resolver.getCached request.cacheKey clock.got).2 ≠ none
  | _ => True

theorem answerOk_hit {cached : Option Response} {now : Time} (hhit : Hit cached now)
    (nested : Nested E) : AnswerOk cached now nested ⟨.ok (cached.getD default), false⟩ := by
  obtain ⟨hsome, hfresh⟩ := hhit
  obtain ⟨response, rfl⟩ := Option.isSome_iff_exists.mp hsome
  have hfresh : response.expired now = false := by simpa using hfresh
  refine ⟨fun response' heq ↦ .inr ?_, fun hasked ↦ absurd hasked (by simp)⟩
  cases heq
  exact ⟨rfl, fun _ ↦ hfresh, fun hexpired ↦ absurd (hfresh.symm.trans hexpired) (by simp)⟩

theorem answerOk_failed_iff (cached : Option Response) (now : Time) (err : E) :
    AnswerOk cached now (.error err) ⟨.ok (cached.getD default), true⟩ ↔ cached ≠ none := by
  constructor
  · rintro ⟨-, hempty⟩ hnone
    obtain ⟨err', herr⟩ := hempty rfl ⟨err, rfl⟩ hnone
    cases herr
  · intro hsome
    obtain ⟨response, rfl⟩ := Option.ne_none_iff_exists'.mp hsome
    refine ⟨fun response' heq ↦ .inr ?_, fun _ _ hnone ↦ absurd hnone hsome⟩
    cases heq
    exact ⟨rfl, fun hasked ↦ absurd hasked (by simp), fun _ ↦ ⟨rfl, err, rfl⟩⟩

theorem answerOk_nested (stored : Option Response) (now : Time) (result : Response) :
    AnswerOk (E := E) stored now (.ok (some result)) ⟨.ok result, true⟩ := by
  refine ⟨fun response heq ↦ .inl ?_, fun _ hfailed ↦ ?_⟩
  · cases heq
    exact ⟨rfl, rfl⟩
  · obtain ⟨err, herr⟩ := hfailed
    cases herr

/-- Only a lookup that fails with nothing to fall back on is answered badly. -/
theorem answersWell_iff_backed {h h' : History} {e : Event E} (hinv : h.Inv)
    (hstep : h.step e = some h') : AnswersWell h e ↔ Backed h e := by
  cases e with
  | lookup request nested clock fuel =>
      obtain ⟨⟨reply, r⟩, hlookup, -⟩ := Option.bind_eq_some_iff.mp hstep
      have hlookup := toOption_eq_some_iff.mp hlookup
      have hfound := History.getCached_eq_storedFor hinv request.cacheKey clock.got
      -- the lookup has one outcome, so what is said of all of them is said of this one
      have hwell : AnswersWell h (.lookup request nested clock fuel) ↔
          AnswerOk (h.storedFor request.cacheKey clock.got) clock.checked nested reply := by
        constructor
        · intro hall
          exact hall reply r hlookup
        · intro hthis reply' r' hlookup'
          cases hlookup.symm.trans hlookup'
          exact hthis
      rw [hwell, ← hfound, Backed]
      obtain ⟨hhit, rfl, -⟩ | ⟨-, ⟨err, rfl⟩, rfl, -⟩ | ⟨-, result, rfl, -, rfl⟩ :=
        lookup_cases hlookup
      · have hsome : (h.resolver.getCached request.cacheKey clock.got).2 ≠ none :=
          Option.isSome_iff_ne_none.mp hhit.1
        exact iff_of_true (answerOk_hit hhit nested) (.inr hsome)
      · rw [answerOk_failed_iff]
        simp
      · exact iff_of_true (answerOk_nested ..) (.inl ⟨_, rfl⟩)
  | preset => exact Iff.rfl
  | withMaxSize => exact Iff.rfl
  | withMinTtl => exact Iff.rfl
  | withMaxTtl => exact Iff.rfl
  | withKeepTime => exact Iff.rfl
  | cleanup => exact Iff.rfl

/-- In every history the lookups are answered well exactly when each of them either hears from the
nested resolver or finds a stored response. -/
theorem answersWell_iff_everyBacked (opts : CacheOptions) (now : Time) (events : List (Event E)) :
    EveryStep History.step AnswersWell events (.init opts now) ↔
      EveryStep History.step Backed events (.init opts now) := by
  have hinit := History.init_inv opts now
  constructor
  · intro h
    exact h.imp_of_inv (fun s e t hs hok ht ↦
      ⟨(answersWell_iff_backed hs ht).mp hok, History.step_inv hs ht⟩) hinit
  · intro h
    exact h.imp_of_inv (fun s e t hs hok ht ↦
      ⟨(answersWell_iff_backed hs ht).mpr hok, History.step_inv hs ht⟩) hinit

/-- The first lookup of a new resolver, whose nested lookup fails: it returns an empty response and
no error. -/
theorem failed_lookup_answers_empty :
    let opts : CacheOptions := ⟨1024, 60, 3600, 86400⟩
    let request : Request := ⟨.ofASCII "example.com", 1, false⟩
    let clock : Readings := ⟨1, 2, 3, 4, 5⟩
    let lookup : Event Unit := .lookup request (.error ()) clock 0
    (∃ r, (CachedResolver.new opts 1).lookup request (.error ()) clock 0 =
      .ok (⟨.ok ⟨false, [], 0, false⟩, true⟩, r)) ∧
      ¬ EveryStep History.step AnswersWell [lookup] (.init opts 1) := by
  intro opts request clock lookup
  have hlookup : (CachedResolver.new opts 1).lookup request (.error ()) clock 0 =
      .ok (⟨.ok ⟨false, [], 0, false⟩, true⟩, CachedResolver.new opts 1) := rfl
  refine ⟨⟨_, hlookup⟩, fun h ↦ ?_⟩
  obtain ⟨hwell, -⟩ := h _ rfl
  obtain ⟨-, hempty⟩ := hwell _ _ hlookup
  obtain ⟨err, herr⟩ := hempty rfl ⟨(), rfl⟩ rfl
  cases herr

end CachedResolver

end CommonLib.XDNS.Client
