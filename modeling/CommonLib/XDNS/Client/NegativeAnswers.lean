import CommonLib.XDNS.Client.Chain

/-!
# What a lookup without an answer does to the next one

The last-active resolver turns every error of its servers into `ErrDNSNoResponse`, which the
priority resolver takes for a failure.  So a name that does not exist makes the entities that were
asked rest, and the next lookup is the same as without it only if it comes after their timeouts.
-/

namespace CommonLib.XDNS.Client

open Reasoning
open DirectResolver (Consult Env)

/-! ## One list of servers -/

namespace LastActiveResolver

variable {T : Type}

theorem lookupLoop_negative {request : Request} {env : Env} {entities : List (LastActiveEntity T)}
    {n : Nat} (h : ∀ c ∈ (lookupLoop request env entities n).2, c.Negative request) :
    (lookupLoop request env entities n).1 = none := by
  induction entities generalizing n with
  | nil => rfl
  | cons entity rest ih =>
      rw [lookupLoop] at h ⊢
      cases hres : (entity.resolver.lookup request env n).1 with
      | ok response =>
          -- a response would be the answer to a query that was not negative
          have hlog : ∀ c ∈ (entity.resolver.lookup request env n).2, c.Negative request := by
            intro c hc
            apply h
            simp only [hres]
            split
            · exact hc
            · exact List.mem_append_left _ hc
          obtain ⟨err, herr⟩ := DirectResolver.lookup_negative hlog
          rw [hres] at herr
          cases herr
      | error err =>
          simp only [hres] at h ⊢
          rw [ih fun c hc ↦ h c (List.mem_append_right _ hc)]
          rfl

theorem lookup_negative {r : LastActiveResolver T} {request : Request} {env : Env} {n : Nat}
    (h : ∀ c ∈ (r.lookup request env n).2.2, c.Negative request) :
    (r.lookup request env n).1 = .error .dnsNoResponse := by
  have hlog : (r.lookup request env n).2.2 = (lookupLoop request env r.entities n).2 := by
    rw [lookup]
    split
    next heq => rw [heq]
    next heq => rw [heq]
  rw [hlog] at h
  have hnone := lookupLoop_negative h
  rw [lookup]
  split
  next heq =>
    rw [heq] at hnone
    cases hnone
  next => rfl

/-- Without servers there is nothing to ask. -/
theorem lookup_of_empty {r : LastActiveResolver T} (h : r.entities = []) (request : Request)
    (env : Env) (n : Nat) : r.lookup request env n = (.error .dnsNoResponse, r, []) := by
  rw [lookup, h]
  rfl

end LastActiveResolver

namespace Chain

/-! ## The lookup without an answer -/

/-- `s'` is `s` but for the times of the failures. -/
structure SameSettings (s s' : Chain) : Prop where
  refs : s'.root.refs = s.root.refs
  lists : s'.lists = s.lists
  resolver : ∀ e, (s'.root.entities e).resolver = (s.root.entities e).resolver
  timeout : ∀ e, (s'.root.entities e).failureTimeout = (s.root.entities e).failureTimeout

theorem SameSettings.refl (s : Chain) : SameSettings s s :=
  ⟨rfl, rfl, fun _ ↦ rfl, fun _ ↦ rfl⟩

theorem SameSettings.trans {s s' s'' : Chain} (h : SameSettings s s')
    (h' : SameSettings s' s'') : SameSettings s s'' :=
  ⟨h'.refs.trans h.refs, h'.lists.trans h.lists, fun e ↦ (h'.resolver e).trans (h.resolver e),
    fun e ↦ (h'.timeout e).trans (h.timeout e)⟩

theorem SameSettings.list {s s' : Chain} (h : SameSettings s s') (e : EntityRef) :
    s'.list e = s.list e := by
  rw [Chain.list, Chain.list, h.lists, h.resolver]

/-- Equal times of failure give equal permissions. -/
theorem SameSettings.rested_iff {s s' : Chain} (h : SameSettings s s') {e : EntityRef}
    (hfailed : (s'.root.entities e).failedAt = (s.root.entities e).failedAt) (now : Time) :
    s'.Rested e now ↔ s.Rested e now := by
  rw [Rested, Rested, hfailed, h.timeout]

theorem setFailedAt_same (s : Chain) (e : EntityRef) (t : Time) :
    SameSettings s (s.setFailedAt e t) := by
  have hentity : ∀ e', (s.setFailedAt e t).root.entities e' =
      if e' = e then { s.root.entities e with failedAt := t } else s.root.entities e' :=
    fun e' ↦ Function.update_apply ..
  refine ⟨rfl, rfl, fun e' ↦ ?_, fun e' ↦ ?_⟩ <;>
  · rw [hentity]
    split
    next heq => rw [heq]
    next => rfl

theorem failedAt_setFailedAt (s : Chain) (e : EntityRef) (t : Time) :
    ((s.setFailedAt e t).root.entities e).failedAt = t := by
  change (Function.update s.root.entities e { s.root.entities e with failedAt := t } e).failedAt = t
  rw [Function.update_self]

theorem failedAt_setFailedAt_ne (s : Chain) {e e' : EntityRef} (t : Time) (h : e' ≠ e) :
    ((s.setFailedAt e t).root.entities e').failedAt = (s.root.entities e').failedAt := by
  change (Function.update s.root.entities e { s.root.entities e with failedAt := t } e').failedAt = _
  rw [Function.update_of_ne h]

/-- The last place of `rest`, from the place `i` on, at which a lookup without an answer asks the
entity: at its first question the timeout has passed since the failure on record, at a later one
since the end of the question before it. -/
def lastQuestion (clock : Clock) (timeout : Int) (e : EntityRef) :
    List EntityRef → Nat → Time → Option Nat
  | [], _, _ => none
  | e' :: rest, i, failedAt =>
      if e' = e ∧ PriorityResolver.timeSince (clock.now i) failedAt > timeout then
        some ((lastQuestion clock timeout e rest (i + 1) (clock.done i)).getD i)
      else lastQuestion clock timeout e rest (i + 1) failedAt

/-- The place at which a lookup without an answer, at these times, asks the entity last.  An entity
that is in the chain once is asked there if it was rested. -/
def lastAsked (s : Chain) (clock : Clock) (e : EntityRef) : Option Nat :=
  lastQuestion clock (s.root.entities e).failureTimeout e s.root.refs 0
    (s.root.entities e).failedAt

section LastQuestion

variable {clock : Clock} {timeout : Int} {e e' : EntityRef} {rest : List EntityRef} {i : Nat}
  {failedAt : Time}

theorem lastQuestion_of_ne (h : e' ≠ e) :
    lastQuestion clock timeout e (e' :: rest) i failedAt =
      lastQuestion clock timeout e rest (i + 1) failedAt := by
  rw [lastQuestion, if_neg fun hasked ↦ h hasked.1]

/-- An entity that is asked was rested at its first question. -/
theorem exists_rested_of_lastQuestion {j : Nat}
    (h : lastQuestion clock timeout e rest i failedAt = some j) :
    ∃ k, PriorityResolver.timeSince (clock.now k) failedAt > timeout := by
  induction rest generalizing i with
  | nil => cases h
  | cons e' rest ih =>
      rw [lastQuestion] at h
      split at h
      next hasked => exact ⟨i, hasked.2⟩
      next => exact ih h

end LastQuestion

/-- The settings stay, and an entity that was asked has failed at the end of its last question. -/
structure Settles (clock : Clock) (rest : List EntityRef) (i : Nat) (s s' : Chain) : Prop where
  same : SameSettings s s'
  failedAt : ∀ e, (s'.root.entities e).failedAt =
    (lastQuestion clock (s.root.entities e).failureTimeout e rest i
      (s.root.entities e).failedAt).elim (s.root.entities e).failedAt clock.done

theorem lookupLoop_settles {request : Request} {env : Env} {clock : Clock}
    {rest : List EntityRef} {i n : Nat} {s : Chain}
    (h : ∀ c ∈ (lookupLoop request env clock rest i n s).log, c.Negative request) :
    Settles clock rest i s (lookupLoop request env clock rest i n s).chain := by
  induction rest generalizing i n s with
  | nil => exact ⟨.refl s, fun _ ↦ rfl⟩
  | cons e rest ih =>
      by_cases hrested : s.Rested e (clock.now i)
      · cases hres : ((s.list e).lookup request env n).1 with
        | ok response =>
            rw [lookupLoop_response hrested hres] at h
            rw [LastActiveResolver.lookup_negative h] at hres
            cases hres
        | error err =>
            rw [lookupLoop_failure hrested hres] at h ⊢
            have hsame := setFailedAt_same s e (clock.done i)
            have hnext := ih fun c hc ↦ h c (List.mem_append_right _ hc)
            refine ⟨hsame.trans hnext.same, fun e' ↦ ?_⟩
            have hfailed := hnext.failedAt e'
            rw [hsame.timeout] at hfailed
            by_cases heq : e = e'
            · subst heq
              rw [failedAt_setFailedAt] at hfailed
              refine hfailed.trans ?_
              rw [lastQuestion, if_pos ⟨rfl, hrested⟩]
              cases lastQuestion clock (s.root.entities e).failureTimeout e rest (i + 1)
                (clock.done i) <;> rfl
            · rw [failedAt_setFailedAt_ne s _ (Ne.symm heq)] at hfailed
              rw [lastQuestion_of_ne heq]
              exact hfailed
      · rw [lookupLoop_skip hrested] at h ⊢
        have hnext := ih h
        refine ⟨hnext.same, fun e' ↦ (hnext.failedAt e').trans ?_⟩
        by_cases heq : e = e'
        · subst heq
          rw [lastQuestion, if_neg fun hasked ↦ hrested hasked.2]
        · rw [lastQuestion_of_ne heq]

/-! ## The lookup after it -/

/-- At every place from `i` on, an entity with servers has failed at the same time in both chains or
may be asked in both. -/
structure Alike (clock : Clock) (rest : List EntityRef) (i : Nat) (s s' : Chain) : Prop where
  same : SameSettings s s'
  agree : ∀ k e, rest[k]? = some e → (s.list e).entities ≠ [] →
    (s'.root.entities e).failedAt = (s.root.entities e).failedAt ∨
      (s.Rested e (clock.now (i + k)) ∧ s'.Rested e (clock.now (i + k)))

theorem Alike.tail {clock : Clock} {e : EntityRef} {rest : List EntityRef} {i : Nat}
    {s s' : Chain} (h : Alike clock (e :: rest) i s s') : Alike clock rest (i + 1) s s' := by
  refine ⟨h.same, fun k e' hk hne ↦ ?_⟩
  rw [show i + 1 + k = i + (k + 1) by omega]
  exact h.agree (k + 1) e' hk hne

/-- `s'` is `s` but for the time at which `e` has failed. -/
structure DiffersAt (e : EntityRef) (s s' : Chain) : Prop where
  same : SameSettings s s'
  failedAt : ∀ e', e' ≠ e →
    (s'.root.entities e').failedAt = (s.root.entities e').failedAt

theorem setFailedAt_differsAt (s : Chain) (e : EntityRef) (t : Time) :
    DiffersAt e s (s.setFailedAt e t) :=
  ⟨setFailedAt_same s e t, fun _ h ↦ failedAt_setFailedAt_ne s t h⟩

/-- Failures of the first entity keep the chains alike, if they leave equal times or the entity has
no servers. -/
theorem Alike.step {clock : Clock} {e : EntityRef} {rest : List EntityRef} {i : Nat}
    {s s' s₁ s₁' : Chain} (h : Alike clock (e :: rest) i s s') (hs : DiffersAt e s s₁)
    (hs' : DiffersAt e s' s₁')
    (hfirst : (s₁'.root.entities e).failedAt = (s₁.root.entities e).failedAt ∨
      (s.list e).entities = []) : Alike clock rest (i + 1) s₁ s₁' := by
  have hsame : SameSettings s₁ s₁' :=
    ⟨by rw [hs'.same.refs, h.same.refs, hs.same.refs],
      by rw [hs'.same.lists, h.same.lists, hs.same.lists],
      fun e' ↦ by rw [hs'.same.resolver, h.same.resolver, hs.same.resolver],
      fun e' ↦ by rw [hs'.same.timeout, h.same.timeout, hs.same.timeout]⟩
  refine ⟨hsame, fun k e' hk hservers ↦ ?_⟩
  rw [hs.same.list] at hservers
  by_cases heq : e' = e
  · subst heq
    exact .inl (hfirst.resolve_right hservers)
  · have hfailed := hs.failedAt e' heq
    have hfailed' := hs'.failedAt e' heq
    rw [hfailed, hfailed', hs.same.rested_iff hfailed, hs'.same.rested_iff hfailed']
    exact h.tail.agree k e' hk hservers

/-- An entity without servers is passed over, asked or not. -/
theorem lookupLoop_empty {e : EntityRef} {s : Chain} (h : (s.list e).entities = [])
    (request : Request) (env : Env) (clock : Clock) (rest : List EntityRef) (i n : Nat) :
    ∃ s₁, DiffersAt e s s₁ ∧
      (lookupLoop request env clock (e :: rest) i n s).result =
        (lookupLoop request env clock rest (i + 1) n s₁).result ∧
      (lookupLoop request env clock (e :: rest) i n s).log =
        (lookupLoop request env clock rest (i + 1) n s₁).log := by
  by_cases hrested : s.Rested e (clock.now i)
  · have hlookup := LastActiveResolver.lookup_of_empty h request env n
    refine ⟨s.setFailedAt e (clock.done i), setFailedAt_differsAt .., ?_⟩
    rw [lookupLoop_failure hrested (congrArg Prod.fst hlookup), hlookup]
    exact ⟨rfl, rfl⟩
  · refine ⟨s, ⟨.refl s, fun _ _ ↦ rfl⟩, ?_⟩
    rw [lookupLoop_skip hrested]
    exact ⟨rfl, rfl⟩

theorem lookupLoop_alike (request : Request) (env : Env) {clock : Clock} {rest : List EntityRef}
    {i : Nat} (n : Nat) {s s' : Chain} (h : Alike clock rest i s s') :
    (lookupLoop request env clock rest i n s').result =
        (lookupLoop request env clock rest i n s).result ∧
      (lookupLoop request env clock rest i n s').log =
        (lookupLoop request env clock rest i n s).log := by
  induction rest generalizing i n s s' with
  | nil => exact ⟨rfl, rfl⟩
  | cons e rest ih =>
      by_cases hempty : (s.list e).entities = []
      · obtain ⟨s₁, hs, hresult, hlog⟩ := lookupLoop_empty hempty request env clock rest i n
        have hempty' : (s'.list e).entities = [] := by rw [h.same.list, hempty]
        obtain ⟨s₁', hs', hresult', hlog'⟩ := lookupLoop_empty hempty' request env clock rest i n
        rw [hresult, hlog, hresult', hlog']
        exact ih n (h.step hs hs' (.inr hempty))
      · have hiff : s'.Rested e (clock.now i) ↔ s.Rested e (clock.now i) := by
          obtain hfailed | ⟨hrested, hrested'⟩ := h.agree 0 e rfl hempty
          · exact h.same.rested_iff hfailed _
          · exact iff_of_true hrested' hrested
        by_cases hrested : s.Rested e (clock.now i)
        · have hrested' := hiff.mpr hrested
          have hlist := h.same.list e
          cases hres : ((s.list e).lookup request env n).1 with
          | ok response =>
              have hres' : ((s'.list e).lookup request env n).1 = .ok response := by
                rw [hlist, hres]
              rw [lookupLoop_response hrested hres, lookupLoop_response hrested' hres', hlist]
              exact ⟨rfl, rfl⟩
          | error err =>
              have hres' : ((s'.list e).lookup request env n).1 = .error err := by
                rw [hlist, hres]
              -- both chains record the same failure, and go on alike
              have hnext := h.step (setFailedAt_differsAt s e (clock.done i))
                (setFailedAt_differsAt s' e (clock.done i))
                (.inl (by rw [failedAt_setFailedAt, failedAt_setFailedAt]))
              rw [lookupLoop_failure hrested hres, lookupLoop_failure hrested' hres', hlist]
              obtain ⟨hresult, hlog⟩ := ih (n + ((s.list e).lookup request env n).2.2.length) hnext
              refine ⟨hresult, ?_⟩
              simp only [hlog]
        · rw [lookupLoop_skip hrested, lookupLoop_skip (mt hiff.mp hrested)]
          exact ih n h.tail

theorem lookup_alike (request : Request) (env : Env) {clock : Clock} {s s' : Chain}
    (h : Alike clock s.root.refs 0 s s') :
    (s'.lookup request env clock).result = (s.lookup request env clock).result ∧
      (s'.lookup request env clock).log = (s.lookup request env clock).log := by
  rw [lookup, lookup, h.same.refs]
  exact lookupLoop_alike request env 0 h

/-! ## The two together -/

/-- The servers that a lookup at these times may ask, with their place in the chain. -/
def Allowed (s : Chain) (clock : Clock) : Set (Nat × Addr) :=
  {p | ∃ e, s.root.refs[p.1]? = some e ∧ s.Rested e (clock.now p.1) ∧
    ∃ entity ∈ (s.list e).entities, entity.resolver.server = p.2}

/-- The lookup in `s'` may ask the same servers as in `s`; with the same answers it asks the same
ones and has the same result. -/
def Unaffected (s s' : Chain) (request : Request) (clock : Clock) : Prop :=
  s'.Allowed clock = s.Allowed clock ∧
    ∀ env, (s'.lookup request env clock).result = (s.lookup request env clock).result ∧
      (s'.lookup request env clock).log = (s.lookup request env clock).log

theorem timeSince_mono {now now' t : Int} (h : now ≤ now') :
    PriorityResolver.timeSince now t ≤ PriorityResolver.timeSince now' t := by
  rw [PriorityResolver.timeSince, PriorityResolver.timeSince]
  omega

/-- A timeout that some time reaches has passed when it is added to the time of the failure. -/
theorem timeSince_gt_iff {now now' t t' timeout : Int}
    (h : PriorityResolver.timeSince now t > timeout) :
    PriorityResolver.timeSince now' t' > timeout ↔ t' + timeout < now' := by
  rw [PriorityResolver.timeSince] at *
  omega

theorem Rested.mono {s : Chain} {e : EntityRef} {now now' : Time} (h : s.Rested e now)
    (hle : now ≤ now') : s.Rested e now' :=
  lt_of_lt_of_le h (timeSince_mono hle)

/-- A place of the chain is allowed if it has a server and its entity is rested. -/
theorem allowed_iff_rested {s : Chain} {i : Nat} {e : EntityRef}
    (hi : s.root.refs[i]? = some e) (hservers : (s.list e).entities ≠ []) (clock : Clock) :
    (∃ server, (i, server) ∈ s.Allowed clock) ↔ s.Rested e (clock.now i) := by
  constructor
  · rintro ⟨server, e', hi', hrested, -⟩
    cases hi.symm.trans hi'
    exact hrested
  · intro hrested
    obtain ⟨entity, hmem⟩ := List.exists_mem_of_ne_nil _ hservers
    exact ⟨entity.resolver.server, e, hi, hrested, entity, hmem, rfl⟩

section Asked

variable {s s' : Chain} {clock clock' : Clock} {e : EntityRef} {j : Nat}

/-- What was asked was rested before, and has only rested longer since. -/
theorem rested_of_lastAsked (hasked : s.lastAsked clock e = some j)
    (hclock : ∀ i j, clock.now i ≤ clock'.now j) (i : Nat) : s.Rested e (clock'.now i) := by
  obtain ⟨k, hk⟩ := exists_rested_of_lastQuestion hasked
  exact Rested.mono hk (hclock k i)

theorem Settles.rested_iff (h : Settles clock s.root.refs 0 s s')
    (hasked : s.lastAsked clock e = some j) (now : Time) :
    s'.Rested e now ↔ clock.done j + (s.root.entities e).failureTimeout < now := by
  obtain ⟨k, hk⟩ := exists_rested_of_lastQuestion hasked
  have hfailed := h.failedAt e
  rw [show lastQuestion _ _ _ _ _ _ = some j from hasked, Option.elim_some] at hfailed
  rw [Rested, hfailed, h.same.timeout]
  exact timeSince_gt_iff hk

end Asked

/-- After a lookup to which all servers asked have given no data, the next one is as if there had
been none exactly when it comes, at each entity with servers, after the end of the last question to
it and the failure timeout. -/
theorem unaffected_iff_rested (s : Chain) (a b : Request) (env : Env) (clock clock' : Clock)
    (hnegative : ∀ c ∈ (s.lookup a env clock).log, c.Negative a)
    (hclock : ∀ i j, clock.now i ≤ clock'.now j) :
    Unaffected s (s.lookup a env clock).chain b clock' ↔
      ∀ i j e, s.root.refs[i]? = some e → (s.list e).entities ≠ [] → s.lastAsked clock e = some j →
        clock.done j + (s.root.entities e).failureTimeout < clock'.now i := by
  have hsettles : Settles clock s.root.refs 0 s (s.lookup a env clock).chain :=
    lookupLoop_settles hnegative
  have hsame := hsettles.same
  constructor
  · rintro ⟨hallowed, -⟩ i j e hi hservers hasked
    have hservers' : ((s.lookup a env clock).chain.list e).entities ≠ [] := by
      rw [hsame.list]
      exact hservers
    have hplace := allowed_iff_rested (hsame.refs ▸ hi) hservers' clock'
    rw [hallowed, allowed_iff_rested hi hservers] at hplace
    exact (hsettles.rested_iff hasked _).mp (hplace.mp (rested_of_lastAsked hasked hclock i))
  · intro hlate
    have hagree : ∀ k e, s.root.refs[k]? = some e → (s.list e).entities ≠ [] →
        ((s.lookup a env clock).chain.root.entities e).failedAt = (s.root.entities e).failedAt ∨
          (s.Rested e (clock'.now k) ∧ (s.lookup a env clock).chain.Rested e (clock'.now k)) := by
      intro k e hk hservers
      cases hasked : s.lastAsked clock e with
      | none =>
          have hfailed := hsettles.failedAt e
          rw [show lastQuestion _ _ _ _ _ _ = none from hasked, Option.elim_none] at hfailed
          exact .inl hfailed
      | some j =>
          have hrested := (hsettles.rested_iff hasked _).mpr (hlate k j e hk hservers hasked)
          exact .inr ⟨rested_of_lastAsked hasked hclock k, hrested⟩
    constructor
    · ext ⟨i, server⟩
      simp only [Allowed, Set.mem_ofPred_eq, hsame.refs, hsame.list]
      refine exists_congr fun e ↦ and_congr_right fun hi ↦ and_congr_left fun hserver ↦ ?_
      obtain ⟨entity, hmem, -⟩ := hserver
      obtain hfailed | ⟨hbefore, hafter⟩ := hagree i e hi (List.ne_nil_of_mem hmem)
      · exact hsame.rested_iff hfailed _
      · exact iff_of_true hafter hbefore
    · intro env'
      have halike : Alike clock' s.root.refs 0 s (s.lookup a env clock).chain :=
        ⟨hsame, fun k e hk hservers ↦ by rw [Nat.zero_add]; exact hagree k e hk hservers⟩
      exact lookup_alike b env' halike

/-- A chain with one server and a failure timeout of 15 seconds. -/
def oneServer : Chain :=
  Chain.new.withDNSServers .doubling 1 [[1, 1, 1, 1]] ⟨15000000000, 15000000000⟩

/-- Every query is answered, with the code and the records given. -/
def answering (rcode : Nat) (answer : List DNS.RR) : Env :=
  fun _ _ _ ↦ ⟨false, .answered ⟨0, rcode, answer⟩, 100000000000000000000⟩

/-- A lookup that takes no time. -/
def atTime (t : Time) : Clock := ⟨fun _ ↦ t, fun _ ↦ t⟩

/-- The lookup of a name for which the server answers that it does not exist. -/
def missingName : Outcome :=
  oneServer.lookup ⟨.ofASCII "missing", 1, false⟩ (answering DNS.rcodeNameError [])
    (atTime 100000000000000000000)

theorem missingName_negative {c : Consult} (h : c ∈ missingName.log) :
    c.Negative ⟨.ofASCII "missing", 1, false⟩ := by
  have hlog : missingName.log =
      [⟨[1, 1, 1, 1], false, answering DNS.rcodeNameError [] 0 [1, 1, 1, 1] false⟩,
        ⟨[1, 1, 1, 1], true, answering DNS.rcodeNameError [] 1 [1, 1, 1, 1] true⟩] := rfl
  rw [hlog, List.mem_pair] at h
  obtain rfl | rfl := h
  · exact ⟨by simp [answering], _, rfl, rfl⟩
  · exact ⟨by simp [answering], _, rfl, rfl⟩

/-- Twenty seconds after the missing name the server is rested. -/
theorem unaffected_after_rest :
    Unaffected oneServer missingName.chain ⟨.ofASCII "example.com", 1, false⟩
      (atTime 100000000020000000000) := by
  refine (unaffected_iff_rested oneServer _ _ _ _ _ ?_ ?_).mpr ?_
  · intro c hc
    exact missingName_negative hc
  · intro i j
    change (100000000000000000000 : Int) ≤ 100000000020000000000
    decide
  · intro i j e hi _ _
    have hrefs : oneServer.root.refs = [0] := rfl
    rw [hrefs] at hi
    obtain rfl : e = 0 := List.mem_singleton.mp (List.mem_of_getElem? hi)
    change (100000000000000000000 + 15000000000 : Int) < 100000000020000000000
    decide

/-- One second after it the server is not asked, and a name it knows has no result. -/
theorem missing_name_poisons_next :
    let request : Request := ⟨.ofASCII "example.com", 1, false⟩
    let env := answering 0 [⟨1, 60, .a [9, 9, 9, 9]⟩]
    let clock := atTime 100000000001000000000
    (∀ c ∈ missingName.log, c.Negative ⟨.ofASCII "missing", 1, false⟩) ∧
      (oneServer.lookup request env clock).result =
        .ok ⟨true, [[9, 9, 9, 9]], 100000000060000000000, false⟩ ∧
      (missingName.chain.lookup request env clock).result = .error .dnsNoResponse ∧
      ¬ Unaffected oneServer missingName.chain request clock := by
  intro request env clock
  have hbefore : (oneServer.lookup request env clock).result =
      .ok ⟨true, [[9, 9, 9, 9]], 100000000060000000000, false⟩ := rfl
  have hafter : (missingName.chain.lookup request env clock).result = .error .dnsNoResponse := rfl
  refine ⟨fun c hc ↦ missingName_negative hc, hbefore, hafter, ?_⟩
  rintro ⟨-, hsame⟩
  have hresult := (hsame env).1
  rw [hbefore, hafter] at hresult
  cases hresult

end Chain

end CommonLib.XDNS.Client
