import CommonLib.XDNS.Client.Cached
import CommonLib.XDNS.Client.Direct
import CommonLib.XDNS.Client.LastActiveOrder
import CommonLib.XDNS.Client.PriorityOrder

/-!
# The builder

`builder.go`.  The priority resolver that `New` makes is the only one: the root is a pointer to it,
or a cache in front of it.  What the builder puts into its list are last-active resolvers, which it
fetches and extends by a type assertion, and system resolvers.
-/

namespace CommonLib.XDNS.Client

open Reasoning LinkedList

structure Options where
  systemTtl : Int
  cache : CacheOptions
  priorityFailureTimeout : Int
  directTimeout : Int

/-- `Defaults`, in nanoseconds. -/
def Options.defaults : Options where
  systemTtl := 60 * 10 ^ 9
  cache := ⟨1024, 60 * 10 ^ 9, 3600 * 10 ^ 9, 24 * 3600 * 10 ^ 9⟩
  priorityFailureTimeout := 15 * 10 ^ 9
  directTimeout := 15 * 10 ^ 9

instance : Inhabited DirectResolver := ⟨⟨[], 0⟩⟩

/-- What the builder puts into the priority resolver: a pointer, or a `*SystemResolver`. -/
inductive Installed
  | lastActive (ref : Nat)
  | system (ttl : Int)
deriving DecidableEq, Inhabited

/-- What `root` is: the `*PriorityResolver`, or a `*CachedResolver` with its nested resolver. -/
inductive Root
  | priority
  | cached (cache : CachedResolver) (nested : Root)

structure Builder where
  root : Root
  resolvers : PriorityResolver Installed
  lastActives : Nat → LastActive.Entities GoString DirectResolver
  freshLastActive : Nat

inductive Builder.Call
  | withCache (opts : Options) (now : Time)
  | withDNSServers (priority : Int) (servers : List Addr) (opts : Options)
  | withSystem (priority : Int) (opts : Options)

namespace Builder

def new : Builder := ⟨.priority, .new, fun _ ↦ .new, 0⟩

def withCache (b : Builder) (opts : Options) (now : Time) : Builder :=
  match b.root with
  | .cached .. => b
  | .priority => { b with root := .cached (.new opts.cache now) b.root }

/-- `priorityResolver`, with its two type assertions. -/
def priorityResolver (b : Builder) : Except Crash (PriorityResolver Installed) :=
  match b.root with
  | .priority => .ok b.resolvers
  | .cached _ .priority => .ok b.resolvers
  | .cached _ (.cached ..) => .error (.panic "interface conversion")

/-- `NewLastActive`. -/
def newLastActive (b : Builder) : Installed × Builder :=
  (.lastActive b.freshLastActive,
    { b with
      lastActives := Function.update b.lastActives b.freshLastActive .new
      freshLastActive := b.freshLastActive + 1 })

/-- The body of the loop over the servers; `string` is `netip.Addr.String`. -/
def withServer (string : Addr → GoString) (resolver : Installed) (opts : Options) (b : Builder)
    (server : Addr) : Except Crash Builder :=
  match resolver with
  | .lastActive ref => do
      let direct := ⟨server, opts.directTimeout⟩
      let (_, entities) ← LastActive.add (b.lastActives ref) (string server) direct true
      return { b with lastActives := Function.update b.lastActives ref entities }
  | .system _ => .error (.panic "interface conversion")

def withDNSServers (g : Growth) (string : Addr → GoString) (b : Builder) (priority : Int)
    (servers : List Addr) (opts : Options) : Except Crash Builder := do
  let r ← b.priorityResolver
  match r.get priority with
  | .ok resolver => servers.foldlM (withServer string resolver opts) b
  -- `ErrNotExists` is the only error of `Get`
  | .error _ =>
      let (resolver, b) := b.newLastActive
      servers.foldlM (withServer string resolver opts)
        { b with resolvers := r.add g priority resolver opts.priorityFailureTimeout true }

def withSystem (g : Growth) (b : Builder) (priority : Int) (opts : Options) :
    Except Crash Builder := do
  let r ← b.priorityResolver
  return { b with
    resolvers := r.add g priority (.system opts.systemTtl) opts.priorityFailureTimeout true }

def exec (g : Growth) (string : Addr → GoString) (b : Builder) : Call → Except Crash Builder
  | .withCache opts now => .ok (b.withCache opts now)
  | .withDNSServers priority servers opts => b.withDNSServers g string priority servers opts
  | .withSystem priority opts => b.withSystem g priority opts

/-- One call; a call that panics gives no state. -/
def step (g : Growth) (string : Addr → GoString) (b : Builder) (call : Call) : Option Builder :=
  (b.exec g string call).toOption

/-! ## Which calls panic -/

/-- The cache is in front of the priority resolver itself, and the lists of servers are linked. -/
structure WF (b : Builder) : Prop where
  root : b.root = .priority ∨ ∃ cache, b.root = .cached cache .priority
  linked : ∀ ref, ∃ es, Holds (b.lastActives ref) es

variable {g : Growth} {string : Addr → GoString} {b t : Builder}

theorem new_wf : new.WF := ⟨.inl rfl, fun _ ↦ ⟨[], holds_new⟩⟩

theorem WF.priorityResolver (h : b.WF) : b.priorityResolver = .ok b.resolvers := by
  unfold Builder.priorityResolver
  obtain hroot | ⟨cache, hroot⟩ := h.root
  · rw [hroot]
  · rw [hroot]

theorem WF.withCache (h : b.WF) (opts : Options) (now : Time) :
    (b.withCache opts now).WF := by
  unfold Builder.withCache
  obtain hroot | ⟨cache, hroot⟩ := h.root
  · rw [hroot]
    exact ⟨.inr ⟨_, rfl⟩, h.linked⟩
  · rw [hroot]
    exact h

theorem WF.update (h : b.WF) {ref : Nat}
    {entities : LastActive.Entities GoString DirectResolver} {es : List Ref}
    (hholds : Holds entities es) (hroot : t.root = b.root)
    (hlists : t.lastActives = Function.update b.lastActives ref entities) : t.WF := by
  refine ⟨hroot ▸ h.root, fun ref' ↦ ?_⟩
  rw [hlists]
  by_cases heq : ref' = ref
  · subst heq
    rw [Function.update_self]
    exact ⟨es, hholds⟩
  · rw [Function.update_of_ne heq]
    exact h.linked ref'

theorem WF.withServer (h : b.WF) (ref : Nat) (opts : Options) (server : Addr) :
    ∃ t, b.withServer string (.lastActive ref) opts server = .ok t ∧ t.WF ∧
      t.resolvers = b.resolvers := by
  obtain ⟨es, hholds⟩ := h.linked ref
  have hlinked := (LastActive.wellLinked_of_holds (s := ⟨b.lastActives ref, fun _ ↦ none⟩) hholds).1
  let direct : DirectResolver := ⟨server, opts.directTimeout⟩
  obtain ⟨err, entities, hadd, hlinked', -⟩ := LastActive.add_effect (E := Unit) hlinked
    (string server) direct true (.withResolver (string server) direct) rfl
  refine ⟨{ b with lastActives := Function.update b.lastActives ref entities }, ?_,
    h.update hlinked' rfl rfl, rfl⟩
  rw [Builder.withServer]
  dsimp only at hadd ⊢
  rw [hadd]
  rfl

theorem WF.withServers (h : b.WF) (ref : Nat) (opts : Options) (servers : List Addr) :
    ∃ t, servers.foldlM (Builder.withServer string (.lastActive ref) opts) b = .ok t ∧ t.WF ∧
      t.resolvers = b.resolvers := by
  induction servers generalizing b with
  | nil => exact ⟨b, rfl, h, rfl⟩
  | cons server servers ih =>
      obtain ⟨b', hserver, h', hsame'⟩ := h.withServer ref opts server
      obtain ⟨t, hservers, ht, hsame⟩ := ih h'
      refine ⟨t, ?_, ht, hsame.trans hsame'⟩
      rw [List.foldlM_cons, hserver]
      exact hservers

/-- Servers are added where no system resolver is found. -/
def Extends (b : Builder) : Call → Prop
  | .withDNSServers priority servers _ =>
      servers = [] ∨ ∀ ttl, b.resolvers.get priority ≠ .ok (.system ttl)
  | _ => True

/-- What a call that returns has done to the list. -/
inductive Effect (g : Growth) (b t : Builder) : Call → Prop
  | cached {opts : Options} {now : Time} (hsame : t.resolvers = b.resolvers) :
      Effect g b t (.withCache opts now)
  | extended {p : Int} {servers : List Addr} {opts : Options}
      (hfound : p ∈ b.resolvers.priorities) (hsame : t.resolvers = b.resolvers) :
      Effect g b t (.withDNSServers p servers opts)
  | installed {p : Int} {servers : List Addr} {opts : Options} {ref : Nat}
      (hnew : p ∉ b.resolvers.priorities)
      (hset : t.resolvers =
        b.resolvers.exec g (.withResolver p (.lastActive ref) opts.priorityFailureTimeout)) :
      Effect g b t (.withDNSServers p servers opts)
  | system {p : Int} {opts : Options}
      (hset : t.resolvers =
        b.resolvers.exec g (.withResolver p (.system opts.systemTtl) opts.priorityFailureTimeout)) :
      Effect g b t (.withSystem p opts)

/-! ## Calls in ascending order -/

def Call.priority : Call → Option Int
  | .withCache .. => none
  | .withDNSServers priority .. => some priority
  | .withSystem priority _ => some priority

def priorities (calls : List Call) : List Int := calls.filterMap Call.priority

/-- Each priority has been there before, or is not smaller than those that have. -/
def Ascending (calls : List Call) : Prop :=
  ∀ earlier call later p, calls = earlier ++ call :: later → call.priority = some p →
    p ∈ priorities earlier ∨ ∀ q ∈ priorities earlier, q ≤ p

/-- A system resolver, and servers for its priority. -/
def Clash : Call → Call → Prop
  | .withSystem p _, .withDNSServers q servers _ => p = q ∧ servers ≠ []
  | _, _ => False

/-- What the list has after the calls, if none of them had to insert an entity. -/
structure Tracks (calls : List Call) (r : PriorityResolver Installed) : Prop where
  inv : r.Inv
  nodup : r.priorities.Nodup
  listed : ∀ p, p ∈ r.priorities ↔ p ∈ priorities calls
  systems : ∀ p, (∃ ttl, (p, .system ttl) ∈ r.contents) ↔ ∃ opts, .withSystem p opts ∈ calls

variable {calls : List Call} {call : Call}

theorem Ascending.of_concat (h : Ascending (calls ++ [call])) : Ascending calls := by
  rintro earlier c later p rfl
  exact h earlier c (later ++ [call]) p (by simp)

theorem priorities_concat (calls : List Call) (call : Call) :
    priorities (calls ++ [call]) = priorities calls ++ call.priority.toList := by
  rw [priorities, List.filterMap_append]
  cases hcall : call.priority <;> simp [priorities, hcall]

theorem tracks_nil : Tracks ([] : List Call) .new where
  inv := PriorityResolver.inv_new
  nodup := List.nodup_nil
  listed p := by simp [priorities, PriorityResolver.priorities, PriorityResolver.refs,
    PriorityResolver.new, Slice.toList]
  systems p := by simp [PriorityResolver.contents, PriorityResolver.refs,
    PriorityResolver.new, Slice.toList]

variable {r : PriorityResolver Installed}

/-- A call that leaves the list as it is, because its priority is there. -/
theorem Tracks.same (h : Tracks calls r) (hpriority : ∀ p ∈ call.priority, p ∈ r.priorities)
    (hcall : ∀ p opts, call ≠ .withSystem p opts) : Tracks (calls ++ [call]) r where
  inv := h.inv
  nodup := h.nodup
  listed p := by
    rw [priorities_concat, List.mem_append, Option.mem_toList, ← h.listed]
    exact (or_iff_left_of_imp (hpriority p)).symm
  systems p := by
    have hne : ∀ opts, Call.withSystem p opts ≠ call := fun opts ↦ (hcall p opts).symm
    simp only [List.mem_append, List.mem_singleton, hne, or_false]
    exact h.systems p

/-- A call that puts a resolver into the list or replaces one. -/
theorem Tracks.set (h : Tracks calls r) {p : Int} {v : Installed} {timeout : Int}
    (hlast : p ∈ priorities calls ∨ ∀ q ∈ priorities calls, q ≤ p)
    (hpriority : call.priority = some p)
    (hsystem : (∃ ttl, v = .system ttl) ↔ ∃ opts, .withSystem p opts = call)
    (hnew : (∃ ttl, v = .system ttl) ∨ p ∉ r.priorities) :
    Tracks (calls ++ [call]) (r.exec g (.withResolver p v timeout)) := by
  have hinserts : r.InsertsLast (.withResolver p v timeout) := by
    refine hlast.symm.imp (fun hle q hq ↦ hle q ((h.listed q).mp hq)) (h.listed p).mpr
  obtain ⟨hinv, hnodup, hmem⟩ := PriorityResolver.with_spec g h.inv h.nodup hinserts
  refine ⟨hinv, hnodup, fun q ↦ ?_, fun q ↦ ?_⟩
  · rw [priorities_concat, hpriority, Option.toList_some, List.mem_append, List.mem_singleton,
      ← h.listed, PriorityResolver.mem_priorities_iff, PriorityResolver.mem_priorities_iff]
    simp only [hmem]
    grind
  · simp only [hmem, List.mem_append, List.mem_singleton, exists_or, ← h.systems]
    by_cases hq : q = p
    · -- a system resolver that was there before is replaced
      subst hq
      have hthere : (∃ ttl, (q, .system ttl) ∈ r.contents) → q ∈ r.priorities := fun ⟨ttl, hmem⟩ ↦
        PriorityResolver.mem_priorities hmem
      rw [← hsystem]
      grind
    · have hne : ∀ opts, Call.withSystem q opts ≠ call := by
        rintro opts rfl
        exact hq (Option.some.inj hpriority)
      simp [hq, hne]

theorem Tracks.step (h : Tracks calls b.resolvers) (heffect : Effect g b t call)
    (hlast : ∀ p, call.priority = some p →
      p ∈ priorities calls ∨ ∀ q ∈ priorities calls, q ≤ p) :
    Tracks (calls ++ [call]) t.resolvers := by
  cases heffect with
  | cached hsame =>
      rw [hsame]
      exact h.same (fun _ hp ↦ by cases hp) fun _ _ heq ↦ by cases heq
  | extended hfound hsame =>
      rw [hsame]
      refine h.same (fun p hp ↦ ?_) fun _ _ heq ↦ by cases heq
      cases hp
      exact hfound
  | installed hnew hset =>
      rw [hset]
      refine h.set (hlast _ rfl) rfl (iff_of_false ?_ ?_) (.inr hnew)
      · rintro ⟨ttl, heq⟩
        cases heq
      · rintro ⟨opts, heq⟩
        cases heq
  | system hset =>
      rw [hset]
      exact h.set (hlast _ rfl) rfl ⟨fun _ ↦ ⟨_, rfl⟩, fun _ ↦ ⟨_, rfl⟩⟩ (.inl ⟨_, rfl⟩)

/-! ## Runs -/

theorem WF.exec (h : b.WF) (g : Growth) (string : Addr → GoString) {call : Call}
    (hextends : b.Extends call) :
    ∃ t, b.exec g string call = .ok t ∧ t.WF ∧ Effect g b t call := by
  cases call with
  | withCache opts now =>
      refine ⟨_, rfl, h.withCache opts now, .cached ?_⟩
      unfold Builder.withCache
      split <;> rfl
  | withDNSServers p servers opts =>
      rw [Builder.exec, Builder.withDNSServers, h.priorityResolver]
      simp only [bind, Except.bind]
      cases hget : b.resolvers.get p with
      | ok resolver =>
          have hfound := PriorityResolver.mem_priorities (PriorityResolver.mem_of_get hget)
          cases resolver with
          | lastActive ref =>
              obtain ⟨t, hservers, ht, hsame⟩ := h.withServers ref opts servers
              exact ⟨t, hservers, ht, .extended hfound hsame⟩
          | system ttl =>
              obtain rfl : servers = [] := hextends.resolve_right fun hno ↦ hno ttl hget
              exact ⟨b, rfl, h, .extended hfound rfl⟩
      | error err =>
          -- a new last-active resolver, which then gets the servers
          let b' : Builder := { b.newLastActive.2 with
            resolvers := b.resolvers.exec g
              (.withResolver p (.lastActive b.freshLastActive) opts.priorityFailureTimeout) }
          have hnew : b'.WF := h.update holds_new rfl rfl
          obtain ⟨t, hservers, ht, hsame⟩ := hnew.withServers b.freshLastActive opts servers
          exact ⟨t, hservers, ht, .installed (PriorityResolver.not_mem_of_get hget) hsame⟩
  | withSystem p opts =>
      rw [Builder.exec, Builder.withSystem, h.priorityResolver]
      exact ⟨_, rfl, ⟨h.root, h.linked⟩, .system rfl⟩

theorem extends_of_exec (h : b.WF) {call : Call} (hexec : b.exec g string call = .ok t) :
    b.Extends call := by
  cases call with
  | withDNSServers p servers opts =>
      rw [Builder.exec, Builder.withDNSServers, h.priorityResolver] at hexec
      simp only [bind, Except.bind] at hexec
      cases servers with
      | nil => exact .inl rfl
      | cons server servers =>
          refine .inr fun ttl hget ↦ ?_
          rw [hget] at hexec
          -- the assertion fails at the first server
          cases hexec
  | withCache | withSystem => trivial

theorem WF.step (h : b.WF) {call : Call} (hstep : b.step g string call = some t) :
    t.WF ∧ Effect g b t call := by
  have hexec := toOption_eq_some_iff.mp hstep
  obtain ⟨t', hexec', hwf, heffect⟩ := h.exec g string (extends_of_exec h hexec)
  cases hexec.symm.trans hexec'
  exact ⟨hwf, heffect⟩

theorem WF.returns_iff (h : b.WF) (call : Call) :
    (∃ t, b.step g string call = some t) ↔ b.Extends call := by
  constructor
  · rintro ⟨t, hstep⟩
    exact extends_of_exec h (toOption_eq_some_iff.mp hstep)
  · intro hextends
    obtain ⟨t, hexec, -⟩ := h.exec g string hextends
    exact ⟨t, toOption_eq_some_iff.mpr hexec⟩

theorem run_tracks (hasc : Ascending calls)
    (hrun : runSteps (step g string) calls new = some b) : b.WF ∧ Tracks calls b.resolvers := by
  induction calls using List.reverseRecOn generalizing b with
  | nil =>
      cases hrun
      exact ⟨new_wf, tracks_nil⟩
  | append_singleton calls call ih =>
      rw [runSteps_concat] at hrun
      obtain ⟨b', hcalls, hstep⟩ := Option.bind_eq_some_iff.mp hrun
      obtain ⟨hwf, htracks⟩ := ih hasc.of_concat hcalls
      obtain ⟨hwf', heffect⟩ := hwf.step hstep
      exact ⟨hwf', htracks.step heffect fun p ↦ hasc calls call [] p rfl⟩

theorem Tracks.extends_iff (h : Tracks calls b.resolvers) :
    b.Extends call ↔ ∀ c ∈ calls, ¬ Clash c call := by
  cases call with
  | withCache | withSystem => simp [Extends, Clash]
  | withDNSServers p servers opts =>
      have hsystems : (∀ ttl, b.resolvers.get p ≠ .ok (.system ttl)) ↔
          ∀ opts, .withSystem p opts ∉ calls := by
        simp only [ne_eq, PriorityResolver.get_eq_ok_iff h.nodup]
        rw [← not_exists, h.systems, not_exists]
      rw [Extends, hsystems]
      constructor
      · intro hextends c hc hclash
        cases c with
        | withSystem q opts' =>
            obtain ⟨rfl, hservers⟩ := hclash
            exact hextends.resolve_left hservers opts' hc
        | withCache | withDNSServers => exact hclash
      · intro hno
        by_cases hservers : servers = []
        · exact .inl hservers
        · exact .inr fun opts' hc ↦ hno _ hc ⟨rfl, hservers⟩

theorem returns_iff_pairwise (g : Growth) (string : Addr → GoString) (hasc : Ascending calls) :
    (∃ b, runSteps (step g string) calls new = some b) ↔
      calls.Pairwise fun c d ↦ ¬ Clash c d := by
  induction calls using List.reverseRecOn with
  | nil => exact ⟨fun _ ↦ .nil, fun _ ↦ ⟨new, rfl⟩⟩
  | append_singleton calls call ih =>
      have ih := ih hasc.of_concat
      simp only [runSteps_concat, List.pairwise_append, List.pairwise_singleton, true_and,
        List.mem_singleton, forall_eq]
      constructor
      · rintro ⟨t, ht⟩
        obtain ⟨b, hcalls, hstep⟩ := Option.bind_eq_some_iff.mp ht
        obtain ⟨hwf, htracks⟩ := run_tracks hasc.of_concat hcalls
        exact ⟨ih.mp ⟨b, hcalls⟩, htracks.extends_iff.mp ((hwf.returns_iff call).mp ⟨t, hstep⟩)⟩
      · rintro ⟨hcalls, hlast⟩
        obtain ⟨b, hb⟩ := ih.mpr hcalls
        obtain ⟨hwf, htracks⟩ := run_tracks hasc.of_concat hb
        obtain ⟨t, ht⟩ := (hwf.returns_iff call).mpr (htracks.extends_iff.mpr hlast)
        exact ⟨t, by rw [hb]; exact ht⟩

/-! ## The cache -/

def Call.isCache : Call → Bool
  | .withCache .. => true
  | _ => false

/-- The priority resolver with all that is in it. -/
def uncached (b : Builder) : Builder := { b with root := .priority }

theorem withServer_uncached (resolver : Installed) (opts : Options) (b : Builder) (server : Addr) :
    (b.withServer string resolver opts server).map uncached =
      b.uncached.withServer string resolver opts server := by
  cases resolver with
  | system ttl => rfl
  | lastActive ref =>
      unfold withServer
      change Except.map uncached (Except.bind (LastActive.add (b.lastActives ref) _ _ _) _) =
        Except.bind (LastActive.add (b.lastActives ref) _ _ _) _
      cases LastActive.add (b.lastActives ref) (string server) _ true <;> rfl

theorem withServers_uncached (resolver : Installed) (opts : Options) (servers : List Addr)
    (b : Builder) :
    (servers.foldlM (withServer string resolver opts) b).map uncached =
      servers.foldlM (withServer string resolver opts) b.uncached := by
  induction servers generalizing b with
  | nil => rfl
  | cons server servers ih =>
      rw [List.foldlM_cons, List.foldlM_cons, ← withServer_uncached]
      cases b.withServer string resolver opts server with
      | error crash => rfl
      | ok t => exact ih t

theorem exec_uncached (h : b.WF) (hcall : call.isCache = false) :
    (b.exec g string call).map uncached = b.uncached.exec g string call := by
  have h' : b.uncached.WF := ⟨.inl rfl, h.linked⟩
  cases call with
  | withCache => cases hcall
  | withSystem p opts =>
      rw [Builder.exec, Builder.exec, withSystem, withSystem, h.priorityResolver,
        h'.priorityResolver]
      rfl
  | withDNSServers p servers opts =>
      rw [Builder.exec, Builder.exec, withDNSServers, withDNSServers, h.priorityResolver,
        h'.priorityResolver]
      simp only [bind, Except.bind]
      cases hget : b.resolvers.get p with
      | ok resolver =>
          rw [show b.uncached.resolvers.get p = .ok resolver from hget]
          exact withServers_uncached resolver opts servers b
      | error err =>
          rw [show b.uncached.resolvers.get p = .error err from hget]
          exact withServers_uncached ..

theorem withCache_uncached (b : Builder) (opts : Options) (now : Time) :
    (b.withCache opts now).uncached = b.uncached := by
  unfold withCache
  split <;> rfl

theorem run_uncached (h : b.WF) (calls : List Call) :
    (runSteps (step g string) calls b).map uncached =
      runSteps (step g string) (calls.filter fun call ↦ !call.isCache) b.uncached := by
  induction calls generalizing b with
  | nil => rfl
  | cons call calls ih =>
      cases hcall : call.isCache with
      | true =>
          rw [List.filter_cons_of_neg (by simp [hcall])]
          cases call with
          | withCache opts now =>
              rw [← withCache_uncached b opts now]
              exact ih (h.withCache opts now)
          | withDNSServers | withSystem => cases hcall
      | false =>
          rw [List.filter_cons_of_pos (by simp [hcall]), runSteps, runSteps, step, step,
            ← exec_uncached h hcall]
          cases hexec : b.exec g string call with
          | error crash => rfl
          | ok t => exact ih (h.step (toOption_eq_some_iff.mpr hexec)).1

/-! ## Every sequence of calls -/

/-- A sequence of calls panics exactly where servers are added to a system resolver.  If its
priorities come in ascending order, these are the servers for the priority of an earlier
`WithSystem`; otherwise the list may have the resolver at another priority as well.  Wherever the
cache is put in front of it, the priority resolver is the same. -/
theorem run_returns_iff (g : Growth) (string : Addr → GoString) (calls : List Call) :
    ((∃ b, runSteps (step g string) calls new = some b) ↔
      EveryTurn (step g string) Extends calls new) ∧
    (Ascending calls →
      ((∃ b, runSteps (step g string) calls new = some b) ↔
        calls.Pairwise fun c d ↦ ¬ Clash c d)) ∧
    ∀ calls' : List Call,
      calls'.filter (fun call ↦ !call.isCache) = calls.filter (fun call ↦ !call.isCache) →
      (runSteps (step g string) calls' new).map uncached =
        (runSteps (step g string) calls new).map uncached := by
  refine ⟨?_, returns_iff_pairwise g string, fun calls' hcalls ↦ ?_⟩
  · apply runSteps_iff_everyTurn (P := WF) _ _ calls new_wf
    · exact fun b call h ↦ h.returns_iff call
    · exact fun b call t h hstep ↦ (h.step hstep).1
  · rw [run_uncached new_wf, run_uncached new_wf, hcalls]

/-- Servers for the priority of a system resolver.  And servers for priority 2, whose last-active
resolver the second `WithSystem` of priority 1 has replaced: the list was not in order. -/
theorem withDNSServers_panics :
    (runSteps (step .doubling id) [.withSystem 1 .defaults] new).map
        (fun b ↦ (b.exec .doubling id (.withDNSServers 1 [[8, 8, 8, 8]] .defaults)).isOk) =
      some false ∧
    (runSteps (step .doubling id) [.withDNSServers 2 [[8, 8, 8, 8]] .defaults,
          .withSystem 1 .defaults, .withSystem 3 .defaults, .withSystem 1 .defaults]
        new).map
        (fun b ↦ (b.exec .doubling id (.withDNSServers 2 [[8, 8, 8, 8]] .defaults)).isOk) =
      some false := by
  decide +kernel

end Builder

end CommonLib.XDNS.Client
