import CommonLib.XDNS.Client.Direct
import CommonLib.XDNS.Client.Priority

/-!
# The chain that `WithDNSServers` builds

A priority resolver over last-active resolvers over direct ones: `lastactive.go`, the part of
`builder.go` that makes it, and a lookup through all three.
-/

namespace CommonLib.XDNS.Client

open Reasoning
open DirectResolver (Consult Env)

/-! ## The last-active resolver -/

structure LastActiveEntity (T : Type) where
  tag : T
  resolver : DirectResolver

/-- The entities in the order of their list. -/
structure LastActiveResolver (T : Type) where
  entities : List (LastActiveEntity T)

namespace LastActiveResolver

variable {T : Type}

def new : LastActiveResolver T := ⟨[]⟩

section

variable [DecidableEq T]

/-- `add`, and whether it has changed nothing because the tag exists. -/
def add (r : LastActiveResolver T) (tag : T) (resolver : DirectResolver) (replace : Bool) :
    LastActiveResolver T × Bool :=
  match r.entities.findIdx? fun entity ↦ decide (entity.tag = tag) with
  | some i =>
      if replace then (⟨r.entities.modify i fun entity ↦ { entity with resolver }⟩, false)
      else (r, true)
  | none => (⟨r.entities ++ [⟨tag, resolver⟩]⟩, false)

def withServer (r : LastActiveResolver T) (tag : T) (resolver : DirectResolver) :
    LastActiveResolver T :=
  (r.add tag resolver true).1

end

/-- `MoveToFront` of the element at `i`. -/
def moveToFront (r : LastActiveResolver T) (i : Nat) : LastActiveResolver T :=
  ⟨r.entities[i]?.toList ++ r.entities.eraseIdx i⟩

/-- The loop of `Lookup`: the place of the entity that has answered and its response. -/
def lookupLoop (request : Request) (env : Env) :
    List (LastActiveEntity T) → Nat → Option (Nat × Response) × List Consult
  | [], _ => (none, [])
  | entity :: rest, n =>
      let (result, log) := entity.resolver.lookup request env n
      match result with
      | .ok response =>
          if Response.successful (some response) then (some (0, response), log)
          else
            let (found, more) := lookupLoop request env rest (n + log.length)
            (found.map fun p ↦ (p.1 + 1, p.2), log ++ more)
      | .error _ =>
          let (found, more) := lookupLoop request env rest (n + log.length)
          (found.map fun p ↦ (p.1 + 1, p.2), log ++ more)

/-- `Lookup`; whatever the errors of the entities are, its own is `ErrDNSNoResponse`. -/
def lookup (r : LastActiveResolver T) (request : Request) (env : Env) (n : Nat) :
    Except LookupError Response × LastActiveResolver T × List Consult :=
  match lookupLoop request env r.entities n with
  | (some (i, response), log) => (.ok response, r.moveToFront i, log)
  | (none, log) => (.error .dnsNoResponse, r, log)

/-- An unsuccessful lookup has one error only, and leaves the list in its order. -/
theorem lookup_error {r : LastActiveResolver T} {request : Request} {env : Env} {n : Nat}
    {err : LookupError} (h : (r.lookup request env n).1 = .error err) :
    err = .dnsNoResponse ∧ (r.lookup request env n).2.1 = r := by
  rw [lookup] at h ⊢
  split at h
  next => cases h
  next =>
    cases h
    exact ⟨rfl, rfl⟩

end LastActiveResolver

/-! ## The chain -/

/-- A `*LastActiveResolver`. -/
abbrev LastActiveRef := Nat

/-- The tag of a server is its text, of which there is one for each address. -/
structure Chain where
  root : PriorityResolver LastActiveRef
  lists : LastActiveRef → LastActiveResolver Addr
  fresh : LastActiveRef

/-- The fields of `options` that the chain uses. -/
structure ChainOptions where
  priorityFailureTimeout : Int
  directTimeout : Int

namespace Chain

def new : Chain := ⟨.new, fun _ ↦ .new, 0⟩

def addServers (s : Chain) (list : LastActiveRef) (servers : List Addr) (opts : ChainOptions) :
    Chain :=
  let filled := servers.foldl
    (fun r server ↦ r.withServer server ⟨server, opts.directTimeout⟩) (s.lists list)
  { s with lists := Function.update s.lists list filled }

def withDNSServers (g : Growth) (s : Chain) (priority : Int) (servers : List Addr)
    (opts : ChainOptions) : Chain :=
  match s.root.get priority with
  | .ok list => s.addServers list servers opts
  | .error _ =>
      let list := s.fresh
      let s := { s with
        root := s.root.add g priority list opts.priorityFailureTimeout true
        lists := Function.update s.lists list .new
        fresh := s.fresh + 1 }
      s.addServers list servers opts

/-- The clock at the test of the entity at each place of the list, and after its lookup. -/
structure Clock where
  now : Nat → Time
  done : Nat → Time

/-- What a lookup returns, the chain it leaves, the entities whose resolver it has asked, and the
runs of `once`. -/
structure Outcome where
  result : Except LookupError Response
  chain : Chain
  asked : List EntityRef
  log : List Consult

def list (s : Chain) (e : EntityRef) : LastActiveResolver Addr :=
  s.lists (s.root.entities e).resolver

/-- The time since its last failure lets the entity be asked. -/
def Rested (s : Chain) (e : EntityRef) (now : Time) : Prop :=
  PriorityResolver.timeSince now (s.root.entities e).failedAt > (s.root.entities e).failureTimeout

instance (s : Chain) (e : EntityRef) (now : Time) : Decidable (s.Rested e now) :=
  inferInstanceAs (Decidable (_ > _))

def setList (s : Chain) (e : EntityRef) (list : LastActiveResolver Addr) : Chain :=
  { s with lists := Function.update s.lists (s.root.entities e).resolver list }

def setFailedAt (s : Chain) (e : EntityRef) (t : Time) : Chain :=
  { s with root := s.root.setFailedAt e t }

/-- The loop of `PriorityResolver.Lookup` from the place `i` on. -/
def lookupLoop (request : Request) (env : Env) (clock : Clock) :
    List EntityRef → Nat → Nat → Chain → Outcome
  | [], _, _, s => ⟨.error .dnsNoResponse, s, [], []⟩
  | e :: rest, i, n, s =>
      if s.Rested e (clock.now i) then
        let (result, list, log) := (s.list e).lookup request env n
        let s := s.setList e list
        match result with
        | .ok response => ⟨.ok response, s, [e], log⟩
        | .error err =>
            let s := if err ≠ .dnsEmptyResponse ∧ err ≠ .dnsNotExists then
              s.setFailedAt e (clock.done i) else s
            let next := lookupLoop request env clock rest (i + 1) (n + log.length) s
            { next with asked := e :: next.asked, log := log ++ next.log }
      else lookupLoop request env clock rest (i + 1) n s

def lookup (s : Chain) (request : Request) (env : Env) (clock : Clock) : Outcome :=
  lookupLoop request env clock s.root.refs 0 0 s

/-! ## One round of the loop -/

section Round

variable {request : Request} {env : Env} {clock : Clock} {e : EntityRef} {rest : List EntityRef}
  {i n : Nat} {s : Chain}

theorem lookupLoop_skip (h : ¬ s.Rested e (clock.now i)) :
    lookupLoop request env clock (e :: rest) i n s =
      lookupLoop request env clock rest (i + 1) n s := by
  rw [lookupLoop, if_neg h]

theorem lookupLoop_response (h : s.Rested e (clock.now i)) {response : Response}
    (hok : ((s.list e).lookup request env n).1 = .ok response) :
    lookupLoop request env clock (e :: rest) i n s =
      ⟨.ok response, s.setList e ((s.list e).lookup request env n).2.1, [e],
        ((s.list e).lookup request env n).2.2⟩ := by
  rw [lookupLoop, if_pos h]
  simp only [hok]

/-- An error of the list is a failure of the entity. -/
theorem lookupLoop_failure (h : s.Rested e (clock.now i)) {err : LookupError}
    (herr : ((s.list e).lookup request env n).1 = .error err) :
    lookupLoop request env clock (e :: rest) i n s =
      let log := ((s.list e).lookup request env n).2.2
      let next := lookupLoop request env clock rest (i + 1) (n + log.length)
        (s.setFailedAt e (clock.done i))
      { next with asked := e :: next.asked, log := log ++ next.log } := by
  obtain ⟨rfl, hlist⟩ := LastActiveResolver.lookup_error herr
  have hlists : s.setList e (s.list e) = s := by
    rw [setList, list, Function.update_eq_self]
  rw [lookupLoop, if_pos h]
  simp only [herr, hlist, hlists]
  rfl

end Round

/-! ## The priority resolver in the chain -/

open PriorityResolver (Probe)

/-- The loop meets only the probes from its place on. -/
theorem lookupLoop_probe_congr {R Resp : Type} {probe probe' : Nat → Probe Resp}
    {rest : List EntityRef} {i : Nat} (r : PriorityResolver R)
    (h : ∀ j, i ≤ j → probe j = probe' j) :
    PriorityResolver.lookupLoop probe rest i r = PriorityResolver.lookupLoop probe' rest i r := by
  induction rest generalizing i r with
  | nil => rfl
  | cons e rest ih =>
      have hnext : ∀ r, PriorityResolver.lookupLoop probe rest (i + 1) r =
          PriorityResolver.lookupLoop probe' rest (i + 1) r :=
        fun r ↦ ih r fun j hj ↦ h j (by omega)
      simp only [PriorityResolver.lookupLoop, h i le_rfl, hnext]

/-- The loop of the chain is the priority resolver's, for what its lists answer. -/
theorem lookupLoop_eq_priority (request : Request) (env : Env) (clock : Clock)
    (rest : List EntityRef) (i n : Nat) (s : Chain) :
    ∃ probe, (PriorityResolver.lookupLoop probe rest i s.root).1.toOption =
        (lookupLoop request env clock rest i n s).result.toOption ∧
      (PriorityResolver.lookupLoop probe rest i s.root).2 =
        ((lookupLoop request env clock rest i n s).chain.root,
          (lookupLoop request env clock rest i n s).asked) := by
  induction rest generalizing i n s with
  | nil => exact ⟨fun _ ↦ ⟨0, .noData, 0⟩, rfl, rfl⟩
  | cons e rest ih =>
      -- the probes of the later places, with that of this place put in front
      have hprobe : ∀ (first : Probe Response) (later : Nat → Probe Response),
          ∃ probe, probe i = first ∧ ∀ r : PriorityResolver LastActiveRef,
            PriorityResolver.lookupLoop probe rest (i + 1) r =
              PriorityResolver.lookupLoop later rest (i + 1) r := by
        intro first later
        refine ⟨Function.update later i first, Function.update_self .., fun r ↦ ?_⟩
        exact lookupLoop_probe_congr r fun j hj ↦ Function.update_of_ne (by omega) ..
      by_cases hrested : s.Rested e (clock.now i)
      · have hsince : PriorityResolver.timeSince (clock.now i) (s.root.entities e).failedAt >
            (s.root.entities e).failureTimeout := hrested
        cases hres : ((s.list e).lookup request env n).1 with
        | ok response =>
            obtain ⟨probe, hfirst, -⟩ := hprobe ⟨clock.now i, .response response, 0⟩
              fun _ ↦ ⟨0, .noData, 0⟩
            refine ⟨probe, ?_⟩
            rw [lookupLoop_response hrested hres, PriorityResolver.lookupLoop]
            simp only [hfirst, if_pos hsince]
            exact ⟨rfl, rfl⟩
        | error err =>
            obtain ⟨later, hresult, hrest⟩ := ih (i + 1)
              (n + ((s.list e).lookup request env n).2.2.length) (s.setFailedAt e (clock.done i))
            obtain ⟨probe, hfirst, hlater⟩ := hprobe ⟨clock.now i, .failure, clock.done i⟩ later
            refine ⟨probe, ?_⟩
            rw [lookupLoop_failure hrested hres, PriorityResolver.lookupLoop]
            simp only [hfirst, if_pos hsince, hlater]
            exact ⟨hresult, congrArg (fun p ↦ (p.1, e :: p.2)) hrest⟩
      · have hsince : ¬ PriorityResolver.timeSince (clock.now i) (s.root.entities e).failedAt >
            (s.root.entities e).failureTimeout := hrested
        obtain ⟨later, hresult, hrest⟩ := ih (i + 1) n s
        obtain ⟨probe, hfirst, hlater⟩ := hprobe ⟨clock.now i, .noData, 0⟩ later
        refine ⟨probe, ?_⟩
        rw [lookupLoop_skip hrested, PriorityResolver.lookupLoop]
        simp only [hfirst, if_neg hsince, hlater]
        exact ⟨hresult, hrest⟩

end Chain

end CommonLib.XDNS.Client
