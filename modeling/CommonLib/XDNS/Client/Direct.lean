import CommonLib.XDNS.Client.Response

/-!
# The direct resolver

`direct.go`: one query to one server.  What the server and the protector do to a query is data.
-/

namespace CommonLib.XDNS.Client

/-- The errors of the package, and those that come from the network or the protector. -/
inductive LookupError
  | notExists
  | dnsNotExists
  | dnsNoResponse
  | dnsEmptyResponse
  | exchange
  | protect
deriving DecidableEq

namespace DNS

inductive RData
  | a (address : List UInt8)
  | aaaa (address : List UInt8)
  | other

structure RR where
  rrtype : UInt16
  ttl : UInt32
  data : RData

structure Msg where
  opcode : Nat
  rcode : Nat
  answer : List RR

def rcodeNameError : Nat := 3

/-- What `ExchangeContext` returns: a message, a message with an error, or an error alone. -/
inductive Exchange
  | answered (msg : Msg)
  | broken (msg : Msg)
  | failed

end DNS

open DNS

/-- What one run of `once` meets: whether the protector refuses, what the exchange gives, and the
clock at its end. -/
structure Reaction where
  protectFails : Bool
  exchange : Exchange
  now : Time

structure DirectResolver where
  server : Addr
  timeout : Int

def infiniteTtl : UInt32 := 365 * 24 * 3600

/-- `netip.AddrFromSlice`. -/
def addrFromSlice (bytes : List UInt8) : Option Addr :=
  if bytes.length = 4 ∨ bytes.length = 16 then some bytes else none

/-- The loop over the records of the answer: the addresses found so far and the smallest time to
live, also of records whose address is not valid. -/
def collect (queryType : UInt16) : List RR → List Addr × UInt32 → List Addr × UInt32
  | [], found => found
  | rr :: rest, (addresses, ttl) =>
      if rr.rrtype ≠ queryType then collect queryType rest (addresses, ttl)
      else
        match rr.data with
        | .a address | .aaaa address =>
            collect queryType rest (addresses ++ (addrFromSlice address).toList, min ttl rr.ttl)
        | .other => collect queryType rest (addresses, ttl)

namespace DirectResolver

/-- `once`; the resolver's own protocol errors come from a message, whatever it is. -/
def once (request : Request) (guarded : Bool) (x : Reaction) : Except LookupError Response :=
  if guarded ∧ x.protectFails then .error .protect
  else
    match x.exchange with
    | .failed => .error .exchange
    | .broken msg =>
        if msg.opcode = rcodeNameError then .error .notExists else .error .exchange
    | .answered msg =>
        -- The source compares the operation code with the code of a missing name.
        if msg.opcode = rcodeNameError then .error .notExists
        else
          let (addresses, ttl) := collect request.queryType msg.answer ([], infiniteTtl)
          if addresses.length = 0 then .error .dnsEmptyResponse
          else .ok ⟨true, addresses, x.now + ttl.toNat * 1000000000, guarded⟩

/-- A run of `once`, as the server and the protector see it. -/
structure Consult where
  server : Addr
  guarded : Bool
  reaction : Reaction

/-- The reactions to the runs of `once` of one lookup, by their number. -/
abbrev Env := Nat → Addr → Bool → Reaction

/-- `Lookup`, whose first run of `once` has number `n`. -/
def lookup (r : DirectResolver) (request : Request) (env : Env) (n : Nat) :
    Except LookupError Response × List Consult :=
  if request.noLazy then
    let x := env n r.server true
    (once request true x, [⟨r.server, true, x⟩])
  else
    let x := env n r.server false
    match once request false x with
    | .ok response => (.ok response, [⟨r.server, false, x⟩])
    | .error _ =>
        let y := env (n + 1) r.server true
        (once request true y, [⟨r.server, false, x⟩, ⟨r.server, true, y⟩])

/-- The server has answered, with no address of the kind asked for: the name does not exist or has
no such record. -/
def Consult.Negative (request : Request) (c : Consult) : Prop :=
  (c.guarded → ¬ c.reaction.protectFails) ∧
    ∃ msg, c.reaction.exchange = .answered msg ∧
      (collect request.queryType msg.answer ([], infiniteTtl)).1 = []

theorem once_negative {request : Request} {server : Addr} {guarded : Bool} {x : Reaction}
    (h : Consult.Negative request ⟨server, guarded, x⟩) :
    once request guarded x = .error .notExists ∨ once request guarded x = .error .dnsEmptyResponse := by
  obtain ⟨hprotect, msg, hmsg, hempty⟩ := h
  have hprotect : ¬ (guarded ∧ x.protectFails) := fun hp ↦ hprotect hp.1 hp.2
  change x.exchange = .answered msg at hmsg
  rw [once, if_neg hprotect, hmsg]
  by_cases hopcode : msg.opcode = rcodeNameError
  · exact .inl (if_pos hopcode)
  · right
    change (if msg.opcode = rcodeNameError then _ else _) = _
    rw [if_neg hopcode]
    simp only [hempty, List.length_nil, if_true]

/-- Negative answers are never a response. -/
theorem lookup_negative {r : DirectResolver} {request : Request} {env : Env} {n : Nat}
    (h : ∀ c ∈ (r.lookup request env n).2, c.Negative request) :
    ∃ err, (r.lookup request env n).1 = .error err := by
  have hfails : ∀ {guarded x}, Consult.Negative request ⟨r.server, guarded, x⟩ →
      ∃ err, once request guarded x = .error err := by
    intro guarded x hneg
    obtain herr | herr := once_negative hneg
    · exact ⟨_, herr⟩
    · exact ⟨_, herr⟩
  rw [lookup] at h ⊢
  split at h
  next hlazy =>
    rw [if_pos hlazy]
    exact hfails (h _ (by simp))
  next hlazy =>
    rw [if_neg hlazy]
    cases hfirst : once request false (env n r.server false) with
    | ok response =>
        simp only [hfirst] at h
        obtain ⟨err, herr⟩ := hfails (h ⟨r.server, false, env n r.server false⟩ (by simp))
        rw [hfirst] at herr
        cases herr
    | error err =>
        simp only [hfirst] at h ⊢
        exact hfails (h ⟨r.server, true, env (n + 1) r.server true⟩ (by simp))

end DirectResolver

end CommonLib.XDNS.Client
