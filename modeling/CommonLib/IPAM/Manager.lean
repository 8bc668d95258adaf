import CommonLib.IPAM.Netfilter
import CommonLib.IPAM.TrafficControl
import CommonLib.IPPool.Pool

/-!
# The address manager

`Alloc`, `Set` and `Unset` make a few calls on the pool, the packet filter and traffic control, and
hold no lock between them.  A method is given by its first call on the pool and by what it still has
to do after each call it has made.
-/

namespace CommonLib.IPAM

open CommonLib.Reasoning CommonLib.Reasoning.NFTables CommonLib.XError CommonLib.XNet
open CommonLib.IPPool

/-- `Policy.Access` is an `int`; three values have names. -/
inductive Access
  | default | internetOnly | allowAll
  | unknown (v : Int)
deriving DecidableEq, Repr

structure Policy where
  access : Access
  rateLimit : Rate
deriving DecidableEq, Repr

/-- `newNopTrafficControl` without a limiter in the configuration, `newTrafficControl` with one. -/
inductive TrafficControl
  | nop
  | htb (tc : TcWrapper)

namespace TrafficControl

def setLimit (tc : TrafficControl) (fails : NetlinkCall → Bool) (addr : IP) (rate : Rate) :
    Except Crash (Except TcError Unit × TrafficControl) :=
  match tc with
  | .nop => .ok (.ok (), .nop)
  | .htb tc => (tc.setLimit fails addr rate).map fun (r, tc) ↦ (r, .htb tc)

def removeLimit (tc : TrafficControl) (fails : NetlinkCall → Bool) (addr : IP) :
    Except Crash (Except TcError Unit × TrafficControl) :=
  match tc with
  | .nop => .ok (.ok (), .nop)
  | .htb tc => (tc.removeLimit fails addr).map fun (r, tc) ↦ (r, .htb tc)

def limitOf (tc : TrafficControl) (ip : UInt32) : Option Rate :=
  match tc with
  | .nop => none
  | .htb tc => tc.limitOf ip

end TrafficControl

/-- The first rule with this identifier goes; other chains have rules without one only. -/
def findAndRemoveRule (fails : Bool) (rules : List Rule) (id : List UInt8) :
    Except GoError Unit × List Rule :=
  if fails then (.error (.x .internalError "nft: failed to list chains"), rules)
  else if rules.any (·.userData = id) then (.ok (), rules.eraseP (·.userData = id))
  else (.error (.x .internalError "nft: no rule with given ID were found"), rules)

structure IPAM where
  defaultPol : Access
  -- Of `netfilterWrapper`, with the rules of its isolation chain.
  subnetSize : Nat
  rules : List Rule
  tc : TrafficControl
  ipp : IPv4pool

structure Config where
  subnet : Option IPNet
  interface : String
  defaultPolicy : Access
  -- `RateLimiter.TotalBandwidth`.
  rateLimiter : Option Rate

/-- The isolation chain after `init`, and after `newIsolateAllRule` if that is the default. -/
def initialRules (defaultPolicy : Access) (subnet : IPNet) : Except Crash (List Rule) :=
  if defaultPolicy = .internetOnly then
    (newIsolateAllRule subnet).map fun rule ↦ [⟨[], [.counter]⟩, rule]
  else .ok [⟨[], [.counter]⟩]

def initialTrafficControl : Option Rate → TrafficControl
  | none => .nop
  | some totalBandwidth => .htb (.new totalBandwidth)

/-- `New`, with netlink calls that succeed. -/
def new (cfg : Config) : Except Crash (Except GoError IPAM) := do
  if cfg.defaultPolicy = .default then
    return .error (.new "no default access policy given")
  match cfg.subnet with
  | none => return .error (.new "no peers subnet given")
  | some subnet =>
      if cfg.interface = "" then
        return .error (.new "no network interfce name given")
      if cfg.rateLimiter = some 0 then
        return .error (.new "no total_bandwidth value given")
      match ← newIPv4FromSubnet subnet with
      | .error e => return .error e
      | .ok ipPool =>
          let rules ← initialRules cfg.defaultPolicy subnet
          return .ok {
            defaultPol := cfg.defaultPolicy
            subnetSize := ipnetSizeBytes subnet
            rules := rules
            tc := initialTrafficControl cfg.rateLimiter
            ipp := ipPool }

/-! ## The methods, call by call -/

inductive CallError
  | pool (e : GoError)
  | nft (e : GoError)
  | tc (e : TcError)
deriving DecidableEq, Repr

/-- What a method that has called the pool is about to call next. -/
inductive Phase
  -- `applyPolicy`: `newIsolatePeerRule`, then `setLimit`, or `ipp.Unset` if one of them fails.
  | isolate (addr : IP) (pol : Policy)
  | limit (addr : IP) (pol : Policy)
  | giveBack (addr : IP) (e : CallError)
  -- `free`: `removeLimit`, then `findAndRemoveRule`.
  | unlimit (addr : IP)
  | unisolate (addr : IP)
deriving DecidableEq

def Phase.addr : Phase → IP
  | .isolate addr _ | .limit addr _ | .giveBack addr _ | .unlimit addr | .unisolate addr => addr

inductive Progress
  | next (phase : Phase)
  | done (result : Except CallError IP)

inductive Call
  | alloc (pol : Policy)
  | set (addr : IP) (pol : Policy)
  | unset (addr : IP)
deriving DecidableEq

/-- Which calls fail for reasons outside the program. -/
structure Env where
  nft : Bool
  netlink : NetlinkCall → Bool

namespace IPAM

def withDefault (m : IPAM) (pol : Policy) : Policy :=
  if pol.access = .default then { pol with access := m.defaultPol } else pol

/-- The policy `allocate` applies. -/
def allocatePolicy (m : IPAM) (pol : Policy) : Policy :=
  let pol := m.withDefault pol
  if m.defaultPol = .internetOnly ∧ pol.access = .allowAll then
    -- cannot satisfy this policy yet, fallback to internet only
    { pol with access := .internetOnly }
  else pol

def applyPolicy (m : IPAM) (addr : IP) (pol : Policy) : Phase :=
  if pol.access = .internetOnly ∧ m.defaultPol = .allowAll then .isolate addr pol
  else .limit addr pol

/-- A method up to its first call on the pool. -/
def call (m : IPAM) (draw : UInt32) : Call → Except Crash (Progress × IPAM)
  | .alloc pol => (m.ipp.alloc draw).map fun (r, ipp) ↦
      match r with
      | .error e => (.done (.error (.pool e)), { m with ipp := ipp })
      | .ok addr => (.next (m.applyPolicy addr (m.allocatePolicy pol)), { m with ipp := ipp })
  | .set addr pol => (m.ipp.set addr).map fun (r, ipp) ↦
      match r with
      | .error e => (.done (.error (.pool e)), { m with ipp := ipp })
      | .ok () => (.next (m.applyPolicy addr (m.withDefault pol)), { m with ipp := ipp })
  | .unset addr => (m.ipp.unset addr).map fun (r, ipp) ↦
      match r with
      | .error e => (.done (.error (.pool e)), { m with ipp := ipp })
      | .ok () => (.next (.unlimit addr), { m with ipp := ipp })

def resume (m : IPAM) (env : Env) : Phase → Except Crash (Progress × IPAM)
  | .isolate addr pol => (newIsolatePeerRule m.subnetSize addr).map fun rule ↦
      if env.nft then
        (.next (.giveBack addr (.nft (.x .internalError "nft: failed to isolate peer"))), m)
      else (.next (.limit addr pol), { m with rules := m.rules ++ [rule] })
  | .limit addr pol => (m.tc.setLimit env.netlink addr pol.rateLimit).map fun (r, tc) ↦
      match r with
      | .error e => (.next (.giveBack addr (.tc e)), { m with tc := tc })
      | .ok () => (.done (.ok addr), { m with tc := tc })
  | .giveBack addr e => (m.ipp.unset addr).map fun (_, ipp) ↦
      (.done (.error e), { m with ipp := ipp })
  | .unlimit addr => (m.tc.removeLimit env.netlink addr).map fun (_, tc) ↦
      (.next (.unisolate addr), { m with tc := tc })
  | .unisolate addr =>
      let id := (addr.to4.map (·.bytes)).getD []
      .ok (.done (.ok addr), { m with rules := (findAndRemoveRule env.nft m.rules id).2 })

end IPAM

end CommonLib.IPAM
