import CommonLib.Reasoning.Run
import CommonLib.XError.Error
import CommonLib.XNet.IP

/-!
# The IPv4 address pool

A pool hands out the addresses of a usable range `[min, max]` and records those in use.  Every
exported call holds the pool's lock, so a concurrent history is a sequence of these operations.
Random draws are arguments; `zap.L().Fatal` ends the process and is a crash.
-/

namespace CommonLib.IPPool

open CommonLib.Reasoning CommonLib.XError CommonLib.XNet

def errInvalidAddress : GoError := .new "non-ipv4 address given"
def errNotInRange : GoError := .new "provided ipv4 address does not fit to configured subnet"
def errAddressInUse : GoError := .new "ip address is already used"
def errNotEnoughSpace : GoError := .new "not enough space in the pool"

structure IPv4pool where
  serverIP : IP
  -- The map's values are all `true`: only its keys are read.
  used : Finset UInt32
  min : UInt32
  max : UInt32
  running : Bool

def defaultUsed (serverIP : UInt32) : Finset UInt32 := {serverIP}

def newIPv4FromSubnet (subnet : IPNet) : Except Crash (Except GoError IPv4pool) := do
  -- The log field is `subnet.String()`, which computes the network address first.
  let _ ← subnet.networkAddr
  if !subnet.ip.isv4 then
    return .error (.x .invalidArgument "can't start pool with non-ipv4 subnet")
  if subnet.mask.size.1 > 30 then
    return .error (.x .invalidArgument "need at least /30 subnet to operate")
  let minIP ← subnet.firstUsable
  let maxIP ← subnet.lastUsable
  return .ok {
    serverIP := minIP.toIP
    used := defaultUsed minIP.toUint32
    min := minIP.toUint32
    max := maxIP.toUint32
    running := true }

namespace IPv4pool

def checkRunning (pool : IPv4pool) : Except Crash Unit :=
  if pool.running then .ok () else .error (.fatal "Attempt to operate on stopped pool")

def nextAddr (pool : IPv4pool) (ip : UInt32) : UInt32 × Bool :=
  if ip ≥ pool.max then (pool.min, true) else (ip + 1, false)

def isUsed (pool : IPv4pool) (uip : UInt32) : Bool := decide (uip ∈ pool.used)

def capacity (pool : IPv4pool) : Int := (pool.max.toNat : Int) - pool.min.toNat + 1

def allocated (pool : IPv4pool) : Int := pool.used.card

def free (pool : IPv4pool) : Except Crash Int :=
  if pool.allocated > pool.capacity then
    .error (.fatal "Pool is broken - allocated more then capacity")
  else .ok (pool.capacity - pool.allocated)

/-- How the search loop of `getUnusedIP` ends. -/
inductive Search
  | found (ip : UInt32)
  | exhausted
  | cutOff
deriving DecidableEq, Repr

/-- The loop of `getUnusedIP`, for at most `fuel` evaluations of its condition. -/
def search (pool : IPv4pool) (stop : UInt32) : Nat → UInt32 → Bool → Search
  | 0, _, _ => .cutOff
  | fuel + 1, next, cycled =>
      if !cycled || next != stop then
        if !pool.isUsed next then .found next
        else
          let (next', cycledRound) := pool.nextAddr next
          search pool stop fuel next' (cycled || cycledRound)
      else .exhausted

def getUnusedIP (pool : IPv4pool) (draw : UInt32) : Except Crash IP :=
  if pool.max - pool.min + 1 = 0 then .error .divideByZero
  else
    let next := draw % (pool.max - pool.min + 1) + pool.min
    match pool.search next (pool.max.toNat - pool.min.toNat + 2) next false with
    | .found ip => .ok (uint32ToIP ip)
    | .exhausted =>
        .error (.fatal "expected to have some space in ipv4 pool, but free IP was not found")
    | .cutOff => .error .outOfFuel

def alloc (pool : IPv4pool) (draw : UInt32) : Except Crash (Except GoError IP × IPv4pool) := do
  pool.checkRunning
  if (← pool.free) = 0 then
    return (.error (.xNested .notEnoughSpace "ipv4pool" errNotEnoughSpace), pool)
  let ip ← pool.getUnusedIP draw
  let uip ← ip.toUint32
  return (.ok ip, { pool with used := insert uip pool.used })

def set (pool : IPv4pool) (ip : IP) : Except Crash (Except GoError Unit × IPv4pool) := do
  if !ip.isv4 then
    return (.error (.xNested .invalidArgument "ipv4pool" errInvalidAddress), pool)
  let uip ← ip.toUint32
  if uip < pool.min ∨ uip > pool.max then
    return (.error (.xNested .invalidArgument "ipv4pool" errNotInRange), pool)
  pool.checkRunning
  if pool.isUsed uip then
    return (.error (.xNested .entryExists "ipv4pool" errAddressInUse), pool)
  return (.ok (), { pool with used := insert uip pool.used })

def unset (pool : IPv4pool) (ip : IP) : Except Crash (Except GoError Unit × IPv4pool) := do
  if !ip.isv4 then
    return (.error (.x .invalidArgument "non-ipv4 address given"), pool)
  let uip ← ip.toUint32
  pool.checkRunning
  if !pool.isUsed uip then
    return (.error (.x .entryNotFound "ip address is not used"), pool)
  return (.ok (), { pool with used := pool.used.erase uip })

def isAvailable (pool : IPv4pool) (ip : IP) : Except Crash Bool := do
  if !ip.isv4 then return false
  let uip ← ip.toUint32
  if uip < pool.min ∨ uip > pool.max then return false
  return !pool.isUsed uip

def available (pool : IPv4pool) (draw : UInt32) : Except Crash (Except GoError IP × IPv4pool) := do
  pool.checkRunning
  if (← pool.free) = 0 then
    return (.error (.xNested .notEnoughSpace "ipv4pool" errNotEnoughSpace), pool)
  let ip ← pool.getUnusedIP draw
  return (.ok ip, pool)

end IPv4pool

/-! ## Histories of a pool -/

inductive Op
  | alloc (draw : UInt32)
  | set (ip : IP)
  | unset (ip : IP)
  | isAvailable (ip : IP)
  | available (draw : UInt32)

inductive Reply
  | address (result : Except GoError IP)
  | status (result : Except GoError Unit)
  | answer (result : Bool)

def exec (op : Op) (pool : IPv4pool) : Except Crash (Reply × IPv4pool) :=
  match op with
  | .alloc draw => (pool.alloc draw).map fun (r, p) ↦ (.address r, p)
  | .set ip => (pool.set ip).map fun (r, p) ↦ (.status r, p)
  | .unset ip => (pool.unset ip).map fun (r, p) ↦ (.status r, p)
  | .isAvailable ip => (pool.isAvailable ip).map fun b ↦ (.answer b, pool)
  | .available draw => (pool.available draw).map fun (r, p) ↦ (.address r, p)

end CommonLib.IPPool
