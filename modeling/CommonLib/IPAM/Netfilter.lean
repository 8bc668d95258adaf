import CommonLib.Reasoning.NFTables
import CommonLib.XNet.IP

/-!
# The rules the address manager installs

Peers of a subnet are kept apart by a rule for the whole subnet or by one for each peer; both
compare a number of whole bytes of the addresses.  Ports are filtered through one interval set for
each protocol.
-/

namespace CommonLib.IPAM

open CommonLib.Reasoning CommonLib.Reasoning.NFTables CommonLib.XNet

/-! ## Isolation -/

/-- The number of bytes of an address that name its subnet. -/
def ipnetSizeBytes (ipn : IPNet) : Nat :=
  let ones := ipn.mask.size.1
  if ones ≤ 8 then 1 else if ones ≤ 16 then 2 else if ones ≤ 24 then 3 else 4

/-- Source and destination address against `src` and `dst`, then drop. -/
def isolationExprs (src dst : List UInt8) : List Expr :=
  [.payload 1 .networkHeader 12 4, .cmpEq 1 src, .payload 1 .networkHeader 16 4, .cmpEq 1 dst,
    .verdict .drop]

/-- The rule `newIsolatePeerRule` adds; the peer's address identifies it. -/
def newIsolatePeerRule (subnetSize : Nat) (peerIP : IP) : Except Crash Rule :=
  match peerIP.to4 with
  | none => .error .indexOutOfRange
  | some q => .ok ⟨q.bytes, isolationExprs q.bytes (q.bytes.take subnetSize)⟩

def newIsolateAllRule (ipNet : IPNet) : Except Crash Rule :=
  match ipNet.ip.to4 with
  | none => .error .indexOutOfRange
  | some q =>
      let subnet := q.bytes.take (ipnetSizeBytes ipNet)
      .ok ⟨[0xc0, 0xde, 0x01], isolationExprs subnet subnet⟩

/-! ## Port restrictions -/

structure PortRange where
  low : UInt16
  high : UInt16
deriving DecidableEq, Repr

inductive ListMode
  | blockList
  | allowList
deriving DecidableEq, Repr

def ListMode.isAllowList : ListMode → Bool
  | .allowList => true
  | .blockList => false

structure ProtocolID where
  name : String
  id : UInt8
deriving DecidableEq, Repr

def protocolUDP : ProtocolID := ⟨"UDP", 17⟩
def protocolTCP : ProtocolID := ⟨"TCP", 6⟩

def nftUint16ToKey (v : UInt16) : List UInt8 := [(v >>> 8).toUInt8, v.toUInt8]

/-- The loop over the sorted ranges. -/
def portElements : List PortRange → UInt16 → List SetElement
  | [], _ => []
  | r :: rest, highest =>
      if r.low ≤ highest then portElements rest highest
      else
        ⟨nftUint16ToKey r.low, false⟩ :: ⟨nftUint16ToKey (r.high + 1), true⟩ ::
          portElements rest r.high

/-- The order `sort.Slice` may leave the ranges in: it is not stable, so those with one lower end
come in any order. -/
def SortsTo (ports sorted : List PortRange) : Prop :=
  sorted.Perm ports ∧ sorted.Pairwise fun r s ↦ r.low ≤ s.low

/-- The rules `setBlockedPorts4proto` adds; `sorted` is what the sort makes of the ports. -/
def setBlockedPorts4proto (ports : Option (List PortRange)) (sorted : List PortRange)
    (proto : ProtocolID) (mode : ListMode) : List Rule :=
  match ports with
  | none => []
  | some _ =>
      let verdict := if mode.isAllowList then Verdict.accept else Verdict.drop
      let portRule : Rule := ⟨[], [.loadL4Proto 1, .cmpEq 1 [proto.id],
        .payload 1 .transportHeader 2 2, .lookup 1 (portElements sorted 0), .counter,
        .verdict verdict]⟩
      if mode.isAllowList then
        [portRule, ⟨[], [.payload 1 .networkHeader 9 1, .cmpEq 1 [proto.id], .counter,
          .verdict .drop]⟩]
      else [portRule]

structure ProtocolPortConfig where
  mode : ListMode
  ports : Option (List PortRange)
deriving DecidableEq, Repr

structure PortRestrictionConfig where
  udp : ProtocolPortConfig
  tcp : ProtocolPortConfig
deriving DecidableEq, Repr

def portRange (low high : UInt16) : PortRange := ⟨low, high⟩

def port (port : UInt16) : PortRange := ⟨port, port⟩

def defaultPortRestrictions : PortRestrictionConfig where
  udp := ⟨.blockList, some [port 69, port 113, port 135, portRange 137 139, port 445, port 514]⟩
  tcp := ⟨.blockList, some [port 113, port 445]⟩

/-- The rules of both protocols; each list has a sort of its own. -/
def fillPortRestrictionRules (ports : PortRestrictionConfig) (sortedUDP sortedTCP : List PortRange) :
    List Rule :=
  setBlockedPorts4proto ports.udp.ports sortedUDP protocolUDP ports.udp.mode ++
    setBlockedPorts4proto ports.tcp.ports sortedTCP protocolTCP ports.tcp.mode

end CommonLib.IPAM
