import CommonLib.IPAM.Netfilter

/-!
# Which subnets the isolation rules match

A prefix is rounded up to whole bytes before addresses are compared, so the rules match a subnet
exactly when its prefix ends at a byte.
-/

namespace CommonLib.IPAM

open CommonLib.Reasoning CommonLib.Reasoning.NFTables CommonLib.XNet

/-- An IPv4 packet from `s` to `d`. -/
structure IsIPv4 (pkt : Packet) (s d : Quad) : Prop where
  length_le : 20 ≤ pkt.network.length
  protocol : pkt.network[9]? = some pkt.l4proto
  source : (pkt.network.drop 12).take 4 = s.bytes
  destination : (pkt.network.drop 16).take 4 = d.bytes

def maskByte (ones : Nat) : UInt8 := if 8 ≤ ones then 0xff else ~~~(0xff >>> UInt8.ofNat ones)

/-- `net.CIDRMask(ones, 32)`. -/
def cidrMask (ones : Nat) : IPMask :=
  ⟨[maskByte ones, maskByte (ones - 8), maskByte (ones - 16), maskByte (ones - 24)]⟩

/-- `net.IPNet.Contains` for the subnet of `n` with a prefix of that many ones. -/
def inSubnet (n : Quad) (ones : Nat) (q : Quad) : Prop :=
  n.a &&& maskByte ones = q.a &&& maskByte ones ∧
    n.b &&& maskByte (ones - 8) = q.b &&& maskByte (ones - 8) ∧
    n.c &&& maskByte (ones - 16) = q.c &&& maskByte (ones - 16) ∧
    n.d &&& maskByte (ones - 24) = q.d &&& maskByte (ones - 24)

theorem size_cidrMask {ones : Nat} (h : ones ≤ 30) : (cidrMask ones).size = (ones, 32) := by
  interval_cases ones <;> decide

theorem ipnetSizeBytes_cidrMask (ip : IP) {ones : Nat} (h : ones ≤ 30) :
    ipnetSizeBytes ⟨ip, cidrMask ones⟩ =
      if ones ≤ 8 then 1 else if ones ≤ 16 then 2 else if ones ≤ 24 then 3 else 4 := by
  unfold ipnetSizeBytes
  rw [size_cidrMask h]

theorem isolationExprs_run {pkt : Packet} {s d : Quad} (h : IsIPv4 pkt s d) (src dst : List UInt8)
    (userData : List UInt8) :
    Rule.run ⟨userData, isolationExprs src dst⟩ pkt = some .drop ↔
      s.bytes.take src.length = src ∧ d.bytes.take dst.length = dst := by
  have hlen := h.length_le
  unfold Rule.run isolationExprs
  rw [runExprs_payload_cmpEq pkt (by change 16 ≤ pkt.network.length; omega)]
  change (if ((pkt.network.drop 12).take 4).take src.length = src then _ else none) = _ ↔ _
  rw [h.source]
  by_cases hsrc : s.bytes.take src.length = src
  · rw [if_pos hsrc, runExprs_payload_cmpEq pkt (by change 20 ≤ pkt.network.length; omega)]
    change (if ((pkt.network.drop 16).take 4).take dst.length = dst then _ else none) = _ ↔ _
    rw [h.destination]
    by_cases hdst : d.bytes.take dst.length = dst
    · rw [if_pos hdst]
      exact iff_of_true rfl ⟨hsrc, hdst⟩
    · rw [if_neg hdst]
      exact iff_of_false nofun fun hand ↦ hdst hand.2
  · rw [if_neg hsrc]
    exact iff_of_false nofun fun hand ↦ hsrc hand.1

theorem take_bytes_eq (q n : Quad) (k : Nat) :
    q.bytes.take (n.bytes.take k).length = n.bytes.take k ↔
      q.bytes.take k = n.bytes.take k := by
  have hlen : (n.bytes.take k).length = min k 4 := by simp [Quad.bytes]
  have htake : q.bytes.take (min k 4) = q.bytes.take k := by
    rcases Nat.le_total k 4 with hk | hk
    · rw [Nat.min_eq_left hk]
    · rw [Nat.min_eq_right hk, List.take_of_length_le (by simp [Quad.bytes]),
        List.take_of_length_le (by simp [Quad.bytes]; omega)]
  rw [hlen, htake]

def ipv4Packet (protocol : UInt8) (s d : Quad) (transport : List UInt8) : Packet where
  network := [0x45, 0, 0, 0, 0, 0, 0, 0, 64, protocol, 0, 0] ++ s.bytes ++ d.bytes
  l4proto := protocol
  transport := transport

theorem ipv4Packet_isIPv4 (protocol : UInt8) (s d : Quad) (transport : List UInt8) :
    IsIPv4 (ipv4Packet protocol s d transport) s d :=
  ⟨le_rfl, rfl, rfl, rfl⟩

/-! ## Prefixes that end at a byte -/

theorem and_maskByte_full {ones : Nat} (h : 8 ≤ ones) (x : UInt8) : x &&& maskByte ones = x := by
  unfold maskByte
  rw [if_pos h]
  exact UInt8.and_neg_one

theorem and_maskByte_zero (x : UInt8) : x &&& maskByte 0 = 0 := by
  rw [show maskByte 0 = 0 from by decide, UInt8.and_zero]

theorem take_eq_inSubnet {k : Nat} (hk : k = 1 ∨ k = 2 ∨ k = 3) (q n : Quad) :
    q.bytes.take k = n.bytes.take k ↔ inSubnet n (8 * k) q := by
  unfold inSubnet
  rcases hk with rfl | rfl | rfl <;>
    simp [Quad.bytes, and_maskByte_full, and_maskByte_zero, eq_comm]

/-! ## Prefixes that end inside a byte -/

theorem xor_one_and {x m : UInt8} (h : m &&& 1 = 0) : (x ^^^ 1) &&& m = x &&& m := by
  apply UInt8.toBitVec_inj.mp
  apply BitVec.eq_of_getLsbD_eq
  intro i hi
  have hm : (m.toBitVec &&& (1 : UInt8).toBitVec).getLsbD i = false := by
    rw [← UInt8.toBitVec_and, h]
    simp
  rw [BitVec.getLsbD_and] at hm
  rw [UInt8.toBitVec_and, UInt8.toBitVec_xor, UInt8.toBitVec_and, BitVec.getLsbD_and,
    BitVec.getLsbD_and, BitVec.getLsbD_xor]
  revert hm
  cases m.toBitVec.getLsbD i <;> cases (1 : UInt8).toBitVec.getLsbD i <;> simp

theorem maskByte_and_one {ones : Nat} (h : ones < 8) : maskByte ones &&& 1 = 0 := by
  interval_cases ones <;> decide

/-- The lowest bit of the last byte compared belongs to the host part, so an address of the subnet
that differs in it is not matched. -/
theorem exists_unmatched (n : Quad) {ones : Nat} (hones : ones ≤ 30)
    (hbyte : ¬ (ones = 8 ∨ ones = 16 ∨ ones = 24)) (ip : IP) :
    ∃ q, inSubnet n ones q ∧
      q.bytes.take (ipnetSizeBytes ⟨ip, cidrMask ones⟩) ≠
        n.bytes.take (ipnetSizeBytes ⟨ip, cidrMask ones⟩) := by
  rw [ipnetSizeBytes_cidrMask ip hones]
  by_cases h8 : ones ≤ 8
  · refine ⟨{ n with a := n.a ^^^ 1 }, ⟨?_, rfl, rfl, rfl⟩, ?_⟩
    · exact (xor_one_and (maskByte_and_one (by omega))).symm
    · rw [if_pos h8]
      simp [Quad.bytes]
  by_cases h16 : ones ≤ 16
  · refine ⟨{ n with b := n.b ^^^ 1 }, ⟨rfl, ?_, rfl, rfl⟩, ?_⟩
    · exact (xor_one_and (maskByte_and_one (by omega))).symm
    · rw [if_neg h8, if_pos h16]
      simp [Quad.bytes]
  by_cases h24 : ones ≤ 24
  · refine ⟨{ n with c := n.c ^^^ 1 }, ⟨rfl, rfl, ?_, rfl⟩, ?_⟩
    · exact (xor_one_and (maskByte_and_one (by omega))).symm
    · rw [if_neg h8, if_neg h16, if_pos h24]
      simp [Quad.bytes]
  · refine ⟨{ n with d := n.d ^^^ 1 }, ⟨rfl, rfl, rfl, ?_⟩, ?_⟩
    · exact (xor_one_and (maskByte_and_one (by omega))).symm
    · rw [if_neg h8, if_neg h16, if_neg h24]
      simp [Quad.bytes]

/-! ## The rules -/

/-- The rules for the subnet of `n` match exactly the packets they are meant for. -/
structure IsolatesSubnet (ip : IP) (n : Quad) (ones : Nat) : Prop where
  all : ∃ rule, newIsolateAllRule ⟨ip, cidrMask ones⟩ = .ok rule ∧ ∀ pkt s d, IsIPv4 pkt s d →
    (rule.run pkt = some .drop ↔ inSubnet n ones s ∧ inSubnet n ones d)
  peer : ∀ (peerIP : IP) p, peerIP.to4 = some p → inSubnet n ones p →
    ∃ rule, newIsolatePeerRule (ipnetSizeBytes ⟨ip, cidrMask ones⟩) peerIP = .ok rule ∧
      ∀ pkt s d, IsIPv4 pkt s d → (rule.run pkt = some .drop ↔ s = p ∧ inSubnet n ones d)

theorem isolatesSubnet_of_take {ip : IP} {n : Quad} (hn : ip.to4 = some n) {ones k : Nat}
    (hk : ipnetSizeBytes ⟨ip, cidrMask ones⟩ = k)
    (htake : ∀ q m : Quad, q.bytes.take k = m.bytes.take k ↔ inSubnet m ones q) :
    IsolatesSubnet ip n ones where
  all := by
    unfold newIsolateAllRule
    rw [hn, hk]
    refine ⟨_, rfl, fun pkt s d hpkt ↦ ?_⟩
    rw [isolationExprs_run hpkt, take_bytes_eq, take_bytes_eq, htake, htake]
  peer peerIP p hp hmem := by
    unfold newIsolatePeerRule
    rw [hp, hk]
    refine ⟨_, rfl, fun pkt s d hpkt ↦ ?_⟩
    rw [isolationExprs_run hpkt, take_bytes_eq, htake]
    -- The destination is compared with the peer's own prefix, which is that of the subnet.
    have hsame : inSubnet p ones d ↔ inSubnet n ones d := by
      rw [← htake, ← htake, (htake p n).mpr hmem]
    have hsrc : s.bytes.take p.bytes.length = p.bytes ↔ s = p := by
      obtain ⟨sa, sb, sc, sd⟩ := s
      obtain ⟨pa, pb, pc, pd⟩ := p
      simp [Quad.bytes]
    rw [hsrc, hsame]

theorem isolatesSubnet_iff (ip : IP) (n : Quad) (hn : ip.to4 = some n) (ones : Nat)
    (hones : ones ≤ 30) : IsolatesSubnet ip n ones ↔ ones = 8 ∨ ones = 16 ∨ ones = 24 := by
  constructor
  · intro h
    by_contra hbyte
    obtain ⟨q, hq, hne⟩ := exists_unmatched n hones hbyte ip
    obtain ⟨rule, hrule, hmatch⟩ := h.all
    have hpkt := ipv4Packet_isIPv4 0 q q []
    unfold newIsolateAllRule at hrule
    rw [hn] at hrule
    cases hrule
    have hdrop := (hmatch _ q q hpkt).mpr ⟨hq, hq⟩
    rw [isolationExprs_run hpkt, take_bytes_eq] at hdrop
    exact hne hdrop.1
  · intro hbyte
    obtain ⟨k, hk, rfl⟩ : ∃ k, (k = 1 ∨ k = 2 ∨ k = 3) ∧ ones = 8 * k :=
      ⟨ones / 8, by omega, by omega⟩
    have hsize : ipnetSizeBytes ⟨ip, cidrMask (8 * k)⟩ = k := by
      rw [ipnetSizeBytes_cidrMask ip hones]
      split_ifs <;> omega
    exact isolatesSubnet_of_take hn hsize (take_eq_inSubnet hk)

theorem isolatesSubnet_classC :
    IsolatesSubnet ⟨[192, 168, 1, 0]⟩ ⟨192, 168, 1, 0⟩ 24 :=
  (isolatesSubnet_iff ⟨[192, 168, 1, 0]⟩ ⟨192, 168, 1, 0⟩ rfl 24 (by decide)).mpr
    (.inr (.inr rfl))

/-- In `10.0.0.0/20` a packet from `10.0.1.2` to `10.0.1.3` stays inside the subnet and is not
matched. -/
theorem isolateAll_misses_slash20 :
    ∃ rule, newIsolateAllRule ⟨⟨[10, 0, 0, 0]⟩, cidrMask 20⟩ = .ok rule ∧
      inSubnet ⟨10, 0, 0, 0⟩ 20 ⟨10, 0, 1, 2⟩ ∧ inSubnet ⟨10, 0, 0, 0⟩ 20 ⟨10, 0, 1, 3⟩ ∧
      IsIPv4 (ipv4Packet 17 ⟨10, 0, 1, 2⟩ ⟨10, 0, 1, 3⟩ []) ⟨10, 0, 1, 2⟩ ⟨10, 0, 1, 3⟩ ∧
      rule.run (ipv4Packet 17 ⟨10, 0, 1, 2⟩ ⟨10, 0, 1, 3⟩ []) = none :=
  ⟨_, rfl, by unfold inSubnet; decide, by unfold inSubnet; decide, ipv4Packet_isIPv4 .., by decide⟩

end CommonLib.IPAM
