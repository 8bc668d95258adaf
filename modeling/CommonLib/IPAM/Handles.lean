import CommonLib.IPAM.LimitFailures
import CommonLib.XNet.Subnet

/-!
# Class handles

The class of a client has the low 12 bits of its address for a minor number, in the same space as
the classes that `init` makes.  Within a subnet of at most 12 host bits no two clients share a
handle; the default class sits in the middle of that space.
-/

namespace CommonLib.IPAM

open CommonLib.Reasoning CommonLib.XNet

theorem handleForIP_toNat (ip : UInt32) : (handleForIP ip).toNat = 65536 + ip.toNat % 4096 := by
  have hminor : (0xfff &&& ip).toUInt16.toNat = ip.toNat % 4096 := by
    rw [UInt32.toNat_toUInt16, UInt32.toNat_and, Nat.and_comm]
    change (ip.toNat &&& (2 ^ 12 - 1)) % 2 ^ 16 = _
    rw [Nat.and_two_pow_sub_one_eq_mod]
    omega
  have hmajor : (makeHandle 1 (0xfff &&& ip).toUInt16).toNat =
      2 ^ 16 * 1 ||| (0xfff &&& ip).toUInt16.toNat := by
    rw [makeHandle, UInt32.toNat_or, UInt16.toNat_toUInt32]
    rfl
  rw [handleForIP, hmajor, hminor, ← Nat.two_pow_add_eq_or_of_lt (by omega)]

/-- The handles `init` gives away: the root `1:0`, the parent class and the default class. -/
def initHandles : List UInt32 := makeHandle 1 0 :: TcWrapper.reservedHandles

/-- The addresses the pool hands out to peers: the first usable one is the server's. -/
def peerAddrs (net : IPNet) : Set UInt32 :=
  { ip | ∃ lo hi, net.firstUsable = .ok lo ∧ net.lastUsable = .ok hi ∧
    lo.toUint32.toNat + 1 ≤ ip.toNat ∧ ip.toNat ≤ hi.toUint32.toNat }

structure HandlesApart (net : IPNet) : Prop where
  injOn : Set.InjOn handleForIP (peerAddrs net)
  free : ∀ ip ∈ peerAddrs net, handleForIP ip ∉ initHandles

theorem mem_initHandles (ip : UInt32) :
    handleForIP ip ∈ initHandles ↔
      ip.toNat % 4096 = 0 ∨ ip.toNat % 4096 = 0x999 ∨ ip.toNat % 4096 = 1 := by
  have hroot : (makeHandle 1 0).toNat = 65536 := by decide
  have hdefault : (makeHandle 1 defaultClassID).toNat = 65536 + 0x999 := by decide
  have hparent : (makeHandle 1 1).toNat = 65536 + 1 := by decide
  simp only [initHandles, TcWrapper.reservedHandles, List.mem_cons, List.not_mem_nil, or_false,
    ← UInt32.toNat_inj, handleForIP_toNat, hroot, hdefault, hparent]
  omega

/-- Within a block of the address space, the low 12 bits are those of the block and the offset. -/
theorem lowBits {n ip size : Nat} (hsize : size ∣ 4096) (h : n / size = ip / size) :
    n % 4096 = ip % 4096 / size * size + n % size := by
  obtain ⟨blocks, hblocks⟩ := hsize
  have hblock : n % 4096 / size = ip % 4096 / size := by
    rw [hblocks, Nat.mod_mul_right_div_self, Nat.mod_mul_right_div_self, h]
  have hoffset : n % 4096 % size = n % size := Nat.mod_mod_of_dvd n ⟨blocks, hblocks⟩
  have hn := Nat.div_add_mod (n % 4096) size
  rw [hblock, hoffset, Nat.mul_comm] at hn
  exact hn.symm

theorem between_iff {n block size : Nat} :
    block * size + 2 ≤ n ∧ n + 2 ≤ block * size + size ↔
      n / size = block ∧ 2 ≤ n % size ∧ n % size + 2 ≤ size := by
  have hn := Nat.div_add_mod n size
  rw [Nat.mul_comm] at hn
  constructor
  · rintro ⟨hlo, hhi⟩
    have hdiv : n / size = block := by
      refine Nat.div_eq_of_lt_le (by omega) ?_
      rw [Nat.succ_mul]
      omega
    rw [hdiv] at hn
    exact ⟨hdiv, by omega, by omega⟩
  · rintro ⟨rfl, hlo, hhi⟩
    constructor <;> omega

/-- The offsets of the peers within the subnet: the network address has 0, the server 1 and the
broadcast address the last one. -/
theorem mem_peerAddrs {net : IPNet} {p : Nat} (h : net.HasPrefix p) (hp : p ≤ 30) {ip : UInt32}
    (hip : net.ip.toUint32 = .ok ip) (n : UInt32) :
    n ∈ peerAddrs net ↔ n.toNat / 2 ^ (32 - p) = ip.toNat / 2 ^ (32 - p) ∧
      2 ≤ n.toNat % 2 ^ (32 - p) ∧ n.toNat % 2 ^ (32 - p) + 2 ≤ 2 ^ (32 - p) := by
  obtain ⟨ip', network, broadcast, lo, hi, hip', -, -, hlo, hhi, hnetwork, hbroadcast, -, -,
    hfirst, hlast⟩ := h.usable hp
  cases hip.symm.trans hip'
  have hsize : 2 ^ 2 ≤ 2 ^ (32 - p) := Nat.pow_le_pow_right (by decide) (by omega)
  rw [← between_iff, ← hnetwork]
  constructor
  · rintro ⟨lo', hi', hlo', hhi', hge, hle⟩
    cases hlo.symm.trans hlo'
    cases hhi.symm.trans hhi'
    constructor <;> omega
  · rintro ⟨hge, hle⟩
    exact ⟨lo, hi, hlo, hhi, by omega, by omega⟩

/-- The address in the subnet with the given offset. -/
theorem exists_addr {net : IPNet} {p : Nat} (h : net.HasPrefix p) (hp : p ≤ 30) {ip : UInt32}
    (hip : net.ip.toUint32 = .ok ip) {offset : Nat} (hoffset : offset < 2 ^ (32 - p)) :
    ∃ n : UInt32, n.toNat = offset + 2 ^ (32 - p) * (ip.toNat / 2 ^ (32 - p)) := by
  obtain ⟨ip', network, broadcast, -, -, hip', -, -, -, -, hnetwork, hbroadcast, -⟩ := h.usable hp
  cases hip.symm.trans hip'
  have hlt := broadcast.toUint32.toNat_lt
  rw [Nat.mul_comm] at hnetwork
  have hfits : offset + network.toUint32.toNat < 2 ^ 32 := by omega
  refine ⟨.ofNat (offset + network.toUint32.toNat), ?_⟩
  rw [UInt32.toNat_ofNat_of_lt' hfits, hnetwork]

/-- A subnet of at most 12 host bits is one block within the space of the minors. -/
theorem block_dvd {p : Nat} (hp : 20 ≤ p) : 2 ^ (32 - p) ∣ 4096 :=
  Nat.pow_dvd_pow 2 (show 32 - p ≤ 12 by omega)

theorem injOn_handleForIP {net : IPNet} {p : Nat} (h : net.HasPrefix p) (hlo : 20 ≤ p)
    (hhi : p ≤ 30) : Set.InjOn handleForIP (peerAddrs net) := by
  obtain ⟨ip, hip⟩ := (IP.isv4_iff net.ip).mp h.isv4
  intro n hn m hm heq
  obtain ⟨hnblock, -⟩ := (mem_peerAddrs h hhi hip n).mp hn
  obtain ⟨hmblock, -⟩ := (mem_peerAddrs h hhi hip m).mp hm
  have hlow : n.toNat % 4096 = m.toNat % 4096 := by
    have hnat := congrArg UInt32.toNat heq
    rw [handleForIP_toNat, handleForIP_toNat] at hnat
    omega
  rw [lowBits (block_dvd hlo) hnblock, lowBits (block_dvd hlo) hmblock] at hlow
  -- the same block and the same offset in it
  apply UInt32.toNat_inj.mp
  rw [← Nat.div_add_mod n.toNat (2 ^ (32 - p)), ← Nat.div_add_mod m.toNat (2 ^ (32 - p)), hnblock,
    hmblock]
  omega

/-- The offset of the default class in its block of the minors. -/
theorem default_offset {p : Nat} (hlo : 20 ≤ p) (hhi : p ≤ 28) :
    2 ≤ 0x999 % 2 ^ (32 - p) ∧ 0x999 % 2 ^ (32 - p) + 2 ≤ 2 ^ (32 - p) := by
  interval_cases p <;> decide

/-- The default class has the minor of a peer exactly in the subnets up to `/28` that reach over it;
in the smaller ones its minor is that of the server. -/
theorem default_taken_iff {net : IPNet} {p : Nat} (h : net.HasPrefix p) (hlo : 20 ≤ p)
    (hhi : p ≤ 30) {ip : UInt32} (hip : net.ip.toUint32 = .ok ip) :
    (∃ n ∈ peerAddrs net, n.toNat % 4096 = 0x999) ↔
      p ≤ 28 ∧ ip.toNat % 4096 / 2 ^ (32 - p) = 0x999 / 2 ^ (32 - p) := by
  have hpos : 0 < 2 ^ (32 - p) := Nat.two_pow_pos _
  constructor
  · rintro ⟨n, hn, hlow⟩
    obtain ⟨hblock, hge, -⟩ := (mem_peerAddrs h hhi hip n).mp hn
    have hsplit := lowBits (block_dvd hlo) hblock
    rw [hlow] at hsplit
    rw [Nat.mul_comm, Nat.add_comm] at hsplit
    obtain ⟨hdiv, hmod⟩ := (Nat.div_mod_unique hpos).mpr ⟨hsplit.symm, Nat.mod_lt _ hpos⟩
    refine ⟨?_, hdiv.symm⟩
    by_contra hp
    have hp' : p = 29 ∨ p = 30 := by omega
    rcases hp' with rfl | rfl
    · exact absurd (hmod ▸ hge) (by decide)
    · exact absurd (hmod ▸ hge) (by decide)
  · rintro ⟨hp, hblock⟩
    obtain ⟨hge, hle⟩ := default_offset hlo hp
    have hlt : 0x999 % 2 ^ (32 - p) < 2 ^ (32 - p) := Nat.mod_lt _ hpos
    -- the address in the subnet with that offset
    obtain ⟨n, hn⟩ := exists_addr h hhi hip hlt
    obtain ⟨hdiv, hmod⟩ := (Nat.div_mod_unique hpos).mpr ⟨hn.symm, hlt⟩
    refine ⟨n, (mem_peerAddrs h hhi hip n).mpr ⟨hdiv, hmod ▸ hge, hmod ▸ hle⟩, ?_⟩
    rw [lowBits (block_dvd hlo) hdiv, hblock, hmod, Nat.mul_comm, Nat.div_add_mod]

/-- The handles of the peers are apart from each other and from those of `init` exactly if the
subnet is small or lies elsewhere than the default class. -/
theorem handlesApart_iff {net : IPNet} {p : Nat} {ip : UInt32} (h : net.HasPrefix p) (hlo : 20 ≤ p)
    (hhi : p ≤ 30) (hip : net.ip.toUint32 = .ok ip) :
    HandlesApart net ↔
      29 ≤ p ∨ ip.toNat % 4096 / 2 ^ (32 - p) ≠ 0x999 / 2 ^ (32 - p) := by
  have htaken := default_taken_iff h hlo hhi hip
  constructor
  · intro hapart
    by_contra! hclash
    obtain ⟨n, hn, hlow⟩ := htaken.mpr ⟨by omega, hclash.2⟩
    exact hapart.free n hn ((mem_initHandles n).mpr (.inr (.inl hlow)))
  · intro hcond
    refine ⟨injOn_handleForIP h hlo hhi, fun n hn hmem ↦ ?_⟩
    obtain ⟨hblock, hge, -⟩ := (mem_peerAddrs h hhi hip n).mp hn
    have hsplit := lowBits (block_dvd hlo) hblock
    rcases (mem_initHandles n).mp hmem with hlow | hlow | hlow
    · omega
    · obtain ⟨hp, hover⟩ := htaken.mp ⟨n, hn, hlow⟩
      exact hcond.elim (by omega) fun hne ↦ hne hover
    · omega

/-- 10.0.8.0/24 does not reach over the default class. -/
theorem handlesApart_tenEight :
    HandlesApart ⟨⟨[10, 0, 8, 0]⟩, ⟨[255, 255, 255, 0]⟩⟩ :=
  (handlesApart_iff (p := 24) ⟨by decide, by decide⟩ (by decide) (by decide) rfl).mpr
    (.inr (by decide))

/-- In 10.0.9.0/24 the peer 10.0.9.153 has the handle of the default class, and no limit can be set
for it. -/
theorem default_class_clash :
    let net : IPNet := ⟨⟨[10, 0, 9, 0]⟩, ⟨[255, 255, 255, 0]⟩⟩
    let peer : Quad := ⟨10, 0, 9, 153⟩
    peer.toUint32 ∈ peerAddrs net ∧ handleForIP peer.toUint32 = makeHandle 1 defaultClassID ∧
      ¬ HandlesApart net ∧
      (TcWrapper.new 1000).setLimit TcWrapper.noFailure peer.toIP 5 =
        .ok (.error .addClass, TcWrapper.new 1000) := by
  intro net peer
  have hpeer : peer.toUint32 ∈ peerAddrs net :=
    ⟨⟨10, 0, 9, 1⟩, ⟨10, 0, 9, 254⟩, by decide, by decide, by decide, by decide⟩
  have hset : (TcWrapper.new 1000).addLimit TcWrapper.noFailure peer.toUint32 5 =
      (.error .addClass, TcWrapper.new 1000) := by
    rw [TcWrapper.addLimit, if_neg (by decide), TcWrapper.classAdd, if_pos (.inr (by decide))]
  refine ⟨hpeer, by decide, fun h ↦ h.free _ hpeer (by decide), ?_⟩
  rw [TcWrapper.setLimit, if_neg (by decide)]
  exact congrArg Except.ok hset

end CommonLib.IPAM
