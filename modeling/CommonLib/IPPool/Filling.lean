import CommonLib.IPPool.Guarantees

/-!
# Filling a pool

The pool of a `/p` network hands out every usable address but the server's, each once, whatever is
drawn, and then reports that it is full.
-/

namespace CommonLib.IPPool

open CommonLib.Reasoning CommonLib.XError CommonLib.XNet

namespace IPv4pool

theorem allocated_insert {pool : IPv4pool} {a : UInt32} (ha : a ∉ pool.used) :
    { pool with used := insert a pool.used }.allocated = pool.allocated + 1 := by
  simp only [allocated, Finset.card_insert_of_notMem ha]
  push_cast
  rfl

/-- As many calls of `Alloc` as there are free addresses hand out each of them once. -/
theorem Inv.fill {pool : IPv4pool} (h : Inv pool) {draws : List UInt32}
    (hfree : pool.capacity - pool.allocated = draws.length) :
    ∃ (as : List UInt32) (pool' : IPv4pool), runAll exec (draws.map .alloc) pool =
        .ok (as.map fun a ↦ .address (.ok (uint32ToIP a)), pool') ∧
      Inv pool' ∧ (∀ a, pool'.InRange a → a ∈ pool'.used) ∧
      as.Nodup ∧ ∀ a, a ∈ as ↔ pool.Free a := by
  induction draws generalizing pool with
  | nil =>
      have hfull := h.full_iff.mp hfree
      refine ⟨[], pool, rfl, h, hfull, List.nodup_nil, fun a ↦ ?_⟩
      exact iff_of_false List.not_mem_nil fun ha ↦ ha.2 (hfull a ha.1)
  | cons draw draws ih =>
      rw [List.length_cons] at hfree
      rcases h.pick_spec draw with ⟨a, ha, halloc, -⟩ | ⟨hfull, -⟩
      · have hcount := allocated_insert ha.2
        have hrest : capacity { pool with used := insert a pool.used } -
            allocated { pool with used := insert a pool.used } = (draws.length : Int) := by
          rw [hcount]
          change pool.capacity - _ = _
          push_cast at hfree
          omega
        obtain ⟨as, pool', hrun, hinv, hfull, hnodup, hmem⟩ := ih (h.markUsed ha.1) hrest
        have hnot : a ∉ as := fun hin ↦ ((hmem a).mp hin).2 (Finset.mem_insert_self ..)
        refine ⟨a :: as, pool', ?_, hinv, hfull, List.nodup_cons.mpr ⟨hnot, hnodup⟩, fun b ↦ ?_⟩
        · exact runAll_cons_eq_ok_iff.mpr
            ⟨_, _, _, by rw [exec, halloc]; rfl, hrun, rfl⟩
        · -- what is free after the first call is what was free but for its address
          rw [List.mem_cons, hmem]
          change b = a ∨ pool.InRange b ∧ b ∉ insert a pool.used ↔ _
          rw [Finset.mem_insert, not_or]
          by_cases hb : b = a
          · subst hb
            exact iff_of_true (.inl rfl) ha
          · exact ⟨fun hor ↦ ⟨(hor.resolve_left hb).1, (hor.resolve_left hb).2.2⟩,
              fun hfree ↦ .inr ⟨hfree.1, hb, hfree.2⟩⟩
      · have hzero := h.full_iff.mpr hfull
        omega

end IPv4pool

open IPv4pool

/-- What the pool of a network looks like before the first call. -/
theorem newIPv4FromSubnet_fills (net : IPNet) (p : Nat) (hp : p ≤ 30) (hnet : net.HasPrefix p) :
    ∃ ip network broadcast pool, net.ip.toUint32 = .ok ip ∧ net.networkAddr = .ok network ∧
      net.broadcastAddr = .ok broadcast ∧ newIPv4FromSubnet net = .ok (.ok pool) ∧
      network.toUint32.toNat = ip.toNat / 2 ^ (32 - p) * 2 ^ (32 - p) ∧
      broadcast.toUint32.toNat = network.toUint32.toNat + 2 ^ (32 - p) - 1 ∧
      network.d.toNat + 1 < 256 ∧ 1 ≤ broadcast.d.toNat ∧
      pool.min.toNat = network.toUint32.toNat + 1 ∧
      pool.max.toNat = broadcast.toUint32.toNat - 1 ∧
      pool.serverIP.toUint32 = .ok pool.min ∧
      ∀ draws : List UInt32, draws.length = 2 ^ (32 - p) - 3 → ∀ draw,
        ∃ (as : List UInt32) (pool' : IPv4pool), runAll exec (draws.map .alloc ++ [.alloc draw]) pool =
            .ok (as.map (fun a ↦ .address (.ok (uint32ToIP a))) ++
              [.address (.error notEnoughSpace)], pool') ∧
          as.Nodup ∧ ∀ a, a ∈ as ↔ pool.min < a ∧ a ≤ pool.max := by
  obtain ⟨ip, network, broadcast, lo, hi, hip, hnetwork, hbroadcast, hlo, hhi, hvalue, hspan, hcarry,
    hborrow, hmin, hmax⟩ := hnet.usable hp
  have hsize : net.mask.size.1 ≤ 30 := by
    rw [hnet.size]
    exact hp
  have hnew := newIPv4FromSubnet_eq hnet.isIPv4 hsize hlo hhi
  obtain ⟨hsince, hserver⟩ := newIPv4FromSubnet_since hnet.isIPv4 hnew True
  refine ⟨ip, network, broadcast, _, hip, hnetwork, hbroadcast, hnew, hvalue, hspan, hcarry,
    hborrow, hmin, hmax, hserver, fun draws hlen draw ↦ ?_⟩
  have hfour : 2 ^ 2 ≤ 2 ^ (32 - p) := Nat.pow_le_pow_right (by decide) (by omega)
  have hfree : IPv4pool.capacity ⟨lo.toIP, {lo.toUint32}, lo.toUint32, hi.toUint32, true⟩ -
      IPv4pool.allocated ⟨lo.toIP, {lo.toUint32}, lo.toUint32, hi.toUint32, true⟩ =
        draws.length := by
    simp only [capacity, allocated, Finset.card_singleton]
    push_cast
    omega
  obtain ⟨as, pool', hrun, hinv, hfull, hnodup, hmem⟩ := hsince.inv.fill hfree
  have hlast : runAll exec [.alloc draw] pool' =
      .ok ([.address (.error notEnoughSpace)], pool') := by
    rcases hinv.pick_spec draw with ⟨a, ha, -⟩ | ⟨-, halloc, -⟩
    · exact absurd (hfull a ha.1) ha.2
    · rw [runAll, exec, halloc]
      rfl
  refine ⟨as, pool', runAll_append hrun hlast, hnodup, fun a ↦ ?_⟩
  rw [hmem]
  unfold Free InRange
  rw [Finset.mem_singleton, ← UInt32.toNat_inj, UInt32.lt_iff_toNat_lt, UInt32.le_iff_toNat_le,
    UInt32.le_iff_toNat_le]
  dsimp only
  omega

/-- 10.0.0.0/30 has one address for clients: the second `Alloc` fails. -/
theorem newIPv4FromSubnet_fills_slash30 :
    ∃ pool, newIPv4FromSubnet ⟨⟨[10, 0, 0, 0]⟩, ⟨[255, 255, 255, 252]⟩⟩ = .ok (.ok pool) ∧
      ∀ draw draw', ∃ (as : List UInt32) (pool' : IPv4pool),
        runAll exec [.alloc draw, .alloc draw'] pool =
          .ok (as.map (fun a ↦ .address (.ok (uint32ToIP a))) ++
            [.address (.error notEnoughSpace)], pool') ∧
        as.Nodup ∧ ∀ a, a ∈ as ↔ pool.min < a ∧ a ≤ pool.max := by
  obtain ⟨_, _, _, pool, -, -, -, hnew, -, -, -, -, -, -, -, hfill⟩ := newIPv4FromSubnet_fills
    ⟨⟨[10, 0, 0, 0]⟩, ⟨[255, 255, 255, 252]⟩⟩ 30 le_rfl ⟨rfl, rfl⟩
  exact ⟨pool, hnew, fun draw draw' ↦ hfill [draw] rfl draw'⟩

end CommonLib.IPPool
