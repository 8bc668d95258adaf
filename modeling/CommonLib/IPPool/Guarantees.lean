import CommonLib.IPPool.Invariant

/-! What each call of the pool does, and that no history of calls ends the process. -/

namespace CommonLib.IPPool

open CommonLib.Reasoning CommonLib.XError CommonLib.XNet

def notEnoughSpace : GoError := .xNested .notEnoughSpace "ipv4pool" errNotEnoughSpace

namespace IPv4pool

/-- An IPv4 address of the range that is not in use. -/
def Free (pool : IPv4pool) (a : UInt32) : Prop := pool.InRange a ∧ a ∉ pool.used

theorem checkRunning_ok {pool : IPv4pool} (h : pool.running = true) :
    pool.checkRunning = .ok () := by
  rw [checkRunning, if_pos h]

theorem inRange_iff_not {pool : IPv4pool} {a : UInt32} :
    (a < pool.min ∨ a > pool.max) ↔ ¬ pool.InRange a := by
  simp only [inRange_iff, GT.gt, UInt32.lt_iff_toNat_lt]
  omega

/-- `Alloc` and `Available` agree on the address they pick and on when they fail. -/
theorem Inv.pick_spec {pool : IPv4pool} (h : Inv pool) (draw : UInt32) :
    (∃ a, pool.Free a ∧
      pool.alloc draw = .ok (.ok (uint32ToIP a), { pool with used := insert a pool.used }) ∧
      pool.available draw = .ok (.ok (uint32ToIP a), pool)) ∨
    ((∀ a, pool.InRange a → a ∈ pool.used) ∧
      pool.alloc draw = .ok (.error notEnoughSpace, pool) ∧
      pool.available draw = .ok (.error notEnoughSpace, pool)) := by
  rw [alloc, available, checkRunning_ok h.running, h.free_eq]
  by_cases hfull : pool.capacity - pool.allocated = 0
  · right
    refine ⟨h.full_iff.mp hfull, ?_, ?_⟩ <;>
      simp [bind, Except.bind, hfull, notEnoughSpace, pure, Except.pure]
  · left
    have hfree : ∃ a, pool.InRange a ∧ a ∉ pool.used := by
      by_contra hnone
      exact hfull (h.full_iff.mpr fun a ha ↦ by_contra fun hna ↦ hnone ⟨a, ha, hna⟩)
    obtain ⟨a, hget, ha, hna⟩ := h.getUnusedIP_ok draw hfree
    refine ⟨a, ⟨ha, hna⟩, ?_, ?_⟩ <;>
      simp [bind, Except.bind, hfull, hget, pure, Except.pure]

theorem Inv.isAvailable_spec {pool : IPv4pool} (_ : Inv pool) (ip : IP) :
    ∃ b, pool.isAvailable ip = .ok b ∧
      (b = true ↔ ∃ a, ip.toUint32 = .ok a ∧ pool.Free a) := by
  rw [isAvailable]
  by_cases hv4 : ip.isv4 = true
  · obtain ⟨a, ha⟩ := (IP.isv4_iff ip).mp hv4
    by_cases hrange : pool.InRange a
    · refine ⟨!pool.isUsed a, ?_, ?_⟩
      · simp [hv4, ha, bind, Except.bind, inRange_iff_not, hrange, pure, Except.pure]
      · simp [isUsed, ha, Free, hrange]
    · refine ⟨false, ?_, ?_⟩
      · simp [hv4, ha, bind, Except.bind, inRange_iff_not, hrange, pure, Except.pure]
      · simp [ha, Free, hrange]
  · refine ⟨false, by simp [hv4, pure, Except.pure], ?_⟩
    simp only [Bool.false_eq_true, false_iff]
    rintro ⟨a, ha, -⟩
    exact hv4 ((IP.isv4_iff ip).mpr ⟨a, ha⟩)

theorem Inv.set_spec {pool : IPv4pool} (h : Inv pool) (ip : IP) :
    (∃ a, ip.toUint32 = .ok a ∧ pool.Free a ∧
      pool.set ip = .ok (.ok (), { pool with used := insert a pool.used })) ∨
    ((∀ a, ip.toUint32 = .ok a → ¬ pool.Free a) ∧ ∃ e, pool.set ip = .ok (.error e, pool)) := by
  rw [set, checkRunning_ok h.running]
  by_cases hv4 : ip.isv4 = true
  · obtain ⟨a, ha⟩ := (IP.isv4_iff ip).mp hv4
    by_cases hrange : pool.InRange a
    · by_cases hused : a ∈ pool.used
      · right
        refine ⟨fun b hb hfree ↦ ?_, .xNested .entryExists "ipv4pool" errAddressInUse, ?_⟩
        · rw [ha, Except.ok.injEq] at hb
          exact hfree.2 (hb ▸ hused)
        · simp [hv4, ha, bind, Except.bind, inRange_iff_not, hrange, isUsed, hused, pure,
            Except.pure]
      · left
        refine ⟨a, ha, ⟨hrange, hused⟩, ?_⟩
        simp [hv4, ha, bind, Except.bind, inRange_iff_not, hrange, isUsed, hused, pure, Except.pure]
    · right
      refine ⟨fun b hb hfree ↦ ?_, .xNested .invalidArgument "ipv4pool" errNotInRange, ?_⟩
      · rw [ha, Except.ok.injEq] at hb
        exact hrange (hb ▸ hfree.1)
      · simp [hv4, ha, bind, Except.bind, inRange_iff_not, hrange, pure, Except.pure]
  · right
    refine ⟨fun a ha ↦ absurd ((IP.isv4_iff ip).mpr ⟨a, ha⟩) hv4,
      .xNested .invalidArgument "ipv4pool" errInvalidAddress, ?_⟩
    simp [hv4, pure, Except.pure]

theorem Inv.unset_spec {pool : IPv4pool} (h : Inv pool) (ip : IP) :
    (∃ a, ip.toUint32 = .ok a ∧ a ∈ pool.used ∧
      pool.unset ip = .ok (.ok (), { pool with used := pool.used.erase a })) ∨
    ((∀ a, ip.toUint32 = .ok a → a ∉ pool.used) ∧ ∃ e, pool.unset ip = .ok (.error e, pool)) := by
  rw [unset, checkRunning_ok h.running]
  by_cases hv4 : ip.isv4 = true
  · obtain ⟨a, ha⟩ := (IP.isv4_iff ip).mp hv4
    by_cases hused : a ∈ pool.used
    · left
      refine ⟨a, ha, hused, ?_⟩
      simp [hv4, ha, bind, Except.bind, isUsed, hused, pure, Except.pure]
    · right
      refine ⟨fun b hb ↦ ?_, .x .entryNotFound "ip address is not used", ?_⟩
      · rw [ha, Except.ok.injEq] at hb
        exact hb ▸ hused
      · simp [hv4, ha, bind, Except.bind, isUsed, hused, pure, Except.pure]
  · right
    refine ⟨fun a ha ↦ absurd ((IP.isv4_iff ip).mpr ⟨a, ha⟩) hv4,
      .x .invalidArgument "non-ipv4 address given", ?_⟩
    simp [hv4, pure, Except.pure]

/-- The contract of the calls on a pool: what they answer and what they change. -/
structure Guarantees (pool : IPv4pool) : Prop where
  used_inRange : ∀ a ∈ pool.used, pool.InRange a
  alloc : ∀ draw, ∃ r pool', pool.alloc draw = .ok (r, pool') ∧
    ((∃ a, pool.Free a ∧ r = .ok (uint32ToIP a) ∧
        pool' = { pool with used := insert a pool.used }) ∨
      (r = .error notEnoughSpace ∧ pool' = pool)) ∧
    (r = .error notEnoughSpace ↔ ∀ a, pool.InRange a → a ∈ pool.used)
  set : ∀ ip, ∃ r pool' avail, pool.set ip = .ok (r, pool') ∧ pool.isAvailable ip = .ok avail ∧
    (r = .ok () ↔ avail = true) ∧
    (∀ e, r = .error e → pool' = pool) ∧
    (r = .ok () → ∃ a, ip.toUint32 = .ok a ∧ pool' = { pool with used := insert a pool.used })
  unset : ∀ ip, ∃ r pool', pool.unset ip = .ok (r, pool') ∧
    (r = .ok () ↔ ∃ a, ip.toUint32 = .ok a ∧ a ∈ pool.used) ∧
    (∀ e, r = .error e → pool' = pool) ∧
    (r = .ok () → ∃ a, ip.toUint32 = .ok a ∧ pool' = { pool with used := pool.used.erase a })
  available : ∀ draw, ∃ r, pool.available draw = .ok (r, pool) ∧
    ((∃ a, pool.Free a ∧ r = .ok (uint32ToIP a)) ∨
      (r = .error notEnoughSpace ∧ ∀ a, pool.InRange a → a ∈ pool.used))

theorem Inv.guarantees {pool : IPv4pool} (h : Inv pool) : Guarantees pool where
  used_inRange := h.inRange
  alloc draw := by
    rcases h.pick_spec draw with ⟨a, ha, heq, -⟩ | ⟨hfull, heq, -⟩
    · refine ⟨_, _, heq, .inl ⟨a, ha, rfl, rfl⟩, ?_⟩
      simp only [reduceCtorEq, false_iff]
      exact fun hfull ↦ ha.2 (hfull a ha.1)
    · exact ⟨_, _, heq, .inr ⟨rfl, rfl⟩, by simpa using hfull⟩
  set ip := by
    obtain ⟨avail, havail, hiff⟩ := h.isAvailable_spec ip
    rcases h.set_spec ip with ⟨a, ha, hfree, heq⟩ | ⟨hnone, e, heq⟩
    · refine ⟨_, _, avail, heq, havail, ?_, by simp, fun _ ↦ ⟨a, ha, rfl⟩⟩
      simpa using hiff.mpr ⟨a, ha, hfree⟩
    · refine ⟨_, _, avail, heq, havail, ?_, fun _ _ ↦ rfl, by simp⟩
      simp only [reduceCtorEq, false_iff]
      intro htrue
      obtain ⟨a, ha, hfree⟩ := hiff.mp htrue
      exact hnone a ha hfree
  unset ip := by
    rcases h.unset_spec ip with ⟨a, ha, hused, heq⟩ | ⟨hnone, e, heq⟩
    · exact ⟨_, _, heq, by simpa using ⟨a, ha, hused⟩, by simp, fun _ ↦ ⟨a, ha, rfl⟩⟩
    · refine ⟨_, _, heq, ?_, fun _ _ ↦ rfl, by simp⟩
      simp only [reduceCtorEq, false_iff]
      rintro ⟨a, ha, hused⟩
      exact hnone a ha hused
  available draw := by
    rcases h.pick_spec draw with ⟨a, ha, -, heq⟩ | ⟨hfull, -, heq⟩
    · exact ⟨_, heq, .inl ⟨a, ha, rfl⟩⟩
    · exact ⟨_, heq, .inr ⟨rfl, hfull⟩⟩

end IPv4pool

/-! ## Histories -/

open IPv4pool

/-- What a history keeps of the pool it started with; `keep` says whether the server address is
still to be in use. -/
structure Since (pool₀ : IPv4pool) (keep : Prop) (pool : IPv4pool) : Prop where
  inv : Inv pool
  min_eq : pool.min = pool₀.min
  max_eq : pool.max = pool₀.max
  server : keep → pool₀.min ∈ pool.used

theorem exec_since {pool₀ : IPv4pool} {keep : Prop} (op : Op) (pool : IPv4pool)
    (hop : keep → ∀ ip, op = .unset ip → ip.toUint32 ≠ .ok pool₀.min)
    (h : Since pool₀ keep pool) :
    ∃ r pool', exec op pool = .ok (r, pool') ∧ Since pool₀ keep pool' := by
  cases op with
  | alloc draw =>
      rcases h.inv.pick_spec draw with ⟨a, ha, heq, -⟩ | ⟨-, heq, -⟩
      · exact ⟨_, _, by rw [exec, heq]; rfl, h.inv.markUsed ha.1, h.min_eq, h.max_eq,
          fun hk ↦ Finset.mem_insert_of_mem (h.server hk)⟩
      · exact ⟨_, _, by rw [exec, heq]; rfl, h⟩
  | set ip =>
      rcases h.inv.set_spec ip with ⟨a, -, ha, heq⟩ | ⟨-, e, heq⟩
      · exact ⟨_, _, by rw [exec, heq]; rfl, h.inv.markUsed ha.1, h.min_eq, h.max_eq,
          fun hk ↦ Finset.mem_insert_of_mem (h.server hk)⟩
      · exact ⟨_, _, by rw [exec, heq]; rfl, h⟩
  | unset ip =>
      rcases h.inv.unset_spec ip with ⟨a, ha, -, heq⟩ | ⟨-, e, heq⟩
      · refine ⟨_, _, by rw [exec, heq]; rfl, h.inv.release a, h.min_eq, h.max_eq, fun hk ↦ ?_⟩
        -- The freed address is not the server's: the history has no `Unset` of that one.
        refine Finset.mem_erase.mpr ⟨fun hserver ↦ ?_, h.server hk⟩
        exact hop hk ip rfl (by rw [ha, hserver])
      · exact ⟨_, _, by rw [exec, heq]; rfl, h⟩
  | isAvailable ip =>
      obtain ⟨b, heq, -⟩ := h.inv.isAvailable_spec ip
      exact ⟨_, _, by rw [exec, heq]; rfl, h⟩
  | available draw =>
      rcases h.inv.pick_spec draw with ⟨a, -, -, heq⟩ | ⟨-, -, heq⟩
      · exact ⟨_, _, by rw [exec, heq]; rfl, h⟩
      · exact ⟨_, _, by rw [exec, heq]; rfl, h⟩

theorem networkAddr_ok {net : IPNet} (h4 : net.IsIPv4) : ∃ addr, net.networkAddr = .ok addr := by
  obtain ⟨ip, hip⟩ := (IP.isv4_iff net.ip).mp h4.1
  obtain ⟨q, -, hq⟩ := IPMask.toUint32_four h4.2
  refine ⟨uint32ToQuad (ip &&& q.toUint32), ?_⟩
  simp [IPNet.networkAddr, hip, hq, bind, Except.bind, pure, Except.pure]

theorem newIPv4FromSubnet_eq {net : IPNet} {lo hi : Quad} (h4 : net.IsIPv4)
    (hsize : net.mask.size.1 ≤ 30) (hlo : net.firstUsable = .ok lo)
    (hhi : net.lastUsable = .ok hi) :
    newIPv4FromSubnet net =
      .ok (.ok ⟨lo.toIP, {lo.toUint32}, lo.toUint32, hi.toUint32, true⟩) := by
  obtain ⟨addr, hnet⟩ := networkAddr_ok h4
  simp [newIPv4FromSubnet, hnet, h4.1, hlo, hhi, bind, Except.bind, pure, Except.pure,
    show ¬ 30 < net.mask.size.1 by omega, defaultUsed]

theorem size_le_of_newIPv4FromSubnet {net : IPNet} {pool : IPv4pool} (h4 : net.IsIPv4)
    (hnew : newIPv4FromSubnet net = .ok (.ok pool)) : net.mask.size.1 ≤ 30 := by
  obtain ⟨addr, hnet⟩ := networkAddr_ok h4
  by_contra hsize
  simp [newIPv4FromSubnet, hnet, h4.1, bind, Except.bind, pure, Except.pure,
    show 30 < net.mask.size.1 by omega] at hnew

theorem newIPv4FromSubnet_since {subnet : IPNet} {pool₀ : IPv4pool} (h4 : subnet.IsIPv4)
    (hnew : newIPv4FromSubnet subnet = .ok (.ok pool₀)) (keep : Prop) :
    Since pool₀ keep pool₀ ∧ pool₀.serverIP.toUint32 = .ok pool₀.min := by
  have hsize := size_le_of_newIPv4FromSubnet h4 hnew
  obtain ⟨lo, hi, hlo, hhi, hord, hspan⟩ := IPNet.usable_range h4 hsize
  rw [newIPv4FromSubnet_eq h4 hsize hlo hhi] at hnew
  cases hnew
  refine ⟨⟨⟨rfl, hord, hspan, ?_⟩, rfl, rfl, fun _ ↦ Finset.mem_singleton_self _⟩, ?_⟩
  · intro a ha
    rw [Finset.mem_singleton.mp ha]
    exact inRange_iff.mpr ⟨le_rfl, hord⟩
  · simp [IP.toUint32]

/-- Every history of calls on a pool of an accepted subnet returns from each call, with every draw;
the pool it leaves keeps the contract, and has the server address in use unless the history gave
it back. -/
theorem history_guarantees (subnet : IPNet) (pool₀ : IPv4pool) (h4 : subnet.IsIPv4)
    (hnew : newIPv4FromSubnet subnet = .ok (.ok pool₀)) (ops : List Op) :
    ∃ replies pool, runAll exec ops pool₀ = .ok (replies, pool) ∧
      pool.min = pool₀.min ∧ pool.max = pool₀.max ∧ Guarantees pool ∧
      ((∀ ip, Op.unset ip ∈ ops → ip.toUint32 ≠ pool₀.serverIP.toUint32) →
        ∃ server, pool₀.serverIP.toUint32 = .ok server ∧ server ∈ pool.used) := by
  let keep := ∀ ip, Op.unset ip ∈ ops → ip.toUint32 ≠ pool₀.serverIP.toUint32
  obtain ⟨hinit, hserver⟩ := newIPv4FromSubnet_since h4 hnew keep
  obtain ⟨replies, pool, hrun, h⟩ := runAll_invariant
    (P := fun op ↦ keep → ∀ ip, op = .unset ip → ip.toUint32 ≠ .ok pool₀.min)
    (fun op s hop hs ↦ exec_since op s hop hs) ops pool₀
    (fun op hop hk ip hip ↦ hserver ▸ hk ip (hip ▸ hop)) hinit
  exact ⟨replies, pool, hrun, h.min_eq, h.max_eq, h.inv.guarantees,
    fun hk ↦ ⟨pool₀.min, hserver, h.server hk⟩⟩

/-- 10.0.0.0/30: an address is taken, given back and taken again. -/
theorem history_guarantees_slash30 :
    ∃ pool₀, newIPv4FromSubnet ⟨⟨[10, 0, 0, 0]⟩, ⟨[255, 255, 255, 252]⟩⟩ = .ok (.ok pool₀) ∧
      ∃ replies pool, runAll exec [.alloc 7, .unset ⟨[10, 0, 0, 2]⟩, .available 3, .alloc 4] pool₀ =
          .ok (replies, pool) ∧ pool.min = pool₀.min ∧ Guarantees pool :=
  ⟨_, rfl, by
    obtain ⟨replies, pool, hrun, hmin, -, h, -⟩ := history_guarantees
      ⟨⟨[10, 0, 0, 0]⟩, ⟨[255, 255, 255, 252]⟩⟩ _ ⟨rfl, rfl⟩ rfl
      [.alloc 7, .unset ⟨[10, 0, 0, 2]⟩, .available 3, .alloc 4]
    exact ⟨replies, pool, hrun, hmin, h⟩⟩

end CommonLib.IPPool
