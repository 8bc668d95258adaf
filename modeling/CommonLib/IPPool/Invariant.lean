import CommonLib.XNet.Subnet
import CommonLib.IPPool.Pool

/-!
# What the pool guarantees

The search of `getUnusedIP` is a walk over the range that starts at the drawn address and comes
back to it, so it finds the first free address in that cyclic order.  Every operation keeps the
used set inside the range; then the count that `free` compares with the capacity says exactly
whether the walk can succeed.
-/

namespace CommonLib.IPPool

open CommonLib.Reasoning CommonLib.XError CommonLib.XNet

/-- The `n` addresses from `lo` on. -/
def addrs (lo n : Nat) : List UInt32 := (List.range' lo n).map UInt32.ofNat

theorem addrs_succ (a : UInt32) (n : Nat) : addrs a.toNat (n + 1) = a :: addrs (a.toNat + 1) n := by
  simp [addrs, List.range'_succ]

theorem mem_addrs {lo n : Nat} {a : UInt32} (hbound : lo + n ≤ 2 ^ 32) :
    a ∈ addrs lo n ↔ lo ≤ a.toNat ∧ a.toNat < lo + n := by
  simp only [addrs, List.mem_map, List.mem_range'_1]
  constructor
  · rintro ⟨k, hk, rfl⟩
    rw [UInt32.toNat_ofNat', Nat.mod_eq_of_lt (by omega)]
    exact hk
  · intro h
    exact ⟨a.toNat, h, UInt32.ofNat_toNat⟩

def Search.ofFind : Option UInt32 → IPv4pool.Search
  | some ip => .found ip
  | none => .exhausted

namespace IPv4pool

theorem nextAddr_of_lt (pool : IPv4pool) {ip : UInt32} (h : ip.toNat < pool.max.toNat) :
    pool.nextAddr ip = (ip + 1, false) := by
  rw [nextAddr, if_neg]
  simpa [UInt32.le_iff_toNat_le] using h

theorem nextAddr_max (pool : IPv4pool) : pool.nextAddr pool.max = (pool.min, true) := by
  rw [nextAddr, if_pos (UInt32.le_refl _)]

theorem toNat_add_one {a b : UInt32} (h : a.toNat < b.toNat) : (a + 1).toNat = a.toNat + 1 := by
  have hb := b.toNat_lt
  rw [UInt32.toNat_add, show (1 : UInt32).toNat = 1 from rfl, Nat.mod_eq_of_lt (by omega)]

/-- After the wrap the loop looks at the addresses before the starting one, in order. -/
theorem search_cycled (pool : IPv4pool) (stop : UInt32) (hstop : stop.toNat ≤ pool.max.toNat)
    (fuel : Nat) (next : UInt32) (hnext : next.toNat ≤ stop.toNat)
    (hfuel : stop.toNat - next.toNat < fuel) :
    pool.search stop fuel next true =
      Search.ofFind ((addrs next.toNat (stop.toNat - next.toNat)).find? (!pool.isUsed ·)) := by
  induction fuel generalizing next with
  | zero => omega
  | succ fuel ih =>
      rw [search]
      by_cases heq : next = stop
      · simp [heq, addrs, Search.ofFind]
      · have hne : next.toNat ≠ stop.toNat := fun h ↦ heq (UInt32.toNat_inj.mp h)
        rw [if_pos (by simpa using heq),
          show stop.toNat - next.toNat = (stop.toNat - next.toNat - 1) + 1 by omega, addrs_succ,
          List.find?_cons]
        cases hused : pool.isUsed next with
        | false => simp [Search.ofFind]
        | true =>
            have hlt : next.toNat < stop.toNat := by omega
            have hsucc := toNat_add_one hlt
            rw [pool.nextAddr_of_lt (by omega)]
            simp only [Bool.not_true, Bool.false_eq_true, if_false, Bool.or_false]
            rw [ih (next + 1) (by omega) (by omega), hsucc, Nat.sub_sub]

/-- Before the wrap the loop looks at the addresses up to `max`, then at those before `stop`. -/
theorem search_uncycled (pool : IPv4pool) (stop : UInt32) (hstop : stop.toNat ≤ pool.max.toNat)
    (hmin : pool.min.toNat ≤ stop.toNat) (fuel : Nat) (next : UInt32)
    (hnext : next.toNat ≤ pool.max.toNat)
    (hfuel : pool.max.toNat - next.toNat + 1 + (stop.toNat - pool.min.toNat) < fuel) :
    pool.search stop fuel next false =
      Search.ofFind ((addrs next.toNat (pool.max.toNat - next.toNat + 1) ++
        addrs pool.min.toNat (stop.toNat - pool.min.toNat)).find? (!pool.isUsed ·)) := by
  induction fuel generalizing next with
  | zero => omega
  | succ fuel ih =>
      rw [search, if_pos (by simp), addrs_succ, List.cons_append, List.find?_cons]
      cases hused : pool.isUsed next with
      | false => simp [Search.ofFind]
      | true =>
          by_cases hmax : next = pool.max
          · rw [hmax, pool.nextAddr_max]
            simp only [Bool.not_true, Bool.false_eq_true, if_false, Bool.or_true, Nat.sub_self]
            rw [search_cycled pool stop hstop fuel pool.min hmin (by omega)]
            simp [addrs]
          · have hne : next.toNat ≠ pool.max.toNat := fun h ↦ hmax (UInt32.toNat_inj.mp h)
            have hlt : next.toNat < pool.max.toNat := by omega
            have hsucc := toNat_add_one hlt
            rw [pool.nextAddr_of_lt hlt]
            simp only [Bool.not_true, Bool.false_eq_true, if_false, Bool.or_false]
            rw [ih (next + 1) (by omega) (by omega), hsucc,
              show pool.max.toNat - (next.toNat + 1) + 1 = pool.max.toNat - next.toNat by omega]

/-- An address the pool may hand out. -/
def InRange (pool : IPv4pool) (a : UInt32) : Prop := pool.min ≤ a ∧ a ≤ pool.max

theorem inRange_iff {pool : IPv4pool} {a : UInt32} :
    pool.InRange a ↔ pool.min.toNat ≤ a.toNat ∧ a.toNat ≤ pool.max.toNat := by
  simp [InRange, UInt32.le_iff_toNat_le]

/-- The invariant of a running pool. -/
structure Inv (pool : IPv4pool) : Prop where
  running : pool.running = true
  ordered : pool.min.toNat ≤ pool.max.toNat
  span : pool.max.toNat - pool.min.toNat + 1 < 2 ^ 32
  inRange : ∀ a ∈ pool.used, pool.InRange a

theorem toNat_injective : Function.Injective UInt32.toNat := fun _ _ h ↦ UInt32.toNat_inj.mp h

theorem Inv.image_subset {pool : IPv4pool} (h : Inv pool) :
    pool.used.image UInt32.toNat ⊆ Finset.Icc pool.min.toNat pool.max.toNat := by
  intro n hn
  obtain ⟨a, ha, rfl⟩ := Finset.mem_image.mp hn
  exact Finset.mem_Icc.mpr (inRange_iff.mp (h.inRange a ha))

theorem Inv.free_eq {pool : IPv4pool} (h : Inv pool) :
    pool.free = .ok (pool.capacity - pool.allocated) := by
  have hcard := Finset.card_le_card h.image_subset
  rw [Finset.card_image_of_injective _ toNat_injective, Nat.card_Icc] at hcard
  have hord := h.ordered
  rw [free, if_neg]
  simp only [allocated, capacity]
  omega

/-- The counts agree exactly when the range is full. -/
theorem Inv.full_iff {pool : IPv4pool} (h : Inv pool) :
    pool.capacity - pool.allocated = 0 ↔ ∀ a, pool.InRange a → a ∈ pool.used := by
  have hcard := Finset.card_le_card h.image_subset
  have hinj := Finset.card_image_of_injective pool.used toNat_injective
  have hord := h.ordered
  rw [Nat.card_Icc] at hcard
  simp only [capacity, allocated]
  constructor
  · intro hzero a ha
    have heq := Finset.eq_of_subset_of_card_le h.image_subset (by rw [Nat.card_Icc]; omega)
    have hmem : a.toNat ∈ pool.used.image UInt32.toNat := by
      rw [heq, Finset.mem_Icc]
      exact inRange_iff.mp ha
    obtain ⟨b, hb, hab⟩ := Finset.mem_image.mp hmem
    exact toNat_injective hab ▸ hb
  · intro hall
    have hsub : Finset.Icc pool.min.toNat pool.max.toNat ⊆ pool.used.image UInt32.toNat := by
      intro n hn
      rw [Finset.mem_Icc] at hn
      have hlt := pool.max.toNat_lt
      have hval : (UInt32.ofNat n).toNat = n := by
        rw [UInt32.toNat_ofNat', Nat.mod_eq_of_lt (by omega)]
      exact Finset.mem_image.mpr
        ⟨UInt32.ofNat n, hall _ (inRange_iff.mpr (by rw [hval]; exact hn)), hval⟩
    have hge := Finset.card_le_card hsub
    rw [Nat.card_Icc] at hge
    omega

section Start

variable {pool : IPv4pool} (hord : pool.min.toNat ≤ pool.max.toNat)
  (hspan : pool.max.toNat - pool.min.toNat + 1 < 2 ^ 32)

include hord hspan

theorem span_toNat : (pool.max - pool.min + 1).toNat = pool.max.toNat - pool.min.toNat + 1 := by
  rw [UInt32.toNat_add, UInt32.toNat_sub_of_le _ _ (UInt32.le_iff_toNat_le.mpr hord),
    show (1 : UInt32).toNat = 1 from rfl, Nat.mod_eq_of_lt (by omega)]

theorem span_ne_zero : pool.max - pool.min + 1 ≠ 0 := by
  intro hz
  have hzero := congrArg UInt32.toNat hz
  rw [span_toNat hord hspan, show (0 : UInt32).toNat = 0 from rfl] at hzero
  omega

/-- The drawn offset and the sum with `min` do not overflow. -/
theorem start_toNat (draw : UInt32) : (draw % (pool.max - pool.min + 1) + pool.min).toNat =
    draw.toNat % (pool.max.toNat - pool.min.toNat + 1) + pool.min.toNat := by
  have hmax := pool.max.toNat_lt
  have hmod := Nat.mod_lt draw.toNat (show 0 < pool.max.toNat - pool.min.toNat + 1 by omega)
  rw [UInt32.toNat_add, UInt32.toNat_mod, span_toNat hord hspan, Nat.mod_eq_of_lt (by omega)]

theorem start_inRange (draw : UInt32) :
    pool.InRange (draw % (pool.max - pool.min + 1) + pool.min) := by
  have hmod := Nat.mod_lt draw.toNat (show 0 < pool.max.toNat - pool.min.toNat + 1 by omega)
  rw [inRange_iff, start_toNat hord hspan]
  omega

end Start

/-! ## The search in cyclic order -/

/-- The addresses of the range from `start` on, and after `max` from `min` on. -/
def cyclic (pool : IPv4pool) (start : UInt32) : List UInt32 :=
  addrs start.toNat (pool.max.toNat - start.toNat + 1) ++
    addrs pool.min.toNat (start.toNat - pool.min.toNat)

theorem mem_cyclic {pool : IPv4pool} {start a : UInt32} (hstart : pool.InRange start) :
    a ∈ pool.cyclic start ↔ pool.InRange a := by
  have hmax := pool.max.toNat_lt
  rw [inRange_iff] at hstart
  rw [cyclic, List.mem_append, mem_addrs (by omega), mem_addrs (by omega), inRange_iff]
  omega

theorem search_eq_find {pool : IPv4pool} {start : UInt32} (hstart : pool.InRange start) {fuel : Nat}
    (hfuel : pool.max.toNat - pool.min.toNat + 1 < fuel) :
    pool.search start fuel start false =
      Search.ofFind ((pool.cyclic start).find? (!pool.isUsed ·)) := by
  rw [inRange_iff] at hstart
  exact search_uncycled pool start hstart.2 hstart.1 fuel start hstart.2 (by omega)

/-- With a free address in the range, the search finds the first one in cyclic order. -/
theorem exists_find {pool : IPv4pool} {start : UInt32} (hstart : pool.InRange start)
    (hfree : ∃ a, pool.InRange a ∧ a ∉ pool.used) :
    ∃ a, (pool.cyclic start).find? (!pool.isUsed ·) = some a ∧ pool.InRange a ∧ a ∉ pool.used := by
  cases hfind : (pool.cyclic start).find? (!pool.isUsed ·) with
  | none =>
      obtain ⟨a, ha, hna⟩ := hfree
      have hused := List.find?_eq_none.mp hfind a ((mem_cyclic hstart).mpr ha)
      simp [isUsed, hna] at hused
  | some a =>
      refine ⟨a, rfl, (mem_cyclic hstart).mp (List.mem_of_find?_eq_some hfind), ?_⟩
      simpa [isUsed] using List.find?_some hfind

theorem getUnusedIP_of_find {pool : IPv4pool} {draw a : UInt32}
    (hord : pool.min.toNat ≤ pool.max.toNat)
    (hspan : pool.max.toNat - pool.min.toNat + 1 < 2 ^ 32)
    (hfind : (pool.cyclic (draw % (pool.max - pool.min + 1) + pool.min)).find?
      (!pool.isUsed ·) = some a) : pool.getUnusedIP draw = .ok (uint32ToIP a) := by
  have hstart := start_inRange hord hspan draw
  rw [getUnusedIP, if_neg (span_ne_zero hord hspan)]
  simp only [search_eq_find hstart (Nat.lt_succ_self _), hfind, Search.ofFind]

/-- With a free address in the range, `getUnusedIP` returns one whatever it draws. -/
theorem Inv.getUnusedIP_ok {pool : IPv4pool} (h : Inv pool) (draw : UInt32)
    (hfree : ∃ a, pool.InRange a ∧ a ∉ pool.used) :
    ∃ a, pool.getUnusedIP draw = .ok (uint32ToIP a) ∧ pool.InRange a ∧ a ∉ pool.used := by
  obtain ⟨a, hfind, ha⟩ := exists_find (start_inRange h.ordered h.span draw) hfree
  exact ⟨a, getUnusedIP_of_find h.ordered h.span hfind, ha⟩

theorem Inv.markUsed {pool : IPv4pool} (h : Inv pool) {a : UInt32} (ha : pool.InRange a) :
    Inv { pool with used := insert a pool.used } where
  running := h.running
  ordered := h.ordered
  span := h.span
  inRange b hb := by
    rcases Finset.mem_insert.mp hb with rfl | hb
    · exact ha
    · exact h.inRange b hb

theorem Inv.release {pool : IPv4pool} (h : Inv pool) (a : UInt32) :
    Inv { pool with used := pool.used.erase a } where
  running := h.running
  ordered := h.ordered
  span := h.span
  inRange b hb := h.inRange b (Finset.mem_of_mem_erase hb)

/-! ## What a call that returns has changed -/

theorem search_found {pool : IPv4pool} {stop : UInt32} {fuel : Nat} {next ip : UInt32}
    {cycled : Bool} (h : pool.search stop fuel next cycled = .found ip) : ip ∉ pool.used := by
  induction fuel generalizing next cycled with
  | zero => cases h
  | succ fuel ih =>
      unfold search at h
      split at h
      · split at h
        · rename_i hfree
          cases h
          simpa [isUsed] using hfree
        · exact ih h
      · cases h

theorem getUnusedIP_eq_ok {pool : IPv4pool} {draw : UInt32} {ip : IP}
    (h : pool.getUnusedIP draw = .ok ip) : ∃ a, ip = uint32ToIP a ∧ a ∉ pool.used := by
  unfold getUnusedIP at h
  split at h
  · cases h
  · dsimp only at h
    split at h
    · rename_i a hfound
      cases h
      exact ⟨a, rfl, search_found hfound⟩
    · cases h
    · cases h

theorem alloc_cases {pool pool' : IPv4pool} {draw : UInt32} {r : Except GoError IP}
    (h : pool.alloc draw = .ok (r, pool')) :
    (∃ a, r = .ok (uint32ToIP a) ∧ a ∉ pool.used ∧
      pool' = { pool with used := insert a pool.used }) ∨ (∃ e, r = .error e) ∧ pool' = pool := by
  unfold alloc checkRunning free at h
  simp only [bind, Except.bind, pure, Except.pure] at h
  split at h
  · cases h
  · split at h
    · cases h
    · split at h
      · cases h
        exact .inr ⟨⟨_, rfl⟩, rfl⟩
      · cases hget : pool.getUnusedIP draw with
        | error c => rw [hget] at h; cases h
        | ok ip =>
            obtain ⟨a, rfl, ha⟩ := getUnusedIP_eq_ok hget
            rw [hget] at h
            simp only [toUint32_uint32ToIP] at h
            cases h
            exact .inl ⟨a, rfl, ha, rfl⟩

theorem checkRunning_eq_ok {pool : IPv4pool} (h : pool.checkRunning = .ok ()) :
    pool.running = true := by
  unfold checkRunning at h
  split at h
  · assumption
  · cases h

theorem running_of_alloc {pool : IPv4pool} {draw : UInt32} {out : Except GoError IP × IPv4pool}
    (h : pool.alloc draw = .ok out) : pool.running = true := by
  cases hrun : pool.checkRunning with
  | error c =>
      rw [alloc, hrun] at h
      cases h
  | ok _ => exact checkRunning_eq_ok hrun

theorem nextAddr_inRange {pool : IPv4pool} (hord : pool.min.toNat ≤ pool.max.toNat) {ip : UInt32}
    (h : pool.InRange ip) : pool.InRange (pool.nextAddr ip).1 := by
  rw [inRange_iff] at h ⊢
  unfold nextAddr
  split
  · exact ⟨le_rfl, hord⟩
  · rename_i hlt
    rw [ge_iff_le, UInt32.not_le, UInt32.lt_iff_toNat_lt] at hlt
    rw [toNat_add_one hlt]
    omega

theorem search_inRange {pool : IPv4pool} (hord : pool.min.toNat ≤ pool.max.toNat) {stop : UInt32}
    {fuel : Nat} {next ip : UInt32} {cycled : Bool} (hnext : pool.InRange next)
    (h : pool.search stop fuel next cycled = .found ip) : pool.InRange ip := by
  induction fuel generalizing next cycled with
  | zero => cases h
  | succ fuel ih =>
      have hnext' := nextAddr_inRange hord hnext
      unfold search at h
      split at h
      · split at h
        · cases h
          exact hnext
        · exact ih hnext' h
      · cases h

/-- An address `getUnusedIP` returns is in the range, if there is one. -/
theorem getUnusedIP_inRange {pool : IPv4pool} (hord : pool.min.toNat ≤ pool.max.toNat)
    {draw : UInt32} {ip : IP} (h : pool.getUnusedIP draw = .ok ip) :
    ∃ a, ip = uint32ToIP a ∧ pool.InRange a := by
  unfold getUnusedIP at h
  split at h
  · cases h
  · rename_i hspan
    have hnarrow : pool.max.toNat - pool.min.toNat + 1 < 2 ^ 32 := by
      by_contra hwide
      have hmax := pool.max.toNat_lt
      apply hspan
      apply UInt32.toNat_inj.mp
      rw [UInt32.toNat_add, UInt32.toNat_sub_of_le _ _ (UInt32.le_iff_toNat_le.mpr hord)]
      simp only [UInt32.reduceToNat]
      omega
    have hstart := start_inRange hord hnarrow draw
    dsimp only at h
    split at h
    · rename_i a hfound
      cases h
      exact ⟨a, rfl, search_inRange hord hstart hfound⟩
    · cases h
    · cases h

/-- `Alloc` returns addresses of the range only: without one there is no free address. -/
theorem alloc_inRange {pool pool' : IPv4pool} {draw : UInt32} {ip : IP}
    (h : pool.alloc draw = .ok (.ok ip, pool')) : ∃ a, ip = uint32ToIP a ∧ pool.InRange a := by
  unfold alloc free at h
  rw [checkRunning, if_pos (running_of_alloc h)] at h
  simp only [bind, Except.bind, pure, Except.pure] at h
  by_cases hbroken : pool.allocated > pool.capacity
  · rw [if_pos hbroken] at h
    cases h
  rw [if_neg hbroken] at h
  dsimp only at h
  split at h
  · cases h
  · rename_i hfree
    have hord : pool.min.toNat ≤ pool.max.toNat := by
      simp only [allocated, capacity] at hbroken hfree
      omega
    cases hget : pool.getUnusedIP draw with
    | error c => rw [hget] at h; cases h
    | ok ip' =>
        obtain ⟨a, rfl, ha⟩ := getUnusedIP_inRange hord hget
        rw [hget] at h
        simp only [toUint32_uint32ToIP] at h
        cases h
        exact ⟨a, rfl, ha⟩

theorem set_cases {pool pool' : IPv4pool} {ip : IP} {r : Except GoError Unit}
    (h : pool.set ip = .ok (r, pool')) :
    (∃ a, r = .ok () ∧ ip.toUint32 = .ok a ∧ a ∉ pool.used ∧
      pool' = { pool with used := insert a pool.used }) ∨ (∃ e, r = .error e) ∧ pool' = pool := by
  unfold set at h
  simp only [bind, Except.bind, pure, Except.pure] at h
  split at h
  · cases h
    exact .inr ⟨⟨_, rfl⟩, rfl⟩
  cases hip : ip.toUint32 with
  | error c => rw [hip] at h; cases h
  | ok a =>
      rw [hip] at h
      dsimp only at h
      split at h
      · cases h
        exact .inr ⟨⟨_, rfl⟩, rfl⟩
      cases hrun : pool.checkRunning with
      | error c => rw [hrun] at h; cases h
      | ok _ =>
          rw [hrun] at h
          dsimp only at h
          split at h
          · cases h
            exact .inr ⟨⟨_, rfl⟩, rfl⟩
          · rename_i hfree
            cases h
            exact .inl ⟨a, rfl, rfl, by simpa [isUsed] using hfree, rfl⟩

theorem running_of_set {pool pool' : IPv4pool} {ip : IP}
    (h : pool.set ip = .ok (.ok (), pool')) : pool.running = true := by
  unfold set at h
  simp only [bind, Except.bind, pure, Except.pure] at h
  split at h
  · cases h
  split at h
  · cases h
  split at h
  · cases h
  split at h
  · cases h
  · rename_i hrun
    exact checkRunning_eq_ok hrun

theorem set_eq_ok {pool : IPv4pool} (hrun : pool.running = true) {ip : IP} {a : UInt32}
    (ha : ip.toUint32 = .ok a) (hrange : pool.InRange a) (hfree : a ∉ pool.used) :
    pool.set ip = .ok (.ok (), { pool with used := insert a pool.used }) := by
  have hv4 : ip.isv4 = true := (IP.isv4_iff ip).mpr ⟨a, ha⟩
  have hin : ¬ (a < pool.min ∨ a > pool.max) := by
    rw [inRange_iff] at hrange
    simp only [GT.gt, UInt32.lt_iff_toNat_lt]
    omega
  simp [set, checkRunning, hv4, ha, hin, hrun, isUsed, hfree, bind, Except.bind, pure, Except.pure]

theorem unset_eq_ok {pool : IPv4pool} (hrun : pool.running = true) {ip : IP} {a : UInt32}
    (ha : ip.toUint32 = .ok a) (hused : a ∈ pool.used) :
    pool.unset ip = .ok (.ok (), { pool with used := pool.used.erase a }) := by
  have hv4 : ip.isv4 = true := (IP.isv4_iff ip).mpr ⟨a, ha⟩
  simp [unset, checkRunning, hv4, ha, hrun, isUsed, hused, bind, Except.bind, pure, Except.pure]

theorem unset_cases {pool pool' : IPv4pool} {ip : IP} {r : Except GoError Unit}
    (h : pool.unset ip = .ok (r, pool')) :
    (∃ a, r = .ok () ∧ ip.toUint32 = .ok a ∧ a ∈ pool.used ∧
      pool' = { pool with used := pool.used.erase a }) ∨
    (∃ e, r = .error e) ∧ (∀ a, ip.toUint32 = .ok a → a ∉ pool.used) ∧ pool' = pool := by
  unfold unset at h
  simp only [bind, Except.bind, pure, Except.pure] at h
  split at h
  · rename_i hv4
    cases h
    refine .inr ⟨⟨_, rfl⟩, fun a ha ↦ ?_, rfl⟩
    exact absurd ((IP.isv4_iff ip).mpr ⟨a, ha⟩) (by simpa using hv4)
  cases hip : ip.toUint32 with
  | error c => rw [hip] at h; cases h
  | ok a =>
      rw [hip] at h
      dsimp only at h
      cases hrun : pool.checkRunning with
      | error c => rw [hrun] at h; cases h
      | ok _ =>
          rw [hrun] at h
          dsimp only at h
          split at h
          · rename_i hfree
            cases h
            refine .inr ⟨⟨_, rfl⟩, fun b hb ↦ ?_, rfl⟩
            cases hb
            simpa [isUsed] using hfree
          · rename_i hused
            cases h
            exact .inl ⟨a, rfl, rfl, by simpa [isUsed] using hused, rfl⟩

end IPv4pool

end CommonLib.IPPool
