import CommonLib.IPPool.Invariant

/-!
# The search for a free address

Where the loop of `getUnusedIP` goes, with the start at any place of the range: up to `max`, and from
`min` up to the start again.
-/

namespace CommonLib.IPPool

open CommonLib.Reasoning CommonLib.XNet

theorem map_toNat_addrs {lo n : Nat} (hbound : lo + n ≤ 2 ^ 32) :
    (addrs lo n).map UInt32.toNat = List.range' lo n := by
  rw [addrs, List.map_map]
  refine (List.map_congr_left fun k hk ↦ ?_).trans (List.map_id _)
  rw [List.mem_range'_1] at hk
  rw [Function.comp_apply, UInt32.toNat_ofNat', Nat.mod_eq_of_lt (by omega), id]

namespace IPv4pool

/-- The addresses that the loop of `getUnusedIP` looks at, for at most `fuel` evaluations of its
condition. -/
def visits (pool : IPv4pool) (stop : UInt32) : Nat → UInt32 → Bool → List UInt32
  | 0, _, _ => []
  | fuel + 1, next, cycled =>
      if !cycled || next != stop then
        if !pool.isUsed next then [next]
        else
          let (next', cycledRound) := pool.nextAddr next
          next :: visits pool stop fuel next' (cycled || cycledRound)
      else []

variable {pool : IPv4pool} {stop : UInt32}

/-- After the wrap the addresses before the start are left. -/
theorem visits_cycled (hfull : ∀ a, pool.InRange a → a ∈ pool.used) (hstop : pool.InRange stop)
    (fuel : Nat) (next : UInt32) (hmin : pool.min.toNat ≤ next.toNat)
    (hnext : next.toNat ≤ stop.toNat) (hfuel : stop.toNat - next.toNat < fuel) :
    pool.visits stop fuel next true = addrs next.toNat (stop.toNat - next.toNat) := by
  have hmax := (inRange_iff.mp hstop).2
  induction fuel generalizing next with
  | zero => omega
  | succ fuel ih =>
      rw [visits]
      by_cases heq : next = stop
      · simp [heq, addrs]
      · have hne : next.toNat ≠ stop.toNat := fun h ↦ heq (UInt32.toNat_inj.mp h)
        have hlt : next.toNat < stop.toNat := by omega
        have hsucc := toNat_add_one hlt
        have hused : pool.isUsed next = true :=
          decide_eq_true (hfull next (inRange_iff.mpr ⟨hmin, by omega⟩))
        rw [if_pos (by simpa using heq), hused, pool.nextAddr_of_lt (by omega),
          show stop.toNat - next.toNat = (stop.toNat - next.toNat - 1) + 1 by omega, addrs_succ]
        simp only [Bool.not_true, Bool.false_eq_true, if_false, Bool.or_false]
        rw [ih (next + 1) (by omega) (by omega) (by omega), hsucc, Nat.sub_sub]

/-- Before the wrap the addresses up to `max` are left, then those before the start. -/
theorem visits_uncycled (hfull : ∀ a, pool.InRange a → a ∈ pool.used) (hstop : pool.InRange stop)
    (fuel : Nat) (next : UInt32) (hnext : pool.InRange next)
    (hfuel : pool.max.toNat - next.toNat + 1 + (stop.toNat - pool.min.toNat) < fuel) :
    pool.visits stop fuel next false = addrs next.toNat (pool.max.toNat - next.toNat + 1) ++
      addrs pool.min.toNat (stop.toNat - pool.min.toNat) := by
  induction fuel generalizing next with
  | zero => omega
  | succ fuel ih =>
      obtain ⟨hlow, hhigh⟩ := inRange_iff.mp hnext
      obtain ⟨hmin, hmax⟩ := inRange_iff.mp hstop
      have hused : pool.isUsed next = true := decide_eq_true (hfull next hnext)
      rw [visits, if_pos (by simp), hused, addrs_succ, List.cons_append]
      by_cases hend : next = pool.max
      · rw [hend, pool.nextAddr_max]
        simp only [Bool.not_true, Bool.false_eq_true, if_false, Bool.or_true, Nat.sub_self]
        rw [visits_cycled hfull hstop fuel pool.min le_rfl hmin (by omega)]
        simp [addrs]
      · have hne : next.toNat ≠ pool.max.toNat := fun h ↦ hend (UInt32.toNat_inj.mp h)
        have hlt : next.toNat < pool.max.toNat := by omega
        have hsucc := toNat_add_one hlt
        rw [pool.nextAddr_of_lt hlt]
        simp only [Bool.not_true, Bool.false_eq_true, if_false, Bool.or_false]
        rw [ih (next + 1) (inRange_iff.mpr (by omega)) (by omega), hsucc,
          show pool.max.toNat - (next.toNat + 1) + 1 = pool.max.toNat - next.toNat by omega]

theorem map_toNat_cyclic (hstop : pool.InRange stop) : (pool.cyclic stop).map UInt32.toNat =
    List.range' stop.toNat (pool.max.toNat - stop.toNat + 1) ++
      List.range' pool.min.toNat (stop.toNat - pool.min.toNat) := by
  obtain ⟨hmin, hmax⟩ := inRange_iff.mp hstop
  have hlt := pool.max.toNat_lt
  rw [cyclic, List.map_append, map_toNat_addrs (by omega), map_toNat_addrs (by omega)]

theorem nodup_cyclic (hstop : pool.InRange stop) : (pool.cyclic stop).Nodup := by
  refine List.Nodup.of_map UInt32.toNat ?_
  rw [map_toNat_cyclic hstop, List.nodup_append]
  refine ⟨List.nodup_range', List.nodup_range', fun a ha b hb ↦ ?_⟩
  rw [List.mem_range'_1] at ha hb
  omega

/-- Whatever is drawn, `getUnusedIP` returns the first free address in cyclic order; in a full range
its loop comes to each address once and leaves.  None of its sums overflows. -/
theorem getUnusedIP_searches (pool : IPv4pool) (draw : UInt32) (hord : pool.min ≤ pool.max)
    (hspan : pool.max.toNat - pool.min.toNat + 1 < 2 ^ 32) :
    let start := draw % (pool.max - pool.min + 1) + pool.min
    (start.toNat = draw.toNat % (pool.max.toNat - pool.min.toNat + 1) + pool.min.toNat ∧
      pool.InRange start) ∧
    ((∃ a, pool.InRange a ∧ a ∉ pool.used) →
      ∃ a, pool.getUnusedIP draw = .ok (uint32ToIP a) ∧ pool.InRange a ∧ a ∉ pool.used ∧
        (pool.cyclic start).find? (fun b ↦ decide (b ∉ pool.used)) = some a ∧
        ∀ fuel, pool.max.toNat - pool.min.toNat + 1 < fuel →
          pool.search start fuel start false = .found a) ∧
    ((∀ a, pool.InRange a → a ∈ pool.used) →
      ∀ fuel, pool.max.toNat - pool.min.toNat + 1 < fuel →
        pool.search start fuel start false = .exhausted ∧
        (pool.visits start fuel start false).Nodup ∧
        (∀ a, a ∈ pool.visits start fuel start false ↔ pool.InRange a) ∧
        (pool.visits start fuel start false).map UInt32.toNat =
          List.range' start.toNat (pool.max.toNat - start.toNat + 1) ++
            List.range' pool.min.toNat (start.toNat - pool.min.toNat)) := by
  intro start
  rw [UInt32.le_iff_toNat_le] at hord
  have hstart : pool.InRange start := start_inRange hord hspan draw
  have hfree : (fun b ↦ !pool.isUsed b) = fun b ↦ decide (b ∉ pool.used) := by
    funext b
    rw [isUsed, decide_not]
  refine ⟨⟨start_toNat hord hspan draw, hstart⟩, fun hsome ↦ ?_, fun hfull fuel hfuel ↦ ?_⟩
  · obtain ⟨a, hfind, hrange, hnot⟩ := exists_find hstart hsome
    refine ⟨a, getUnusedIP_of_find hord hspan hfind, hrange, hnot, hfree ▸ hfind,
      fun fuel hfuel ↦ ?_⟩
    rw [search_eq_find hstart hfuel, hfind]
    rfl
  · have hvisits : pool.visits start fuel start false = pool.cyclic start := by
      have hrange := inRange_iff.mp hstart
      exact visits_uncycled hfull hstart fuel start hstart (by omega)
    rw [hvisits]
    refine ⟨?_, nodup_cyclic hstart, fun a ↦ mem_cyclic hstart, map_toNat_cyclic hstart⟩
    have hnone : (pool.cyclic start).find? (!pool.isUsed ·) = none := by
      rw [List.find?_eq_none]
      intro a ha
      have hused : pool.isUsed a = true := decide_eq_true (hfull a ((mem_cyclic hstart).mp ha))
      rw [hused]
      exact Bool.false_ne_true
    rw [search_eq_find hstart hfuel, hnone]
    rfl

/-- Of three addresses the last one is free, and the search starts at the first. -/
theorem getUnusedIP_searches_three :
    ∃ a, getUnusedIP ⟨⟨[]⟩, {5, 6}, 5, 7, true⟩ 0 = .ok (uint32ToIP a) ∧
      InRange ⟨⟨[]⟩, {5, 6}, 5, 7, true⟩ a ∧ a ∉ ({5, 6} : Finset UInt32) := by
  obtain ⟨-, hfree, -⟩ :=
    getUnusedIP_searches ⟨⟨[]⟩, {5, 6}, 5, 7, true⟩ 0 (by decide) (by decide)
  obtain ⟨a, hok, hrange, hnot, -⟩ := hfree ⟨7, ⟨by decide, by decide⟩, by decide⟩
  exact ⟨a, hok, hrange, hnot⟩

/-- In the range of all addresses the number of addresses is 0 as a `uint32`. -/
theorem full_range_divides_by_zero :
    let pool : IPv4pool := ⟨⟨[]⟩, ∅, 0, 0xFFFFFFFF, true⟩
    pool.min ≤ pool.max ∧ (∃ a, pool.InRange a ∧ a ∉ pool.used) ∧
      pool.getUnusedIP 0 = .error .divideByZero := by
  refine ⟨by decide, ⟨0, ⟨by decide, by decide⟩, Finset.notMem_empty 0⟩, ?_⟩
  exact if_pos (by decide)

end IPv4pool

end CommonLib.IPPool
