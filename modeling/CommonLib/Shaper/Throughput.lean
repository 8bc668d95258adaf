import CommonLib.Shaper.TimeBucket

/-!
# The bytes a bucket lets through

A length is charged a whole number of microseconds and the burst is a whole number of milliseconds;
the divisions drop remainders.  The bound on consecutive calls holds for all clocks exactly when the
remainders their lengths lose stay small against the lengths.
-/

namespace CommonLib.Shaper

open CommonLib.Reasoning

def total (lengths : List Nat) : Int := (lengths.map Int.ofNat).sum

/-- What the calls are charged together, in microseconds. -/
def charge (kiBps : Int) (lengths : List Nat) : Int := (lengths.map fun l : Nat ↦ ticks kiBps l).sum

/-- What the divisions drop. -/
def dropped (kiBps : Int) (lengths : List Nat) : Int :=
  (lengths.map fun l : Nat ↦ (l : Int) * 1024 % kiBps).sum

theorem ticks_of_nonneg {n : Int} (h : 0 ≤ n) (kiBps : Int) : ticks kiBps n = n * 1024 / kiBps :=
  Int.tdiv_eq_ediv_of_nonneg (by omega)

theorem ticks_nonneg {kiBps : Int} (hspeed : 0 < kiBps) (l : Nat) : 0 ≤ ticks kiBps l := by
  rw [ticks_of_nonneg (Int.natCast_nonneg l)]
  exact Int.ediv_nonneg (by omega) hspeed.le

theorem charge_nonneg {kiBps : Int} (hspeed : 0 < kiBps) (lengths : List Nat) :
    0 ≤ charge kiBps lengths := by
  apply List.sum_nonneg
  intro x hx
  obtain ⟨l, -, rfl⟩ := List.mem_map.mp hx
  exact ticks_nonneg hspeed l

/-- Quotients and remainders of the lengths. -/
theorem charge_add_dropped (kiBps : Int) (lengths : List Nat) :
    kiBps * charge kiBps lengths + dropped kiBps lengths = 1024 * total lengths := by
  induction lengths with
  | nil => simp [charge, dropped, total]
  | cons l lengths ih =>
      have hdiv := Int.mul_ediv_add_emod ((l : Int) * 1024) kiBps
      have hticks := ticks_of_nonneg (Int.natCast_nonneg l) kiBps
      simp only [charge, dropped, total, List.map_cons, List.sum_cons, mul_add] at ih ⊢
      rw [hticks]
      change _ = 1024 * (l : Int) + _
      omega

/-! ## A call -/

theorem take_depth (s : TimeBucket) (length : Int) (now : Int) :
    (s.take length now).depth = max s.depth (now - s.burst) + microsecond * ticks s.kiBps length := by
  unfold TimeBucket.take
  split
  next hidle => rw [max_eq_right (by omega)]
  next hbusy => rw [max_eq_left (by omega)]

theorem step_eq_some {s t : State} {c : Call} (h : step s c = some t) :
    s.clock ≤ c.now ∧ c.now ≤ c.ret ∧ t = ⟨s.bucket.take c.length c.now, c.ret⟩ ∧
      (c.ok = true → t.bucket.depth ≤ c.ret) := by
  simp only [step, Option.ite_none_right_eq_some, Option.some.injEq] at h
  obtain ⟨⟨hclock, hret, hok⟩, rfl⟩ := h
  refine ⟨hclock, hret, rfl, fun htrue ↦ ?_⟩
  split at hok
  next hafter => exact hafter.le.trans hret
  next => exact hok htrue

/-- The settings of a bucket stay, its clock goes on, and its depth grows by what is charged. -/
theorem run_grows {s t : State} {calls : List Call} (hrun : runSteps step calls s = some t) :
    t.bucket.kiBps = s.bucket.kiBps ∧ t.bucket.burst = s.bucket.burst ∧ s.clock ≤ t.clock ∧
      s.bucket.depth + microsecond * charge s.bucket.kiBps (calls.map Call.length) ≤
        t.bucket.depth := by
  induction calls generalizing s with
  | nil =>
      cases hrun
      simp [charge]
  | cons c calls ih =>
      rw [runSteps, Option.bind_eq_some_iff] at hrun
      obtain ⟨u, hu, hrest⟩ := hrun
      obtain ⟨hclock, hret, rfl, -⟩ := step_eq_some hu
      obtain ⟨hspeed, hburst, hlater, hdepth⟩ := ih hrest
      refine ⟨hspeed, hburst, (hclock.trans hret).trans hlater, ?_⟩
      have htake := take_depth s.bucket c.length c.now
      have hcharge : charge s.bucket.kiBps ((c :: calls).map Call.length) =
          ticks s.bucket.kiBps c.length + charge s.bucket.kiBps (calls.map Call.length) := rfl
      change (s.bucket.take c.length c.now).depth + microsecond * charge s.bucket.kiBps _ ≤ _ at hdepth
      rw [hcharge, mul_add]
      omega

/-! ## Consecutive calls that returned true -/

/-- The calls let through at most what the burst and the time they took allow, in bytes and
seconds. -/
def Bounded (speedKiBps burstKiB : Int) (window : List Call) : Prop :=
  ∀ first last, window.head? = some first → window.getLast? = some last →
    (total (window.map Call.length) : ℚ) ≤
      1024 * burstKiB + 1024 * speedKiBps * (((last.ret - first.now : Int) : ℚ) / second)

def Shaped (speedKiBps burstKiB : Int) (calls : List Call) : Prop :=
  ∀ pre window post, calls = pre ++ window ++ post → (∀ c ∈ window, c.ok = true) →
    Bounded speedKiBps burstKiB window

/-- Lengths that are more than a burst together lose little to the divisions. -/
def Fair (speedKiBps burstKiB : Int) (lengths : List Nat) : Prop :=
  1024 * burstKiB < total lengths →
    16 * dropped speedKiBps lengths + 384000 * burstKiB ≤
      759 * total lengths + 16000 * (burstKiB * 1024 % speedKiBps)

theorem le_rate_iff (bytes burst speed elapsed : Int) :
    (bytes : ℚ) ≤ 1024 * burst + 1024 * speed * ((elapsed : ℚ) / second) ↔
      1000000000 * bytes ≤ 1000000000 * (1024 * burst) + 1024 * (speed * elapsed) := by
  have hscale : (1024 * burst + 1024 * speed * ((elapsed : ℚ) / second)) * 1000000000 =
      ((1000000000 * (1024 * burst) + 1024 * (speed * elapsed) : Int) : ℚ) := by
    rw [show (second : ℚ) = 1000000000 by norm_num [second]]
    push_cast
    ring
  rw [← mul_le_mul_iff_left₀ (show (0 : ℚ) < 1000000000 by norm_num), hscale,
    show (bytes : ℚ) * 1000000000 = ((1000000000 * bytes : Int) : ℚ) by push_cast; ring]
  exact Int.cast_le

/-- The condition says that the bound holds for the shortest time the calls can take. -/
theorem fair_iff {speed burst : Int} (hspeed : 0 < speed) (hburst : 0 < burst)
    (lengths : List Nat) :
    Fair speed burst lengths ↔
      1000000000 * total lengths ≤ 1000000000 * (1024 * burst) +
        1024 * (speed * max 0 (microsecond * charge speed lengths -
          millisecond * ticks speed burst)) := by
  have hsum := charge_add_dropped speed lengths
  have hdiv : speed * ticks speed burst + burst * 1024 % speed = burst * 1024 := by
    rw [ticks_of_nonneg hburst.le]
    exact Int.mul_ediv_add_emod ..
  have hmax : speed * max 0 (microsecond * charge speed lengths -
      millisecond * ticks speed burst) =
        max 0 (1000 * (speed * charge speed lengths) - 1000000 * (speed * ticks speed burst)) := by
    rw [mul_max_of_nonneg _ _ hspeed.le, mul_zero, microsecond, millisecond]
    congr 1
    ring
  rw [hmax, Fair]
  generalize speed * charge speed lengths = x at *
  generalize speed * ticks speed burst = y at *
  generalize burst * 1024 % speed = remainder at *
  omega

theorem run_last {s t : State} {window : List Call} {last : Call}
    (hrun : runSteps step window s = some t) (hlast : window.getLast? = some last) :
    t.clock = last.ret ∧ (last.ok = true → t.bucket.depth ≤ t.clock) := by
  obtain ⟨init, rfl⟩ : ∃ init, window = init ++ [last] :=
    List.getLast?_eq_some_iff.mp hlast
  rw [runSteps_append, Option.bind_eq_some_iff] at hrun
  obtain ⟨u, -, hu⟩ := hrun
  rw [runSteps, Option.bind_eq_some_iff] at hu
  obtain ⟨v, hv, hend⟩ := hu
  cases hend
  obtain ⟨-, -, rfl, hok⟩ := step_eq_some hv
  exact ⟨rfl, hok⟩

/-- The calls take as long as what they are charged, less the burst. -/
theorem window_time {s t : State} {window : List Call} {first last : Call}
    (hrun : runSteps step window s = some t) (hok : ∀ c ∈ window, c.ok = true)
    (hfirst : window.head? = some first) (hlast : window.getLast? = some last) :
    max 0 (microsecond * charge s.bucket.kiBps (window.map Call.length) - s.bucket.burst) ≤
      last.ret - first.now := by
  obtain ⟨hclock, hdepth⟩ := run_last hrun hlast
  replace hdepth := hdepth (hok last (List.mem_of_getLast? hlast))
  cases window with
  | nil => cases hfirst
  | cons c rest =>
      obtain rfl : c = first := Option.some.inj hfirst
      rw [runSteps, Option.bind_eq_some_iff] at hrun
      obtain ⟨u, hu, hrest⟩ := hrun
      obtain ⟨-, hret, rfl, -⟩ := step_eq_some hu
      obtain ⟨-, -, hlater, hgrown⟩ := run_grows hrest
      have htake := take_depth s.bucket c.length c.now
      have hcharge : charge s.bucket.kiBps ((c :: rest).map Call.length) =
          ticks s.bucket.kiBps c.length + charge s.bucket.kiBps (rest.map Call.length) := rfl
      change (s.bucket.take c.length c.now).depth + microsecond * charge s.bucket.kiBps _ ≤ _ at hgrown
      change c.ret ≤ t.clock at hlater
      rw [hcharge, mul_add]
      omega

/-! ## Calls made as early as possible -/

/-- Each call starts when the last one has returned, and returns as soon as it can. -/
def eager : State → List Nat → List Call
  | _, [] => []
  | s, l :: lengths =>
      let bucket := s.bucket.take l s.clock
      let ret := max s.clock bucket.depth
      ⟨l, s.clock, ret, true⟩ :: eager ⟨bucket, ret⟩ lengths

/-- The traffic so far is paid for, and the next call finds `depth` as it is. -/
structure Filled (s : State) : Prop where
  paid : s.bucket.depth ≤ s.clock
  full : s.clock - s.bucket.depth ≤ s.bucket.burst

theorem eager_lengths (s : State) (lengths : List Nat) :
    (eager s lengths).map Call.length = lengths := by
  induction lengths generalizing s with
  | nil => rfl
  | cons l lengths ih => rw [eager, List.map_cons, ih]

theorem eager_ok (s : State) (lengths : List Nat) : ∀ c ∈ eager s lengths, c.ok = true := by
  induction lengths generalizing s with
  | nil => simp [eager]
  | cons l lengths ih =>
      intro c hc
      rcases List.mem_cons.mp hc with rfl | hc
      · rfl
      · exact ih _ c hc

theorem eager_run {s : State} (h : Filled s) (hspeed : 0 < s.bucket.kiBps) (lengths : List Nat) :
    ∃ t, runSteps step (eager s lengths) s = some t ∧ Filled t ∧
      t.bucket.kiBps = s.bucket.kiBps ∧ t.bucket.burst = s.bucket.burst ∧
      t.bucket.depth = s.bucket.depth + microsecond * charge s.bucket.kiBps lengths ∧
      t.clock = max s.clock t.bucket.depth := by
  have hpaid := h.paid
  have hfull := h.full
  induction lengths generalizing s with
  | nil => exact ⟨s, rfl, h, rfl, rfl, by simp [charge], (max_eq_left hpaid).symm⟩
  | cons l lengths ih =>
      have htake := take_depth s.bucket l s.clock
      have hneed := ticks_nonneg hspeed l
      have hrest := charge_nonneg hspeed lengths
      have hcharge : charge s.bucket.kiBps (l :: lengths) =
          ticks s.bucket.kiBps l + charge s.bucket.kiBps lengths := rfl
      rw [max_eq_left (by omega)] at htake
      -- the state after the first call
      have hfirst : step s ⟨l, s.clock, max s.clock (s.bucket.take l s.clock).depth, true⟩ =
          some ⟨s.bucket.take l s.clock, max s.clock (s.bucket.take l s.clock).depth⟩ := by
        rw [step, if_pos]
        refine ⟨le_rfl, le_max_left _ _, ?_⟩
        split
        · rfl
        · exact fun _ ↦ le_max_right _ _
      have hnext : Filled ⟨s.bucket.take l s.clock, max s.clock (s.bucket.take l s.clock).depth⟩ := by
        refine ⟨le_max_right _ _, ?_⟩
        change max s.clock (s.bucket.take l s.clock).depth - (s.bucket.take l s.clock).depth ≤
          s.bucket.burst
        rw [microsecond] at htake
        omega
      obtain ⟨t, hrun, hfilled, hkiBps, hburst, hdepth, hclock⟩ :=
        ih hnext hspeed hnext.paid hnext.full
      refine ⟨t, ?_, hfilled, hkiBps, hburst, ?_, ?_⟩
      · rw [eager, runSteps, hfirst]
        exact hrun
      · change t.bucket.depth = (s.bucket.take l s.clock).depth + microsecond * charge s.bucket.kiBps _
          at hdepth
        rw [hdepth, htake, hcharge]
        ring
      · change t.bucket.depth = (s.bucket.take l s.clock).depth + microsecond * charge s.bucket.kiBps _
          at hdepth
        change t.clock = max (max s.clock (s.bucket.take l s.clock).depth) t.bucket.depth at hclock
        rw [microsecond] at hdepth
        omega

/-- A call may start later than the last one has returned. -/
theorem run_later {bucket : TimeBucket} {clock later : Int} (h : clock ≤ later) {c : Call}
    {calls : List Call} {t : State} (hrun : runSteps step (c :: calls) ⟨bucket, later⟩ = some t) :
    runSteps step (c :: calls) ⟨bucket, clock⟩ = some t := by
  rw [runSteps, Option.bind_eq_some_iff] at hrun ⊢
  obtain ⟨u, hu, hrest⟩ := hrun
  refine ⟨u, ?_, hrest⟩
  simp only [step, Option.ite_none_right_eq_some] at hu ⊢
  exact ⟨⟨h.trans hu.1.1, hu.1.2⟩, hu.2⟩

/-! ## The bound -/

theorem shaped_of_fair {speed burst start : Int} (hspeed : 0 < speed) (hburst : 0 < burst)
    {bucket : TimeBucket} (hkiBps : bucket.kiBps = speed)
    (hbucket : bucket.burst = millisecond * ticks speed burst) {calls : List Call} {t : State}
    (hfair : ∀ pre window post, calls.map Call.length = pre ++ window ++ post →
      Fair speed burst window)
    (hrun : runSteps step calls ⟨bucket, start⟩ = some t) : Shaped speed burst calls := by
  rintro pre window post rfl hok first last hfirst hlast
  rw [le_rate_iff]
  have hwindow := (fair_iff hspeed hburst _).mp (hfair (pre.map Call.length) (window.map Call.length)
    (post.map Call.length) (by simp))
  rw [List.append_assoc, runSteps_append, Option.bind_eq_some_iff] at hrun
  obtain ⟨s₁, hpre, hrun⟩ := hrun
  rw [runSteps_append, Option.bind_eq_some_iff] at hrun
  obtain ⟨s₂, hmid, -⟩ := hrun
  obtain ⟨hkiBps₁, hburst₁, -, -⟩ := run_grows hpre
  have htime := window_time hmid hok hfirst hlast
  rw [hkiBps₁, hburst₁, hkiBps, hbucket] at htime
  have hmul := mul_le_mul_of_nonneg_left htime hspeed.le
  omega

/-- Calls before the window, a pause that fills the bucket, and the window as early as possible. -/
theorem exists_eager_window {s : State} (h : Filled s) (hspeed : 0 < s.bucket.kiBps)
    (pre : List Nat) (l : Nat) (window post : List Nat) :
    ∃ before first rest after t,
      (before ++ first :: rest ++ after).map Call.length = pre ++ l :: window ++ post ∧
      (first :: rest).map Call.length = l :: window ∧ (∀ c ∈ first :: rest, c.ok = true) ∧
      runSteps step (before ++ first :: rest ++ after) s = some t ∧
      ∃ last, (first :: rest).getLast? = some last ∧
        last.ret - first.now =
          max 0 (microsecond * charge s.bucket.kiBps (l :: window) - s.bucket.burst) := by
  obtain ⟨s₁, hrun₁, hfilled₁, hkiBps₁, hburst₁, -, -⟩ := eager_run h hspeed pre
  have hpaid := hfilled₁.paid
  have hfull := hfilled₁.full
  -- the bucket has filled up
  let idle : State := ⟨s₁.bucket, s₁.bucket.depth + s₁.bucket.burst⟩
  have hidle : Filled idle := by
    constructor
    · change s₁.bucket.depth ≤ s₁.bucket.depth + s₁.bucket.burst
      omega
    · change s₁.bucket.depth + s₁.bucket.burst - s₁.bucket.depth ≤ s₁.bucket.burst
      omega
  obtain ⟨s₂, hrun₂, hfilled₂, hkiBps₂, -, hdepth₂, hclock₂⟩ :=
    eager_run hidle (hkiBps₁ ▸ hspeed) (l :: window)
  obtain ⟨s₃, hrun₃, -⟩ := eager_run hfilled₂ (hkiBps₂ ▸ hkiBps₁ ▸ hspeed) post
  have hlengths := eager_lengths idle (l :: window)
  have hok := eager_ok idle (l :: window)
  obtain ⟨first, rest, heager⟩ : ∃ first rest, eager idle (l :: window) = first :: rest := ⟨_, _, rfl⟩
  have hnow : first.now = idle.clock := by
    rw [eager, List.cons.injEq] at heager
    rw [← heager.1]
  rw [heager] at hrun₂ hlengths hok
  have hlast := List.getLast?_eq_some_getLast (List.cons_ne_nil first rest)
  obtain ⟨hret, -⟩ := run_last hrun₂ hlast
  refine ⟨eager s pre, first, rest, eager s₂ post, s₃, ?_, hlengths, hok, ?_, _, hlast, ?_⟩
  · rw [List.map_append, List.map_append, eager_lengths, hlengths, eager_lengths]
  · have hwindow : runSteps step (first :: rest) s₁ = some s₂ := run_later (by omega) hrun₂
    rw [List.append_assoc, runSteps_append, hrun₁, Option.bind_some, runSteps_append, hwindow,
      Option.bind_some, hrun₃]
  · change s₂.bucket.depth = s₁.bucket.depth + microsecond * charge s₁.bucket.kiBps _ at hdepth₂
    change s₂.clock = max (s₁.bucket.depth + s₁.bucket.burst) s₂.bucket.depth at hclock₂
    change first.now = s₁.bucket.depth + s₁.bucket.burst at hnow
    rw [hkiBps₁] at hdepth₂
    rw [← hret, hnow, ← hburst₁]
    omega

/-- The bytes of consecutive calls that returned true stay within the burst and the speed, for every
clock, exactly when all consecutive lengths are fair. -/
theorem shaped_iff_fair {speedKiBps burstKiB : Int} {bucket : TimeBucket}
    (hnew : TimeBucket.newTimeBucket speedKiBps burstKiB = .ok bucket) (lengths : List Nat) :
    (∀ start calls t, calls.map Call.length = lengths →
        runSteps step calls ⟨bucket, start⟩ = some t → Shaped speedKiBps burstKiB calls) ↔
      ∀ pre window post, lengths = pre ++ window ++ post → Fair speedKiBps burstKiB window := by
  rw [TimeBucket.newTimeBucket] at hnew
  split at hnew
  · cases hnew
  next hpos =>
    obtain ⟨hspeed, hburst⟩ := not_or.mp hpos
    rw [not_le] at hspeed hburst
    cases hnew
    constructor
    · rintro hshaped pre window post rfl
      cases window with
      | nil =>
          intro hmore
          change 1024 * burstKiB < 0 at hmore
          omega
      | cons l window =>
          have hticks : 0 ≤ ticks speedKiBps burstKiB := by
            rw [ticks_of_nonneg hburst.le]
            exact Int.ediv_nonneg (by omega) hspeed.le
          have hnonneg : 0 ≤ millisecond * ticks speedKiBps burstKiB :=
            mul_nonneg (by decide) hticks
          obtain ⟨before, first, rest, after, t, hlengths, hwindow, hok, hrun, last, hlast, htime⟩ :=
            exists_eager_window (s := ⟨⟨0, _, speedKiBps⟩, 0⟩) ⟨le_rfl, by simpa using hnonneg⟩ hspeed
              pre l window post
          have hbound := hshaped 0 _ t hlengths hrun before (first :: rest) after rfl hok first last
            rfl hlast
          rw [le_rate_iff, hwindow, htime] at hbound
          exact (fair_iff hspeed hburst _).mpr hbound
    · rintro hfair start calls t rfl hrun
      exact shaped_of_fair hspeed hburst rfl rfl hfair hrun

/-- Lengths that the speed divides without remainder are fair. -/
theorem fair_of_exact {speed burst : Int} (hspeed : 0 < speed) (hburst : 0 < burst)
    {lengths : List Nat} (h : ∀ l ∈ lengths, (l : Int) * 1024 % speed = 0) :
    Fair speed burst lengths := by
  intro hmore
  have hdropped : dropped speed lengths = 0 := by
    apply List.sum_eq_zero
    intro x hx
    obtain ⟨l, hl, rfl⟩ := List.mem_map.mp hx
    exact h l hl
  have hrest := Int.emod_nonneg (burst * 1024) hspeed.ne'
  omega

/-- At 1 MiB a second nothing is lost. -/
theorem shaped_oneMiB :
    TimeBucket.newTimeBucket 1024 1024 = .ok ⟨0, 1024000000, 1024⟩ ∧
      ∀ start calls t, calls.map Call.length = [204800, 1000, 7] →
        runSteps step calls ⟨⟨0, 1024000000, 1024⟩, start⟩ = some t → Shaped 1024 1024 calls := by
  have hnew : TimeBucket.newTimeBucket 1024 1024 = .ok ⟨0, 1024000000, 1024⟩ := rfl
  refine ⟨hnew, (shaped_iff_fair hnew _).mpr ?_⟩
  intro pre window post _
  exact fair_of_exact (by decide) (by decide) fun l _ ↦ Int.mul_emod_left ..

/-- At 100 MiB a second and a KiB more, packets of 100 bytes are charged nothing: eleven of them
pass at once through a bucket of 1 KiB. -/
theorem short_packets_unshaped :
    ∃ bucket t, TimeBucket.newTimeBucket 102401 1 = .ok bucket ∧
      runSteps step (List.replicate 11 ⟨100, 63900000000000000000, 63900000000000000000, true⟩)
        ⟨bucket, 63900000000000000000⟩ = some t ∧
      ¬ Shaped 102401 1
        (List.replicate 11 ⟨100, 63900000000000000000, 63900000000000000000, true⟩) := by
  refine ⟨_, _, rfl, rfl, fun h ↦ ?_⟩
  have hbound := h [] (List.replicate 11 ⟨100, 63900000000000000000, 63900000000000000000, true⟩) []
    rfl (by decide) _ _ rfl rfl
  rw [le_rate_iff] at hbound
  revert hbound
  decide

end CommonLib.Shaper
