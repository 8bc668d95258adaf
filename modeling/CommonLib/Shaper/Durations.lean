import CommonLib.Shaper.Throughput

/-!
# Durations of 64 bits

`time.Duration` and `int` have 64 bits, and `time.Time.Sub` keeps to the largest and the smallest
duration.  What consecutive calls are charged stays within the time they took and the burst, unless
the burst has wrapped around to the one duration that has no negative, or a call has to wait for
longer than a duration can say.
-/

namespace CommonLib.Shaper.Wrapping

open CommonLib.Reasoning

structure TimeBucket where
  depth : Int
  burst : Int64
  kiBps : Int64

namespace TimeBucket

def newTimeBucket (speedKiBps burstKiB : Int64) : Except Crash TimeBucket :=
  if speedKiBps ≤ 0 ∨ burstKiB ≤ 0 then
    .error (.panic "speedKiBps and burstBytes must be positive")
  else .ok ⟨0, 1000000 * ((burstKiB <<< (10 : Int64)) / speedKiBps), speedKiBps⟩

/-- `t.Sub(u)`. -/
def sub (t u : Int) : Int := max (-2 ^ 63) (min (t - u) (2 ^ 63 - 1))

/-- The depth from which a call goes on that has read the clock. -/
def refilled (s : TimeBucket) (now : Int) : Int :=
  if sub now s.depth > s.burst.toInt then now + (-s.burst).toInt else s.depth

/-- What a call is charged. -/
def need (s : TimeBucket) (length : Int64) : Int64 :=
  1000 * ((length <<< (10 : Int64)) / s.kiBps)

def take (s : TimeBucket) (length : Int64) (now : Int) : TimeBucket :=
  { s with depth := s.refilled now + (s.need length).toInt }

end TimeBucket

structure Call where
  length : Int64
  now : Int
  ret : Int
  ok : Bool
deriving DecidableEq

structure State where
  bucket : TimeBucket
  clock : Int

/-- A call of `Shape`, as in the model without bounds; the timer is set to `s.depth.Sub(now)`. -/
def step (s : State) (c : Call) : Option State :=
  let bucket := s.bucket.take c.length c.now
  if s.clock ≤ c.now ∧ c.now ≤ c.ret ∧
      (if c.now > bucket.depth then c.ok = true
        else c.ok = true → c.now + TimeBucket.sub bucket.depth c.now ≤ c.ret) then
    some ⟨bucket, c.ret⟩
  else none

/-! ## What is charged, and what is saved up -/

/-- What the calls are charged together. -/
def charged (s : TimeBucket) (calls : List Call) : Int :=
  (calls.map fun c ↦ (s.need c.length).toInt).sum

/-- Consecutive calls that returned true are charged no more than the time they took and the
burst. -/
def Metered (s : TimeBucket) (calls : List Call) : Prop :=
  ∀ pre window post, calls = pre ++ window ++ post → (∀ c ∈ window, c.ok = true) →
    ∀ first last, window.head? = some first → window.getLast? = some last →
      charged s window ≤ (last.ret - first.now) + s.burst.toInt

/-- However long the bucket was idle, the call finds no more than the burst saved up. -/
def Credited (s : State) (c : Call) : Prop :=
  c.now - s.bucket.refilled c.now ≤ s.bucket.burst.toInt

/-- The burst has a negative, and the wait for the depth is a duration. -/
def InRange (s : State) (c : Call) : Prop :=
  s.bucket.burst ≠ Int64.minValue ∧
    (s.bucket.take c.length c.now).depth - c.now ≤ 2 ^ 63 - 1

namespace TimeBucket

theorem toInt_neg_of_ne {x : Int64} (h : x ≠ Int64.minValue) : (-x).toInt = -x.toInt := by
  have hne : x.toInt ≠ -2 ^ 63 := fun heq ↦ h (Int64.toInt.inj heq)
  have hlow := x.le_toInt
  have hhigh := x.toInt_lt
  rw [Int64.toInt_neg, Int.bmod]
  split <;> omega

/-- A multiple of a millisecond is even, also after it has wrapped around. -/
theorem toInt_burst_even {speedKiBps burstKiB : Int64} {s : TimeBucket}
    (hnew : newTimeBucket speedKiBps burstKiB = .ok s) : s.burst.toInt % 2 = 0 := by
  rw [newTimeBucket] at hnew
  split at hnew
  · cases hnew
  · cases hnew
    dsimp only
    rw [Int64.toInt_mul]
    change (1000000 * _ : Int).bmod (2 ^ 64) % 2 = 0
    rw [Int.bmod]
    split <;> omega

variable {s : TimeBucket}

/-- The clamp of `Shape` is a maximum.  Since the burst is not the largest duration, it does not
matter that `Sub` stops there. -/
theorem refilled_eq (hburst : s.burst ≠ Int64.minValue) (heven : s.burst.toInt % 2 = 0)
    (now : Int) : s.refilled now = max s.depth (now - s.burst.toInt) := by
  have hlow := s.burst.le_toInt
  have hhigh := s.burst.toInt_lt
  rw [refilled, toInt_neg_of_ne hburst, sub]
  split <;> omega

/-- The bucket without bounds. -/
def exact (s : TimeBucket) : Shaper.TimeBucket := ⟨s.depth, s.burst.toInt, s.kiBps.toInt⟩

theorem shiftLeft_ten (x : Int64) : x <<< (10 : Int64) = x * 1024 := by
  have hten : (10 : Int64).toBitVec.smod 64 = 10#64 := by decide
  rw [← Int64.toBitVec_inj, Int64.toBitVec_shiftLeft, Int64.toBitVec_mul, hten]
  change x.toBitVec <<< 10 = x.toBitVec * BitVec.twoPow 64 10
  rw [BitVec.mul_twoPow_eq_shiftLeft]

theorem bmod_of_lt {n : Int} (hlow : 0 ≤ n) (hhigh : n < 2 ^ 63) : n.bmod (2 ^ 64) = n := by
  rw [Int.bmod]
  split <;> omega

/-- As long as no product wraps around, a call is charged what it is in the model without bounds. -/
theorem toInt_need {length : Int64} (hspeed : 0 < s.kiBps.toInt) (hlength : 0 ≤ length.toInt)
    (hshift : length.toInt * 1024 < 2 ^ 63)
    (hneed : microsecond * ticks s.kiBps.toInt length.toInt < 2 ^ 63) :
    (s.need length).toInt = microsecond * ticks s.kiBps.toInt length.toInt := by
  have hnonneg : 0 ≤ ticks s.kiBps.toInt length.toInt := by
    rw [ticks_of_nonneg hlength]
    exact Int.ediv_nonneg (by omega) hspeed.le
  have hshifted : (length <<< (10 : Int64)).toInt = length.toInt * 1024 := by
    rw [shiftLeft_ten, Int64.toInt_mul]
    exact bmod_of_lt (mul_nonneg hlength (by decide)) hshift
  have hne : s.kiBps ≠ -1 := by
    rintro heq
    rw [heq] at hspeed
    exact absurd hspeed (by decide)
  rw [need, Int64.toInt_mul, Int64.toInt_div_of_ne_right _ _ hne, hshifted]
  exact bmod_of_lt (mul_nonneg (by decide) hnonneg) hneed

theorem take_exact (hburst : s.burst ≠ Int64.minValue) (heven : s.burst.toInt % 2 = 0)
    {length : Int64} (hspeed : 0 < s.kiBps.toInt) (hlength : 0 ≤ length.toInt)
    (hshift : length.toInt * 1024 < 2 ^ 63)
    (hneed : microsecond * ticks s.kiBps.toInt length.toInt < 2 ^ 63) (now : Int) :
    (s.take length now).exact = s.exact.take length.toInt now := by
  have hdepth : (s.take length now).depth = (s.exact.take length.toInt now).depth := by
    rw [take_depth, take, refilled_eq hburst heven, toInt_need hspeed hlength hshift hneed]
    rfl
  rw [exact, hdepth]
  rfl

end TimeBucket

/-! ## Runs -/

theorem step_eq_some {s t : State} {c : Call} (hrange : InRange s c) (h : step s c = some t) :
    s.clock ≤ c.now ∧ c.now ≤ c.ret ∧ t = ⟨s.bucket.take c.length c.now, c.ret⟩ ∧
      (c.ok = true → t.bucket.depth ≤ c.ret) := by
  simp only [step, Option.ite_none_right_eq_some, Option.some.injEq] at h
  obtain ⟨⟨hclock, hret, hok⟩, rfl⟩ := h
  refine ⟨hclock, hret, rfl, fun htrue ↦ ?_⟩
  have hwait := hrange.2
  dsimp only
  split at hok
  next hafter => exact hafter.le.trans hret
  next hbefore =>
    replace hok := hok htrue
    rw [TimeBucket.sub] at hok
    omega

variable {s t : State} {calls : List Call}

/-- The settings of the bucket stay, its clock goes on, and its depth grows by what is charged. -/
theorem run_grows (hrange : EveryStep step InRange calls s)
    (hrun : runSteps step calls s = some t) (heven : s.bucket.burst.toInt % 2 = 0) :
    t.bucket.kiBps = s.bucket.kiBps ∧ t.bucket.burst = s.bucket.burst ∧ s.clock ≤ t.clock ∧
      s.bucket.depth + charged s.bucket calls ≤ t.bucket.depth := by
  induction calls generalizing s with
  | nil =>
      cases hrun
      simp [charged]
  | cons c calls ih =>
      rw [runSteps, Option.bind_eq_some_iff] at hrun
      obtain ⟨u, hu, hrest⟩ := hrun
      obtain ⟨hok, hlater⟩ := hrange u hu
      obtain ⟨hclock, hret, rfl, -⟩ := step_eq_some hok hu
      obtain ⟨hspeed, hburst, hclock', hdepth⟩ := ih hlater hrest heven
      refine ⟨hspeed, hburst, (hclock.trans hret).trans hclock', ?_⟩
      have hrefilled := TimeBucket.refilled_eq hok.1 heven c.now
      have hcharged : charged s.bucket (c :: calls) =
          (s.bucket.need c.length).toInt + charged s.bucket calls := rfl
      change s.bucket.refilled c.now + (s.bucket.need c.length).toInt + charged s.bucket calls ≤ _
        at hdepth
      omega

theorem run_last {window : List Call} {last : Call} (hrange : EveryStep step InRange window s)
    (hrun : runSteps step window s = some t) (hlast : window.getLast? = some last) :
    t.clock = last.ret ∧ (last.ok = true → t.bucket.depth ≤ t.clock) := by
  obtain ⟨init, rfl⟩ : ∃ init, window = init ++ [last] := List.getLast?_eq_some_iff.mp hlast
  rw [runSteps_concat, Option.bind_eq_some_iff] at hrun
  obtain ⟨u, hinit, hu⟩ := hrun
  obtain ⟨hok, -⟩ := hrange.of_append hinit t hu
  obtain ⟨-, -, rfl, hpaid⟩ := step_eq_some hok hu
  exact ⟨rfl, hpaid⟩

theorem charged_window {window : List Call} {first last : Call}
    (hrange : EveryStep step InRange window s) (hrun : runSteps step window s = some t)
    (heven : s.bucket.burst.toInt % 2 = 0) (hok : ∀ c ∈ window, c.ok = true)
    (hfirst : window.head? = some first) (hlast : window.getLast? = some last) :
    charged s.bucket window ≤ (last.ret - first.now) + s.bucket.burst.toInt := by
  obtain ⟨hclock, hpaid⟩ := run_last hrange hrun hlast
  replace hpaid := hpaid (hok last (List.mem_of_getLast? hlast))
  cases window with
  | nil => cases hfirst
  | cons c rest =>
      obtain rfl : c = first := Option.some.inj hfirst
      rw [runSteps, Option.bind_eq_some_iff] at hrun
      obtain ⟨u, hu, hrest⟩ := hrun
      obtain ⟨hc, hlater⟩ := hrange u hu
      obtain ⟨-, -, rfl, -⟩ := step_eq_some hc hu
      obtain ⟨-, -, -, hgrown⟩ := run_grows hlater hrest heven
      have hrefilled := TimeBucket.refilled_eq hc.1 heven c.now
      have hcharged : charged s.bucket (c :: rest) =
          (s.bucket.need c.length).toInt + charged s.bucket rest := rfl
      change s.bucket.refilled c.now + (s.bucket.need c.length).toInt + charged s.bucket rest ≤ _
        at hgrown
      omega

theorem credited_of_inRange (heven : s.bucket.burst.toInt % 2 = 0)
    (hrange : EveryStep step InRange calls s) : EveryStep step Credited calls s := by
  refine hrange.imp_of_inv (P := fun s ↦ s.bucket.burst.toInt % 2 = 0) (fun s c t hs hok hstep ↦ ?_)
    heven
  obtain ⟨-, -, rfl, -⟩ := step_eq_some hok hstep
  have hrefilled := TimeBucket.refilled_eq hok.1 hs c.now
  refine ⟨?_, hs⟩
  rw [Credited]
  omega

/-- Calls in range are charged no more than the time they took and the burst, over every window of
calls that returned true, and no call finds more than the burst saved up. -/
theorem metered_of_inRange (speedKiBps burstKiB : Int64) (bucket : TimeBucket)
    (hnew : TimeBucket.newTimeBucket speedKiBps burstKiB = .ok bucket) (start : Int)
    (calls : List Call) (t : State) (hrun : runSteps step calls ⟨bucket, start⟩ = some t)
    (hrange : EveryStep step InRange calls ⟨bucket, start⟩) :
    Metered bucket calls ∧ EveryStep step Credited calls ⟨bucket, start⟩ := by
  have heven := TimeBucket.toInt_burst_even hnew
  refine ⟨?_, credited_of_inRange heven hrange⟩
  rintro pre window post rfl hok first last hfirst hlast
  rw [List.append_assoc] at hrange hrun
  rw [runSteps_append, Option.bind_eq_some_iff] at hrun
  obtain ⟨s₁, hpre, hrun⟩ := hrun
  rw [runSteps_append, Option.bind_eq_some_iff] at hrun
  obtain ⟨s₂, hmid, -⟩ := hrun
  obtain ⟨hspeed, hburst, -, -⟩ := run_grows hrange.left hpre heven
  have hwindow := charged_window (hrange.of_append hpre).left hmid (hburst ▸ heven) hok
    hfirst hlast
  have hcharged : charged s₁.bucket window = charged bucket window := by
    simp only [charged, TimeBucket.need, hspeed]
  rw [hcharged, hburst] at hwindow
  exact hwindow

/-- The first call is within the burst, the second one waits. -/
theorem metered_oneKiB :
    ∃ bucket t, TimeBucket.newTimeBucket 1 10 = .ok bucket ∧
      runSteps step [⟨1000, 63900000000000000000, 63900000000000000000, true⟩,
        ⟨20000, 63900000000000000010, 63900000012000000000, true⟩]
        ⟨bucket, 63900000000000000000⟩ = some t ∧
      Metered bucket [⟨1000, 63900000000000000000, 63900000000000000000, true⟩,
        ⟨20000, 63900000000000000010, 63900000012000000000, true⟩] := by
  refine ⟨_, _, rfl, rfl, (metered_of_inRange 1 10 _ rfl 63900000000000000000 _ _ rfl ?_).1⟩
  exact .cons rfl ⟨by decide, by decide⟩ (.cons rfl ⟨by decide, by decide⟩ trivial)

/-- A burst of `2^47` KiB at 1 KiB a second wraps around to the smallest duration, whose negative is
itself: a call finds 292 years saved up. -/
theorem burst_wraps :
    ∃ bucket t, TimeBucket.newTimeBucket 1 (2 ^ 47) = .ok bucket ∧
      runSteps step [⟨0, 63900000000000000000, 63900000000000000000, true⟩]
        ⟨bucket, 63900000000000000000⟩ = some t ∧
      ¬ Metered bucket [⟨0, 63900000000000000000, 63900000000000000000, true⟩] ∧
      ¬ EveryStep step Credited [⟨0, 63900000000000000000, 63900000000000000000, true⟩]
        ⟨bucket, 63900000000000000000⟩ := by
  refine ⟨_, _, rfl, rfl, fun h ↦ ?_, fun h ↦ ?_⟩
  · have hbound := h [] [⟨0, 63900000000000000000, 63900000000000000000, true⟩] [] rfl (by decide)
      _ _ rfl rfl
    revert hbound
    decide
  · have hcredit := (h _ rfl).1
    revert hcredit
    rw [Credited]
    decide

end CommonLib.Shaper.Wrapping
