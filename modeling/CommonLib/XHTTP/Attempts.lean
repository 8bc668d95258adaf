import CommonLib.XHTTP.Issuer

/-!
# When the attempts start

The pauses of `workerTask` are of 1, 4, 16 and from then on 60 minutes.  Any four of them in a row
take more than an hour, however short the attempts are.
-/

namespace CommonLib.XHTTP

/-- One turn of the loop of `workerTask`, with any task. -/
structure Turn where
  -- whether the task has returned an error
  failed : Bool
  took : Time
  nonneg : 0 ≤ took
  -- whether the context ends in the pause after the attempt
  cancelled : Bool

structure Timeline where
  starts : List Time
  pauses : List Time

/-- The loop of `workerTask` that starts its next attempt at `t`. -/
def timelineLoop : Time → Time → List Turn → Timeline
  | _, _, [] => ⟨[], []⟩
  | interval, t, a :: rest =>
      if !a.failed || a.cancelled then ⟨[t], []⟩
      else
        let r := timelineLoop (nextInterval interval) (t + a.took + interval) rest
        ⟨t :: r.starts, interval :: r.pauses⟩

def timeline (t : Time) (turns : List Turn) : Timeline := timelineLoop minute t turns

variable {interval t : Time}

theorem timelineLoop_ended {a : Turn} (h : (!a.failed || a.cancelled) = true) (rest : List Turn) :
    timelineLoop interval t (a :: rest) = ⟨[t], []⟩ := by
  rw [timelineLoop, if_pos h]

theorem timelineLoop_retried {a : Turn} (h : (!a.failed || a.cancelled) = false)
    (rest : List Turn) : timelineLoop interval t (a :: rest) =
      ⟨t :: (timelineLoop (nextInterval interval) (t + a.took + interval) rest).starts,
        interval :: (timelineLoop (nextInterval interval) (t + a.took + interval) rest).pauses⟩ := by
  rw [timelineLoop, if_neg (by rw [h]; exact Bool.false_ne_true)]

/-! ## The pauses -/

theorem nextInterval_eq (interval : Time) : nextInterval interval = min (interval * 4) hour := by
  rw [nextInterval]
  split_ifs with h
  · exact (min_eq_right h.le).symm
  · exact (min_eq_left (not_lt.mp h)).symm

theorem minute_le_nextInterval (h : minute ≤ interval) : minute ≤ nextInterval interval := by
  rw [nextInterval_eq, le_min_iff]
  have hpos : (0 : Time) ≤ minute := by decide
  exact ⟨by linarith, by decide⟩

theorem nextInterval_hour : nextInterval hour = hour := rfl

/-- Four times four times four minutes are more than an hour. -/
theorem nextInterval_thrice (h : minute ≤ interval) : nextInterval^[3] interval = hour := by
  have hlong : hour ≤ interval * 4 * 4 * 4 := by
    have h64 : hour ≤ minute * 4 * 4 * 4 := by decide
    linarith
  have hpos : (0 : Time) ≤ hour := by decide
  simp only [Function.iterate_succ, Function.iterate_zero, Function.comp_apply, id, nextInterval_eq]
  rw [min_eq_right]
  rcases le_total (interval * 4) hour with h1 | h1
  · rw [min_eq_left h1]
    rcases le_total (interval * 4 * 4) hour with h2 | h2
    · rw [min_eq_left h2]
      exact hlong
    · rw [min_eq_right h2]
      linarith
  · rw [min_eq_right h1, min_eq_right (by linarith)]
    linarith

theorem iterate_nextInterval {k : Nat} (hk : 3 ≤ k) : nextInterval^[k] minute = hour := by
  obtain ⟨j, rfl⟩ := Nat.exists_eq_add_of_le' hk
  rw [Function.iterate_add_apply, nextInterval_thrice le_rfl, Function.iterate_fixed nextInterval_hour]

theorem pauses_getElem? (turns : List Turn) {k : Nat} {p : Time}
    (h : (timelineLoop interval t turns).pauses[k]? = some p) : p = nextInterval^[k] interval := by
  induction turns generalizing interval t k with
  | nil => cases h
  | cons a rest ih =>
      cases hend : !a.failed || a.cancelled with
      | true =>
          rw [timelineLoop_ended hend] at h
          cases h
      | false =>
          rw [timelineLoop_retried hend] at h
          cases k with
          | zero =>
              cases h
              rfl
          | succ k =>
              rw [List.getElem?_cons_succ] at h
              rw [Function.iterate_succ_apply]
              exact ih h

/-- The time that the next `n` pauses take. -/
def pausing : Nat → Time → Time
  | 0, _ => 0
  | n + 1, interval => interval + pausing n (nextInterval interval)

theorem hour_lt_pausing (h : minute ≤ interval) : hour < pausing 4 interval := by
  have hsecond := minute_le_nextInterval h
  have hthird := minute_le_nextInterval hsecond
  have hfourth : nextInterval (nextInterval (nextInterval interval)) = hour := nextInterval_thrice h
  have hpos : (0 : Time) < minute := by decide
  simp only [pausing, hfourth]
  linarith

/-! ## The starts -/

theorem add_pausing_le (turns : List Turn) (n : Nat) (h : minute ≤ interval) :
    ∀ u ∈ (timelineLoop interval t turns).starts.drop n, t + pausing n interval ≤ u := by
  induction turns generalizing interval t n with
  | nil =>
      intro u hu
      rw [timelineLoop, List.drop_nil] at hu
      cases hu
  | cons a rest ih =>
      intro u hu
      have hnext := minute_le_nextInterval h
      have htook := a.nonneg
      have hpos : (0 : Time) < minute := by decide
      cases hend : !a.failed || a.cancelled with
      | true =>
          rw [timelineLoop_ended hend] at hu
          cases n with
          | zero =>
              rw [List.drop_zero, List.mem_singleton] at hu
              rw [hu, pausing, add_zero]
          | succ n =>
              rw [List.drop_succ_cons, List.drop_nil] at hu
              cases hu
      | false =>
          rw [timelineLoop_retried hend] at hu
          cases n with
          | zero =>
              rw [List.drop_zero, List.mem_cons] at hu
              rcases hu with rfl | hu
              · rw [pausing, add_zero]
              · have hlater := ih 0 hnext u hu
                rw [pausing] at hlater ⊢
                linarith
          | succ n =>
              have hlater := ih n hnext u hu
              rw [pausing]
              linarith

/-- The attempts that start from `w` on and not later than an hour after it. -/
def inWindow (w : Time) (starts : List Time) : List Time :=
  starts.filter fun s ↦ decide (w ≤ s ∧ s ≤ w + hour)

theorem length_inWindow (w : Time) (turns : List Turn) (h : minute ≤ interval) :
    (inWindow w (timelineLoop interval t turns).starts).length ≤ 4 := by
  induction turns generalizing interval t with
  | nil => exact Nat.zero_le 4
  | cons a rest ih =>
      by_cases hw : w ≤ t
      · -- the fifth attempt from here on comes too late
        have hlate : inWindow w ((timelineLoop interval t (a :: rest)).starts.drop 4) = [] := by
          rw [inWindow, List.filter_eq_nil_iff]
          intro u hu
          have hafter := add_pausing_le (a :: rest) 4 h u hu
          have hlong := hour_lt_pausing h
          rw [decide_eq_true_eq]
          rintro ⟨-, hin⟩
          linarith
        have hfirst := List.length_filter_le (fun s ↦ decide (w ≤ s ∧ s ≤ w + hour))
          ((timelineLoop interval t (a :: rest)).starts.take 4)
        rw [List.length_take] at hfirst
        rw [inWindow] at hlate ⊢
        rw [← List.take_append_drop 4 (timelineLoop interval t (a :: rest)).starts,
          List.filter_append, hlate, List.append_nil]
        omega
      · have hbefore (rest : List Time) : inWindow w (t :: rest) = inWindow w rest := by
          rw [inWindow, inWindow, List.filter_cons_of_neg]
          rw [decide_eq_true_eq]
          exact fun hin ↦ hw hin.1
        cases hend : !a.failed || a.cancelled with
        | true =>
            rw [timelineLoop_ended hend, hbefore]
            exact Nat.zero_le 4
        | false =>
            rw [timelineLoop_retried hend, hbefore]
            exact ih (minute_le_nextInterval h)

/-- No hour sees more than five attempts, and from the fourth failure on the pauses are of an
hour. -/
theorem attempts_limited (t : Time) (turns : List Turn) :
    (∀ w, (inWindow w (timeline t turns).starts).length ≤ 5) ∧
      ∀ k pause, 3 ≤ k → (timeline t turns).pauses[k]? = some pause → pause = hour := by
  constructor
  · intro w
    exact (length_inWindow w turns le_rfl).trans (by decide)
  · intro k pause hk hpause
    rw [pauses_getElem? turns hpause, iterate_nextInterval hk]

/-! ## The tasks of the issuer -/

variable {KeyPair : Type} (P : Packages KeyPair)

/-- The turns of a run of the issuer's task, with the times its attempts take. -/
def turnsOf (task : Task) : List (Attempt × { took : Time // 0 ≤ took }) → Issuer KeyPair → List Turn
  | [], _ => []
  | (a, took) :: rest, is =>
      let (err, is', _) := task.run P a is
      ⟨err.isSome, took.1, took.2, a.cancelled⟩ :: turnsOf task rest is'

/-- The run of the issuer's worker pauses as the timeline says. -/
theorem pauses_workerTaskLoop (task : Task) (interval t : Time)
    (attempts : List (Attempt × { took : Time // 0 ≤ took })) (is : Issuer KeyPair) :
    (workerTaskLoop P task interval (attempts.map Prod.fst) is).pauses =
      (timelineLoop interval t (turnsOf P task attempts is)).pauses := by
  induction attempts generalizing interval t is with
  | nil => rfl
  | cons attempt rest ih =>
      obtain ⟨a, took⟩ := attempt
      rw [List.map_cons, turnsOf]
      rcases hresult : task.run P a is with ⟨_ | err, is', got⟩
      · rw [workerTaskLoop_finished hresult, timelineLoop_ended rfl]
      · cases hcancelled : a.cancelled with
        | true =>
            rw [workerTaskLoop_cancelled hresult hcancelled, timelineLoop_ended (by simp)]
        | false =>
            rw [workerTaskLoop_retried hresult hcancelled, timelineLoop_retried (by simp)]
            exact congrArg (interval :: ·) (ih ..)

end CommonLib.XHTTP
