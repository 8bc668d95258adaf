import CommonLib.XPipe.WakeUps

/-!
# Deadlines

A call compares its deadline with the clock before it waits and when it has been woken, and setting
a deadline wakes whoever waits.  Nothing wakes a call when the clock passes its deadline.
-/

namespace CommonLib.XPipe

open XSync Reasoning

/-- What comes from outside: the clock, the context, and new calls. -/
def Event.external : Event → Bool
  | .tick _ | .cancel | .read _ | .write _ | .close | .setDeadline _ _ => true
  | _ => false

/-- None of the calls under way can go on. -/
def Stuck (max : Nat) (s : State) : Prop := ∀ e t, step max s e = some t → e.external = true

/-- When no call can go on, none of those that wait has its deadline in the past. -/
structure Heeded (max : Nat) (s : State) : Prop where
  read : Stuck max s → isDeadlineHappened s.rdeadline s.clock = true → s.rTrigger.members = 0
  write : Stuck max s → isDeadlineHappened s.wdeadline s.clock = true → s.wTrigger.members = 0

/-- What the deadlines depend on, with the sends that are still to be done. -/
structure Timed where
  rTrigger : Cond ReadCall
  wTrigger : Cond WriteCall
  rdeadline : Time
  wdeadline : Time
  clock : Time
  sends : List Side

def State.timed (s : State) (sends : List Side) : Timed :=
  ⟨s.rTrigger, s.wTrigger, s.rdeadline, s.wdeadline, s.clock, sends⟩

/-- Of the calls that wait past their deadline each has been notified or is about to be. -/
structure Prompt (v : Timed) : Prop where
  reader : isDeadlineHappened v.rdeadline v.clock = true →
    v.rTrigger.Supplied (v.sends.count .read)
  writer : isDeadlineHappened v.wdeadline v.clock = true →
    v.wTrigger.Supplied (v.sends.count .write)

/-- The clock passes no deadline of a call that nobody is about to notify, and past a deadline no
send is lost while more calls wait than sends are left. -/
def Timely (s : State) : Event → Prop
  | .tick now => Prompt { s.timed s.sends with clock := now }
  | .send =>
      (s.sends.head? = some .read → isDeadlineHappened s.rdeadline s.clock = true →
        s.rTrigger.token = true → s.rTrigger.pending.length ≤ s.sends.count .read) ∧
      (s.sends.head? = some .write → isDeadlineHappened s.wdeadline s.clock = true →
        s.wTrigger.token = true → s.wTrigger.pending.length ≤ s.sends.count .write)
  | _ => True

structure Covered (v : Timed) : Prop where
  rSound : v.rTrigger.Sound
  wSound : v.wTrigger.Sound
  prompt : Prompt v

theorem Covered.mono {s : State} {sends sends' : List Side} (h : Covered (s.timed sends))
    (hsub : sends.Sublist sends') : Covered (s.timed sends') where
  rSound := h.rSound
  wSound := h.wSound
  prompt := ⟨fun hpast ↦ (h.prompt.reader hpast).mono (hsub.count_le _),
    fun hpast ↦ (h.prompt.writer hpast).mono (hsub.count_le _)⟩

theorem Covered.more {s : State} (h : Covered (s.timed [])) (sends : List Side) :
    Covered (s.timed sends) :=
  h.mono (List.nil_sublist sends)

/-! ## The sections -/

namespace State

variable {max : Nat} {s : State} {sends : List Side} (len : ReadCall) (w : WriteCall)

theorem close_covered (h : Covered (s.timed [])) : Covered (s.close.1.timed s.close.2) := by
  rw [close]
  split
  · exact h
  · exact h.more _

theorem deliver_covered (h : Covered (s.timed sends)) :
    Covered ((s.deliver len sends).timed (s.deliver len sends).sends) :=
  h.mono (List.sublist_append_left ..)

theorem readWait_covered (h : Covered (s.timed [])) :
    Covered ((s.readWait len).timed (s.readWait len).sends) := by
  rw [readWait]
  split
  next => exact h
  next hahead =>
    split
    next => exact h
    next =>
      -- the deadline is ahead of a call that goes to wait
      exact ⟨h.rSound.register len, h.wSound, fun hpast ↦ absurd hpast hahead, h.prompt.writer⟩

theorem readHead_covered (h : Covered (s.timed [])) :
    Covered ((s.readHead len).timed (s.readHead len).sends) := by
  rw [readHead]
  split
  · exact readWait_covered len h
  · exact deliver_covered len h

theorem readFailed_covered (h : Covered (s.timed sends)) (err : PipeError) :
    Covered ((s.readFailed len err sends).timed (s.readFailed len err sends).sends) := by
  rw [readFailed]
  split
  · exact h
  · exact deliver_covered len h

theorem readWoken_covered (h : Covered (s.timed [])) (notified : Bool) :
    Covered ((s.readWoken len notified).timed (s.readWoken len notified).sends) := by
  rw [readWoken]
  split
  · split
    · exact readFailed_covered len h _
    · split
      · exact readFailed_covered len h _
      · exact readHead_covered len h
  · exact readFailed_covered len (close_covered h) _

theorem writeWait_covered (h : Covered (s.timed [])) :
    Covered ((s.writeWait w).timed (s.writeWait w).sends) := by
  rw [writeWait]
  split
  next => exact h
  next hahead =>
    split
    next => exact h
    next =>
      exact ⟨h.rSound, h.wSound.register w, h.prompt.reader, fun hpast ↦ absurd hpast hahead⟩

theorem writeHead_covered (h : Covered (s.timed [])) :
    Covered ((s.writeHead max w).timed (s.writeHead max w).sends) := by
  rw [writeHead]
  split
  · exact h
  · split
    · exact writeWait_covered w h
    · exact h.more _

theorem writeWoken_covered (h : Covered (s.timed [])) (notified : Bool) :
    Covered ((s.writeWoken max w notified).timed (s.writeWoken max w notified).sends) := by
  rw [writeWoken]
  split
  · split
    · exact h
    · split
      · exact h
      · exact writeHead_covered w h
  · exact close_covered h

/-- A deadline that is set to the past is announced to everyone who waits. -/
theorem setDeadline_covered (h : Covered (s.timed [])) (time : Time) (which : Deadline) :
    Covered ((s.setDeadline time which).timed (s.setDeadline time which).sends) := by
  have hread : s.rBroadcast.count .read = s.rTrigger.waiters := List.count_replicate_self
  have hwrite : s.wBroadcast.count .write = s.wTrigger.waiters := List.count_replicate_self
  cases which with
  | both =>
      refine ⟨h.rSound, h.wSound, fun _ ↦ ?_, fun _ ↦ ?_⟩
      · apply h.rSound.supplied.mono
        change _ ≤ (s.rBroadcast ++ s.wBroadcast).count .read
        rw [List.count_append, hread]
        exact Nat.le_add_right _ _
      · apply h.wSound.supplied.mono
        change _ ≤ (s.rBroadcast ++ s.wBroadcast).count .write
        rw [List.count_append, hwrite]
        exact Nat.le_add_left _ _
  | read =>
      refine ⟨h.rSound, h.wSound, fun _ ↦ ?_, (h.more s.rBroadcast).prompt.writer⟩
      exact h.rSound.supplied.mono hread.ge
  | write =>
      refine ⟨h.rSound, h.wSound, (h.more s.wBroadcast).prompt.reader, fun _ ↦ ?_⟩
      exact h.wSound.supplied.mono hwrite.ge

end State

/-! ## Steps -/

variable {max : Nat} {s t : State} {e : Event}

theorem covered_init (now : Time) : Covered ((State.init now).timed (State.init now).sends) :=
  ⟨Cond.sound_new, Cond.sound_new, fun hpast ↦ (by cases hpast), fun hpast ↦ (by cases hpast)⟩

theorem Covered.unlocked (h : Covered (s.timed s.sends)) (hlock : s.lock.isNone = true) :
    Covered (s.timed []) := by
  have hsends : s.sends = [] := by rw [State.sends, Option.isNone_iff_eq_none.mp hlock]
  exact hsends ▸ h

theorem send_covered (h : Covered (s.timed s.sends)) (htimely : Timely s .send)
    (hstep : step max s .send = some t) : Covered (t.timed t.sends) := by
  obtain ⟨hrSound, hwSound, hreader, hwriter⟩ := h
  obtain ⟨hread, hwrite⟩ := htimely
  dsimp only [State.timed] at hreader hwriter
  cases step_taken hstep with
  | @rSend rest next hlock =>
      have hsends : s.sends = .read :: rest := by rw [State.sends, hlock]
      rw [hsends] at hreader hwriter hread
      rw [List.count_cons_self] at hreader hread
      refine ⟨hrSound.signal, hwSound, fun hpast ↦ ?_, fun hpast ↦ ?_⟩
      · exact (hreader hpast).signal hrSound (hread rfl hpast)
      · have hsupplied := hwriter hpast
        rw [List.count_cons_of_ne (by decide)] at hsupplied
        exact hsupplied
  | @wSend rest next hlock =>
      have hsends : s.sends = .write :: rest := by rw [State.sends, hlock]
      rw [hsends] at hreader hwriter hwrite
      rw [List.count_cons_self] at hwriter hwrite
      refine ⟨hrSound, hwSound.signal, fun hpast ↦ ?_, fun hpast ↦ ?_⟩
      · have hsupplied := hreader hpast
        rw [List.count_cons_of_ne (by decide)] at hsupplied
        exact hsupplied
      · exact (hwriter hpast).signal hwSound (hwrite rfl hpast)

/-- A `Read` goes on inside `Wait`. -/
theorem Covered.rTrigger {sends : List Side} (h : Covered (s.timed sends)) {c : Cond ReadCall}
    (hsound : c.Sound) (hsupplied : ∀ n, s.rTrigger.Supplied n → c.Supplied n) :
    Covered (State.timed { s with rTrigger := c } sends) :=
  ⟨hsound, h.wSound, fun hpast ↦ hsupplied _ (h.prompt.reader hpast), h.prompt.writer⟩

/-- A `Write` goes on inside `Wait`. -/
theorem Covered.wTrigger {sends : List Side} (h : Covered (s.timed sends)) {c : Cond WriteCall}
    (hsound : c.Sound) (hsupplied : ∀ n, s.wTrigger.Supplied n → c.Supplied n) :
    Covered (State.timed { s with wTrigger := c } sends) :=
  ⟨h.rSound, hsound, h.prompt.reader, fun hpast ↦ hsupplied _ (h.prompt.writer hpast)⟩

theorem step_covered (h : Covered (s.timed s.sends)) (htimely : Timely s e)
    (hstep : step max s e = some t) : Covered (t.timed t.sends) := by
  cases step_taken hstep with
  | tick => exact ⟨h.rSound, h.wSound, htimely.reader, htimely.writer⟩
  | cancel | readLate | read | writeLate | write | writeRefused | writeTest => exact h
  | @readLock len hlock hmem =>
      exact State.readHead_covered len (s := { s with reading := s.reading.erase len })
        (h.unlocked hlock)
  | @writeLock w hlock hmem =>
      exact State.writeHead_covered w (s := { s with writing := s.writing.erase w })
        (h.unlocked hlock)
  | close hlock => exact State.close_covered (h.unlocked hlock)
  | setDeadline hlock => exact State.setDeadline_covered (h.unlocked hlock) ..
  | rTake hc => exact h.rTrigger (h.rSound.take hc) fun _ hn ↦ hn.take hc
  | rPark hc => exact h.rTrigger (h.rSound.park hc) fun _ hn ↦ hn.park hc
  | rCancel hc => exact h.rTrigger (h.rSound.cancel hc) fun _ hn ↦ hn.cancel hc
  | @rRelock len notified c hlock hc =>
      apply State.readWoken_covered len _ notified
      exact (h.unlocked hlock).rTrigger (Cond.Sound.relock h.rSound hc) fun _ hn ↦ hn.relock hc
  | wTake hc => exact h.wTrigger (h.wSound.take hc) fun _ hn ↦ hn.take hc
  | wPark hc => exact h.wTrigger (h.wSound.park hc) fun _ hn ↦ hn.park hc
  | wCancel hc => exact h.wTrigger (h.wSound.cancel hc) fun _ hn ↦ hn.cancel hc
  | @wRelock w notified c hlock hc =>
      apply State.writeWoken_covered w _ notified
      exact (h.unlocked hlock).wTrigger (Cond.Sound.relock h.wSound hc) fun _ hn ↦ hn.relock hc
  | rSend | wSend => exact send_covered h htimely hstep
  | @resume w hlock =>
      rw [State.sends, hlock] at h
      exact State.writeHead_covered w (s := { s with lock := none }) h
  | unlock hlock =>
      rw [State.sends, hlock] at h
      exact h

/-! ## Where no call can go on -/

theorem Stuck.step_eq_none (h : Stuck max s) (hinternal : e.external = false) :
    step max s e = none := by
  cases hstep : step max s e with
  | none => rfl
  | some t => cases hinternal.symm.trans (h e t hstep)

/-- The holder of the lock always has a step. -/
theorem Stuck.unlocked (h : Stuck max s) : s.lock.isNone = true := by
  have hsend := h.step_eq_none (e := .send) rfl
  have hresume := h.step_eq_none (e := .resume) rfl
  have hunlock := h.step_eq_none (e := .unlock) rfl
  cases hlock : s.lock with
  | none => rfl
  | some hold =>
      unfold step at hsend hresume hunlock
      rw [hlock] at hsend hresume hunlock
      rcases hold with ⟨_ | ⟨_ | _, rest⟩, _ | w⟩
      · cases hunlock
      · cases hresume
      · cases hsend
      · cases hsend
      · cases hsend
      · cases hsend

theorem Stuck.rIdle (h : Stuck max s) : s.rTrigger.registered = [] ∧ s.rTrigger.woken = [] := by
  apply Cond.idle_of_none s.contextDone
  · intro len
    exact Option.map_eq_none_iff.mp (h.step_eq_none (e := .rTake len) rfl)
  · intro hdone len
    have hnone := h.step_eq_none (e := .rPark len) rfl
    rw [step, hdone] at hnone
    exact Option.map_eq_none_iff.mp hnone
  · intro hdone len
    have hnone := h.step_eq_none (e := .rCancel len) rfl
    rw [step, hdone] at hnone
    exact Option.map_eq_none_iff.mp hnone
  · intro len notified
    have hnone := h.step_eq_none (e := .rRelock len notified) rfl
    rw [step, if_pos h.unlocked] at hnone
    exact Option.map_eq_none_iff.mp hnone

theorem Stuck.wIdle (h : Stuck max s) : s.wTrigger.registered = [] ∧ s.wTrigger.woken = [] := by
  apply Cond.idle_of_none s.contextDone
  · intro w
    exact Option.map_eq_none_iff.mp (h.step_eq_none (e := .wTake w) rfl)
  · intro hdone w
    have hnone := h.step_eq_none (e := .wPark w) rfl
    rw [step, hdone] at hnone
    exact Option.map_eq_none_iff.mp hnone
  · intro hdone w
    have hnone := h.step_eq_none (e := .wCancel w) rfl
    rw [step, hdone] at hnone
    exact Option.map_eq_none_iff.mp hnone
  · intro w notified
    have hnone := h.step_eq_none (e := .wRelock w notified) rfl
    rw [step, if_pos h.unlocked] at hnone
    exact Option.map_eq_none_iff.mp hnone

theorem Covered.heeded (h : Covered (s.timed s.sends)) : Heeded max s where
  read hstuck hpast :=
    ((h.unlocked hstuck.unlocked).prompt.reader hpast).members_eq_zero h.rSound hstuck.rIdle
  write hstuck hpast :=
    ((h.unlocked hstuck.unlocked).prompt.writer hpast).members_eq_zero h.wSound hstuck.wIdle

/-- Deadlines take effect in every run in which the clock passes none while a call waits for it. -/
theorem heeded_of_timely (max : Nat) (now : Time) (events : List Event)
    (h : EveryStep (step max) Timely events (.init now)) :
    EveryState (step max) (Heeded max) events (.init now) :=
  (h.everyState (fun _ _ _ hcovered htimely hstep ↦ step_covered hcovered htimely hstep)
    (covered_init now)).imp fun _ hcovered ↦ hcovered.heeded

/-- A `Read` blocks, its deadline is set to the past, and it returns. -/
theorem heeded_setDeadline :
    EveryState (step 16384) (Heeded 16384)
      [.read 4, .readLock 4, .rPark 4, .tick 9, .setDeadline 8 .read, .send, .unlock,
        .rRelock 4 true, .unlock, .tick 10]
      (.init 5) := by
  apply heeded_of_timely
  refine .cons rfl trivial (.cons rfl trivial (.cons rfl trivial (.cons rfl ?_ ?_)))
  · exact ⟨nofun, nofun⟩
  refine .cons rfl trivial (.cons rfl ?_ (.cons rfl trivial (.cons rfl trivial ?_)))
  · exact ⟨fun _ _ htoken ↦ (nomatch htoken), nofun⟩
  refine .cons rfl trivial (.cons rfl ?_ trivial)
  exact ⟨fun _ ↦ Nat.zero_le _, nofun⟩

/-- A call that blocks goes on by a notification or by the context only. -/
theorem stuck_of_parked (hlock : s.lock = none) (hdone : s.contextDone = false)
    (hreading : s.reading = []) (htesting : s.testing = []) (hwriting : s.writing = [])
    (hr : s.rTrigger.registered = [] ∧ s.rTrigger.woken = [])
    (hw : s.wTrigger.registered = [] ∧ s.wTrigger.woken = []) : Stuck max s := by
  intro e t hstep
  cases e with
  | tick | cancel | read | write | close | setDeadline => rfl
  | readLock len =>
      rw [step, hreading] at hstep
      simp at hstep
  | writeTest w =>
      rw [step, htesting] at hstep
      simp at hstep
  | writeLock w =>
      rw [step, hwriting] at hstep
      simp at hstep
  | rTake len => simp [step, Cond.take, hr.1] at hstep
  | rPark len => simp [step, Cond.park, hr.1] at hstep
  | rCancel len => simp [step, hdone] at hstep
  | rRelock len notified => simp [step, Cond.relock, hr.2] at hstep
  | wTake w => simp [step, Cond.take, hw.1] at hstep
  | wPark w => simp [step, Cond.park, hw.1] at hstep
  | wCancel w => simp [step, hdone] at hstep
  | wRelock w notified => simp [step, Cond.relock, hw.2] at hstep
  | send | resume | unlock => simp [step, hlock] at hstep

/-- The read deadline is ahead when the `Read` blocks; then the clock passes it. -/
theorem overdue_read :
    ∃ s, runSteps (step 16384) [.setDeadline 10 .read, .unlock, .read 4, .readLock 4, .rPark 4,
        .tick 11] (.init 5) = some s ∧
      Stuck 16384 s ∧ isDeadlineHappened s.rdeadline s.clock = true ∧ s.rTrigger.parked = [4] ∧
      ¬ Heeded 16384 s := by
  let s : State := { State.init 11 with rdeadline := 10, rTrigger := ⟨false, 1, [], [4], []⟩ }
  have hstuck : Stuck 16384 s := stuck_of_parked rfl rfl rfl rfl rfl ⟨rfl, rfl⟩ ⟨rfl, rfl⟩
  refine ⟨s, rfl, hstuck, rfl, rfl, fun h ↦ ?_⟩
  have hmembers := h.read hstuck rfl
  exact absurd (congrArg Multiset.card hmembers) (by decide)

end CommonLib.XPipe
