import CommonLib.Reasoning.Run
import CommonLib.XSync.Cond

/-!
# Who a broadcast wakes

Goroutines that wait on one condition variable, and that signal and broadcast under its lock.  The
sends of a broadcast are steps of their own, since the goroutines between the unlock and the
`select` go on meanwhile.  A broadcast sends once for every waiter, but the channel holds one
notification: of several waiters that have not reached the `select`, one may get all there is.
-/

namespace CommonLib.XSync

open Reasoning

namespace Broadcast

structure Waiter where
  goroutine : Nat
  -- Its context is done.
  done : Bool
  -- It had registered before the latest broadcast.
  due : Bool
deriving DecidableEq

structure State where
  cond : Cond Waiter
  -- The goroutine that holds the lock.
  holder : Option Nat
  -- The sends that its broadcast has still to do.
  sends : Nat

inductive Event
  | lock (goroutine : Nat)
  | unlock
  | wait (done : Bool)
  | take (w : Waiter)
  | park (w : Waiter)
  | cancel (w : Waiter)
  | relock (w : Waiter) (notified : Bool)
  | signal
  | broadcast
  | send
  | contextDone (goroutine : Nat)

def init : State := ⟨.new, none, 0⟩

/-- The goroutine is in `Wait`. -/
def Waits (c : Cond Waiter) (g : Nat) : Prop :=
  g ∈ (c.pending ++ c.woken.map Prod.fst).map Waiter.goroutine

instance (c : Cond Waiter) (g : Nat) : Decidable (Waits c g) := inferInstanceAs (Decidable (_ ∈ _))

def mapWaiters (f : Waiter → Waiter) (c : Cond Waiter) : Cond Waiter :=
  { c with registered := c.registered.map f, parked := c.parked.map f }

def markDue (c : Cond Waiter) : Cond Waiter := mapWaiters (fun w ↦ { w with due := true }) c

def markDone (g : Nat) (c : Cond Waiter) : Cond Waiter :=
  mapWaiters (fun w ↦ if w.goroutine = g then { w with done := true } else w) c

def step (s : State) : Event → Option State
  | .lock g =>
      if s.holder = none ∧ ¬ Waits s.cond g then some { s with holder := some g } else none
  | .unlock => if s.holder ≠ none ∧ s.sends = 0 then some { s with holder := none } else none
  | .wait done =>
      match s.holder with
      | some g =>
          if s.sends = 0 then some ⟨s.cond.register ⟨g, done, false⟩, none, 0⟩ else none
      | none => none
  | .take w => (s.cond.take w).map ({ s with cond := · })
  | .park w => if w.done then none else (s.cond.park w).map ({ s with cond := · })
  | .cancel w => if w.done then (s.cond.cancel w).map ({ s with cond := · }) else none
  | .relock w notified =>
      if s.holder = none then
        (s.cond.relock w notified).map ({ s with cond := ·, holder := some w.goroutine })
      else none
  | .signal =>
      if s.holder ≠ none ∧ s.sends = 0 then some { s with cond := s.cond.signal } else none
  | .broadcast =>
      if s.holder ≠ none ∧ s.sends = 0 then some ⟨markDue s.cond, s.holder, s.cond.waiters⟩
      else none
  | .send =>
      if 0 < s.sends then some ⟨s.cond.signal, s.holder, s.sends - 1⟩ else none
  | .contextDone g => some { s with cond := markDone g s.cond }

/-- It was to be woken by the latest broadcast, and its context is not done. -/
def Waiter.owed (w : Waiter) : Bool := w.due && !w.done

/-- Every goroutine that the latest broadcast was to wake has received, or there are as many
notifications as there are such goroutines left. -/
def AllServed (s : State) : Prop :=
  s.sends = 0 → s.cond.pending.countP Waiter.owed ≤ s.cond.token.toNat

/-- A broadcast finds at most one goroutine short of the `select`, and nobody takes the
notification that another goroutine is owed. -/
def Orderly (s : State) : Event → Prop
  | .broadcast => s.cond.registered.countP (fun w ↦ !w.done) ≤ 1
  | .take w => (s.cond.pending.erase w).countP Waiter.owed = 0
  | _ => True

/-! ## What the sends are for -/

/-- The waiters that sends are needed for: the parked ones that are due, done or not, and the others
that are owed a notification. -/
def load (c : Cond Waiter) : Nat := c.parked.countP Waiter.due + c.registered.countP Waiter.owed

/-- The sends to come and the notification sent are enough.  Before the last send everyone is due,
and at most one goroutine that is owed a notification is short of the `select`. -/
structure Inv (s : State) : Prop where
  sound : s.cond.Sound
  covered : load s.cond ≤ s.sends + s.cond.token.toNat
  sending : 0 < s.sends → s.cond.registered.countP Waiter.owed ≤ 1 ∧
    ∀ w ∈ s.cond.pending, w.due = true

theorem Inv.allServed {s : State} (h : Inv s) : AllServed s := by
  intro hsends
  have hcovered := h.covered
  have hparked : s.cond.parked.countP Waiter.owed ≤ s.cond.parked.countP Waiter.due :=
    List.countP_mono_left fun w _ howed ↦ by
      rw [Waiter.owed, Bool.and_eq_true] at howed
      exact howed.1
  rw [hsends, load] at hcovered
  rw [Cond.pending, List.countP_append]
  omega

theorem mem_pending {c : Cond Waiter} {w : Waiter} :
    w ∈ c.pending ↔ w ∈ c.registered ∨ w ∈ c.parked := List.mem_append

theorem take_inv {s : State} {c : Cond Waiter} {w : Waiter} (h : Inv s)
    (hothers : (s.cond.pending.erase w).countP Waiter.owed = 0)
    (heq : s.cond.take w = some c) : Inv { s with cond := c } := by
  have hsound := h.sound.take heq
  rw [Cond.take, Option.ite_none_right_eq_some, Option.some.injEq] at heq
  obtain ⟨⟨hmem, htoken⟩, rfl⟩ := heq
  have hparked : s.cond.parked = [] := h.sound.parked_eq_nil htoken
  -- nobody else is owed anything, and the one that takes the notification has it
  have hnone : (s.cond.registered.erase w).countP Waiter.owed = 0 := by
    rw [Cond.pending, List.erase_append_left _ hmem, List.countP_append] at hothers
    omega
  refine ⟨hsound, ?_, fun hsends ↦ ⟨?_, fun w' hw' ↦ ?_⟩⟩
  · rw [load, hnone, hparked]
    exact Nat.zero_le _
  · change (s.cond.registered.erase w).countP Waiter.owed ≤ 1
    omega
  · refine (h.sending hsends).2 w' (mem_pending.mpr ?_)
    exact (mem_pending.mp hw').imp_left List.mem_of_mem_erase

theorem park_inv {s : State} {c : Cond Waiter} {w : Waiter} (h : Inv s) (hdone : w.done = false)
    (heq : s.cond.park w = some c) : Inv { s with cond := c } := by
  have hsound := h.sound.park heq
  rw [Cond.park, Option.ite_none_right_eq_some, Option.some.injEq] at heq
  obtain ⟨⟨hmem, htoken⟩, rfl⟩ := heq
  have howed : w.owed = w.due := by rw [Waiter.owed, hdone, Bool.not_false, Bool.and_true]
  have herase := List.countP_erase Waiter.owed s.cond.registered w
  have hle : s.cond.registered.countP Waiter.owed ≥ if w.due = true then 1 else 0 := by
    split
    · exact List.countP_pos_iff.mpr ⟨w, hmem, by rwa [howed]⟩
    · exact Nat.zero_le _
  have hcovered := h.covered
  simp only [hmem, howed, true_and] at herase
  refine ⟨hsound, ?_, fun hsends ↦ ⟨?_, fun w' hw' ↦ ?_⟩⟩
  · -- a waiter that is due counts where it goes as it did where it was
    simp only [load, List.countP_append, List.countP_singleton] at hcovered ⊢
    omega
  · have hone := (h.sending hsends).1
    change (s.cond.registered.erase w).countP Waiter.owed ≤ 1
    omega
  · refine (h.sending hsends).2 w' (mem_pending.mpr ?_)
    obtain hreg | hpark := mem_pending.mp hw'
    · exact .inl (List.mem_of_mem_erase hreg)
    · obtain hpark | hself := List.mem_append.mp hpark
      · exact .inr hpark
      · exact .inl (List.mem_singleton.mp hself ▸ hmem)

theorem cancel_inv {s : State} {c : Cond Waiter} {w : Waiter} (h : Inv s)
    (heq : s.cond.cancel w = some c) : Inv { s with cond := c } := by
  have hsound := h.sound.cancel heq
  -- whichever list it leaves, no count grows
  have hsub : c.registered.Sublist s.cond.registered ∧ c.parked.Sublist s.cond.parked ∧
      c.token = s.cond.token := by
    rw [Cond.cancel] at heq
    split at heq
    · cases heq
      exact ⟨List.erase_sublist, .refl _, rfl⟩
    · rw [Option.ite_none_right_eq_some, Option.some.injEq] at heq
      obtain ⟨-, rfl⟩ := heq
      exact ⟨.refl _, List.erase_sublist, rfl⟩
  obtain ⟨hregistered, hparked, htoken⟩ := hsub
  have howed := hregistered.countP_le (p := Waiter.owed)
  have hdue := hparked.countP_le (p := Waiter.due)
  have hcovered := h.covered
  refine ⟨hsound, ?_, fun hsends ↦ ⟨?_, fun w' hw' ↦ ?_⟩⟩
  · simp only [load, htoken] at hcovered ⊢
    omega
  · exact howed.trans (h.sending hsends).1
  · refine (h.sending hsends).2 w' (mem_pending.mpr ?_)
    exact (mem_pending.mp hw').imp (hregistered.subset ·) (hparked.subset ·)

theorem signal_registered (c : Cond Waiter) : c.signal.registered = c.registered := by
  rw [Cond.signal, Cond.notify]
  split
  · split <;> rfl
  · rfl

theorem signal_load {c : Cond Waiter} : load c.signal ≤ load c ∧
    c.token.toNat ≤ c.signal.token.toNat := by
  rw [Cond.signal, Cond.notify]
  split
  · split
    next w rest hparked =>
      simp only [load, hparked, List.countP_cons]
      omega
    next hparked =>
      exact ⟨le_rfl, Bool.toNat_le c.token⟩
  · exact ⟨le_rfl, le_rfl⟩

theorem signal_inv {s : State} (h : Inv s) (hsends : s.sends = 0) :
    Inv { s with cond := s.cond.signal } := by
  have hcovered := h.covered
  obtain ⟨hload, htoken⟩ := signal_load (c := s.cond)
  refine ⟨h.sound.signal, ?_, fun hpos ↦ ?_⟩
  · change load s.cond.signal ≤ s.sends + s.cond.signal.token.toNat
    omega
  · change 0 < s.sends at hpos
    omega

theorem signal_parked (c : Cond Waiter) : c.signal.parked ⊆ c.parked := by
  rw [Cond.signal, Cond.notify]
  split
  · split
    next w rest hparked =>
      rw [hparked]
      exact List.subset_cons_self ..
    next hparked => simp [hparked]
  · exact List.Subset.refl _

/-- Each send of a broadcast serves a parked waiter or leaves a notification; one is enough when
nobody is parked. -/
theorem send_load {s : State} (h : Inv s) (hsends : 0 < s.sends) :
    load s.cond.signal ≤ s.sends - 1 + s.cond.signal.token.toNat := by
  have hcovered := h.covered
  obtain ⟨hone, hdue⟩ := h.sending hsends
  rw [load] at hcovered
  rw [Cond.signal]
  split
  next hwaiters =>
    rw [Cond.notify]
    split
    next w rest hparked =>
      have hw : w.due = true := hdue w (mem_pending.mpr (.inr (by simp [hparked])))
      simp only [hparked, List.countP_cons, hw, if_true] at hcovered
      rw [load]
      change rest.countP Waiter.due + s.cond.registered.countP Waiter.owed ≤
        s.sends - 1 + s.cond.token.toNat
      omega
    next hparked =>
      simp only [load, hparked, List.countP_nil, Bool.toNat_true]
      omega
  next hwaiters =>
    -- without waiters there is nobody to serve
    have hcount := h.sound.count
    have hparked : s.cond.parked = [] := List.length_eq_zero_iff.mp (by omega)
    have hregistered : s.cond.registered = [] := List.length_eq_zero_iff.mp (by omega)
    simp only [load, hparked, hregistered, List.countP_nil]
    omega

theorem send_inv {s : State} (h : Inv s) (hsends : 0 < s.sends) :
    Inv ⟨s.cond.signal, s.holder, s.sends - 1⟩ := by
  obtain ⟨hone, hdue⟩ := h.sending hsends
  have hregistered := signal_registered s.cond
  refine ⟨h.sound.signal, send_load h hsends, fun _ ↦ ⟨?_, fun w hw ↦ ?_⟩⟩
  · change s.cond.signal.registered.countP Waiter.owed ≤ 1
    rw [hregistered]
    exact hone
  · refine hdue w (mem_pending.mpr ?_)
    exact (mem_pending.mp hw).imp (hregistered ▸ ·) (signal_parked s.cond ·)

theorem owed_markDue (c : Cond Waiter) :
    (markDue c).registered.countP Waiter.owed = c.registered.countP fun w ↦ !w.done := by
  rw [markDue, mapWaiters, List.countP_map]
  rfl

theorem broadcast_inv {s : State} (h : Inv s)
    (hone : s.cond.registered.countP (fun w ↦ !w.done) ≤ 1) :
    Inv ⟨markDue s.cond, s.holder, s.cond.waiters⟩ := by
  have hpending := h.sound.pending_le
  have hcount := h.sound.count
  have howed := owed_markDue s.cond
  have hparked : (markDue s.cond).parked.countP Waiter.due ≤ s.cond.parked.length := by
    refine List.countP_le_length.trans ?_
    rw [markDue, mapWaiters, List.length_map]
  refine ⟨⟨?_, ?_⟩, ?_, fun _ ↦ ⟨?_, ?_⟩⟩
  · simp only [markDue, mapWaiters, List.length_map]
    exact hcount
  · intro hne
    exact h.sound.idle fun hnil ↦ hne (by simp [markDue, mapWaiters, hnil])
  · -- a send for every waiter
    have hle : s.cond.registered.countP (fun w ↦ !w.done) ≤ s.cond.registered.length :=
      List.countP_le_length
    change load (markDue s.cond) ≤ s.cond.waiters + s.cond.token.toNat
    rw [load, howed]
    omega
  · change (markDue s.cond).registered.countP Waiter.owed ≤ 1
    rw [howed]
    exact hone
  · intro w hw
    simp only [markDue, Cond.pending, mapWaiters, List.mem_append, List.mem_map] at hw
    obtain ⟨v, -, rfl⟩ | ⟨v, -, rfl⟩ := hw <;> rfl

theorem contextDone_inv {s : State} (h : Inv s) (g : Nat) :
    Inv { s with cond := markDone g s.cond } := by
  let f : Waiter → Waiter := fun w ↦ if w.goroutine = g then { w with done := true } else w
  have hf : ∀ w, (f w).due = w.due ∧ ((f w).owed = true → w.owed = true) := by
    intro w
    simp only [f]
    split
    · exact ⟨rfl, fun howed ↦ by simp [Waiter.owed] at howed⟩
    · exact ⟨rfl, id⟩
  have howed : (s.cond.registered.map f).countP Waiter.owed ≤
      s.cond.registered.countP Waiter.owed := by
    rw [List.countP_map]
    exact List.countP_mono_left fun w _ ↦ (hf w).2
  have hdue : (s.cond.parked.map f).countP Waiter.due ≤ s.cond.parked.countP Waiter.due := by
    rw [List.countP_map]
    exact List.countP_mono_left fun w _ hw ↦ (hf w).1 ▸ hw
  have hcovered := h.covered
  rw [load] at hcovered
  refine ⟨⟨?_, ?_⟩, ?_, fun hsends ↦ ⟨?_, ?_⟩⟩
  · simp only [markDone, mapWaiters, List.length_map]
    exact h.sound.count
  · intro hne
    exact h.sound.idle fun hnil ↦ hne (by simp [markDone, mapWaiters, hnil])
  · change (s.cond.parked.map f).countP Waiter.due + (s.cond.registered.map f).countP Waiter.owed ≤
      s.sends + s.cond.token.toNat
    omega
  · exact howed.trans (h.sending hsends).1
  · intro w hw
    simp only [markDone, Cond.pending, mapWaiters, List.mem_append, List.mem_map] at hw
    have hall := (h.sending hsends).2
    obtain ⟨v, hv, rfl⟩ | ⟨v, hv, rfl⟩ := hw
    · exact (hf v).1.trans (hall v (mem_pending.mpr (.inl hv)))
    · exact (hf v).1.trans (hall v (mem_pending.mpr (.inr hv)))

/-! ## Runs -/

theorem inv_init : Inv init := ⟨Cond.sound_new, Nat.zero_le _, fun h ↦ absurd h (by decide)⟩

theorem step_inv {s t : State} {e : Event} (h : Inv s) (horderly : Orderly s e)
    (hstep : step s e = some t) : Inv t := by
  cases e with
  | lock g =>
      rw [step, Option.ite_none_right_eq_some, Option.some.injEq] at hstep
      obtain ⟨-, rfl⟩ := hstep
      exact ⟨h.sound, h.covered, h.sending⟩
  | unlock =>
      rw [step, Option.ite_none_right_eq_some, Option.some.injEq] at hstep
      obtain ⟨-, rfl⟩ := hstep
      exact ⟨h.sound, h.covered, h.sending⟩
  | wait done =>
      rw [step] at hstep
      split at hstep
      next g hholder =>
        rw [Option.ite_none_right_eq_some, Option.some.injEq] at hstep
        obtain ⟨hsends, rfl⟩ := hstep
        have hcovered := h.covered
        rw [hsends, load] at hcovered
        refine ⟨h.sound.register _, ?_, fun hpos ↦ absurd hpos (Nat.lt_irrefl 0)⟩
        simp only [load, Cond.register, List.countP_cons, Waiter.owed, Bool.false_and]
        simpa using hcovered
      next => cases hstep
  | take w =>
      obtain ⟨c, hc, rfl⟩ := Option.map_eq_some_iff.mp hstep
      exact take_inv h horderly hc
  | park w =>
      rw [step] at hstep
      split at hstep
      next => cases hstep
      next hdone =>
        obtain ⟨c, hc, rfl⟩ := Option.map_eq_some_iff.mp hstep
        exact park_inv h (Bool.eq_false_iff.mpr hdone) hc
  | cancel w =>
      rw [step] at hstep
      split at hstep
      next =>
        obtain ⟨c, hc, rfl⟩ := Option.map_eq_some_iff.mp hstep
        exact cancel_inv h hc
      next => cases hstep
  | relock w notified =>
      rw [step] at hstep
      split at hstep
      next =>
        obtain ⟨c, hc, rfl⟩ := Option.map_eq_some_iff.mp hstep
        have hsound := h.sound.relock hc
        rw [Cond.relock, Option.ite_none_right_eq_some, Option.some.injEq] at hc
        obtain ⟨-, rfl⟩ := hc
        exact ⟨hsound, h.covered, h.sending⟩
      next => cases hstep
  | signal =>
      rw [step, Option.ite_none_right_eq_some, Option.some.injEq] at hstep
      obtain ⟨⟨-, hsends⟩, rfl⟩ := hstep
      exact signal_inv h hsends
  | broadcast =>
      rw [step, Option.ite_none_right_eq_some, Option.some.injEq] at hstep
      obtain ⟨-, rfl⟩ := hstep
      exact broadcast_inv h horderly
  | send =>
      rw [step, Option.ite_none_right_eq_some, Option.some.injEq] at hstep
      obtain ⟨hsends, rfl⟩ := hstep
      exact send_inv h hsends
  | contextDone g =>
      cases hstep
      exact contextDone_inv h g

/-- In every orderly run the broadcasts wake everyone. -/
theorem allServed_of_orderly {events : List Event} (h : EveryStep step Orderly events init) :
    EveryState step AllServed events init :=
  (h.everyState (fun _ _ _ hinv horderly hstep ↦ step_inv hinv horderly hstep) inv_init).imp
    fun _ hinv ↦ hinv.allServed

/-- Goroutine 1 waits and blocks, goroutine 2 wakes it. -/
theorem allServed_oneParked :
    EveryState step AllServed
      [.lock 1, .wait false, .park ⟨1, false, false⟩, .lock 2, .broadcast, .send, .unlock] init := by
  apply allServed_of_orderly
  refine .cons rfl trivial (.cons rfl trivial (.cons rfl trivial (.cons rfl trivial ?_)))
  exact .cons rfl (Nat.zero_le 1) (.cons rfl trivial (.cons rfl trivial trivial))

/-! ## Two waiters short of the `select` -/

/-- Sends without a pause reach nobody who is short of the `select`. -/
theorem runSteps_sends {s : State} {n : Nat} (h : s.sends = n) :
    ∃ t, runSteps step (List.replicate n .send) s = some t ∧ t.sends = 0 ∧
      t.cond.registered = s.cond.registered := by
  induction n generalizing s with
  | zero => exact ⟨s, rfl, h, rfl⟩
  | succ n ih =>
      have hstep : step s .send = some ⟨s.cond.signal, s.holder, s.sends - 1⟩ :=
        if_pos (by omega)
      obtain ⟨t, hrun, hsends, hregistered⟩ :=
        ih (s := ⟨s.cond.signal, s.holder, s.sends - 1⟩) (by simp [h])
      refine ⟨t, ?_, hsends, hregistered.trans (signal_registered s.cond)⟩
      rw [List.replicate_succ, runSteps, hstep]
      exact hrun

/-- A broadcast that finds two of them can leave one without a notification. -/
theorem unserved_of_twoShort {s : State} (hholder : s.holder ≠ none) (hsends : s.sends = 0)
    (htwo : 2 ≤ s.cond.registered.countP fun w ↦ !w.done) :
    ∃ t, runSteps step (.broadcast :: List.replicate s.cond.waiters .send) s = some t ∧
      ¬ AllServed t := by
  have hstep : step s .broadcast = some ⟨markDue s.cond, s.holder, s.cond.waiters⟩ :=
    if_pos ⟨hholder, hsends⟩
  obtain ⟨t, hrun, hdone, hregistered⟩ :=
    runSteps_sends (s := ⟨markDue s.cond, s.holder, s.cond.waiters⟩) rfl
  refine ⟨t, ?_, fun hserved ↦ ?_⟩
  · rw [runSteps, hstep]
    exact hrun
  · have howed := owed_markDue s.cond
    rw [← hregistered] at howed
    have hle := hserved hdone
    have htoken := Bool.toNat_le t.cond.token
    rw [Cond.pending, List.countP_append] at hle
    omega

/-- The run in which goroutines 1 and 2 are both short of the `select` when 3 broadcasts, and 1
takes the one notification before 2 blocks. -/
def twoUnparked : List Event :=
  [.lock 1, .wait false, .lock 2, .wait false, .lock 3, .broadcast, .send, .send, .unlock,
    .take ⟨1, false, true⟩, .park ⟨2, false, true⟩]

/-- Goroutine 2 had registered before the broadcast, and blocks with no notification left. -/
theorem broadcast_misses_one :
    ∃ s, runSteps step twoUnparked init = some s ∧ s.sends = 0 ∧
      s.cond.parked = [⟨2, false, true⟩] ∧ s.cond.token = false ∧ ¬ AllServed s := by
  refine ⟨⟨⟨false, 2, [], [⟨2, false, true⟩], [(⟨1, false, true⟩, true)]⟩, none, 0⟩, rfl, rfl, rfl,
    rfl, ?_⟩
  intro hserved
  exact absurd (hserved rfl) (by decide)

end Broadcast

end CommonLib.XSync
