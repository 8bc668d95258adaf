import CommonLib.Reasoning.GoString
import CommonLib.Reasoning.Run

/-!
# Recent hits

`Recent` counts the hits of an ip in a table that drops an entry some time after it was last read.
The table holds pointers to the counters, so that a call goes on with the counter it has found when
the entry is dropped meanwhile.  Seen from one ip, the calls work on a `Slot`.
-/

namespace CommonLib.XLimits.Recent

open CommonLib.Reasoning

/-- A `*int` that is not nil. -/
abbrev Ptr := Nat

/-! ## The calls -/

/-- Where the call is that holds the lock. -/
inductive Phase
  -- `Hit` has what `Value` returned; the data may be a nil pointer.
  | hitting (cached : Option (Option Ptr))
  -- `Undo` has found a counter.
  | undoing (cntr : Ptr)
  | undone (cntr : Ptr)
deriving DecidableEq

structure Call where
  ip : GoString
  phase : Phase
deriving DecidableEq

/-- What a call has done to the counter of its ip. -/
inductive Entry
  -- A `Hit`, whether it has added the entry to the table, and what it has returned.
  | hit (created : Bool) (exceeded : Bool)
  -- An `Undo` that has found an entry, and what it has returned.
  | undo (left : Int)
deriving DecidableEq

structure System where
  max : Int
  recent : GoString → Option (Option Ptr)
  heap : Ptr → Int
  -- The next address `&cntr_value` returns.
  fresh : Ptr
  lock : Option Call
  -- The calls on each ip, the last one first.
  log : GoString → List Entry

inductive Action
  | hit | count | undo | decrement | release | expire
deriving DecidableEq

structure Event where
  ip : GoString
  action : Action
deriving DecidableEq

namespace System

def init (max : Int) : System where
  max := max
  recent := fun _ ↦ none
  heap := fun _ ↦ 0
  fresh := 0
  lock := none
  log := fun _ ↦ []

def record (s : System) (ip : GoString) (entry : Entry) : GoString → List Entry :=
  Function.update s.log ip (entry :: s.log ip)

/-- `*cntr += 1` or, without a counter, `Add`. -/
def count (s : System) (ip : GoString) : Option (Option Ptr) → System
  | some (some cntr) => { s with
      heap := Function.update s.heap cntr (s.heap cntr + 1)
      lock := none
      log := s.record ip (.hit false (decide (s.heap cntr + 1 > s.max))) }
  | _ => { s with
      recent := Function.update s.recent ip (some (some s.fresh))
      heap := Function.update s.heap s.fresh 1
      fresh := s.fresh + 1
      lock := none
      log := s.record ip (.hit true (decide (1 > s.max))) }

/-- The steps of `Hit` and `Undo` between two accesses to the table, and the end of an entry. -/
def step (s : System) : Event → Option System
  | ⟨ip, .hit⟩ =>
      if ip = [] then some { s with log := s.record ip (.hit false false) }
      else if s.lock = none then some { s with lock := some ⟨ip, .hitting (s.recent ip)⟩ }
      else none
  | ⟨ip, .count⟩ =>
      match s.lock with
      | some ⟨ip', .hitting cached⟩ => if ip' = ip then some (s.count ip cached) else none
      | _ => none
  | ⟨ip, .undo⟩ =>
      if ip = [] then some s
      else if s.lock = none then
        match s.recent ip with
        | some (some cntr) => some { s with lock := some ⟨ip, .undoing cntr⟩ }
        | _ => some s
      else none
  | ⟨ip, .decrement⟩ =>
      match s.lock with
      | some ⟨ip', .undoing cntr⟩ =>
          if ip' = ip then some { s with
            heap := Function.update s.heap cntr (s.heap cntr - 1)
            lock := some ⟨ip, .undone cntr⟩
            log := s.record ip (.undo (s.heap cntr - 1)) }
          else none
      | _ => none
  | ⟨ip, .release⟩ =>
      match s.lock with
      | some ⟨ip', .undone cntr⟩ =>
          if ip' = ip then some { s with
            recent := if s.heap cntr = 0 then Function.update s.recent ip none else s.recent
            lock := none }
          else none
      | _ => none
  | ⟨ip, .expire⟩ => some { s with recent := Function.update s.recent ip none }

/-- What each step does, with what it has found. -/
inductive Taken (s : System) : Event → System → Prop
  | hitNone : Taken s ⟨[], .hit⟩ { s with log := s.record [] (.hit false false) }
  | hit {ip : GoString} (hip : ip ≠ []) (hlock : s.lock = none) :
      Taken s ⟨ip, .hit⟩ { s with lock := some ⟨ip, .hitting (s.recent ip)⟩ }
  | count {ip : GoString} {cntr : Ptr}
      (hlock : s.lock = some ⟨ip, .hitting (some (some cntr))⟩) :
      Taken s ⟨ip, .count⟩ { s with
        heap := Function.update s.heap cntr (s.heap cntr + 1)
        lock := none
        log := s.record ip (.hit false (decide (s.heap cntr + 1 > s.max))) }
  | create {ip : GoString} {cached : Option (Option Ptr)}
      (hlock : s.lock = some ⟨ip, .hitting cached⟩) (hmissing : cached.join = none) :
      Taken s ⟨ip, .count⟩ { s with
        recent := Function.update s.recent ip (some (some s.fresh))
        heap := Function.update s.heap s.fresh 1
        fresh := s.fresh + 1
        lock := none
        log := s.record ip (.hit true (decide (1 > s.max))) }
  | undoNone : Taken s ⟨[], .undo⟩ s
  | undoMissing {ip : GoString} (hip : ip ≠ []) (hlock : s.lock = none)
      (hmissing : (s.recent ip).join = none) : Taken s ⟨ip, .undo⟩ s
  | undo {ip : GoString} {cntr : Ptr} (hip : ip ≠ []) (hlock : s.lock = none)
      (hfound : s.recent ip = some (some cntr)) :
      Taken s ⟨ip, .undo⟩ { s with lock := some ⟨ip, .undoing cntr⟩ }
  | decrement {ip : GoString} {cntr : Ptr} (hlock : s.lock = some ⟨ip, .undoing cntr⟩) :
      Taken s ⟨ip, .decrement⟩ { s with
        heap := Function.update s.heap cntr (s.heap cntr - 1)
        lock := some ⟨ip, .undone cntr⟩
        log := s.record ip (.undo (s.heap cntr - 1)) }
  | release {ip : GoString} {cntr : Ptr} (hlock : s.lock = some ⟨ip, .undone cntr⟩) :
      Taken s ⟨ip, .release⟩ { s with
        recent := if s.heap cntr = 0 then Function.update s.recent ip none else s.recent
        lock := none }
  | expire {ip : GoString} :
      Taken s ⟨ip, .expire⟩ { s with recent := Function.update s.recent ip none }

theorem step_taken {s t : System} {e : Event} (hstep : s.step e = some t) : Taken s e t := by
  obtain ⟨ip, action⟩ := e
  cases action with
  | hit =>
      rw [step] at hstep
      split at hstep
      next hip =>
        cases hstep
        subst hip
        exact .hitNone
      next hip =>
        rw [Option.ite_none_right_eq_some] at hstep
        obtain ⟨hlock, hstep⟩ := hstep
        cases hstep
        exact .hit hip hlock
  | count =>
      simp only [step] at hstep
      split at hstep
      next ip' cached hlock =>
        rw [Option.ite_none_right_eq_some] at hstep
        obtain ⟨rfl, hstep⟩ := hstep
        rcases cached with _ | _ | cntr
        · cases hstep
          exact .create hlock rfl
        · cases hstep
          exact .create hlock rfl
        · cases hstep
          exact .count hlock
      next => cases hstep
  | undo =>
      rw [step] at hstep
      split at hstep
      next hip =>
        cases hstep
        subst hip
        exact .undoNone
      next hip =>
        rw [Option.ite_none_right_eq_some] at hstep
        obtain ⟨hlock, hstep⟩ := hstep
        rcases hfound : s.recent ip with _ | _ | cntr
        · rw [hfound] at hstep
          cases hstep
          exact .undoMissing hip hlock (by rw [hfound]; rfl)
        · rw [hfound] at hstep
          cases hstep
          exact .undoMissing hip hlock (by rw [hfound]; rfl)
        · rw [hfound] at hstep
          cases hstep
          exact .undo hip hlock hfound
  | decrement =>
      simp only [step] at hstep
      split at hstep
      next ip' cntr hlock =>
        rw [Option.ite_none_right_eq_some] at hstep
        obtain ⟨rfl, hstep⟩ := hstep
        cases hstep
        exact .decrement hlock
      next => cases hstep
  | release =>
      simp only [step] at hstep
      split at hstep
      next ip' cntr hlock =>
        rw [Option.ite_none_right_eq_some] at hstep
        obtain ⟨rfl, hstep⟩ := hstep
        cases hstep
        exact .release hlock
      next => cases hstep
  | expire =>
      cases hstep
      exact .expire

/-- The counter in the table. -/
def counter (s : System) (ip : GoString) : Option Int := (s.recent ip).bind (·.map s.heap)

end System

/-! ## What the calls on one ip see -/

/-- The steps of the calls on one ip, with the ends of its entry. -/
def actionsOn (ip : GoString) (es : List Event) : List Action :=
  (es.filter (·.ip = ip)).map (·.action)

/-- Where the call on the ip is, with the value of the counter it has found. -/
inductive Progress
  | idle
  | hitting (found : Option Int)
  | undoing (n : Int)
  | undone (n : Int)
deriving DecidableEq

/-- The counter of one ip, with the calls on it. -/
structure Slot where
  stored : Option Int
  progress : Progress
  log : List Entry

namespace Slot

/-- A counter that is still in the table is the one the call has found. -/
def step (max : Int) (s : Slot) : Action → Option Slot
  | .hit => if s.progress = .idle then some { s with progress := .hitting s.stored } else none
  | .count =>
      match s.progress with
      | .hitting (some n) =>
          some ⟨s.stored.map fun _ ↦ n + 1, .idle, .hit false (decide (n + 1 > max)) :: s.log⟩
      | .hitting none => some ⟨some 1, .idle, .hit true (decide (1 > max)) :: s.log⟩
      | _ => none
  | .undo =>
      if s.progress = .idle then
        match s.stored with
        | some n => some { s with progress := .undoing n }
        | none => some s
      else none
  | .decrement =>
      match s.progress with
      | .undoing n => some ⟨s.stored.map fun _ ↦ n - 1, .undone (n - 1), .undo (n - 1) :: s.log⟩
      | _ => none
  | .release =>
      match s.progress with
      | .undone n => some { s with stored := if n = 0 then none else s.stored, progress := .idle }
      | _ => none
  | .expire => some { s with stored := none }

end Slot

/-- The `Hit`s less the effective `Undo`s since the entry was last created. -/
def balance : List Entry → Int
  | [] => 0
  | .hit true _ :: _ => 1
  | .hit false _ :: older => balance older + 1
  | .undo _ :: older => balance older - 1

/-- Every `Hit` has returned whether the balance, with it, is more than `max`, and every effective
`Undo` the balance. -/
def Judged (max : Int) : List Entry → Prop
  | [] => True
  | .hit created exceeded :: older =>
      (exceeded = true ↔ balance (.hit created exceeded :: older) > max) ∧ Judged max older
  | .undo left :: older => left = balance (.undo left :: older) ∧ Judged max older

namespace Slot

structure Inv (max : Int) (s : Slot) : Prop where
  stored : ∀ n, s.stored = some n → n = balance s.log ∧ (1 ≤ n ∨ s.progress = .undone n)
  found : ∀ n, s.progress = .hitting (some n) → n = balance s.log
  missing : s.progress = .hitting none → s.stored = none
  undoing : ∀ n, s.progress = .undoing n → n = balance s.log ∧ 1 ≤ n
  undone : ∀ n, s.progress = .undone n → n = balance s.log ∧ 0 ≤ n
  judged : Judged max s.log

variable {max : Int} {s t : Slot}

/-- Only between the two halves of an `Undo` can the counter in the table be 0. -/
theorem Inv.stored_pos (h : Inv max s) {n : Int} (hn : s.stored = some n)
    (hprogress : s.progress ≠ .undone n) : 1 ≤ n :=
  (h.stored n hn).2.resolve_right hprogress

theorem judged_hit {log : List Entry} {created : Bool} {n : Int} (h : Judged max log)
    (hn : ∀ exceeded, balance (.hit created exceeded :: log) = n) :
    Judged max (.hit created (decide (n > max)) :: log) := by
  refine ⟨?_, h⟩
  rw [hn, decide_eq_true_iff]

theorem step_inv (h : Inv max s) {a : Action} (hstep : step max s a = some t) : Inv max t := by
  obtain ⟨stored, progress, log⟩ := s
  have hpos : ∀ n, stored = some n → progress ≠ .undone n → 1 ≤ n := fun _ ↦ h.stored_pos
  obtain ⟨hstored, hfound, hmissing, hundoing, hundone, hjudged⟩ := h
  dsimp only at hstored hfound hmissing hundoing hundone hjudged
  cases a with
  | hit =>
      rw [step, Option.ite_none_right_eq_some] at hstep
      obtain ⟨hidle, hstep⟩ := hstep
      cases hstep
      dsimp only at hidle
      subst hidle
      refine ⟨fun n hn ↦ ?_, fun n hn ↦ ?_, fun hn ↦ ?_, nofun, nofun, hjudged⟩
      · exact ⟨(hstored n hn).1, .inl (hpos n hn nofun)⟩
      · exact (hstored n (Progress.hitting.inj hn)).1
      · exact Progress.hitting.inj hn
  | count =>
      cases progress with
      | hitting found =>
          cases found with
          | none =>
              cases hstep
              refine ⟨fun n hn ↦ ?_, nofun, nofun, nofun, nofun, ?_⟩
              · cases hn
                exact ⟨rfl, .inl le_rfl⟩
              · exact judged_hit hjudged fun _ ↦ rfl
          | some n =>
              cases hstep
              have hn := hfound n rfl
              refine ⟨fun m hm ↦ ?_, nofun, nofun, nofun, nofun, ?_⟩
              · obtain ⟨m', hm', rfl⟩ := Option.map_eq_some_iff.mp hm
                have hbalance := (hstored m' hm').1
                have hpos := hpos m' hm' nofun
                refine ⟨congrArg (· + 1) hn, .inl ?_⟩
                omega
              · exact judged_hit hjudged fun _ ↦ congrArg (· + 1) hn.symm
      | idle | undoing | undone => cases hstep
  | undo =>
      rw [step, Option.ite_none_right_eq_some] at hstep
      obtain ⟨hidle, hstep⟩ := hstep
      dsimp only at hidle
      subst hidle
      cases stored with
      | none =>
          cases hstep
          exact ⟨nofun, nofun, nofun, nofun, nofun, hjudged⟩
      | some n =>
          cases hstep
          have hn := (hstored n rfl).1
          have hpos := hpos n rfl nofun
          refine ⟨fun m hm ↦ ?_, nofun, nofun, fun m hm ↦ ?_, nofun, hjudged⟩
          · cases hm
            exact ⟨hn, .inl hpos⟩
          · cases hm
            exact ⟨hn, hpos⟩
  | decrement =>
      cases progress with
      | undoing n =>
          cases hstep
          obtain ⟨hn, hpos⟩ := hundoing n rfl
          refine ⟨fun m hm ↦ ?_, nofun, nofun, nofun, fun m hm ↦ ?_, congrArg (· - 1) hn, hjudged⟩
          · obtain ⟨-, -, rfl⟩ := Option.map_eq_some_iff.mp hm
            exact ⟨congrArg (· - 1) hn, .inr rfl⟩
          · cases hm
            refine ⟨congrArg (· - 1) hn, ?_⟩
            omega
      | idle | hitting | undone => cases hstep
  | release =>
      cases progress with
      | undone n =>
          cases hstep
          obtain ⟨hn, hpos⟩ := hundone n rfl
          refine ⟨fun m hm ↦ ?_, nofun, nofun, nofun, nofun, hjudged⟩
          dsimp only at hm
          split at hm
          next => cases hm
          next hne =>
            obtain ⟨hm, -⟩ := hstored m hm
            refine ⟨hm, .inl ?_⟩
            omega
      | idle | hitting | undoing => cases hstep
  | expire =>
      cases hstep
      exact ⟨nofun, hfound, fun _ ↦ rfl, hundoing, hundone, hjudged⟩

/-- A `Hit` and the `Undo` after it. -/
theorem hit_undo (h : Inv max s)
    (hrun : runSteps (step max) [.hit, .count, .undo, .decrement, .release] s = some t) :
    t.stored = s.stored := by
  have hidle : s.progress = .idle := by
    obtain ⟨u, hhit, -⟩ := Option.bind_eq_some_iff.mp hrun
    exact (Option.ite_none_right_eq_some.mp hhit).1
  obtain ⟨stored, progress, log⟩ := s
  dsimp only at hidle
  subst hidle
  cases stored with
  | none =>
      cases hrun
      rfl
  | some n =>
      have hpos := h.stored_pos rfl nofun
      cases hrun
      simp only [Option.map_some, add_sub_cancel_right]
      exact if_neg (by omega)

end Slot

/-! ## Counters are not shared -/

/-- The counter that the call has found. -/
def Phase.cntr : Phase → Option Ptr
  | .hitting cached => cached.join
  | .undoing cntr | .undone cntr => some cntr

namespace System

/-- The counter can be reached through the entry of the ip or by a call on it. -/
def Holds (s : System) (ip : GoString) (cntr : Ptr) : Prop :=
  s.recent ip = some (some cntr) ∨ ∃ phase, s.lock = some ⟨ip, phase⟩ ∧ phase.cntr = some cntr

structure Inv (s : System) : Prop where
  allocated : ∀ ip cntr, s.Holds ip cntr → cntr < s.fresh
  apart : ∀ ip ip' cntr, s.Holds ip cntr → s.Holds ip' cntr → ip = ip'
  same : ∀ ip cntr cntr', s.Holds ip cntr → s.Holds ip cntr' → cntr = cntr'
  notNil : ∀ ip, s.recent ip ≠ some none
  foundNotNil : ∀ ip, s.lock ≠ some ⟨ip, .hitting (some none)⟩

variable {s t : System} {e : Event} {ip : GoString} {cntr : Ptr}

/-- A step that makes no counter known under another ip keeps them apart. -/
theorem Inv.of_holds (h : s.Inv) (hholds : ∀ ip cntr, t.Holds ip cntr → s.Holds ip cntr)
    (hfresh : s.fresh ≤ t.fresh) (hnotNil : ∀ ip, t.recent ip ≠ some none)
    (hfound : ∀ ip, t.lock ≠ some ⟨ip, .hitting (some none)⟩) : t.Inv where
  allocated ip cntr hcntr := (h.allocated ip cntr (hholds ip cntr hcntr)).trans_le hfresh
  apart ip ip' cntr hcntr hcntr' := h.apart ip ip' cntr (hholds _ _ hcntr) (hholds _ _ hcntr')
  same ip cntr cntr' hcntr hcntr' := h.same ip cntr cntr' (hholds _ _ hcntr) (hholds _ _ hcntr')
  notNil := hnotNil
  foundNotNil := hfound

theorem recent_of_update_none {k : GoString} {d : Option Ptr}
    (h : Function.update s.recent k none ip = some d) : s.recent ip = some d := by
  by_cases hk : ip = k
  · subst hk
    rw [Function.update_self] at h
    cases h
  · rwa [Function.update_of_ne hk] at h

/-- What is known of the counters right after a new one is put in the table. -/
theorem holds_create {ip k : GoString} {c : Ptr} (hlock : t.lock = none)
    (hrecent : t.recent = Function.update s.recent ip (some (some s.fresh)))
    (h : t.Holds k c) : (k = ip ∧ c = s.fresh) ∨ (k ≠ ip ∧ s.Holds k c) := by
  rcases h with h | ⟨_, h, -⟩
  · rw [hrecent] at h
    by_cases hk : k = ip
    · subst hk
      rw [Function.update_self] at h
      cases h
      exact .inl ⟨rfl, rfl⟩
    · rw [Function.update_of_ne hk] at h
      exact .inr ⟨hk, .inl h⟩
  · rw [hlock] at h
    cases h

theorem inv_create {ip : GoString} (h : s.Inv) (hlock : t.lock = none)
    (hrecent : t.recent = Function.update s.recent ip (some (some s.fresh)))
    (hfresh : t.fresh = s.fresh + 1) : t.Inv := by
  have hnew : ∀ {k}, ¬ s.Holds k s.fresh := fun hc ↦ (h.allocated _ _ hc).ne rfl
  refine ⟨fun k c hc ↦ ?_, fun k k' c hc hc' ↦ ?_, fun k c c' hc hc' ↦ ?_, fun k hk ↦ ?_,
    fun k hk ↦ ?_⟩
  · rw [hfresh]
    rcases holds_create hlock hrecent hc with ⟨-, rfl⟩ | ⟨-, hc⟩
    · exact Nat.lt_succ_self _
    · exact (h.allocated k c hc).trans (Nat.lt_succ_self _)
  · rcases holds_create hlock hrecent hc with ⟨rfl, rfl⟩ | ⟨-, hc⟩ <;>
      rcases holds_create hlock hrecent hc' with ⟨rfl, hfresh'⟩ | ⟨-, hc'⟩
    · rfl
    · exact absurd hc' hnew
    · exact absurd (hfresh' ▸ hc) hnew
    · exact h.apart k k' c hc hc'
  · rcases holds_create hlock hrecent hc with ⟨rfl, rfl⟩ | ⟨hk, hc⟩ <;>
      rcases holds_create hlock hrecent hc' with ⟨hk', rfl⟩ | ⟨hk', hc'⟩
    · rfl
    · exact absurd rfl hk'
    · exact absurd hk' hk
    · exact h.same k c c' hc hc'
  · rw [hrecent] at hk
    by_cases hne : k = ip
    · subst hne
      rw [Function.update_self] at hk
      cases hk
    · rw [Function.update_of_ne hne] at hk
      exact h.notNil k hk
  · rw [hlock] at hk
    cases hk

theorem step_inv (h : s.Inv) (hstep : s.step e = some t) : t.Inv := by
  cases step_taken hstep with
  | hitNone | undoNone | undoMissing =>
      exact h.of_holds (fun _ _ hc ↦ hc) le_rfl h.notNil h.foundNotNil
  | @hit ip hip hlock =>
      refine h.of_holds (fun k c hc ↦ ?_) le_rfl h.notNil fun k hk ↦ ?_
      · rcases hc with hc | ⟨phase, hphase, hc⟩
        · exact .inl hc
        · cases hphase
          exact .inl (Option.join_eq_some_iff.mp hc)
      · simp only [Option.some.injEq, Call.mk.injEq, Phase.hitting.injEq] at hk
        exact h.notNil ip hk.2
  | count hlock =>
      refine h.of_holds (fun k c hc ↦ ?_) le_rfl h.notNil nofun
      rcases hc with hc | ⟨_, hphase, -⟩
      · exact .inl hc
      · cases hphase
  | create => exact inv_create h rfl rfl rfl
  | undo hip hlock hfound =>
      refine h.of_holds (fun k c hc ↦ ?_) le_rfl h.notNil nofun
      rcases hc with hc | ⟨phase, hphase, hc⟩
      · exact .inl hc
      · cases hphase
        cases hc
        exact .inl hfound
  | decrement hlock =>
      refine h.of_holds (fun k c hc ↦ ?_) le_rfl h.notNil nofun
      rcases hc with hc | ⟨phase, hphase, hc⟩
      · exact .inl hc
      · cases hphase
        exact .inr ⟨_, hlock, hc⟩
  | @release ip cntr hlock =>
      have hrecent : ∀ {k d}, (if s.heap cntr = 0 then Function.update s.recent ip none
          else s.recent) k = some d → s.recent k = some d := by
        intro k d hd
        split at hd
        · exact recent_of_update_none hd
        · exact hd
      refine h.of_holds (fun k c hc ↦ ?_) le_rfl (fun k hk ↦ h.notNil k (hrecent hk)) nofun
      rcases hc with hc | ⟨_, hphase, -⟩
      · exact .inl (hrecent hc)
      · cases hphase
  | expire =>
      refine h.of_holds (fun k c hc ↦ ?_) le_rfl
        (fun k hk ↦ h.notNil k (recent_of_update_none hk)) h.foundNotNil
      rcases hc with hc | hc
      · exact .inl (recent_of_update_none hc)
      · exact .inr hc

theorem init_inv (max : Int) : (init max).Inv := by
  have hnone : ∀ {ip cntr}, ¬ (init max).Holds ip cntr := by
    rintro ip cntr (h | ⟨_, h, -⟩) <;> cases h
  exact ⟨fun _ _ h ↦ absurd h hnone, fun _ _ _ h ↦ absurd h hnone, fun _ _ _ h ↦ absurd h hnone,
    nofun, nofun⟩

/-! ## The system seen from one ip -/

/-- Where the call on the ip is. -/
def phase (s : System) (ip : GoString) : Option Phase :=
  match s.lock with
  | some call => if call.ip = ip then some call.phase else none
  | none => none

def progress (s : System) (ip : GoString) : Progress :=
  match s.phase ip with
  | none => .idle
  | some (.hitting cached) => .hitting (cached.bind (·.map s.heap))
  | some (.undoing cntr) => .undoing (s.heap cntr)
  | some (.undone cntr) => .undone (s.heap cntr)

def slot (s : System) (ip : GoString) : Slot := ⟨s.counter ip, s.progress ip, s.log ip⟩

theorem phase_of_free (h : s.lock = none) : s.phase ip = none := by
  rw [phase, h]

theorem phase_of_held {p : Phase} (h : s.lock = some ⟨ip, p⟩) : s.phase ip = some p := by
  rw [phase, h]
  exact if_pos rfl

theorem phase_of_other {k : GoString} {p : Phase} (h : s.lock = some ⟨ip, p⟩) (hk : k ≠ ip) :
    s.phase k = none := by
  rw [phase, h]
  exact if_neg hk.symm

theorem lock_of_phase {p : Phase} (h : s.phase ip = some p) : s.lock = some ⟨ip, p⟩ := by
  rw [phase] at h
  split at h
  next call hlock =>
    obtain ⟨rfl, hcall⟩ := Option.ite_none_right_eq_some.mp h
    cases hcall
    exact hlock
  next => cases h

theorem progress_of_free (h : s.lock = none) : s.progress ip = .idle := by
  rw [progress, phase_of_free h]

theorem lock_of_undone {n : Int} (h : s.progress ip = .undone n) :
    ∃ c, s.lock = some ⟨ip, .undone c⟩ := by
  rw [progress] at h
  split at h
  next => cases h
  next => cases h
  next => cases h
  next c hphase => exact ⟨c, lock_of_phase hphase⟩

theorem slot_eq {stored : Option Int} {progress : Progress} {log : List Entry}
    (hstored : s.counter ip = stored) (hprogress : s.progress ip = progress)
    (hlog : s.log ip = log) : s.slot ip = ⟨stored, progress, log⟩ := by
  rw [slot, hstored, hprogress, hlog]

theorem counter_of_missing (h : (s.recent ip).join = none) : s.counter ip = none := by
  rw [counter]
  rcases hfound : s.recent ip with _ | _ | c
  · rfl
  · rfl
  · rw [hfound] at h
    cases h

theorem counter_of_found (h : s.recent ip = some (some cntr)) :
    s.counter ip = some (s.heap cntr) := by
  rw [counter, h]
  rfl

theorem counter_congr (hrecent : t.recent ip = s.recent ip)
    (hheap : ∀ c, s.Holds ip c → t.heap c = s.heap c) : t.counter ip = s.counter ip := by
  rw [counter, counter, hrecent]
  rcases h : s.recent ip with _ | _ | c
  · rfl
  · rfl
  · exact congrArg some (hheap c (.inl h))

/-- A step that touches no counter of the ip, nor a call on it. -/
theorem slot_congr (hrecent : t.recent ip = s.recent ip)
    (hheap : ∀ c, s.Holds ip c → t.heap c = s.heap c) (hphase : t.phase ip = s.phase ip)
    (hlog : t.log ip = s.log ip) : t.slot ip = s.slot ip := by
  have hprogress : t.progress ip = s.progress ip := by
    have hcall : ∀ p c, s.phase ip = some p → p.cntr = some c → t.heap c = s.heap c :=
      fun p c hp hc ↦ hheap c (.inr ⟨p, lock_of_phase hp, hc⟩)
    rw [progress, progress, hphase]
    rcases hp : s.phase ip with _ | ⟨_ | _ | c⟩ | c | c
    · rfl
    · rfl
    · rfl
    · exact congrArg (Progress.hitting ∘ some) (hcall _ c hp rfl)
    · exact congrArg Progress.undoing (hcall _ c hp rfl)
    · exact congrArg Progress.undone (hcall _ c hp rfl)
  rw [slot, slot, counter_congr hrecent hheap, hprogress, hlog]

/-- What the counter in the table is when a call has changed the one it holds. -/
theorem counter_write {n : Int} (h : s.Inv) (hholds : s.Holds ip cntr)
    (hrecent : t.recent ip = s.recent ip) (hheap : t.heap = Function.update s.heap cntr n) :
    t.counter ip = (s.counter ip).map fun _ ↦ n := by
  rw [counter, counter, hrecent, hheap]
  rcases hfound : s.recent ip with _ | _ | c
  · rfl
  · rfl
  · cases h.same ip cntr c hholds (.inl hfound)
    exact congrArg some (Function.update_self ..)

/-- The steps on the ip. -/
theorem step_slot {a : Action} (h : s.Inv) (hip : ip ≠ []) (hstep : s.step ⟨ip, a⟩ = some t) :
    Slot.step s.max (s.slot ip) a = some (t.slot ip) := by
  cases step_taken hstep with
  | hitNone | undoNone => exact absurd rfl hip
  | hit _ hlock =>
      rw [slot_eq rfl (progress_of_free hlock) rfl]
      refine congrArg some (Eq.symm (slot_eq rfl ?_ rfl))
      rw [progress, phase_of_held rfl]
      rfl
  | @count _ cntr hlock =>
      have hprogress : s.progress ip = .hitting (some (s.heap cntr)) := by
        rw [progress, phase_of_held hlock]
        rfl
      rw [slot_eq rfl hprogress rfl]
      refine congrArg some (Eq.symm (slot_eq ?_ (progress_of_free rfl) (Function.update_self ..)))
      exact counter_write h (.inr ⟨_, hlock, rfl⟩) rfl rfl
  | @create _ cached hlock hmissing =>
      have hnone : cached = none := by
        rcases cached with _ | _ | c
        · rfl
        · exact absurd hlock (h.foundNotNil ip)
        · cases hmissing
      have hprogress : s.progress ip = .hitting none := by
        rw [progress, phase_of_held hlock, hnone]
        rfl
      rw [slot_eq rfl hprogress rfl]
      refine congrArg some (Eq.symm (slot_eq ?_ (progress_of_free rfl) (Function.update_self ..)))
      rw [counter_of_found (Function.update_self ..)]
      exact congrArg some (Function.update_self ..)
  | undoMissing _ hlock hmissing =>
      rw [slot_eq (counter_of_missing hmissing) (progress_of_free hlock) rfl]
      rfl
  | @undo _ cntr _ hlock hfound =>
      rw [slot_eq (counter_of_found hfound) (progress_of_free hlock) rfl]
      refine congrArg some (Eq.symm (slot_eq (counter_of_found hfound) ?_ rfl))
      rw [progress, phase_of_held rfl]
  | @decrement _ cntr hlock =>
      have hprogress : s.progress ip = .undoing (s.heap cntr) := by
        rw [progress, phase_of_held hlock]
      rw [slot_eq rfl hprogress rfl]
      refine congrArg some (Eq.symm (slot_eq ?_ ?_ (Function.update_self ..)))
      · exact counter_write h (.inr ⟨_, hlock, rfl⟩) rfl rfl
      · rw [progress, phase_of_held rfl]
        exact congrArg Progress.undone (Function.update_self ..)
  | @release _ cntr hlock =>
      have hprogress : s.progress ip = .undone (s.heap cntr) := by
        rw [progress, phase_of_held hlock]
      rw [slot_eq rfl hprogress rfl]
      refine congrArg some (Eq.symm (slot_eq ?_ (progress_of_free rfl) rfl))
      split
      · exact counter_of_missing (congrArg Option.join (Function.update_self ip none s.recent))
      · rfl
  | expire =>
      refine congrArg some (Eq.symm (slot_eq ?_ ?_ rfl))
      · exact counter_of_missing (congrArg Option.join (Function.update_self ip none s.recent))
      · rfl

/-- The steps on another ip. -/
theorem step_slot_other (h : s.Inv) (hip : ip ≠ e.ip) (hstep : s.step e = some t) :
    t.slot ip = s.slot ip := by
  -- a counter of another ip is not one of this ip
  have hother : ∀ {c}, s.Holds ip c → ∀ {cntr n}, s.Holds e.ip cntr →
      Function.update s.heap cntr n c = s.heap c := by
    intro c hc cntr n hcntr
    refine Function.update_of_ne ?_ ..
    rintro rfl
    exact hip (h.apart _ _ _ hc hcntr)
  cases step_taken hstep with
  | hitNone => exact slot_congr rfl (fun _ _ ↦ rfl) rfl (Function.update_of_ne hip ..)
  | undoNone | undoMissing => rfl
  | hit _ hlock | undo _ hlock =>
      exact slot_congr rfl (fun _ _ ↦ rfl)
        ((phase_of_other rfl hip).trans (phase_of_free hlock).symm) rfl
  | count hlock =>
      refine slot_congr rfl (fun c hc ↦ hother hc (.inr ⟨_, hlock, rfl⟩))
        ((phase_of_free rfl).trans (phase_of_other hlock hip).symm) (Function.update_of_ne hip ..)
  | create hlock =>
      refine slot_congr (Function.update_of_ne hip ..) (fun c hc ↦ ?_)
        ((phase_of_free rfl).trans (phase_of_other hlock hip).symm) (Function.update_of_ne hip ..)
      exact Function.update_of_ne (h.allocated _ _ hc).ne ..
  | decrement hlock =>
      exact slot_congr rfl (fun c hc ↦ hother hc (.inr ⟨_, hlock, rfl⟩))
        ((phase_of_other rfl hip).trans (phase_of_other hlock hip).symm)
        (Function.update_of_ne hip ..)
  | release hlock =>
      refine slot_congr ?_ (fun _ _ ↦ rfl)
        ((phase_of_free rfl).trans (phase_of_other hlock hip).symm) rfl
      dsimp only
      split
      · exact Function.update_of_ne hip ..
      · rfl
  | expire => exact slot_congr (Function.update_of_ne hip ..) (fun _ _ ↦ rfl) rfl rfl

theorem step_max (hstep : s.step e = some t) : t.max = s.max := by
  cases step_taken hstep <;> rfl

/-- A run of the system, seen from one ip. -/
theorem run_slot {es : List Event} (h : s.Inv) (hip : ip ≠ [])
    (hrun : runSteps step es s = some t) :
    runSteps (Slot.step s.max) (actionsOn ip es) (s.slot ip) = some (t.slot ip) := by
  induction es generalizing s with
  | nil =>
      cases hrun
      rfl
  | cons e es ih =>
      obtain ⟨u, hu, hrest⟩ := Option.bind_eq_some_iff.mp hrun
      have hslots := ih (step_inv h hu) hrest
      rw [step_max hu] at hslots
      by_cases he : e.ip = ip
      · obtain ⟨k, a⟩ := e
        dsimp only at he
        subst he
        rw [actionsOn, List.filter_cons_of_pos (by simp), List.map_cons, runSteps,
          step_slot h hip hu]
        exact hslots
      · rw [actionsOn, List.filter_cons_of_neg (by simpa using he),
          ← step_slot_other h (Ne.symm he) hu]
        exact hslots

/-- The empty ip is refused before the table is looked at. -/
structure Guarded (s : System) : Prop where
  recent : s.recent [] = none
  lock : ∀ phase, s.lock ≠ some ⟨[], phase⟩
  log : ∀ entry ∈ s.log [], entry = .hit false false

theorem step_guarded (h : s.Guarded) (hstep : s.step e = some t) : t.Guarded := by
  -- a call that holds the lock is on another ip
  have hother : ∀ {ip p}, s.lock = some ⟨ip, p⟩ → [] ≠ ip := by
    rintro ip p hlock rfl
    exact h.lock p hlock
  have hkeep : ∀ {ip entry}, [] ≠ ip → ∀ x ∈ s.record ip entry [], x = .hit false false := by
    intro ip entry hip x hx
    rw [record, Function.update_of_ne hip] at hx
    exact h.log x hx
  cases step_taken hstep with
  | hitNone =>
      refine ⟨h.recent, h.lock, fun x hx ↦ ?_⟩
      dsimp only [record] at hx
      rw [Function.update_self, List.mem_cons] at hx
      exact hx.elim id (h.log x)
  | undoNone | undoMissing => exact h
  | hit hip | undo hip =>
      refine ⟨h.recent, fun p hp ↦ ?_, h.log⟩
      cases hp
      exact hip rfl
  | count hlock => exact ⟨h.recent, nofun, hkeep (hother hlock)⟩
  | create hlock =>
      exact ⟨(Function.update_of_ne (hother hlock) ..).trans h.recent, nofun, hkeep (hother hlock)⟩
  | decrement hlock =>
      refine ⟨h.recent, fun p hp ↦ ?_, hkeep (hother hlock)⟩
      cases hp
      exact hother hlock rfl
  | release hlock =>
      refine ⟨?_, nofun, h.log⟩
      dsimp only
      split
      · exact (Function.update_of_ne (hother hlock) ..).trans h.recent
      · exact h.recent
  | @expire ip =>
      refine ⟨Option.eq_none_iff_forall_ne_some.mpr fun d hd ↦ ?_, h.lock, h.log⟩
      exact nomatch h.recent.symm.trans (recent_of_update_none hd)

variable {max : Int}

theorem inv_of_reachable (hs : Reachable step (init max) s) : s.Inv :=
  hs.invariant (fun _ _ _ h hstep ↦ step_inv h hstep) (init_inv max)

theorem max_of_reachable (hs : Reachable step (init max) s) : s.max = max :=
  @Reachable.invariant _ _ step (fun u ↦ u.max = max) _ s
    (fun _ _ _ h hstep ↦ (step_max hstep).trans h) rfl hs

theorem guarded_of_reachable (hs : Reachable step (init max) s) : s.Guarded := by
  have hinit : (init max).Guarded := ⟨rfl, (fun _ h ↦ nomatch h), (fun _ h ↦ nomatch h)⟩
  exact hs.invariant (fun _ _ _ h hstep ↦ step_guarded h hstep) hinit

theorem slot_inv_of_reachable (hs : Reachable step (init max) s) (hip : ip ≠ []) :
    Slot.Inv max (s.slot ip) := by
  obtain ⟨es, hrun⟩ := hs
  have hinit : Slot.Inv max ((init max).slot ip) := ⟨nofun, nofun, nofun, nofun, nofun, trivial⟩
  exact runSteps_invariant (fun _ _ _ h hstep ↦ Slot.step_inv h hstep) _ hinit
    (run_slot (init_inv max) hip hrun)

end System

/-- What is in the table counts the calls: a counter is positive but for the one an `Undo` is about
to delete, the calls on an ip other than `""` answer by its balance, and an `Undo` right after a
`Hit` takes the `Hit` back.  `Hit("")` is not counted and returns false. -/
theorem hits_counted {max : Int} {s : System} (hs : Reachable System.step (.init max) s) :
    (∀ ip d, s.recent ip = some d →
      ∃ cntr, d = some cntr ∧ (1 ≤ s.heap cntr ∨ s.lock = some ⟨ip, .undone cntr⟩)) ∧
    (∀ ip, ip ≠ [] → Judged max (s.log ip)) ∧
    (s.recent [] = none ∧ ∀ entry ∈ s.log [], entry = .hit false false) ∧
    ∀ ip, ip ≠ [] → ∀ es t, actionsOn ip es = [.hit, .count, .undo, .decrement, .release] →
      runSteps System.step es s = some t → t.counter ip = s.counter ip := by
  have hinv := System.inv_of_reachable hs
  have hguarded := System.guarded_of_reachable hs
  refine ⟨fun ip d hd ↦ ?_, fun ip hip ↦ (System.slot_inv_of_reachable hs hip).judged,
    ⟨hguarded.recent, hguarded.log⟩, fun ip hip es t hes hrun ↦ ?_⟩
  · have hip : ip ≠ [] := by
      rintro rfl
      exact nomatch hguarded.recent.symm.trans hd
    cases d with
    | none => exact absurd hd (hinv.notNil ip)
    | some cntr =>
        have hslot := System.slot_inv_of_reachable hs hip
        refine ⟨cntr, rfl, ?_⟩
        obtain ⟨-, hpos | hundone⟩ := hslot.stored _ (System.counter_of_found hd)
        · exact .inl hpos
        · obtain ⟨c, hlock⟩ := System.lock_of_undone hundone
          cases hinv.same ip cntr c (.inl hd) (.inr ⟨_, hlock, rfl⟩)
          exact .inr hlock
  · have hslots := System.run_slot hinv hip hrun
    rw [hes, System.max_of_reachable hs] at hslots
    exact Slot.hit_undo (System.slot_inv_of_reachable hs hip) hslots

/-- After a `Hit`, another client's `Hit` between the steps of a second one and its `Undo`. -/
theorem hits_counted_two_clients :
    ∃ s t, runSteps System.step [⟨[1], .hit⟩, ⟨[1], .count⟩] (.init 1) = some s ∧
      runSteps System.step [⟨[1], .hit⟩, ⟨[1], .count⟩, ⟨[2], .hit⟩, ⟨[2], .count⟩, ⟨[1], .undo⟩,
        ⟨[1], .decrement⟩, ⟨[1], .release⟩] s = some t ∧
      s.counter [1] = some 1 ∧ t.counter [1] = s.counter [1] ∧
      t.log [1] = [.undo 1, .hit false true, .hit true false] := by
  refine ⟨_, _, rfl, rfl, rfl, ?_, rfl⟩
  refine (hits_counted ⟨[⟨[1], .hit⟩, ⟨[1], .count⟩], rfl⟩).2.2.2 [1] (by decide)
    [⟨[1], .hit⟩, ⟨[1], .count⟩, ⟨[2], .hit⟩, ⟨[2], .count⟩, ⟨[1], .undo⟩, ⟨[1], .decrement⟩,
      ⟨[1], .release⟩] _ (by decide) rfl

/-- `Hit("")` with nothing allowed: one hit is more than `max`, and the answer is false. -/
theorem hit_empty_not_counted :
    ∃ t, runSteps System.step [⟨[], .hit⟩] (.init 0) = some t ∧ t.log [] = [.hit false false] ∧
      ¬ Judged 0 (t.log []) := by
  refine ⟨_, rfl, rfl, ?_⟩
  rintro ⟨h, -⟩
  exact absurd (h.mpr (by decide)) (by decide)

end CommonLib.XLimits.Recent
